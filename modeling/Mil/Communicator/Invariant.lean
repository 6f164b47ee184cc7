import Mil.Communicator.Assembly
import Mil.Communicator.Queue

/-!
# The invariant

`Sys.Ok` puts the pieces together: the pool of every model after what it has added, what every
model has assembled after what it has received, and its queue after what it has returned. Every
step keeps it (`Ok.step`), so it holds after every run from an initial state (`Ok.run`), whatever
the counters were started at.
-/

set_option autoImplicit false

namespace Mil.Communicator

open Mil.Lib Relation

variable {α : Type} [Content α] {cfg : Config α} {w : Workload cfg}

/-- The locals of the call of `m` under way; a call about to start has empty ones. -/
def Sys.accOf (s : Sys α) (m : ModelId) : Acc α := ((s.fetching m).map Fetch.acc).getD Acc.empty

omit [Content α] in
theorem Sys.accOf_of_some {s : Sys α} {m : ModelId} {f : Fetch α}
    (hf : s.fetching m = some f) : s.accOf m = f.acc := by simp [Sys.accOf, hf]

/-- A call under way reads sources of its model, for a worker of the current round. -/
structure FetchOk (cfg : Config α) (m : ModelId) (dpSize : Nat) (f : Fetch α) : Prop where
  todo : ∀ e ∈ f.todo, (cfg.inEdgeDictWithDummyInpNodes m)[e.2]? = some e.1
  dpId_lt : f.dpId < dpSize
  dpSize_eq : f.dpSize = dpSize

structure Sys.Ok (cfg : Config α) (w : Workload cfg) (s : Sys α) : Prop where
  added_nodup : ∀ u, ((s.added u).map Prod.fst).Nodup
  added_mem : ∀ u, ∀ r ∈ s.added u, r.1 ∈ w.rawOutIds u
  pool : ∀ u, PoolOk cfg u (s.st.metaOutputPool u) (s.added u) (s.st.outputPool u)
  read_le : ∀ src m, s.st.readOutputNums src m ≤ (s.st.outputPool src).length
  asm : ∀ m, AsmOk cfg m (received cfg s.st m) (s.st.availableSrcs m) (s.assembled m) (s.accOf m)
  queue : ∀ m, StateQueueOk m (s.dpSize m) (s.assembled m) (s.returnedReqs m) s.st
  fetch : ∀ m f, s.fetching m = some f → FetchOk cfg m (s.dpSize m) f

theorem Sys.Ok.init (u₀ g₀ : ModelId → Int) : (Sys.init cfg u₀ g₀).Ok cfg w where
  added_nodup _ := List.nodup_nil
  added_mem _ r hr := absurd hr List.not_mem_nil
  pool _ := PoolOk.init
  read_le _ _ := Nat.zero_le _
  asm m := by
    have hrecv : received cfg (Sys.init cfg u₀ g₀).st m = fun _ => [] := by
      funext src
      simp [received, Sys.init, State.init, selectOutputs_eq]
    rw [hrecv]
    exact AsmOk.init
  queue _ := QueueOk.init
  fetch _ _ hf := by cases hf

namespace Sys.Ok

variable {s : Sys α}

theorem pool_nodup (h : s.Ok cfg w) (u : ModelId) :
    ((s.st.outputPool u).map Prod.fst).Nodup := (h.pool u).nodup (h.added_nodup u)

/-- What has been received stays the same when the pools grow. -/
theorem received_grown (h : s.Ok cfg w) (st : State α)
    (hread : st.readOutputNums = s.st.readOutputNums)
    (hpool : ∀ src, s.st.outputPool src <+: st.outputPool src) (m : ModelId) :
    received cfg st m = received cfg s.st m := by
  funext src
  obtain ⟨more, hmore⟩ := hpool src
  unfold received
  rw [hread, ← hmore, List.take_append_of_le_length (h.read_le src m)]

/-! ## One step -/

theorem addExtend (h : s.Ok cfg w) {u : ModelId} {seqs : List (Req α)} {st : State α} {n : Nat}
    (may : s.MayAdd w u seqs) (run : extendOutputPool cfg u s.st seqs = some (st, n)) :
    Sys.Ok cfg w { s with
      st := st
      adding := Function.update s.adding u (some n)
      added := Function.update s.added u (s.added u ++ seqs) } := by
  obtain ⟨hnodup, hmay⟩ := may
  have hmem : ∀ r ∈ s.added u ++ seqs, r.1 ∈ w.rawOutIds u := fun r hr =>
    (List.mem_append.mp hr).elim (h.added_mem u r) fun hr => (hmay r hr).1
  have hpool := (h.pool u).extend hnodup (fun r hr => (hmay r hr).2)
    (fun r hr r' hr' => w.merge_inj u _ (hmem r hr) _ (hmem r' hr')) run
  obtain ⟨metaPool, toAdd, -, rfl⟩ := extendOutputPool_frame run
  have hgrow : ∀ src, s.st.outputPool src <+:
      Function.update s.st.outputPool u (s.st.outputPool u ++ toAdd) src := by
    intro src
    by_cases hsrc : src = u
    · subst hsrc
      rw [Function.update_self]
      exact List.prefix_append _ _
    · rw [Function.update_of_ne hsrc]
  refine ⟨fun v => ?_, fun v => ?_, fun v => ?_, fun src m => ?_, fun m => ?_, h.queue, h.fetch⟩
  · by_cases hv : v = u
    · subst hv
      simp only [Function.update_self, List.map_append]
      refine List.nodup_append'.mpr ⟨h.added_nodup v, hnodup, ?_⟩
      intro id hid hid'
      obtain ⟨r, hr, rfl⟩ := List.mem_map.mp hid'
      exact (hmay r hr).2 hid
    · simp only [Function.update_of_ne hv]
      exact h.added_nodup v
  · by_cases hv : v = u
    · subst hv
      simp only [Function.update_self]
      exact hmem
    · simp only [Function.update_of_ne hv]
      exact h.added_mem v
  · by_cases hv : v = u
    · subst hv
      simp only [Function.update_self] at hpool ⊢
      exact hpool
    · simp only [Function.update_of_ne hv]
      exact h.pool v
  · exact (h.read_le src m).trans (hgrow src).length_le
  · have hrecv := h.received_grown { s.st with
      metaOutputPool := Function.update s.st.metaOutputPool u metaPool
      outputPool := Function.update s.st.outputPool u (s.st.outputPool u ++ toAdd) } rfl hgrow m
    simp only [hrecv]
    exact h.asm m

theorem addDec (h : s.Ok cfg w) (u : ModelId) (n : Nat) :
    Sys.Ok cfg w { s with
      st := decUngened u n s.st
      adding := Function.update s.adding u none } :=
  ⟨h.added_nodup, h.added_mem, h.pool, h.read_le, h.asm, h.queue, h.fetch⟩

/-- A call moves on without touching the communicator or its own locals. -/
theorem setFetch (h : s.Ok cfg w) {m : ModelId} {f : Fetch α} (hacc : f.acc = s.accOf m)
    (hf : FetchOk cfg m (s.dpSize m) f) :
    Sys.Ok cfg w { s with fetching := Function.update s.fetching m (some f) } := by
  refine ⟨h.added_nodup, h.added_mem, h.pool, h.read_le, fun m' => ?_, h.queue, fun m' f' hf' => ?_⟩
  · have hsame : Sys.accOf { s with fetching := Function.update s.fetching m (some f) } m' =
        s.accOf m' := by
      by_cases hm : m' = m
      · subst hm
        rw [← hacc]
        simp [Sys.accOf]
      · simp [Sys.accOf, Function.update_of_ne hm]
    rw [hsame]
    exact h.asm m'
  · by_cases hm : m' = m
    · subst hm
      simp only [Function.update_self, Option.some.injEq] at hf'
      exact hf' ▸ hf
    · simp only [Function.update_of_ne hm] at hf'
      exact h.fetch m' f' hf'

theorem fetchBegin (h : s.Ok cfg w) {m : ModelId} {sharedId : SharedId} {dpId : Nat}
    (idle : s.fetching m = none) (dp : dpId < s.dpSize m) :
    Sys.Ok cfg w { s with
      fetching := Function.update s.fetching m
        (some ⟨sharedId, dpId, s.dpSize m, sourcesToRead cfg m s.st, none, Acc.empty⟩) } := by
  refine h.setFetch (by simp [Sys.accOf, idle]) ⟨fun e he => ?_, dp, rfl⟩
  unfold sourcesToRead at he
  split at he
  · cases he
  · exact List.mem_zipIdx_iff_getElem?.mp he

theorem fetchRead (h : s.Ok cfg w) {m src : ModelId} {i : Nat} {rest : List (ModelId × Nat)}
    {f : Fetch α} (fetch : s.fetching m = some f) (todo : f.todo = (src, i) :: rest) :
    Sys.Ok cfg w { s with
      st := (readSource cfg m i src (s.st, f.acc)).1
      fetching := Function.update s.fetching m (some { f with
        todo := rest
        lockHeld := none
        acc := (readSource cfg m i src (s.st, f.acc)).2 }) } := by
  have hf := h.fetch m f fetch
  have hi := hf.todo (src, i) (by rw [todo]; exact List.mem_cons_self)
  have hasm := h.asm m
  rw [Sys.accOf_of_some fetch] at hasm
  have hread := hasm.readSource hi (h.pool_nodup src)
  obtain ⟨slots, hframe⟩ := readSource_frame cfg m src i s.st f.acc
  refine ⟨h.added_nodup, h.added_mem, fun u => ?_, fun src' m' => ?_, fun m' => ?_, fun m' => ?_,
    fun m' f' hf' => ?_⟩
  · rw [hframe]
    exact h.pool u
  · rw [hframe]
    simp only [getSelectedOutputs]
    by_cases hs : src' = src
    · subst hs
      rw [Function.update_self]
      by_cases hm : m' = m
      · subst hm; rw [Function.update_self]
      · rw [Function.update_of_ne hm]; exact h.read_le src' m'
    · rw [Function.update_of_ne hs]
      exact h.read_le src' m'
  -- only `m` gets the outputs; the others keep theirs and their numbers of reads
  · by_cases hm : m' = m
    · subst hm
      simpa [Sys.accOf] using hread
    · have hacc : Sys.accOf { s with
          st := (readSource cfg m i src (s.st, f.acc)).1
          fetching := Function.update s.fetching m (some { f with
            todo := rest
            lockHeld := none
            acc := (readSource cfg m i src (s.st, f.acc)).2 }) } m' = s.accOf m' := by
        simp [Sys.accOf, Function.update_of_ne hm]
      rw [hacc]
      have hrecv : received cfg (readSource cfg m i src (s.st, f.acc)).1 m' =
          received cfg s.st m' := by
        rw [← received_getSelectedOutputs_of_ne cfg src hm s.st, hframe]
        rfl
      have hslots : (readSource cfg m i src (s.st, f.acc)).1.availableSrcs m' =
          s.st.availableSrcs m' := by
        rw [hframe]
        exact Function.update_of_ne hm ..
      simp only [hrecv, hslots]
      exact h.asm m'
  · rw [hframe]
    exact h.queue m'
  · by_cases hm : m' = m
    · subst hm
      simp only [Function.update_self, Option.some.injEq] at hf'
      subst hf'
      refine ⟨fun e he => hf.todo e ?_, hf.dpId_lt, hf.dpSize_eq⟩
      rw [todo]
      exact List.mem_cons_of_mem _ he
    · simp only [Function.update_of_ne hm] at hf'
      exact h.fetch m' f' hf'

theorem fetchEnd (h : s.Ok cfg w) {m : ModelId} {f : Fetch α} {reqs ret : List (Req α)}
    {st : State α} {possible : Bool} (fetch : s.fetching m = some f)
    (fused : fusedReqs cfg m s.st f.acc = some reqs)
    (run : handOut cfg f.sharedId m f.dpId f.dpSize (appendFused m s.st reqs) =
      some (st, ret, possible)) :
    Sys.Ok cfg w { s.record m f.dpId ⟨reqs, ret, possible⟩ with
      st := st
      fetching := Function.update s.fetching m none } := by
  have hf := h.fetch m f fetch
  have hpos : 0 < s.dpSize m := Nat.zero_lt_of_lt hf.dpId_lt
  rw [hf.dpSize_eq] at run
  have hasm := h.asm m
  rw [Sys.accOf_of_some fetch] at hasm
  have hfused := hasm.fused fused
  have hqueue := ((h.queue m).appendFused hpos reqs).handOut hpos run
  obtain ⟨q, starts, owners, rfl⟩ := handOut_frame run
  refine ⟨h.added_nodup, h.added_mem, h.pool, h.read_le, fun m' => ?_, fun m' => ?_,
    fun m' f' hf' => ?_⟩
  · by_cases hm : m' = m
    · subst hm
      simp only [Sys.accOf, Sys.record, Function.update_self, Option.map_none, Option.getD_none]
      exact hfused
    · simp only [Sys.accOf, Sys.record, Function.update_of_ne hm]
      exact h.asm m'
  · by_cases hm : m' = m
    · subst hm
      simpa [StateQueueOk, Sys.record, Sys.returnedReqs, Function.comp_def] using hqueue
    · simpa [StateQueueOk, Sys.record, Sys.returnedReqs, appendFused, Function.update_of_ne hm]
        using h.queue m'
  · by_cases hm : m' = m
    · subst hm; simp at hf'
    · simp only [Function.update_of_ne hm] at hf'
      exact h.fetch m' f' hf'

theorem reset (h : s.Ok cfg w) {m : ModelId} {d : Nat}
    (same : ∀ f, s.fetching m = some f → f.dpSize = d) (pos : 0 < d) :
    Sys.Ok cfg w { s with
      st := resetStateForBaseModel m d s.st
      dpSize := Function.update s.dpSize m d } := by
  refine ⟨h.added_nodup, h.added_mem, h.pool, h.read_le, h.asm, fun m' => ?_, fun m' f' hf' => ?_⟩
  · by_cases hm : m' = m
    · subst hm
      simp only [Function.update_self]
      exact (h.queue m').reset pos
    · simp only [StateQueueOk, resetStateForBaseModel, Function.update_of_ne hm]
      exact h.queue m'
  · have hf := h.fetch m' f' hf'
    by_cases hm : m' = m
    · subst hm
      have hd : s.dpSize m' = d := hf.dpSize_eq.symm.trans (same f' hf')
      simpa [hd] using hf
    · simpa [Function.update_of_ne hm] using hf

theorem step {s' : Sys α} (h : s.Ok cfg w) (hstep : Step cfg w s s') : s'.Ok cfg w := by
  cases hstep with
  | addExtend _ may run => exact h.addExtend may run
  | addDec _ => exact h.addDec _ _
  | fetchBegin idle dp => exact h.fetchBegin idle dp
  | fetchLock fetch _ _ =>
    have hf := h.fetch _ _ fetch
    exact h.setFetch (Sys.accOf_of_some fetch).symm ⟨hf.todo, hf.dpId_lt, hf.dpSize_eq⟩
  | fetchRead fetch todo _ _ => exact h.fetchRead fetch todo
  | fetchEnd fetch _ fused run => exact h.fetchEnd fetch fused run
  | reset same pos => exact h.reset same pos

/-- The invariant holds in every state a run reaches. -/
theorem run {s' : Sys α} (h : s.Ok cfg w) (hrun : ReflTransGen (Step cfg w) s s') :
    s'.Ok cfg w := by
  induction hrun with
  | refl => exact h
  | tail _ hstep ih => exact ih.step hstep

end Sys.Ok

end Mil.Communicator
