import Mathlib.Data.Finset.Card
import Mil.Communicator.Order

/-!
# The end-of-input signal

Two counters stand for facts about the pools: `_unavailable_req_nums[m]` for the requests of `m`
still to be assembled, `_ungened_out_req_nums[u]` for the outputs `u` still owes. Both are
updated after what they count, so a call in between sees them too large, never too small; that
is why a zero can be trusted (`CountOk`). A zero of the first, seen with an empty queue, ends the
model's input for good. A zero of the second lets readers skip the lock: the pool has nothing
more to come.
-/

set_option autoImplicit false

namespace Mil.Communicator

open Mil.Lib Relation

variable {α : Type} [Content α] {cfg : Config α} {w : Workload cfg}

/-- The communicator as `init_unavailable_req_nums_and_ungened_out_req_nums` leaves it: every
model has its input requests before it and owes its outputs. -/
def Sys.start (cfg : Config α) (w : Workload cfg) : Sys α :=
  Sys.init cfg (fun m => (w.inputReqs m).card) fun u => (w.outIds u).card

/-- Outputs `u` has put into its pool without counting them off yet. -/
def Sys.uncounted (s : Sys α) (u : ModelId) : Nat := (s.adding u).getD 0

structure CountOk (cfg : Config α) (w : Workload cfg) (s : Sys α) : Prop where
  unavailable : ∀ m, s.st.unavailableReqNums m = (w.inputReqs m).card - (s.assembled m).length
  ungened : ∀ u, s.st.ungenedOutReqNums u =
    (w.outIds u).card - (s.st.outputPool u).length + s.uncounted u
  unlocked : ∀ m f src i rest, s.fetching m = some f → f.todo = (src, i) :: rest →
    f.lockHeld = some .dummyLock → 0 ≤ src → (s.st.outputPool src).length = (w.outIds src).card
  signal : ∀ m, s.signalled m = true → (s.returned m).length = (w.inputReqs m).card

omit [Content α] in
theorem inputReqs_mono {raw raw' : ModelId → List ReqId} (h : ∀ u, raw u ⊆ raw' u)
    (m : ModelId) : inputReqs cfg raw m ⊆ inputReqs cfg raw' m := by
  have hfed : ∀ src, ((pooledIds cfg src (raw src)).biUnion fun out =>
        (inputsOf cfg src m out).toFinset) ⊆
      (pooledIds cfg src (raw' src)).biUnion fun out => (inputsOf cfg src m out).toFinset :=
    fun src => Finset.biUnion_subset_biUnion_of_subset_left _ (pooledIds_mono (h src))
  unfold inputReqs
  cases oneSrc cfg m with
  | true => exact Finset.biUnion_mono fun src _ => hfed src
  | false =>
    simp only [Bool.false_eq_true, if_false]
    split
    · exact subset_rfl
    · intro id hid
      rw [Finset.mem_filter] at hid ⊢
      exact ⟨hfed _ hid.1, fun src hsrc => hfed src (hid.2 src hsrc)⟩

namespace Sys.Ok

variable {s s' : Sys α}

theorem assembled_subset (h : s.Ok cfg w) (m : ModelId) :
    ((s.assembled m).map Prod.fst).toFinset ⊆ w.inputReqs m := by
  intro id hid
  obtain ⟨⟨_, c⟩, hr, rfl⟩ := List.mem_map.mp (List.mem_toFinset.mp hid)
  exact inputReqs_mono h.added_subset m (h.mem_inputReqs_of_assembled hr)

theorem card_assembled (h : s.Ok cfg w) (m : ModelId) :
    ((s.assembled m).map Prod.fst).toFinset.card = (s.assembled m).length := by
  rw [List.toFinset_card_of_nodup (h.assembled_nodup m), List.length_map]

theorem assembled_length_le (h : s.Ok cfg w) (m : ModelId) :
    (s.assembled m).length ≤ (w.inputReqs m).card := by
  rw [← h.card_assembled m]
  exact Finset.card_le_card (h.assembled_subset m)

theorem pool_subset (h : s.Ok cfg w) (u : ModelId) :
    ((s.st.outputPool u).map Prod.fst).toFinset ⊆ w.outIds u := by
  intro id hid
  exact pooledIds_mono (h.added_subset u) (((h.pool u).mem_ids id).mp (List.mem_toFinset.mp hid))

theorem card_pool (h : s.Ok cfg w) (u : ModelId) :
    ((s.st.outputPool u).map Prod.fst).toFinset.card = (s.st.outputPool u).length := by
  rw [List.toFinset_card_of_nodup (h.pool_nodup u), List.length_map]

theorem pool_length_le (h : s.Ok cfg w) (u : ModelId) :
    (s.st.outputPool u).length ≤ (w.outIds u).card := by
  rw [← h.card_pool u]
  exact Finset.card_le_card (h.pool_subset u)

theorem returned_length_le (h : s.Ok cfg w) (m : ModelId) :
    (s.returned m).length ≤ (s.assembled m).length := by
  have hlen := (h.delivered_perm m).length_eq
  rw [List.length_append, Sys.returnedReqs, List.length_map] at hlen
  omega

/-- A pool as large as it can get holds every output. -/
theorem pool_complete (h : s.Ok cfg w) {u : ModelId}
    (hlen : (s.st.outputPool u).length = (w.outIds u).card) :
    ((s.st.outputPool u).map Prod.fst).toFinset = w.outIds u :=
  Finset.eq_of_subset_of_card_le (h.pool_subset u) (by rw [h.card_pool u, hlen])

end Sys.Ok

/-! ## One step -/

namespace CountOk

variable {s s' : Sys α}

omit [Content α] in
theorem start : CountOk cfg w (Sys.start cfg w) where
  unavailable m := by simp [Sys.start, Sys.init, State.init]
  ungened u := by simp [Sys.start, Sys.init, State.init, Sys.uncounted]
  unlocked _ _ _ _ _ hf := by cases hf
  signal _ hs := by cases hs

theorem addExtend (h : CountOk cfg w s) (hok : s.Ok cfg w) {u : ModelId} {seqs : List (Req α)}
    {st : State α} {n : Nat} (idle : s.adding u = none) (may : s.MayAdd w u seqs)
    (run : extendOutputPool cfg u s.st seqs = some (st, n)) :
    CountOk cfg w { s with
      st := st
      adding := Function.update s.adding u (some n)
      added := Function.update s.added u (s.added u ++ seqs) } := by
  have hle := (hok.addExtend may run).pool_length_le u
  obtain ⟨metaPool, toAdd, rfl, rfl⟩ := extendOutputPool_frame run
  simp only [Function.update_self, List.length_append] at hle
  refine ⟨h.unavailable, fun v => ?_, fun m f src i rest hf htodo hlock hsrc => ?_, h.signal⟩
  · have hv := h.ungened v
    unfold Sys.uncounted at hv ⊢
    by_cases hvu : v = u
    · subst hvu
      rw [idle] at hv
      simp only [Function.update_self, List.length_append, Option.getD_some, Option.getD_none]
        at hv ⊢
      omega
    · simpa only [Function.update_of_ne hvu] using hv
  · have hold := h.unlocked m f src i rest hf htodo hlock hsrc
    by_cases hsu : src = u
    · subst hsu
      simp only [Function.update_self, List.length_append]
      omega
    · simpa only [Function.update_of_ne hsu] using hold

omit [Content α] in
theorem addDec (h : CountOk cfg w s) {u : ModelId} {n : Nat} (adding : s.adding u = some n) :
    CountOk cfg w { s with
      st := decUngened u n s.st
      adding := Function.update s.adding u none } := by
  refine ⟨h.unavailable, fun v => ?_, h.unlocked, h.signal⟩
  have hv := h.ungened v
  unfold Sys.uncounted decUngened at *
  by_cases hvu : v = u
  · subst hvu
    simp only [Function.update_self, adding, Option.getD_some, Option.getD_none] at hv ⊢
    omega
  · simpa only [Function.update_of_ne hvu] using hv

omit [Content α] in
/-- Only the call of `m` moves on, and it does not hold a `DummyLock` for `todo`. -/
theorem setFetch (h : CountOk cfg w s) {m : ModelId} {f : Option (Fetch α)}
    (hf : ∀ g src i rest, f = some g → g.todo = (src, i) :: rest → g.lockHeld = some .dummyLock →
      0 ≤ src → (s.st.outputPool src).length = (w.outIds src).card) :
    CountOk cfg w { s with fetching := Function.update s.fetching m f } := by
  refine ⟨h.unavailable, h.ungened, fun m' g src i rest hg => ?_, h.signal⟩
  by_cases hm : m' = m
  · subst hm
    simp only [Function.update_self] at hg
    exact hf g src i rest hg
  · simp only [Function.update_of_ne hm] at hg
    exact h.unlocked m' g src i rest hg

/-- A counter at zero: the pool is complete, though the add that completed it may still be on
its way out. -/
theorem fetchLock (h : CountOk cfg w s) (hok : s.Ok cfg w) {m src : ModelId} {i : Nat}
    {rest : List (ModelId × Nat)} {f : Fetch α} (todo : f.todo = (src, i) :: rest) :
    CountOk cfg w { s with
      fetching := Function.update s.fetching m
        (some { f with lockHeld := some (getCorrectLock s.st src) }) } := by
  refine h.setFetch fun g src' i' rest' hg htodo hlock hsrc => ?_
  obtain rfl := Option.some.inj hg
  rw [todo] at htodo
  obtain ⟨⟨rfl, -⟩, -⟩ : (src = src' ∧ i = i') ∧ rest = rest' := by simpa using htodo
  have hzero : s.st.ungenedOutReqNums src = 0 := by
    by_contra hne
    simp only [getCorrectLock, if_neg (Int.not_lt.mpr hsrc), if_neg hne, Option.some.injEq] at hlock
    cases hlock
  have hu := h.ungened src
  have hle := hok.pool_length_le src
  omega

omit [Content α] in
theorem fetchRead (h : CountOk cfg w s) {m src : ModelId} {i : Nat}
    {rest : List (ModelId × Nat)} {f : Fetch α} :
    CountOk cfg w { s with
      st := (readSource cfg m i src (s.st, f.acc)).1
      fetching := Function.update s.fetching m (some { f with
        todo := rest
        lockHeld := none
        acc := (readSource cfg m i src (s.st, f.acc)).2 }) } := by
  obtain ⟨slots, hframe⟩ := readSource_frame cfg m src i s.st f.acc
  have hstep := h.setFetch (m := m) (f := some { f with
    todo := rest
    lockHeld := none
    acc := (readSource cfg m i src (s.st, f.acc)).2 }) fun g _ _ _ hg _ hlock => by
      obtain rfl := Option.some.inj hg
      cases hlock
  rw [hframe]
  exact ⟨hstep.unavailable, hstep.ungened, hstep.unlocked, hstep.signal⟩

theorem fetchEnd (h : CountOk cfg w s) (hok : s.Ok cfg w) {m : ModelId} {f : Fetch α}
    {reqs ret : List (Req α)} {st : State α} {possible : Bool}
    (fetch : s.fetching m = some f) (fused : fusedReqs cfg m s.st f.acc = some reqs)
    (run : handOut cfg f.sharedId m f.dpId f.dpSize (appendFused m s.st reqs) =
      some (st, ret, possible)) :
    CountOk cfg w { s.record m f.dpId ⟨reqs, ret, possible⟩ with
      st := st
      fetching := Function.update s.fetching m none } := by
  have hok' := hok.fetchEnd fetch fused run
  have hle := hok'.assembled_length_le m
  have hret := hok'.returned_length_le m
  have hperm := hok'.delivered_perm m
  have hun := h.unavailable m
  have hfalse : possible = false → st.fusedInpQueues m = [] ∧
      (appendFused m s.st reqs).unavailableReqNums m = 0 := by
    rintro rfl
    exact handOut_signal run
  obtain ⟨q, starts, owners, rfl⟩ := handOut_frame run
  simp only [Sys.record, Function.update_self, List.length_append, List.length_map] at hle hret
  refine ⟨fun m' => ?_, h.ungened, (h.setFetch (m := m) (f := none)
    fun _ _ _ _ hg => by cases hg).unlocked, fun m' hs => ?_⟩
  · by_cases hm : m' = m
    · subst hm
      simp only [Sys.record, appendFused, Function.update_self, List.length_append]
      omega
    · simpa only [Sys.record, appendFused, Function.update_of_ne hm] using h.unavailable m'
  · by_cases hm : m' = m
    · subst hm
      simp only [Sys.record, Function.update_self, List.length_append, List.length_map,
        Bool.or_eq_true, Bool.not_eq_true'] at hs ⊢
      rcases hs with hs | hs
      · have hold := h.signal m' hs
        omega
      · obtain ⟨hq, hz⟩ := hfalse hs
        have hund : Sys.undelivered { s.record m' f.dpId ⟨reqs, ret, possible⟩ with
            st := { appendFused m' s.st reqs with
              fusedInpQueues := Function.update (appendFused m' s.st reqs).fusedInpQueues m' q
              fetchedFusedInpStart :=
                Function.update (appendFused m' s.st reqs).fetchedFusedInpStart m' starts
              outReqModelIdMapping := owners }
            fetching := Function.update s.fetching m' none } m' = [] := by
          unfold Sys.undelivered
          rw [hq]
          simp [pending]
        rw [hund, List.append_nil] at hperm
        have hlen := hperm.length_eq
        simp only [Sys.returnedReqs, Sys.record, Function.update_self, List.length_map,
          List.length_append] at hlen
        simp only [appendFused, Function.update_self] at hz
        omega
    · simp only [Sys.record, Function.update_of_ne hm] at hs ⊢
      exact h.signal m' hs

theorem step (h : CountOk cfg w s) (hok : s.Ok cfg w) (hstep : Step cfg w s s') :
    CountOk cfg w s' := by
  cases hstep with
  | addExtend idle may run => exact h.addExtend hok idle may run
  | addDec adding => exact h.addDec adding
  | fetchBegin idle dp =>
    refine h.setFetch fun g _ _ _ hg _ hlock => ?_
    obtain rfl := Option.some.inj hg
    cases hlock
  | fetchLock fetch todo _ => exact h.fetchLock hok todo
  | fetchRead fetch todo _ _ => exact h.fetchRead
  | fetchEnd fetch _ fused run => exact h.fetchEnd hok fetch fused run
  | reset same pos => exact ⟨h.unavailable, h.ungened, h.unlocked, h.signal⟩

end CountOk

/-! ## Runs -/

variable {s s' : Sys α}

theorem counts_run (h : ReflTransGen (Step cfg w) (Sys.start cfg w) s) :
    s.Ok cfg w ∧ CountOk cfg w s := by
  induction h with
  | refl => exact ⟨Sys.Ok.init _ _, CountOk.start⟩
  | tail _ hstep ih => exact ⟨ih.1.step hstep, ih.2.step ih.1 hstep⟩

/-- Returned requests are only ever added to, pools only ever grow, and a signal stays. -/
structure Grows (s s' : Sys α) : Prop where
  returned : ∀ m, s.returned m <+: s'.returned m
  pool : ∀ u, s.st.outputPool u <+: s'.st.outputPool u
  signalled : ∀ m, s.signalled m = true → s'.signalled m = true

omit [Content α] in
theorem prefix_update {β : Type} (f : ModelId → List β) (m : ModelId) (more : List β)
    (m' : ModelId) : f m' <+: Function.update f m (f m ++ more) m' := by
  by_cases h : m' = m
  · subst h
    rw [Function.update_self]
    exact List.prefix_append _ _
  · rw [Function.update_of_ne h]

theorem Step.grows (h : Step cfg w s s') : Grows s s' := by
  cases h with
  | addExtend idle may run =>
    obtain ⟨metaPool, toAdd, -, rfl⟩ := extendOutputPool_frame run
    exact ⟨fun _ => List.prefix_rfl, prefix_update _ _ _, fun _ hs => hs⟩
  | addDec _ => exact ⟨fun _ => List.prefix_rfl, fun _ => List.prefix_rfl, fun _ hs => hs⟩
  | fetchBegin _ _ => exact ⟨fun _ => List.prefix_rfl, fun _ => List.prefix_rfl, fun _ hs => hs⟩
  | fetchLock _ _ _ => exact ⟨fun _ => List.prefix_rfl, fun _ => List.prefix_rfl, fun _ hs => hs⟩
  | @fetchRead m src i rest f k _ _ _ _ =>
    obtain ⟨slots, hframe⟩ :=
      readSource_frame cfg m src i s.st f.acc
    rw [hframe]
    exact ⟨fun _ => List.prefix_rfl, fun _ => List.prefix_rfl, fun _ hs => hs⟩
  | @fetchEnd m f reqs ret st possible _ _ _ run =>
    obtain ⟨q, starts, owners, rfl⟩ := handOut_frame run
    refine ⟨prefix_update _ _ _, fun _ => List.prefix_rfl, fun m' hs => ?_⟩
    by_cases hm : m' = m
    · subst hm
      simp [Sys.record, hs]
    · simpa only [Sys.record, Function.update_of_ne hm] using hs
  | reset _ _ => exact ⟨fun _ => List.prefix_rfl, fun _ => List.prefix_rfl, fun _ hs => hs⟩

theorem run_grows (h : ReflTransGen (Step cfg w) s s') : Grows s s' := by
  induction h with
  | refl => exact ⟨fun _ => List.prefix_rfl, fun _ => List.prefix_rfl, fun _ hs => hs⟩
  | tail _ hstep ih =>
    have hg := hstep.grows
    exact ⟨fun m => (ih.returned m).trans (hg.returned m), fun u => (ih.pool u).trans (hg.pool u),
      fun m hs => hg.signalled m (ih.signalled m hs)⟩

/-- The counter of a model is the number of its requests that are not in its queue yet. -/
theorem Sys.Ok.unavailable_eq (hok : s.Ok cfg w) (hcount : CountOk cfg w s) (m : ModelId) :
    s.st.unavailableReqNums m =
      ((w.inputReqs m).filter fun id => id ∉ (s.assembled m).map Prod.fst).card := by
  have hsdiff : ((w.inputReqs m).filter fun id => id ∉ (s.assembled m).map Prod.fst) =
      w.inputReqs m \ ((s.assembled m).map Prod.fst).toFinset := by
    ext id
    simp
  have hle := hok.assembled_length_le m
  rw [hcount.unavailable m, hsdiff, Finset.card_sdiff_of_subset (hok.assembled_subset m),
    hok.card_assembled m]
  omega

/-- After the signal every input request has been returned. -/
theorem Sys.Ok.all_returned (hok : s.Ok cfg w) (hcount : CountOk cfg w s) {m : ModelId}
    (hs : s.signalled m = true) :
    ((s.returnedReqs m).map Prod.fst).toFinset = w.inputReqs m := by
  have hperm := (hok.delivered_perm m).map Prod.fst
  have hnodup := hperm.nodup_iff.mpr (hok.assembled_nodup m)
  rw [List.map_append] at hperm hnodup
  refine Finset.eq_of_subset_of_card_le (fun id hid => hok.assembled_subset m ?_) ?_
  · rw [List.mem_toFinset] at hid ⊢
    exact hperm.subset (List.mem_append_left _ hid)
  · rw [List.toFinset_card_of_nodup (List.nodup_append'.mp hnodup).1, List.length_map,
      Sys.returnedReqs, List.length_map, hcount.signal m hs]

/-- **The signal is sound.** In every state reached: the counter of `m` is the number of its
input requests not appended to its queue yet, so it is not negative; if some call has answered
`False`, every input request of `m` has been returned and no later state returns another; and a
reader holding no lock because the outputs of `src` were all counted off finds them all in the
pool, to which nothing is added any more. -/
theorem endSignal_sound (h : ReflTransGen (Step cfg w) (Sys.start cfg w) s) (m : ModelId) :
    s.st.unavailableReqNums m =
      ((w.inputReqs m).filter fun id => id ∉ (s.assembled m).map Prod.fst).card ∧
    0 ≤ s.st.unavailableReqNums m ∧
    (s.signalled m = true →
      (∀ id ∈ w.inputReqs m, id ∈ (s.returnedReqs m).map Prod.fst) ∧
      ∀ s', ReflTransGen (Step cfg w) s s' → s'.returned m = s.returned m) ∧
    (∀ f src i rest, s.fetching m = some f → f.todo = (src, i) :: rest →
      f.lockHeld = some .dummyLock → 0 ≤ src →
        (∀ id ∈ w.outIds src, id ∈ (s.st.outputPool src).map Prod.fst) ∧
        ∀ s', ReflTransGen (Step cfg w) s s' → s'.st.outputPool src = s.st.outputPool src) := by
  obtain ⟨hok, hcount⟩ := counts_run h
  have hun := hok.unavailable_eq hcount m
  refine ⟨hun, by omega, fun hs => ⟨fun id hid => ?_, fun s' hrun => ?_⟩,
    fun f src i rest hf htodo hlock hsrc => ?_⟩
  · rw [← hok.all_returned hcount hs, List.mem_toFinset] at hid
    exact hid
  · obtain ⟨hok', hcount'⟩ := counts_run (h.trans hrun)
    have hg := run_grows hrun
    refine ((hg.returned m).eq_of_length ?_).symm
    rw [hcount.signal m hs, hcount'.signal m (hg.signalled m hs)]
  · have hlen := hcount.unlocked m f src i rest hf htodo hlock hsrc
    refine ⟨fun id hid => ?_, fun s' hrun => ?_⟩
    · rw [← hok.pool_complete hlen, List.mem_toFinset] at hid
      exact hid
    · have hpre := (run_grows hrun).pool src
      refine (hpre.eq_of_length_le ?_).symm
      rw [hlen]
      exact (counts_run (h.trans hrun)).1.pool_length_le src

/-- One worker fetches both prompts and is told that there are no more. -/
theorem endSignal_sound_chain : ∃ s : Sys String,
    ReflTransGen (Step chainCfg chainWork) (Sys.start chainCfg chainWork) s ∧
    s.signalled 0 = true ∧ s.st.unavailableReqNums 0 = 0 ∧
    ∀ id ∈ chainWork.inputReqs 0, id ∈ (s.returnedReqs 0).map Prod.fst := by
  have hadd : Call chainCfg chainWork (Sys.start chainCfg chainWork) _ :=
    Call.addSeqs (u := -1) [(0, "a"), (1, "b")] ⟨by decide, by decide⟩ rfl
  have hrun := ((ReflTransGen.single hadd).tail (Call.reset (m := 0) 1 (by decide))).tail
    (Call.getSeqs (m := 0) 0 0 (by decide) rfl) |>.tail
    (Call.getSeqs (m := 0) 0 0 (by decide) rfl)
  have hsteps := (calls_steps hrun (Sys.quiet_init _ _)).1
  exact ⟨_, hsteps, rfl, rfl, ((endSignal_sound hsteps 0).2.2.1 rfl).1⟩

end Mil.Communicator
