import Mil.Communicator.Invariant

/-!
# Exactly-once delivery

A request is returned or undelivered, never both and never twice, and the requests that are
either are those whose upstream outputs have been read. The counters the communicator was started
with do not matter here.
-/

set_option autoImplicit false

namespace Mil.Communicator

open Mil.Lib Relation

variable {α : Type} {cfg : Config α}

/-- `m` has read an output of `src` that feeds its input request `id`. -/
def HasRead (cfg : Config α) (st : State α) (m src : ModelId) (id : ReqId) : Prop :=
  ∃ out ∈ ((st.outputPool src).take (st.readOutputNums src m)).map Prod.fst,
    id ∈ inputsOf cfg src m out

/-- The upstream outputs request `id` of `m` needs have all been read: one output if `m` has one
source or independent sources, one of every source otherwise. -/
def AllRead (cfg : Config α) (st : State α) (m : ModelId) (id : ReqId) : Prop :=
  if oneSrc cfg m then ∃ src ∈ cfg.inEdgeDictWithDummyInpNodes m, HasRead cfg st m src id
  else cfg.inEdgeDictWithDummyInpNodes m ≠ [] ∧
    ∀ src ∈ cfg.inEdgeDictWithDummyInpNodes m, HasRead cfg st m src id

variable {w : Workload cfg} {m : ModelId}

theorem mem_ids_received {st : State α} {src : ModelId} {id : ReqId} :
    id ∈ (received cfg st m src).map Prod.fst ↔ HasRead cfg st m src id := mem_received_ids

theorem srcAt_isSome {recv : ModelId → List (Req α)} {i : Nat} {id : ReqId} :
    (srcAt cfg m recv i id).isSome ↔
      ∃ src, (cfg.inEdgeDictWithDummyInpNodes m)[i]? = some src ∧
        id ∈ (recv src).map Prod.fst := by
  unfold srcAt
  cases (cfg.inEdgeDictWithDummyInpNodes m)[i]? with
  | none => simp
  | some src =>
    simp only [Option.bind_some, Option.some.injEq, exists_eq_left']
    rw [← Option.ne_none_iff_isSome, Ne, lookup_eq_none_iff_notMem_ids, not_not]

variable [Content α]

omit [Content α] in
theorem OneOk.mem_ids {st : State α} {assembled : List (Req α)}
    (h : OneOk cfg m (received cfg st m) assembled Acc.empty) (id : ReqId) :
    id ∈ assembled.map Prod.fst ↔
      ∃ src ∈ cfg.inEdgeDictWithDummyInpNodes m, HasRead cfg st m src id := by
  obtain ⟨raw, rfl, hperm⟩ := h
  simp only [Acc.empty, List.append_nil] at hperm
  have hids : (raw.map fun r => (r.1, fuseOneSrc cfg m r.2)).map Prod.fst = raw.map Prod.fst := by
    simp [Function.comp_def]
  rw [hids, (hperm.map Prod.fst).mem_iff, List.map_flatMap, List.mem_flatMap]
  simp only [mem_ids_received]

theorem ManyOk.mem_ids {st : State α} {slots : ReqId → Option (Slots α)}
    {assembled : List (Req α)}
    (h : ManyOk cfg m (received cfg st m) slots assembled Acc.empty) (id : ReqId) :
    id ∈ assembled.map Prod.fst ↔ cfg.inEdgeDictWithDummyInpNodes m ≠ [] ∧
      ∀ src ∈ cfg.inEdgeDictWithDummyInpNodes m, HasRead cfg st m src id := by
  have hmem := h.table.mem_iff id
  simp only [Acc.empty, List.append_nil, List.length_pos_iff] at hmem
  rw [hmem]
  refine and_congr_right fun _ => ⟨fun hall src hsrc => ?_, fun hall i hi => ?_⟩
  · obtain ⟨i, hi, rfl⟩ := List.mem_iff_getElem.mp hsrc
    obtain ⟨src, hsrc, hid⟩ := srcAt_isSome.mp (hall i hi)
    rw [List.getElem?_eq_getElem hi, Option.some.injEq] at hsrc
    exact mem_ids_received.mp (hsrc ▸ hid)
  · exact srcAt_isSome.mpr ⟨_, List.getElem?_eq_getElem hi,
      mem_ids_received.mpr (hall _ (List.getElem_mem hi))⟩

theorem AsmOk.mem_ids {st : State α} {slots : ReqId → Option (Slots α)}
    {assembled : List (Req α)}
    (h : AsmOk cfg m (received cfg st m) slots assembled Acc.empty) (id : ReqId) :
    id ∈ assembled.map Prod.fst ↔ AllRead cfg st m id := by
  unfold AllRead
  cases hone : oneSrc cfg m with
  | true => exact (h.one hone).mem_ids id
  | false => simpa using (h.many hone).mem_ids id

/-! ## No request is assembled twice -/

namespace Sys.Ok

variable {s : Sys α}

/-- What has been read has been added. -/
theorem pooled_of_hasRead (h : s.Ok cfg w) {src : ModelId} {id : ReqId}
    (hr : HasRead cfg s.st m src id) :
    ∃ out ∈ pooledIds cfg src ((s.added src).map Prod.fst), id ∈ inputsOf cfg src m out := by
  obtain ⟨out, hout, hid⟩ := hr
  refine ⟨out, ((h.pool src).mem_ids out).mp ?_, hid⟩
  exact ((List.take_sublist _ _).map _).subset hout

theorem added_subset (h : s.Ok cfg w) (u : ModelId) :
    (s.added u).map Prod.fst ⊆ w.rawOutIds u := by
  intro id hid
  obtain ⟨r, hr, rfl⟩ := List.mem_map.mp hid
  exact h.added_mem u r hr

/-- Sources of a model that takes single sources feed different requests. -/
theorem received_disjoint (h : s.Ok cfg w) (hone : oneSrc cfg m = true) {src src' : ModelId}
    (hs : src ∈ cfg.inEdgeDictWithDummyInpNodes m)
    (hs' : src' ∈ cfg.inEdgeDictWithDummyInpNodes m) {id : ReqId}
    (hid : HasRead cfg s.st m src id) (hid' : HasRead cfg s.st m src' id) : src = src' := by
  obtain ⟨out, hout, hin⟩ := h.pooled_of_hasRead hid
  obtain ⟨out', hout', hin'⟩ := h.pooled_of_hasRead hid'
  exact w.indep_disjoint m hone src hs src' hs' out (pooledIds_mono (h.added_subset src) hout)
    out' (pooledIds_mono (h.added_subset src') hout') id hin hin'

theorem assembled_nodup (h : s.Ok cfg w) (m : ModelId) :
    ((s.assembled m).map Prod.fst).Nodup := by
  cases hone : oneSrc cfg m with
  | true =>
    obtain ⟨raw, hraw, hperm⟩ := (h.asm m).one hone
    have hall : (((cfg.inEdgeDictWithDummyInpNodes m).flatMap (received cfg s.st m)).map
        Prod.fst).Nodup := by
      rw [List.map_flatMap, List.nodup_flatMap]
      refine ⟨fun src _ => received_nodup (h.pool_nodup src), ?_⟩
      refine (cfg.inEdges_nodup m).imp_of_mem fun hs hs' hne id hid hid' => hne ?_
      exact h.received_disjoint hone hs hs' (mem_ids_received.mp hid) (mem_ids_received.mp hid')
    have hraw' := (hperm.map Prod.fst).nodup_iff.mpr hall
    rw [List.map_append, List.nodup_append'] at hraw'
    rw [hraw]
    simpa [Function.comp_def] using hraw'.1
  | false =>
    have htable := ((h.asm m).many hone).table.nodup
    rw [List.nodup_append'] at htable
    exact htable.1

theorem delivered_perm (h : s.Ok cfg w) (m : ModelId) :
    (s.returnedReqs m ++ s.undelivered m).Perm (s.assembled m) :=
  (h.queue m).undelivered_perm

end Sys.Ok

/-- **Exactly once.** After any calls, what has been returned and what is undelivered are
together the requests assembled so far, no id occurs twice among them, and the ids are those
whose upstream outputs have all been read. -/
theorem calls_exactlyOnce {u₀ g₀ : ModelId → Int} {s : Sys α}
    (h : ReflTransGen (Call cfg w) (Sys.init cfg u₀ g₀) s) (m : ModelId) :
    ((s.returnedReqs m ++ s.undelivered m).map Prod.fst).Nodup ∧
    (∀ id, id ∈ (s.returnedReqs m ++ s.undelivered m).map Prod.fst ↔ AllRead cfg s.st m id) ∧
    (s.returnedReqs m ++ s.undelivered m).Perm (s.assembled m) := by
  obtain ⟨hsteps, hquiet⟩ := calls_steps h (Sys.quiet_init u₀ g₀)
  have hok := (Sys.Ok.init (w := w) u₀ g₀).run hsteps
  have hperm := hok.delivered_perm m
  have hasm := hok.asm m
  rw [show s.accOf m = Acc.empty by simp [Sys.accOf, hquiet.2 m]] at hasm
  refine ⟨(hperm.map Prod.fst).nodup_iff.mpr (hok.assembled_nodup m), fun id => ?_, hperm⟩
  rw [(hperm.map Prod.fst).mem_iff]
  exact hasm.mem_ids id

/-- Two prompts and two workers, one of which has fetched. -/
theorem calls_exactlyOnce_chain : ∃ s : Sys String,
    ReflTransGen (Call chainCfg chainWork) (Sys.init chainCfg (fun _ => 2) fun _ => 2) s ∧
    s.returnedReqs 0 = [(0, "a")] ∧ s.undelivered 0 = [(1, "b")] ∧
    ((s.returnedReqs 0 ++ s.undelivered 0).map Prod.fst).Nodup := by
  have hadd : Call chainCfg chainWork (Sys.init chainCfg (fun _ => 2) fun _ => 2) _ :=
    Call.addSeqs (u := -1) [(0, "a"), (1, "b")] ⟨by decide, by decide⟩ rfl
  have hrun := ((ReflTransGen.single hadd).tail (Call.reset (m := 0) 2 (by decide))).tail
    (Call.getSeqs (m := 0) 0 0 (by decide) rfl)
  exact ⟨_, hrun, rfl, rfl, (calls_exactlyOnce hrun 0).1⟩

end Mil.Communicator
