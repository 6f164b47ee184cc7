import Mil.Communicator.Pool

/-!
# Assembling requests

What `_get_fused_inp_queues` has assembled, as a function of what it has read. `received` is what
a model has read of one source; `AsmOk` ties the requests assembled so far, the slots of
`_available_srcs` and the locals of a call under way to it. With one source or independent
sources, the requests are what was received, formatted one by one. With several, slot `i` of a
request holds what was received for it from the `i`-th source, and a request is assembled when
the last slot fills.
-/

set_option autoImplicit false

namespace Mil.Communicator

open Mil.Lib

variable {α : Type} {cfg : Config α} {m src : ModelId}

/-! ## The inputs an output feeds -/

theorem inputsOf_of_some {info : Dict ReqId ReqId}
    (h : cfg.inpReqFromWhichModelWhichOutReqs m src = some info) :
    inputsOf cfg src m = reversed info := by
  funext out
  simp [inputsOf, h]

theorem inputsOf_of_none (h : cfg.inpReqFromWhichModelWhichOutReqs m src = none) (out : ReqId) :
    inputsOf cfg src m out = [out] := by
  simp [inputsOf, h]

theorem mem_reversed {info : Dict ReqId ReqId} {out id : ReqId} :
    id ∈ reversed info out ↔ ⟨id, out⟩ ∈ info.entries := by
  simp only [reversed, List.mem_map, List.mem_filter, decide_eq_true_eq]
  constructor
  · rintro ⟨⟨a, b⟩, ⟨he, rfl⟩, rfl⟩
    exact he
  · exact fun he => ⟨⟨id, out⟩, ⟨he, rfl⟩, rfl⟩

theorem inputsOf_nodup (out : ReqId) : (inputsOf cfg src m out).Nodup := by
  cases h : cfg.inpReqFromWhichModelWhichOutReqs m src with
  | none => rw [inputsOf_of_none h]; exact List.nodup_singleton _
  | some info =>
    rw [inputsOf_of_some h]
    have hkeys : (info.entries.map fun e => e.1).Nodup := info.nodupKeys
    exact hkeys.sublist (List.filter_sublist.map _)

/-- An input takes at most one output of a source. -/
theorem inputsOf_inj {out out' id : ReqId} (h : id ∈ inputsOf cfg src m out)
    (h' : id ∈ inputsOf cfg src m out') : out = out' := by
  cases hinfo : cfg.inpReqFromWhichModelWhichOutReqs m src with
  | none =>
    rw [inputsOf_of_none hinfo, List.mem_singleton] at h h'
    exact h.symm.trans h'
  | some info =>
    rw [inputsOf_of_some hinfo, mem_reversed] at h h'
    exact eq_of_heq (info.nodupKeys.eq_of_mk_mem h h' ▸ HEq.rfl)

/-- Outputs that feed nothing are filtered out either way. -/
theorem selectOutputs_eq (outs : List (Req α)) :
    selectOutputs cfg src m outs =
      outs.flatMap fun req => (inputsOf cfg src m req.1).map fun id => (id, req.2) := by
  cases h : cfg.inpReqFromWhichModelWhichOutReqs m src with
  | none => simp [selectOutputs, inputsOf, h]
  | some info =>
    simp only [selectOutputs, h, inputsOf_of_some h]
    induction outs with
    | nil => rfl
    | cons req rest ih =>
      rw [List.flatMap_cons, ← ih, List.filter_cons]
      split
      · rw [List.flatMap_cons]
      · rename_i hnot
        have hempty : reversed info req.1 = [] := by
          simp only [decide_eq_true_eq, List.mem_map, not_exists, not_and] at hnot
          simp only [reversed, List.map_eq_nil_iff, List.filter_eq_nil_iff,
            decide_eq_true_eq]
          exact hnot
        rw [hempty]
        rfl

theorem selectOutputs_append (outs outs' : List (Req α)) :
    selectOutputs cfg src m (outs ++ outs') =
      selectOutputs cfg src m outs ++ selectOutputs cfg src m outs' := by
  simp only [selectOutputs_eq, List.flatMap_append]

theorem selectOutputs_ids (outs : List (Req α)) :
    (selectOutputs cfg src m outs).map Prod.fst =
      (outs.map Prod.fst).flatMap (inputsOf cfg src m) := by
  rw [selectOutputs_eq, List.map_flatMap, List.flatMap_map]
  simp [Function.comp_def]

theorem selectOutputs_nodup {outs : List (Req α)} (h : (outs.map Prod.fst).Nodup) :
    ((selectOutputs cfg src m outs).map Prod.fst).Nodup := by
  rw [selectOutputs_ids, List.nodup_flatMap]
  refine ⟨fun out _ => inputsOf_nodup out, h.imp fun hne => ?_⟩
  intro id hid hid'
  exact hne (inputsOf_inj hid hid')

/-! ## What has been received -/

/-- What `m` has read of `src`. -/
def received (cfg : Config α) (st : State α) (m src : ModelId) : List (Req α) :=
  selectOutputs cfg src m ((st.outputPool src).take (st.readOutputNums src m))

theorem received_nodup {st : State α} (h : ((st.outputPool src).map Prod.fst).Nodup) :
    ((received cfg st m src).map Prod.fst).Nodup := by
  refine selectOutputs_nodup (h.sublist ?_)
  exact (List.take_sublist _ _).map _

theorem mem_received_ids {st : State α} {id : ReqId} :
    id ∈ (received cfg st m src).map Prod.fst ↔
      ∃ out ∈ ((st.outputPool src).take (st.readOutputNums src m)).map Prod.fst,
        id ∈ inputsOf cfg src m out := by
  unfold received
  rw [selectOutputs_ids, List.mem_flatMap]

/-- Reading `src` receives the rest of its pool, and changes nothing else that is received. -/
theorem received_getSelectedOutputs (st : State α) :
    received cfg (getSelectedOutputs cfg src m st).1 m =
      Function.update (received cfg st m) src
        (received cfg st m src ++ (getSelectedOutputs cfg src m st).2) := by
  funext src'
  by_cases h : src' = src
  · subst h
    simp only [Function.update_self, received, getSelectedOutputs, List.take_length]
    rw [← selectOutputs_append, List.take_append_drop]
  · simp only [Function.update_of_ne h, received, getSelectedOutputs]

variable (cfg src) in
theorem received_getSelectedOutputs_of_ne {m' : ModelId} (h : m' ≠ m) (st : State α) :
    received cfg (getSelectedOutputs cfg src m st).1 m' = received cfg st m' := by
  funext src'
  simp only [received, getSelectedOutputs]
  by_cases hs : src' = src
  · subst hs
    simp only [Function.update_self, Function.update_of_ne h]
  · simp only [Function.update_of_ne hs]

/-- What is read once is received once. -/
theorem nodup_received_append {st : State α} (h : ((st.outputPool src).map Prod.fst).Nodup) :
    ((received cfg st m src ++ (getSelectedOutputs cfg src m st).2).map Prod.fst).Nodup := by
  have hall : received cfg st m src ++ (getSelectedOutputs cfg src m st).2 =
      selectOutputs cfg src m (st.outputPool src) := by
    unfold received getSelectedOutputs
    rw [← selectOutputs_append, List.take_append_drop]
  rw [hall]
  exact selectOutputs_nodup h

/-! ## Several sources -/

/-- What has been received for request `id` from the `i`-th source. -/
def srcAt (cfg : Config α) (m : ModelId) (recv : ModelId → List (Req α)) (i : Nat)
    (id : ReqId) : Option α :=
  ((cfg.inEdgeDictWithDummyInpNodes m)[i]?).bind fun src => (recv src).lookup id

theorem lookup_eq_none_iff_notMem_ids {l : List (Req α)} {id : ReqId} :
    l.lookup id = none ↔ id ∉ l.map Prod.fst := by
  simp only [List.lookup_eq_none_iff, List.mem_map, not_exists, not_and, bne_iff_ne]
  exact ⟨fun h r hr heq => h r hr heq.symm, fun h r hr heq => h r hr heq.symm⟩

theorem srcAt_append {recv : ModelId → List (Req α)} {i : Nat} {r : Req α}
    (hi : (cfg.inEdgeDictWithDummyInpNodes m)[i]? = some src)
    (hnew : r.1 ∉ (recv src).map Prod.fst) :
    srcAt cfg m (Function.update recv src (recv src ++ [r])) =
      arrived (srcAt cfg m recv) i r.1 r.2 := by
  funext j id
  unfold arrived srcAt
  by_cases hj : j = i
  · subst hj
    rw [hi]
    simp only [Option.bind_some, Function.update_self, true_and, List.lookup_append]
    by_cases hid : id = r.1
    · subst hid
      rw [lookup_eq_none_iff_notMem_ids.mpr hnew]
      have hself : [r].lookup r.1 = some r.2 := List.lookup_cons_self
      simp [hself]
    · have hlk : [r].lookup id = none :=
        lookup_eq_none_iff_notMem_ids.mpr (by simpa using hid)
      rw [hlk, if_neg hid, Option.or_none]
  · rw [if_neg (fun h => hj h.1)]
    cases hs : (cfg.inEdgeDictWithDummyInpNodes m)[j]? with
    | none => rfl
    | some src' =>
      have hne : src' ≠ src := by
        rintro rfl
        obtain ⟨hjl, hjv⟩ := List.getElem?_eq_some_iff.mp hs
        exact hj ((List.Nodup.getElem_inj_iff (cfg.inEdges_nodup m)).mp
          (Option.some.inj ((List.getElem?_eq_getElem hjl ▸ hs).trans
            ((List.getElem?_eq_getElem (List.getElem?_eq_some_iff.mp hi).1 ▸ hi)).symm)))
      simp [Function.update_of_ne hne]

variable [Content α]

/-- The slots and the requests of a model with several sources, and the requests a call under
way has completed. -/
structure ManyOk (cfg : Config α) (m : ModelId) (recv : ModelId → List (Req α))
    (slots : ReqId → Option (Slots α)) (assembled : List (Req α)) (acc : Acc α) : Prop where
  table : TableOk (fun _ => (cfg.inEdgeDictWithDummyInpNodes m).length) (srcAt cfg m recv)
    (fun id => (slots id).getD (Slots.empty (cfg.inEdgeDictWithDummyInpNodes m).length))
    (assembled.map Prod.fst ++ acc.newCompleteReqIds)
  content : ∀ r ∈ assembled, fuseManySrcs cfg m
    ((List.range (cfg.inEdgeDictWithDummyInpNodes m).length).map fun i =>
      srcAt cfg m recv i r.1) = some r.2

theorem ManyOk.arrive {recv : ModelId → List (Req α)} {s : State α × Acc α}
    {assembled : List (Req α)} {i : Nat} {r : Req α}
    (h : ManyOk cfg m recv (s.1.availableSrcs m) assembled s.2)
    (hi : (cfg.inEdgeDictWithDummyInpNodes m)[i]? = some src)
    (hnew : r.1 ∉ (recv src).map Prod.fst) :
    ManyOk cfg m (Function.update recv src (recv src ++ [r]))
      ((arriveSrc cfg m i s r).1.availableSrcs m) assembled (arriveSrc cfg m i s r).2 := by
  have hnone : srcAt cfg m recv i r.1 = none := by
    unfold srcAt
    rw [hi]
    exact lookup_eq_none_iff_notMem_ids.mpr hnew
  have hlt : i < (cfg.inEdgeDictWithDummyInpNodes m).length :=
    (List.getElem?_eq_some_iff.mp hi).1
  have htable := h.table.arrive (fun id =>
    ((arriveSrc cfg m i s r).1.availableSrcs m id).getD
      (Slots.empty (cfg.inEdgeDictWithDummyInpNodes m).length)) hlt hnone r.2 (by
        funext id
        simp only [arriveSrc, Function.update_self]
        by_cases hid : id = r.1
        · subst hid; simp [availableSlots]
        · simp [hid])
  rw [← srcAt_append hi hnew] at htable
  refine ⟨?_, fun q hq => ?_⟩
  · have hacc : assembled.map Prod.fst ++ (arriveSrc cfg m i s r).2.newCompleteReqIds =
        if ((availableSlots cfg s.1 m r.1).put i r.2).count =
            (cfg.inEdgeDictWithDummyInpNodes m).length then
          (assembled.map Prod.fst ++ s.2.newCompleteReqIds) ++ [r.1]
        else assembled.map Prod.fst ++ s.2.newCompleteReqIds := by
      unfold arriveSrc
      split <;> simp [*]
    rw [hacc]
    exact htable
  · rw [← h.content q hq]
    congr 1
    refine List.map_congr_left fun j hj => ?_
    rw [srcAt_append hi hnew]
    unfold arrived
    rw [if_neg]
    rintro ⟨rfl, hqr⟩
    have hsome := h.table.some_of_complete
      (List.mem_append_left _ (List.mem_map_of_mem hq)) (List.mem_range.mp hj)
    rw [hqr, hnone] at hsome
    exact absurd hsome (by simp)

/-- All that one read of a source brings. -/
theorem ManyOk.arriveAll {assembled : List (Req α)} {i : Nat}
    (hi : (cfg.inEdgeDictWithDummyInpNodes m)[i]? = some src) :
    ∀ (reqs : List (Req α)) {recv : ModelId → List (Req α)} {s : State α × Acc α},
      ManyOk cfg m recv (s.1.availableSrcs m) assembled s.2 →
      ((recv src ++ reqs).map Prod.fst).Nodup →
      ManyOk cfg m (Function.update recv src (recv src ++ reqs))
        ((reqs.foldl (arriveSrc cfg m i) s).1.availableSrcs m) assembled
        (reqs.foldl (arriveSrc cfg m i) s).2
  | [], recv, s, h, _ => by simpa using h
  | r :: rest, recv, s, h, hnodup => by
    have hnew : r.1 ∉ (recv src).map Prod.fst := by
      rw [List.map_append, List.map_cons, List.nodup_append'] at hnodup
      exact fun hm => hnodup.2.2 hm List.mem_cons_self
    have h₁ := h.arrive hi hnew
    have h₂ := ManyOk.arriveAll hi rest h₁ (by simpa using hnodup)
    simpa using h₂

variable (cfg m) in
omit [Content α] in
theorem arriveSrc_frame (i : Nat) (s : State α × Acc α) (r : Req α) :
    ∃ slots, (arriveSrc cfg m i s r).1 = { s.1 with
      availableSrcs := Function.update s.1.availableSrcs m slots } := ⟨_, rfl⟩

variable (cfg m) in
omit [Content α] in
theorem arriveAll_frame (i : Nat) :
    ∀ (reqs : List (Req α)) (s : State α × Acc α),
      ∃ slots, (reqs.foldl (arriveSrc cfg m i) s).1 = { s.1 with
        availableSrcs := Function.update s.1.availableSrcs m slots }
  | [], s => ⟨s.1.availableSrcs m, by simp⟩
  | r :: rest, s => by
    obtain ⟨slots, h⟩ := arriveAll_frame i rest (arriveSrc cfg m i s r)
    obtain ⟨slots', h'⟩ := arriveSrc_frame cfg m i s r
    refine ⟨slots, ?_⟩
    rw [List.foldl_cons, h, h']
    simp

/-! ## One source, or independent ones -/

/-- The requests are what was received, formatted. -/
def OneOk (cfg : Config α) (m : ModelId) (recv : ModelId → List (Req α))
    (assembled : List (Req α)) (acc : Acc α) : Prop :=
  ∃ raw, assembled = raw.map (fun r => (r.1, fuseOneSrc cfg m r.2)) ∧
    (raw ++ acc.reqs).Perm ((cfg.inEdgeDictWithDummyInpNodes m).flatMap recv)

omit [Content α] in
/-- Only the share of `src` grows. -/
theorem flatMap_update_perm {recv : ModelId → List (Req α)} (reqs : List (Req α)) :
    ∀ {inps : List ModelId}, inps.Nodup → src ∈ inps →
      (inps.flatMap (Function.update recv src (recv src ++ reqs))).Perm
        (inps.flatMap recv ++ reqs)
  | [], _, h => absurd h List.not_mem_nil
  | inp :: rest, hnodup, hmem => by
    rw [List.nodup_cons] at hnodup
    simp only [List.flatMap_cons]
    by_cases h : inp = src
    · subst h
      have hrest : rest.flatMap (Function.update recv inp (recv inp ++ reqs)) =
          rest.flatMap recv :=
        List.flatMap_congr fun x hx => by
          rw [Function.update_of_ne (ne_of_mem_of_not_mem hx hnodup.1)]
      rw [Function.update_self, hrest, List.append_assoc, List.append_assoc]
      exact List.Perm.append_left _ List.perm_append_comm
    · have hsrc : src ∈ rest := (List.mem_cons.mp hmem).resolve_left (Ne.symm h)
      rw [Function.update_of_ne h, List.append_assoc]
      exact List.Perm.append_left _ (flatMap_update_perm reqs hnodup.2 hsrc)

omit [Content α] in
theorem OneOk.read {recv : ModelId → List (Req α)} {assembled : List (Req α)} {acc : Acc α}
    (h : OneOk cfg m recv assembled acc) (hsrc : src ∈ cfg.inEdgeDictWithDummyInpNodes m)
    (reqs : List (Req α)) :
    OneOk cfg m (Function.update recv src (recv src ++ reqs)) assembled
      { acc with reqs := acc.reqs ++ reqs } := by
  obtain ⟨raw, hraw, hperm⟩ := h
  refine ⟨raw, hraw, ?_⟩
  rw [← List.append_assoc]
  exact (hperm.append_right reqs).trans
    (flatMap_update_perm reqs (cfg.inEdges_nodup m) hsrc).symm

/-! ## A call, from its reads to the requests it appends -/

/-- Everything assembled for `m` comes from what `m` received, whichever branch assembles it. -/
structure AsmOk (cfg : Config α) (m : ModelId) (recv : ModelId → List (Req α))
    (slots : ReqId → Option (Slots α)) (assembled : List (Req α)) (acc : Acc α) : Prop where
  one : oneSrc cfg m = true → OneOk cfg m recv assembled acc
  many : oneSrc cfg m = false → ManyOk cfg m recv slots assembled acc

theorem AsmOk.init : AsmOk cfg m (fun _ => []) (fun _ => none) [] Acc.empty where
  one _ := ⟨[], rfl, by simp [Acc.empty]⟩
  many _ := by
    refine ⟨?_, fun r hr => absurd hr List.not_mem_nil⟩
    have harr : srcAt cfg m (fun _ => ([] : List (Req α))) = fun _ _ => none := by
      funext i id
      unfold srcAt
      cases (cfg.inEdgeDictWithDummyInpNodes m)[i]? <;> rfl
    rw [harr]
    exact TableOk.init _

omit [Content α] in
theorem readSource_of_oneSrc (h : oneSrc cfg m = true) (i : Nat) (s : State α × Acc α) :
    Communicator.readSource cfg m i src s = ((getSelectedOutputs cfg src m s.1).1,
      { s.2 with reqs := s.2.reqs ++ (getSelectedOutputs cfg src m s.1).2 }) := by
  simp only [Communicator.readSource, h, if_true]

omit [Content α] in
theorem readSource_of_manySrcs (h : oneSrc cfg m = false) (i : Nat) (s : State α × Acc α) :
    Communicator.readSource cfg m i src s = (getSelectedOutputs cfg src m s.1).2.foldl
      (arriveSrc cfg m i) ((getSelectedOutputs cfg src m s.1).1, s.2) := by
  simp only [Communicator.readSource, h, Bool.false_eq_true, if_false]

/-- The reads of a call: the next source of `m` is read under its lock. -/
theorem AsmOk.readSource {st : State α} {assembled : List (Req α)} {acc : Acc α} {i : Nat}
    (h : AsmOk cfg m (received cfg st m) (st.availableSrcs m) assembled acc)
    (hi : (cfg.inEdgeDictWithDummyInpNodes m)[i]? = some src)
    (hpool : ((st.outputPool src).map Prod.fst).Nodup) :
    AsmOk cfg m (received cfg (readSource cfg m i src (st, acc)).1 m)
      ((readSource cfg m i src (st, acc)).1.availableSrcs m) assembled
      (readSource cfg m i src (st, acc)).2 := by
  cases hone : oneSrc cfg m with
  | true =>
    refine ⟨fun _ => ?_, fun hf => by rw [hone] at hf; cases hf⟩
    have hread := (h.one hone).read (List.mem_of_getElem? hi)
      (getSelectedOutputs cfg src m st).2
    rw [← received_getSelectedOutputs] at hread
    rw [readSource_of_oneSrc hone]
    exact hread
  | false =>
    refine ⟨fun ht => (by rw [hone] at ht; cases ht), fun _ => ?_⟩
    have hall := ManyOk.arriveAll (s := ((getSelectedOutputs cfg src m st).1, acc)) hi
      (getSelectedOutputs cfg src m st).2 (h.many hone) (nodup_received_append hpool)
    rw [← received_getSelectedOutputs] at hall
    obtain ⟨slots, hframe⟩ := arriveAll_frame cfg m i
      (getSelectedOutputs cfg src m st).2 ((getSelectedOutputs cfg src m st).1, acc)
    rw [readSource_of_manySrcs hone]
    have hrecv : received cfg ((getSelectedOutputs cfg src m st).2.foldl
        (arriveSrc cfg m i) ((getSelectedOutputs cfg src m st).1, acc)).1 m =
        received cfg (getSelectedOutputs cfg src m st).1 m := by
      rw [hframe]
      rfl
    rw [hrecv]
    exact hall

variable (cfg m src) in
omit [Content α] in
/-- A read moves one cursor and fills slots of its model. -/
theorem readSource_frame (i : Nat) (st : State α) (acc : Acc α) :
    ∃ slots, (Communicator.readSource cfg m i src (st, acc)).1 =
      { (getSelectedOutputs cfg src m st).1 with
        availableSrcs := Function.update st.availableSrcs m slots } := by
  cases hone : oneSrc cfg m with
  | true => exact ⟨st.availableSrcs m, by simp [readSource_of_oneSrc hone, getSelectedOutputs]⟩
  | false =>
    rw [readSource_of_manySrcs hone]
    exact arriveAll_frame cfg m i _ _

omit [Content α] in
theorem sortById_perm (reqs : List (Req α)) : (sortById reqs).Perm reqs :=
  List.perm_insertionSort _ _

/-- The fused requests of a model with several sources: the ids asked for, in that order, each
with its slots put together. -/
theorem fuseMany_spec {st : State α} :
    ∀ {ids : List ReqId} {reqs : List (Req α)},
      (ids.mapM fun reqId => do
        let slots ← st.availableSrcs m reqId
        let content ← fuseManySrcs cfg m slots.parts
        return (reqId, content)) = some reqs →
      reqs.map Prod.fst = ids ∧ ∀ r ∈ reqs, ∃ slots, st.availableSrcs m r.1 = some slots ∧
        fuseManySrcs cfg m slots.parts = some r.2
  | [], reqs, h => by
    simp only [List.mapM_nil, Option.pure_def, Option.some.injEq] at h
    simp [← h]
  | id :: ids, reqs, h => by
    simp only [List.mapM_cons, Option.bind_eq_bind, Option.bind_eq_some_iff, Option.pure_def,
      Option.some.injEq] at h
    obtain ⟨r, ⟨slots, hslots, content, hfuse, rfl⟩, rest, hrest, rfl⟩ := h
    obtain ⟨hids, hall⟩ := fuseMany_spec hrest
    refine ⟨by rw [List.map_cons, hids], fun q hq => ?_⟩
    rcases List.mem_cons.mp hq with rfl | hq
    · exact ⟨slots, hslots, hfuse⟩
    · exact hall q hq

/-- The requests of a call under way join the assembled ones. -/
theorem AsmOk.fused {st : State α} {recv : ModelId → List (Req α)} {assembled reqs : List (Req α)}
    {acc : Acc α} (h : AsmOk cfg m recv (st.availableSrcs m) assembled acc)
    (run : fusedReqs cfg m st acc = some reqs) :
    AsmOk cfg m recv (st.availableSrcs m) (assembled ++ reqs) Acc.empty := by
  unfold fusedReqs at run
  cases hone : oneSrc cfg m with
  | true =>
    rw [if_pos hone, Option.some.injEq] at run
    obtain ⟨raw, rfl, hperm⟩ := h.one hone
    refine ⟨fun _ => ⟨raw ++ sortById acc.reqs, ?_, ?_⟩, fun hf => by rw [hone] at hf; cases hf⟩
    · rw [List.map_append, run]
    · simp only [Acc.empty, List.append_nil]
      exact (List.Perm.append_left raw (sortById_perm acc.reqs)).trans hperm
  | false =>
    rw [if_neg (by simp [hone])] at run
    have hmany := h.many hone
    obtain ⟨hids, hall⟩ := fuseMany_spec run
    refine ⟨fun ht => (by rw [hone] at ht; cases ht), fun _ => ⟨?_, fun r hr => ?_⟩⟩
    · refine hmany.table.perm ?_
      simp only [Acc.empty, List.append_nil, List.map_append, hids]
      exact List.Perm.append_left _ (List.perm_insertionSort _ _).symm
    · rcases List.mem_append.mp hr with hr | hr
      · exact hmany.content r hr
      · obtain ⟨slots, hslots, hfuse⟩ := hall r hr
        have hparts := hmany.table.parts_eq r.1
        rw [hslots, Option.getD_some] at hparts
        rw [← hparts]
        exact hfuse

end Mil.Communicator
