import Mil.Fcfs.DataParallel

/-!
# Dealing out loses nothing

The arrays a worker gets are those of the records it gets (`workers_eq`), so what is said of records
holds of the parallel arrays. Of one model the workers together have every request once
(`assigned_perm`): the new ones are dealt out in strides, and a request that has been seen goes to
the worker that has it in the model before, provided that the models of an id are consecutive. By
induction over the models a request then stays with its worker (`assignModels_spec`).
-/

set_option autoImplicit false

namespace Mil.Fcfs

open Mil.Lib

/-! ## Arrays and records -/

theorem index_levelOf {order : List Nat} {rs rs' : List Request} (h : gather order rs = some rs') :
    (levelOf rs).index order = some (levelOf rs') := by
  simp only [Level.index, levelOf, gather_map _ order h]
  rfl

theorem strided_levelOf (dpId dpSize : Nat) (rs : List Request) :
    (levelOf rs).strided dpId dpSize = levelOf (strided rs dpId dpSize) := by
  simp only [Level.strided, levelOf, strided_map]

theorem extend_levelOf (rs rs' : List Request) :
    (levelOf rs).extend (levelOf rs') = levelOf (rs ++ rs') := by
  simp only [Level.extend, levelOf, List.map_append]

theorem zip_arriveTimes_seqIds (rs : List Request) :
    (levelOf rs).arriveTimes.zip (levelOf rs).seqIds =
      rs.map fun r => (r.arriveTime, r.seqId) := by
  rw [levelOf, List.zip_map']

/-- The arrays, sorted by arrival. -/
theorem index_arrival (rs : List Request) :
    (levelOf rs).index (argsort EarlierOrSame ((levelOf rs).arriveTimes.zip (levelOf rs).seqIds)) =
      some (levelOf (sortByArrival rs)) := by
  rw [zip_arriveTimes_seqIds]
  exact index_levelOf (gather_argsort_self EarlierOrSame (fun r => (r.arriveTime, r.seqId)) rs)

theorem sortBySeqIds_levelOf (rs : List Request) :
    (levelOf rs).sortBySeqIds = some (levelOf (sortBySeqId rs)) :=
  index_levelOf (gather_argsort_self (· ≤ ·) Request.seqId rs)

/-- The arrays of a model's requests belong together. -/
structure ModelRequests.Parallel (m : ModelRequests) (arriveTimes : List ℚ) : Prop where
  inpLens : m.inpLens.length = m.seqIds.length
  outLens : m.outLens.length = m.seqIds.length
  arriveTimes : arriveTimes.length = m.seqIds.length

theorem levelOf_requests {m : ModelRequests} {arriveTimes : List ℚ} (h : m.Parallel arriveTimes)
    (extraCost : ℚ) : levelOf (m.requests arriveTimes extraCost) =
      { inpLens := m.inpLens, outLens := m.outLens
        arriveTimes := arriveTimes.map (· - extraCost), seqIds := m.seqIds } := by
  obtain ⟨hinp, hout, harrive⟩ := h
  have hzip : (m.seqIds.zip arriveTimes).length = m.seqIds.length := by
    rw [List.length_zip, harrive, Nat.min_self]
  have hzip' : (m.outLens.zip (m.seqIds.zip arriveTimes)).length = m.seqIds.length := by
    rw [List.length_zip, hzip, hout, Nat.min_self]
  have hall : (m.inpLens.zip (m.outLens.zip (m.seqIds.zip arriveTimes))).map Prod.fst = m.inpLens ∧
      (m.inpLens.zip (m.outLens.zip (m.seqIds.zip arriveTimes))).map Prod.snd =
        m.outLens.zip (m.seqIds.zip arriveTimes) :=
    ⟨List.map_fst_zip (by omega), List.map_snd_zip (by omega)⟩
  have hout' : (m.outLens.zip (m.seqIds.zip arriveTimes)).map Prod.fst = m.outLens ∧
      (m.outLens.zip (m.seqIds.zip arriveTimes)).map Prod.snd = m.seqIds.zip arriveTimes :=
    ⟨List.map_fst_zip (by omega), List.map_snd_zip (by omega)⟩
  have hids : (m.seqIds.zip arriveTimes).map Prod.fst = m.seqIds ∧
      (m.seqIds.zip arriveTimes).map Prod.snd = arriveTimes :=
    ⟨List.map_fst_zip (by omega), List.map_snd_zip (by omega)⟩
  simp only [levelOf, ModelRequests.requests, List.map_map, Level.mk.injEq]
  refine ⟨hall.1, ?_, ?_, ?_⟩
  · conv_rhs => rw [← hout'.1, ← hall.2, List.map_map]
    rfl
  · conv_rhs => rw [← hids.2, ← hout'.2, ← hall.2, List.map_map, List.map_map, List.map_map]
    rfl
  · conv_rhs => rw [← hids.1, ← hout'.2, ← hall.2, List.map_map, List.map_map]
    rfl

/-- The workers of a plan have the arrays of the records `workers` gives them. -/
theorem MyExecPlan.workers_eq {p : MyExecPlan} {arriveTimes : List ℚ}
    (h : p.model.Parallel arriveTimes) :
    p.sortAndPartitionDataParallel arriveTimes = some (p.workers arriveTimes) := by
  have hlevel := levelOf_requests h p.extraCost
  have hsorted := index_arrival (p.model.requests arriveTimes p.extraCost)
  rw [hlevel] at hsorted
  simp only [MyExecPlan.sortAndPartitionDataParallel, hsorted, Option.bind_eq_bind,
    Option.bind_some, strided_levelOf]
  rfl

/-! ## Known requests -/

/-- The request ids of a list. -/
abbrev ids (rs : List Request) : List Nat := rs.map Request.seqId

theorem sortBySeqId_perm (rs : List Request) : (sortBySeqId rs).Perm rs :=
  List.perm_insertionSort _ _

theorem sortByArrival_perm (rs : List Request) : (sortByArrival rs).Perm rs :=
  List.perm_insertionSort _ _

theorem sortBySeqId_sorted (rs : List Request) :
    (sortBySeqId rs).Pairwise fun r r' => r.seqId ≤ r'.seqId := by
  have hpairwise := List.pairwise_insertionSort (fun r r' : Request => r.seqId ≤ r'.seqId) rs
  exact hpairwise

/-- With different ids the order is strict. -/
theorem sortBySeqId_strict {rs : List Request} (hids : (ids rs).Nodup) :
    (sortBySeqId rs).Pairwise fun r r' => r.seqId < r'.seqId := by
  have hnd : ((sortBySeqId rs).map Request.seqId).Nodup :=
    ((sortBySeqId_perm rs).map _).nodup_iff.mpr hids
  exact ((sortBySeqId_sorted rs).and (List.pairwise_map.mp hnd)).imp fun h =>
    Nat.lt_of_le_of_ne h.1 h.2

theorem unique_ids {rs : List Request} (hids : (ids rs).Nodup) :
    unique (ids rs) = ids (sortBySeqId rs) := by
  have hsort : (ids rs).insertionSort (· ≤ ·) = ids (sortBySeqId rs) :=
    (List.map_insertionSort (fun r r' : Request => r.seqId ≤ r'.seqId) (· ≤ ·) Request.seqId rs
      fun _ _ _ _ => Iff.rfl).symm
  rw [unique, hsort, List.dedup_eq_self.mpr]
  exact ((sortBySeqId_perm rs).map _).nodup_iff.mpr hids

theorem carriedOver_eq {known : List Request} (hids : (ids known).Nodup)
    (previous : List Request) :
    carriedOver known previous = (sortBySeqId known).filter (·.seqId ∈ ids previous) := by
  have hfind : ∀ r ∈ (sortBySeqId known).filter (·.seqId ∈ ids previous),
      known.find? (·.seqId = r.seqId) = some r := by
    intro r hr
    have hr := (sortBySeqId_perm known).subset (List.mem_of_mem_filter hr)
    cases hfind : known.find? (·.seqId = r.seqId) with
    | none => exact absurd (decide_eq_true rfl) (List.find?_eq_none.mp hfind r hr)
    | some r' =>
      have hsame := List.find?_some hfind
      rw [decide_eq_true_eq] at hsame
      rw [List.inj_on_of_nodup_map hids (List.mem_of_find?_eq_some hfind) hr hsame]
  have hids' : (unique (ids known)).filter (· ∈ ids previous) =
      ids ((sortBySeqId known).filter (·.seqId ∈ ids previous)) := by
    rw [unique_ids hids, ids, ids, List.filter_map]
    rfl
  rw [carriedOver, hids', List.filterMap_map]
  generalize (sortBySeqId known).filter (·.seqId ∈ ids previous) = l at hfind
  induction l with
  | nil => rfl
  | cons r l ih =>
    rw [List.filterMap_cons, Function.comp_apply, hfind r (.head _),
      ih fun r' hr' => hfind r' (.tail _ hr')]

theorem splitVisited_eq {rs : List Request} (hids : (ids rs).Nodup) (visited : List Nat) :
    splitVisited visited rs = (rs.filter (·.seqId ∉ visited), rs.filter (·.seqId ∈ visited),
      visited ++ ids (rs.filter (·.seqId ∉ visited))) := by
  induction rs generalizing visited with
  | nil => simp [splitVisited]
  | cons r rs ih =>
    obtain ⟨hr, hids⟩ := List.nodup_cons.mp hids
    rw [splitVisited]
    by_cases hv : r.seqId ∈ visited
    · rw [if_pos hv, ih hids]
      simp [hv]
    · have hsame : ∀ q ∈ rs, (q.seqId ∈ visited ++ [r.seqId] ↔ q.seqId ∈ visited) := by
        intro q hq
        have hne : q.seqId ≠ r.seqId := fun heq => hr (heq ▸ List.mem_map_of_mem hq)
        simp [hne]
      have hnew : rs.filter (·.seqId ∉ visited ++ [r.seqId]) = rs.filter (·.seqId ∉ visited) :=
        List.filter_congr fun q hq => by rw [decide_eq_decide, not_congr (hsame q hq)]
      have hold : rs.filter (·.seqId ∈ visited ++ [r.seqId]) = rs.filter (·.seqId ∈ visited) :=
        List.filter_congr fun q hq => by rw [decide_eq_decide, hsame q hq]
      rw [if_neg hv, ih hids, hnew, hold]
      simp [hv]

/-! ## One model -/

section

variable {dpSize : Nat} {rs : List Request} {visited : List Nat} {previous : List (List Request)}

/-- What the workers get of a model, as records. -/
def assigned (dpSize : Nat) (visited : List Nat) (previous : List (List Request))
    (rs : List Request) : List (List Request) :=
  (List.range dpSize).map fun dpId =>
    strided (sortByArrival (rs.filter (·.seqId ∉ visited))) dpId dpSize ++
      carriedOver (rs.filter (·.seqId ∈ visited)) (previous.getD dpId [])

theorem length_assigned : (assigned dpSize visited previous rs).length = dpSize := by
  rw [assigned, List.length_map, List.length_range]

theorem getD_assigned {dpId : Nat} (hdp : dpId < dpSize) :
    (assigned dpSize visited previous rs).getD dpId [] =
      strided (sortByArrival (rs.filter (·.seqId ∉ visited))) dpId dpSize ++
        carriedOver (rs.filter (·.seqId ∈ visited)) (previous.getD dpId []) := by
  rw [assigned, List.getD_eq_getElem?_getD, List.getElem?_map, List.getElem?_range hdp]
  rfl

theorem mem_getD_nil {α : Type} {l : List (List α)} {i : Nat} {a : α} :
    a ∈ l.getD i [] ↔ ∃ part, l[i]? = some part ∧ a ∈ part := by
  rw [List.getD_eq_getElem?_getD]
  cases hl : l[i]? with
  | none => simp
  | some part => simp

/-- A request id that the workers have is with one of them only. -/
theorem owner_unique {parts : List (List Request)} (hnd : (ids parts.flatten).Nodup) {w w' : Nat}
    {seqId : Nat} (hw : seqId ∈ ids (parts.getD w [])) (hw' : seqId ∈ ids (parts.getD w' [])) :
    w = w' := by
  rw [ids, List.map_flatten] at hnd
  obtain ⟨r, hr, rfl⟩ := List.mem_map.mp hw
  obtain ⟨r', hr', heq⟩ := List.mem_map.mp hw'
  obtain ⟨part, hpart, hr⟩ := mem_getD_nil.mp hr
  obtain ⟨part', hpart', hr'⟩ := mem_getD_nil.mp hr'
  have hdisjoint := (List.nodup_flatten.mp hnd).2
  by_contra hne
  have hget := List.pairwise_iff_getElem.mp hdisjoint
  obtain ⟨hlt, rfl⟩ := List.getElem?_eq_some_iff.mp hpart
  obtain ⟨hlt', rfl⟩ := List.getElem?_eq_some_iff.mp hpart'
  rcases Nat.lt_or_gt_of_ne hne with h | h
  · have := hget w w' (by rwa [List.length_map]) (by rwa [List.length_map]) h
    rw [List.getElem_map, List.getElem_map] at this
    exact this (List.mem_map_of_mem hr) (heq ▸ List.mem_map_of_mem hr')
  · have := hget w' w (by rwa [List.length_map]) (by rwa [List.length_map]) h
    rw [List.getElem_map, List.getElem_map] at this
    exact this (heq ▸ List.mem_map_of_mem hr') (List.mem_map_of_mem hr)

/-- The known requests go to the workers that have them. -/
theorem flatMap_carriedOver_perm (hids : (ids rs).Nodup) (hprev : (ids previous.flatten).Nodup)
    (hlen : previous.length ≤ dpSize) (hknown : ∀ r ∈ rs, r.seqId ∈ ids previous.flatten) :
    ((List.range dpSize).flatMap fun dpId => carriedOver rs (previous.getD dpId [])).Perm rs := by
  have hmem : ∀ dpId r, r ∈ carriedOver rs (previous.getD dpId []) ↔
      r ∈ rs ∧ r.seqId ∈ ids (previous.getD dpId []) := fun dpId r => by
    rw [carriedOver_eq hids, List.mem_filter, (sortBySeqId_perm rs).mem_iff, decide_eq_true_eq]
  have hnd : (sortBySeqId rs).Nodup := (sortBySeqId_perm rs).nodup_iff.mpr hids.of_map
  refine (List.perm_ext_iff_of_nodup (List.nodup_flatMap.mpr ⟨fun dpId _ => ?_, ?_⟩)
    hids.of_map).mpr fun r => ?_
  · rw [carriedOver_eq hids]
    exact hnd.filter _
  · refine List.nodup_range.imp fun {w w'} hne r hr hr' => hne ?_
    exact owner_unique hprev ((hmem w r).mp hr).2 ((hmem w' r).mp hr').2
  · rw [List.mem_flatMap]
    constructor
    · rintro ⟨dpId, -, hr⟩
      exact ((hmem dpId r).mp hr).1
    · intro hr
      obtain ⟨q, hq, heq⟩ := List.mem_map.mp (hknown r hr)
      obtain ⟨part, hpart, hq⟩ := List.mem_flatten.mp hq
      obtain ⟨dpId, hdp, rfl⟩ := List.mem_iff_getElem.mp hpart
      refine ⟨dpId, List.mem_range.mpr (hdp.trans_le hlen), (hmem dpId r).mpr ⟨hr, ?_⟩⟩
      rw [List.getD_eq_getElem?_getD, List.getElem?_eq_getElem hdp, ← heq]
      exact List.mem_map_of_mem hq

/-- Together the workers have the requests of the model. -/
theorem assigned_perm (hdp : 0 < dpSize) (hids : (ids rs).Nodup)
    (hprev : (ids previous.flatten).Nodup) (hlen : previous.length ≤ dpSize)
    (hknown : ∀ r ∈ rs, r.seqId ∈ visited → r.seqId ∈ ids previous.flatten) :
    (assigned dpSize visited previous rs).flatten.Perm rs := by
  have hunknown : ((List.range dpSize).flatMap fun dpId =>
      strided (sortByArrival (rs.filter (·.seqId ∉ visited))) dpId dpSize).Perm
      (rs.filter (·.seqId ∉ visited)) := (pending_range hdp _).trans (sortByArrival_perm _)
  have hcarried : ((List.range dpSize).flatMap fun dpId =>
      carriedOver (rs.filter (·.seqId ∈ visited)) (previous.getD dpId [])).Perm
      (rs.filter (·.seqId ∈ visited)) := by
    refine flatMap_carriedOver_perm (hids.sublist (List.filter_sublist.map _)) hprev hlen
      fun r hr => ?_
    obtain ⟨hr, hv⟩ := List.mem_filter.mp hr
    exact hknown r hr (of_decide_eq_true hv)
  have hsplit : (rs.filter (·.seqId ∉ visited) ++ rs.filter (·.seqId ∈ visited)).Perm rs := by
    have hperm := List.filter_append_perm (fun r : Request => decide (r.seqId ∉ visited)) rs
    simpa using hperm
  rw [assigned, ← List.flatMap_def]
  exact (List.flatMap_append_perm _ _ _).symm.trans ((hunknown.append hcarried).trans hsplit)

/-- A request that has been seen stays with its worker. -/
theorem assigned_owner (hids : (ids rs).Nodup) (hprev : (ids previous.flatten).Nodup)
    {w w' seqId : Nat} (hv : seqId ∈ visited) (hw : seqId ∈ ids (previous.getD w []))
    (hw' : seqId ∈ ids ((assigned dpSize visited previous rs).getD w' [])) : w = w' := by
  obtain ⟨r, hr, rfl⟩ := List.mem_map.mp hw'
  obtain ⟨part, hpart, -⟩ := mem_getD_nil.mp hr
  have hlt : w' < dpSize := (List.getElem?_eq_some_iff.mp hpart).1.trans_eq length_assigned
  rw [getD_assigned hlt, List.mem_append] at hr
  rcases hr with hr | hr
  · -- Only requests that have not been seen are dealt out.
    have hr := (sortByArrival_perm _).subset ((strided_sublist _ _ _).subset hr)
    exact absurd hv (of_decide_eq_true (List.mem_filter.mp hr).2)
  · rw [carriedOver_eq (hids.sublist (List.filter_sublist.map _))] at hr
    exact owner_unique hprev hw (of_decide_eq_true (List.mem_filter.mp hr).2)

end

/-! ## All models -/

section

variable {dpSize : Nat} {extraCost : ℚ}

/-- The requests of the models, one after the other. -/
def modelRequests (extraCost : ℚ) (models : List (ModelRequests × List ℚ)) : List (List Request) :=
  models.map fun m => m.1.requests m.2 extraCost

/-- A request that has been seen is one of the model just before. -/
def Linked : List Nat → List Nat → List (List Request) → Prop
  | _, _, [] => True
  | visited, last, rs :: rest =>
    (∀ r ∈ rs, r.seqId ∈ visited → r.seqId ∈ last) ∧ Linked (visited ++ ids rs) (ids rs) rest

theorem Linked.congr {visited visited' last last' : List Nat} {models : List (List Request)}
    (h : Linked visited last models) (hv : ∀ i, i ∈ visited' ↔ i ∈ visited)
    (hl : ∀ i, i ∈ last' ↔ i ∈ last) : Linked visited' last' models := by
  induction models generalizing visited visited' last last' with
  | nil => trivial
  | cons rs rest ih =>
    obtain ⟨hfirst, hrest⟩ := h
    refine ⟨fun r hr hvis => (hl _).mpr (hfirst r hr ((hv _).mp hvis)), ih hrest (fun i => ?_)
      fun _ => Iff.rfl⟩
    rw [List.mem_append, List.mem_append, hv]

/-- The models of an id are consecutive. -/
def Consecutive (models : List (List Request)) : Prop :=
  ∀ (i j k seqId : Nat), i < j → j < k → seqId ∈ ids (models.getD i []) →
    seqId ∈ ids (models.getD k []) → seqId ∈ ids (models.getD j [])

theorem Consecutive.linked {models : List (List Request)} (h : Consecutive models) :
    Linked [] [] models := by
  have hall : ∀ before rest, models = before ++ rest →
      Linked (before.flatMap ids) (ids (before.getLastD [])) rest := by
    intro before rest
    induction rest generalizing before with
    | nil => exact fun _ => trivial
    | cons rs rest ih =>
      intro heq
      constructor
      · intro r hr hv
        obtain ⟨l, hl, hr'⟩ := List.mem_flatMap.mp hv
        obtain ⟨i, hi, rfl⟩ := List.mem_iff_getElem.mp hl
        have hlast : before.getLastD [] = models.getD (before.length - 1) [] := by
          rw [heq, List.getLastD_eq_getLast?, List.getLast?_eq_getElem?,
            List.getD_eq_getElem?_getD, List.getElem?_append_left (by omega)]
        rw [hlast]
        have hfirst : r.seqId ∈ ids (models.getD i []) := by
          rw [heq, List.getD_eq_getElem?_getD, List.getElem?_append_left hi,
            List.getElem?_eq_getElem hi]
          exact hr'
        have hnow : r.seqId ∈ ids (models.getD before.length []) := by
          rw [heq, List.getD_eq_getElem?_getD, List.getElem?_append_right (le_refl _),
            Nat.sub_self, List.getElem?_cons_zero]
          exact List.mem_map_of_mem hr
        rcases Nat.lt_or_ge i (before.length - 1) with hlt | hge
        · exact h i (before.length - 1) before.length _ hlt (by omega) hfirst hnow
        · obtain rfl : i = before.length - 1 := by omega
          exact hfirst
      · have hstep := ih (before ++ [rs]) (by rw [heq, List.append_assoc, List.singleton_append])
        rw [List.flatMap_append, List.flatMap_singleton, List.getLastD_concat] at hstep
        exact hstep
  exact hall [] models rfl

/-- An id seen before that comes again has come every time in between. -/
theorem Linked.mem_first {visited last : List Nat} {rs : List Request}
    {rest : List (List Request)} (h : Linked visited last (rs :: rest)) {seqId i : Nat}
    (hv : seqId ∈ visited) (hi : seqId ∈ ids (rest.getD i [])) : seqId ∈ ids rs := by
  induction rest generalizing visited last rs i with
  | nil => exact absurd hi (by simp)
  | cons rs' rest ih =>
    have hnext : seqId ∈ ids rs' → seqId ∈ ids rs := fun hmem => by
      obtain ⟨r, hr, rfl⟩ := List.mem_map.mp hmem
      exact h.2.1 r hr (List.mem_append_left _ hv)
    cases i with
    | zero => exact hnext hi
    | succ i => exact hnext (ih h.2 (List.mem_append_left _ hv) hi)

/-- What holds of the workers' requests, model by model. -/
structure DealtOut (dpSize : Nat) (previous : List (List Request))
    (models : List (List Request)) (parts : List (List (List Request))) : Prop where
  length_eq : parts.length = models.length
  workers : ∀ part ∈ parts, part.length = dpSize
  perm : ∀ i, (parts.getD i []).flatten.Perm (models.getD i [])
  previous_owner : ∀ (i w w' seqId : Nat), seqId ∈ ids (previous.getD w []) →
    seqId ∈ ids ((parts.getD i []).getD w' []) → w = w'
  same_owner : ∀ (i j w w' seqId : Nat), seqId ∈ ids ((parts.getD i []).getD w []) →
    seqId ∈ ids ((parts.getD j []).getD w' []) → w = w'

theorem mem_flatten_of_getD {parts : List (List Request)} {w : Nat} {seqId : Nat}
    (h : seqId ∈ ids (parts.getD w [])) : seqId ∈ ids parts.flatten := by
  obtain ⟨r, hr, rfl⟩ := List.mem_map.mp h
  obtain ⟨part, hpart, hr⟩ := mem_getD_nil.mp hr
  exact List.mem_map_of_mem (List.mem_flatten.mpr ⟨part, List.mem_of_getElem? hpart, hr⟩)

theorem exists_owner {parts : List (List Request)} {seqId : Nat}
    (h : seqId ∈ ids parts.flatten) : ∃ w, seqId ∈ ids (parts.getD w []) := by
  obtain ⟨r, hr, rfl⟩ := List.mem_map.mp h
  obtain ⟨part, hpart, hr⟩ := List.mem_flatten.mp hr
  obtain ⟨w, hw, rfl⟩ := List.mem_iff_getElem.mp hpart
  refine ⟨w, ?_⟩
  rw [List.getD_eq_getElem?_getD, List.getElem?_eq_getElem hw]
  exact List.mem_map_of_mem hr

theorem assignModels_cons {visited : List Nat} {previous : List (List Request)}
    {m : ModelRequests} {arriveTimes : List ℚ} {rest : List (ModelRequests × List ℚ)}
    (hids : (ids (m.requests arriveTimes extraCost)).Nodup) :
    assignModels dpSize extraCost visited previous ((m, arriveTimes) :: rest) =
      if m.seqIds.Pairwise (· ≤ ·) then
        (assignModels dpSize extraCost
          (visited ++ ids ((m.requests arriveTimes extraCost).filter (·.seqId ∉ visited)))
          (assigned dpSize visited previous (m.requests arriveTimes extraCost)) rest).map
            (assigned dpSize visited previous (m.requests arriveTimes extraCost) :: ·)
      else none := by
  rw [assignModels, splitVisited_eq hids]
  rfl

theorem assignModels_spec (hdp : 0 < dpSize) {visited : List Nat}
    {previous : List (List Request)} {models : List (ModelRequests × List ℚ)}
    {parts : List (List (List Request))}
    (hids : ∀ rs ∈ modelRequests extraCost models, (ids rs).Nodup)
    (hprev : (ids previous.flatten).Nodup) (hlen : previous.length ≤ dpSize)
    (hvisited : ∀ seqId ∈ ids previous.flatten, seqId ∈ visited)
    (hlinked : Linked visited (ids previous.flatten) (modelRequests extraCost models))
    (hrun : assignModels dpSize extraCost visited previous models = some parts) :
    DealtOut dpSize previous (modelRequests extraCost models) parts := by
  induction models generalizing visited previous parts with
  | nil =>
    obtain rfl := Option.some.inj hrun
    constructor <;> simp [modelRequests]
  | cons m models ih =>
    obtain ⟨m, arriveTimes⟩ := m
    have hfirst : (ids (m.requests arriveTimes extraCost)).Nodup := hids _ (.head _)
    rw [assignModels_cons hfirst] at hrun
    split at hrun
    · obtain ⟨later, hlater, rfl⟩ := Option.map_eq_some_iff.mp hrun
      have hperm := assigned_perm hdp hfirst hprev hlen hlinked.1
      have hidsPerm := hperm.map Request.seqId
      have hseen : ∀ i, i ∈ visited ++ ids (m.requests arriveTimes extraCost) ↔
          i ∈ visited ++
            ids ((m.requests arriveTimes extraCost).filter (·.seqId ∉ visited)) := by
        intro i
        rw [List.mem_append, List.mem_append]
        refine or_congr_right' fun hi => ⟨fun hmem => ?_, fun hmem => ?_⟩
        · obtain ⟨r, hr, rfl⟩ := List.mem_map.mp hmem
          exact List.mem_map_of_mem (List.mem_filter.mpr ⟨hr, decide_eq_true hi⟩)
        · exact (List.filter_sublist.map _).subset hmem
      have h := ih (fun rs hrs => hids rs (.tail _ hrs)) (hidsPerm.nodup_iff.mpr hfirst)
        length_assigned.le
        (fun i hi => (hseen i).mp (List.mem_append_right _ (hidsPerm.subset hi)))
        (hlinked.2.congr (fun i => (hseen i).symm) fun i => hidsPerm.mem_iff) hlater
      -- A request of an earlier model that comes again later comes in this model too.
      have hthrough : ∀ (i w w' seqId : Nat), seqId ∈ ids (previous.getD w []) →
          seqId ∈ ids ((later.getD i []).getD w' []) → w = w' := by
        intro i w w' seqId hw hw'
        have hv := hvisited _ (mem_flatten_of_getD hw)
        have hin : seqId ∈ ids ((modelRequests extraCost models).getD i []) :=
          ((h.perm i).map Request.seqId).subset (mem_flatten_of_getD hw')
        obtain ⟨w'', hw''⟩ := exists_owner (hidsPerm.symm.subset (hlinked.mem_first hv hin))
        exact (assigned_owner hfirst hprev hv hw hw'').trans (h.previous_owner i w'' w' seqId hw'' hw')
      constructor
      case length_eq => exact congrArg (· + 1) h.length_eq
      case workers =>
        intro part hpart
        rcases List.mem_cons.mp hpart with rfl | hpart
        · exact length_assigned
        · exact h.workers part hpart
      case perm =>
        intro i
        cases i with
        | zero => exact hperm
        | succ i => exact h.perm i
      case previous_owner =>
        intro i w w' seqId hw hw'
        cases i with
        | zero => exact assigned_owner hfirst hprev (hvisited _ (mem_flatten_of_getD hw)) hw hw'
        | succ i => exact hthrough i w w' seqId hw hw'
      case same_owner =>
        intro i j w w' seqId hw hw'
        cases i with
        | zero =>
          cases j with
          | zero => exact owner_unique (hidsPerm.nodup_iff.mpr hfirst) hw hw'
          | succ j => exact h.previous_owner j w w' seqId hw hw'
        | succ i =>
          cases j with
          | zero => exact (h.previous_owner i w' w seqId hw' hw).symm
          | succ j => exact h.same_owner i j w w' seqId hw hw'
    · cases hrun

theorem assignModels_total {models : List (ModelRequests × List ℚ)} (visited : List Nat)
    (previous : List (List Request)) :
    (∃ parts, assignModels dpSize extraCost visited previous models = some parts) ↔
      ∀ m ∈ models, m.1.seqIds.Pairwise (· ≤ ·) := by
  induction models generalizing visited previous with
  | nil => exact ⟨fun _ m hm => absurd hm List.not_mem_nil, fun _ => ⟨[], rfl⟩⟩
  | cons m models ih =>
    obtain ⟨m, arriveTimes⟩ := m
    rw [assignModels]
    split
    rw [List.forall_mem_cons]
    by_cases hsorted : m.seqIds.Pairwise (· ≤ ·)
    · rw [if_pos hsorted, and_iff_right hsorted, ← ih]
      constructor
      · rintro ⟨parts, hparts⟩
        obtain ⟨later, hlater, -⟩ := Option.map_eq_some_iff.mp hparts
        exact ⟨later, hlater⟩
      · rintro ⟨later, hlater⟩
        exact ⟨_, by rw [hlater]; rfl⟩
    · rw [if_neg hsorted]
      constructor
      · rintro ⟨_, h⟩
        cases h
      · exact fun h => absurd h.1 hsorted

end

/-! ## The arrays of fused plans -/

section

variable {dpSize : Nat} {extraCost : ℚ}

theorem getD_map_levelOf (parts : List (List Request)) (dpId : Nat) :
    (parts.map levelOf).getD dpId .empty = levelOf (parts.getD dpId []) := by
  rw [List.getD_eq_getElem?_getD, List.getD_eq_getElem?_getD, List.getElem?_map]
  cases parts[dpId]? <;> rfl

theorem sortAndAssign_eq (rs : List Request) :
    sortAndAssign dpSize rs (List.replicate dpSize .empty) =
      some ((List.range dpSize).map fun dpId =>
        levelOf (strided (sortByArrival rs) dpId dpSize)) := by
  simp only [sortAndAssign, index_arrival, Option.bind_eq_bind, Option.bind_some, strided_levelOf]
  refine congrArg some (List.map_congr_left fun dpId hdp => ?_)
  have hempty : (List.replicate dpSize Level.empty).getD dpId .empty = levelOf [] := by
    rw [List.getD_eq_getElem?_getD, List.getElem?_replicate, if_pos (List.mem_range.mp hdp)]
    rfl
  rw [hempty, extend_levelOf, List.nil_append]

theorem assignInConsistent_eq {known : List Request} (hids : (ids known).Nodup)
    (previous parts : List (List Request)) :
    assignInConsistent dpSize known (previous.map levelOf) (parts.map levelOf) =
      some ((List.range dpSize).map fun dpId =>
        levelOf (parts.getD dpId [] ++ carriedOver known (previous.getD dpId []))) := by
  rw [assignInConsistent]
  refine mapM_of_forall fun dpId _ => ?_
  have hadd : (unique (levelOf known).seqIds).filter
      (· ∈ ((previous.map levelOf).getD dpId .empty).seqIds) =
      ids (carriedOver known (previous.getD dpId [])) := by
    rw [getD_map_levelOf, carriedOver_eq hids]
    show (unique (ids known)).filter _ = _
    rw [unique_ids hids, ids, ids, List.filter_map]
    rfl
  have hsub : carriedOver known (previous.getD dpId []) ⊆ sortBySeqId known := by
    rw [carriedOver_eq hids]
    exact List.filter_sublist.subset
  have hsorted := sortBySeqIds_levelOf known
  rw [Level.sortBySeqIds] at hsorted
  have hadded := index_levelOf (gather_searchsorted (sortBySeqId_strict hids) hsub)
  simp only [hsorted, hadd, Option.bind_eq_bind, Option.bind_some]
  show ((levelOf (sortBySeqId known)).index _).bind _ = _
  rw [show (levelOf (sortBySeqId known)).seqIds = (sortBySeqId known).map Request.seqId from rfl,
    hadded, Option.bind_some, getD_map_levelOf, extend_levelOf]
  rfl

theorem assignArrays_eq {models : List (ModelRequests × List ℚ)} (visited : List Nat)
    (previous : List (List Request))
    (hids : ∀ rs ∈ modelRequests extraCost models, (ids rs).Nodup) :
    assignArrays dpSize extraCost visited (previous.map levelOf) models =
      (assignModels dpSize extraCost visited previous models).map (·.map (·.map levelOf)) := by
  induction models generalizing visited previous with
  | nil => rfl
  | cons m models ih =>
    obtain ⟨m, arriveTimes⟩ := m
    have hfirst : (ids (m.requests arriveTimes extraCost)).Nodup := hids _ (.head _)
    rw [assignModels_cons hfirst, assignArrays, splitVisited_eq hfirst]
    by_cases hsorted : m.seqIds.Pairwise (· ≤ ·)
    · have hdealt : (List.range dpSize).map (fun dpId => levelOf (strided (sortByArrival
          ((m.requests arriveTimes extraCost).filter (·.seqId ∉ visited))) dpId dpSize)) =
          ((List.range dpSize).map fun dpId => strided (sortByArrival
            ((m.requests arriveTimes extraCost).filter (·.seqId ∉ visited))) dpId dpSize).map
              levelOf := by
        rw [List.map_map]
        rfl
      have hmine : (List.range dpSize).map (fun dpId => levelOf (((List.range dpSize).map fun dpId =>
          strided (sortByArrival ((m.requests arriveTimes extraCost).filter
            (·.seqId ∉ visited))) dpId dpSize).getD dpId [] ++
          carriedOver ((m.requests arriveTimes extraCost).filter (·.seqId ∈ visited))
            (previous.getD dpId []))) =
          (assigned dpSize visited previous (m.requests arriveTimes extraCost)).map levelOf := by
        rw [assigned, List.map_map]
        refine List.map_congr_left fun dpId hdp => ?_
        rw [List.getD_eq_getElem?_getD, List.getElem?_map,
          List.getElem?_range (List.mem_range.mp hdp)]
        rfl
      simp only [if_pos hsorted, sortAndAssign_eq, hdealt, Option.bind_eq_bind, Option.bind_some,
        assignInConsistent_eq (hfirst.sublist (List.filter_sublist.map _)), hmine,
        ih _ _ fun rs hrs => hids rs (.tail _ hrs)]
      cases assignModels dpSize extraCost _ _ models <;> rfl
    · simp only [if_neg hsorted]
      rfl

/-- The workers of a fused plan have the arrays of the records `workers` gives them. -/
theorem MyVerticalFusedExecPlan.workers_eq {p : MyVerticalFusedExecPlan}
    {arriveTimesList : List (List ℚ)}
    (hids : ∀ rs ∈ modelRequests p.extraCost (p.modelList.zip arriveTimesList), (ids rs).Nodup) :
    p.sortAndPartitionDataParallel arriveTimesList = p.workers arriveTimesList := by
  have harrays : assignArrays p.key.dpSize p.extraCost [] [] (p.modelList.zip arriveTimesList) =
      (assignModels p.key.dpSize p.extraCost [] [] (p.modelList.zip arriveTimesList)).map
        (·.map (·.map levelOf)) := assignArrays_eq [] [] hids
  rw [MyVerticalFusedExecPlan.sortAndPartitionDataParallel, MyVerticalFusedExecPlan.workers, harrays]
  cases assignModels p.key.dpSize p.extraCost [] [] (p.modelList.zip arriveTimesList) with
  | none => rfl
  | some parts =>
    refine mapM_of_forall fun dpId _ => ?_
    rw [List.mapM_map]
    refine mapM_of_forall fun part _ => ?_
    rw [Function.comp_apply, getD_map_levelOf, sortBySeqIds_levelOf]

end

end Mil.Fcfs
