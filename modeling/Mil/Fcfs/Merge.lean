import Mil.Fcfs.Lossless

/-!
# Merging loses nothing

What the workers are left with after a stage describes their survivors: the selected ids are those
of the survivors, and the new lengths are theirs. The merged arrays are the arrays of all survivors,
sorted by their ids (`mergeNewInpOutLens_spec`). With what the workers were given in the first place
(`assignModels_spec`), a model's requests are dealt out and merged back without loss, for a single
model and for fused ones.
-/

set_option autoImplicit false

namespace Mil.Fcfs

open Mil.Lib

/-! ## Survivors -/

/-- A request that is left, with its new lengths. -/
structure Survivor where
  inpLen : Nat
  outLen : Nat
  seqId : Nat
deriving DecidableEq

/-- What a worker with these ids is left with are these survivors. -/
structure NewLens.Describes (seqIds : List Nat) (d : NewLens) (survivors : List Survivor) :
    Prop where
  selects : d.valid.Selects seqIds.length
  seqIds : d.valid.select seqIds = some (survivors.map Survivor.seqId)
  inpLens : d.inpLens = survivors.map Survivor.inpLen
  outLens : d.outLens = survivors.map Survivor.outLen

/-- What a worker of fused models is left with, given what it is left with of each. -/
def NewLensForModels.ofModels (ds : List NewLens) : NewLensForModels where
  inpLens := ds.map NewLens.inpLens
  outLens := ds.map NewLens.outLens
  valid := ds.map NewLens.valid

/-- The arrays of the survivors in the order of their ids. -/
structure MergedTo (survivors merged : List Survivor) : Prop where
  perm : merged.Perm survivors
  sorted : merged.Pairwise fun a b => a.seqId < b.seqId

theorem Selector.select_subperm {s : Selector} {seqIds selected : List Nat}
    (hs : s.Selects seqIds.length) (hids : seqIds.Nodup) (h : s.select seqIds = some selected) :
    selected.Subperm seqIds := by
  cases s with
  | indices positions =>
    refine List.subperm_of_subset (nodup_gather hs.1 hids h) fun a ha => ?_
    obtain ⟨i, -, hi⟩ := (mem_gather h).mp ha
    exact List.mem_of_getElem? hi
  | mask flags =>
    have hlen : flags.length = seqIds.length := hs
    rw [Selector.select, if_pos hlen] at h
    obtain rfl := Option.some.inj h
    have hsub := (List.filter_sublist (p := Prod.snd) (l := seqIds.zip flags)).map Prod.fst
    rw [List.map_fst_zip hlen.ge] at hsub
    exact hsub.subperm

/-! ## One model -/

section

variable {idss : List (List Nat)} {left : List (NewLens × List Survivor)}

theorem select_left (h : List.Forall₂ (fun seqIds e => e.1.Describes seqIds e.2) idss left) :
    ((idss.zip (left.map Prod.fst)).mapM fun e => e.2.valid.select e.1) =
      some (left.map fun e => e.2.map Survivor.seqId) := by
  induction h with
  | nil => rfl
  | cons hd _ ih =>
    rw [List.map_cons, List.zip_cons_cons, List.mapM_cons, hd.seqIds, ih]
    rfl

theorem subperm_left (h : List.Forall₂ (fun seqIds e => e.1.Describes seqIds e.2) idss left)
    (hids : idss.flatten.Nodup) :
    ((left.map Prod.snd).flatten.map Survivor.seqId).Subperm idss.flatten := by
  induction h with
  | nil => exact List.Subperm.refl _
  | cons hd _ ih =>
    rw [List.flatten_cons] at hids
    rw [List.map_cons, List.flatten_cons, List.flatten_cons, List.map_append]
    exact (Selector.select_subperm hd.selects hids.of_append_left hd.seqIds).append
      (ih hids.of_append_right)

theorem lens_left (h : List.Forall₂ (fun seqIds e => e.1.Describes seqIds e.2) idss left) :
    ((left.map Prod.fst).map NewLens.inpLens).flatten =
        (left.map Prod.snd).flatten.map Survivor.inpLen ∧
      ((left.map Prod.fst).map NewLens.outLens).flatten =
        (left.map Prod.snd).flatten.map Survivor.outLen := by
  induction h with
  | nil => exact ⟨rfl, rfl⟩
  | cons hd _ ih =>
    simp only [List.map_cons, List.flatten_cons, List.map_append, ih.1, ih.2, hd.inpLens,
      hd.outLens, and_self]

/-- The merged arrays are those of the survivors, in the order of their ids. -/
theorem mergeNewInpOutLens_spec
    (h : List.Forall₂ (fun seqIds e => e.1.Describes seqIds e.2) idss left)
    (hids : idss.flatten.Nodup) :
    ∃ merged, mergeNewInpOutLens idss (left.map Prod.fst) =
        some (merged.map Survivor.inpLen, merged.map Survivor.outLen, merged.map Survivor.seqId) ∧
      MergedTo (left.map Prod.snd).flatten merged := by
  have hselected : (left.map fun e => e.2.map Survivor.seqId).flatten =
      (left.map Prod.snd).flatten.map Survivor.seqId := by
    rw [List.map_flatten, List.map_map]
    rfl
  obtain ⟨hinp, hout⟩ := lens_left h
  have hperm := List.perm_insertionSort (fun a b : Survivor => a.seqId ≤ b.seqId)
    (left.map Prod.snd).flatten
  refine ⟨(left.map Prod.snd).flatten.insertionSort fun a b => a.seqId ≤ b.seqId, ?_, hperm, ?_⟩
  · rw [mergeNewInpOutLens, select_left h]
    simp only [Option.bind_eq_bind, Option.bind_some, hselected, hinp, hout, gather_argsort]
    rfl
  · have hnd : (((left.map Prod.snd).flatten.insertionSort fun a b =>
        a.seqId ≤ b.seqId).map Survivor.seqId).Nodup := by
      obtain ⟨l, hl, hsub⟩ := subperm_left h hids
      exact (hl.trans (hperm.map _).symm).nodup_iff.mp (hids.sublist hsub)
    have hsorted := List.pairwise_insertionSort (fun a b : Survivor => a.seqId ≤ b.seqId)
      (left.map Prod.snd).flatten
    exact (hsorted.and (List.pairwise_map.mp hnd)).imp fun hlt => Nat.lt_of_le_of_ne hlt.1 hlt.2

end

/-! ## Fused models -/

section

variable {idss : List (List (List Nat))} {left : List (List (NewLens × List Survivor))}

/-- The survivors of the `i`-th model, of all workers. -/
def survivorsOf (left : List (List (NewLens × List Survivor))) (i : Nat) : List Survivor :=
  left.flatMap fun models => (models.map Prod.snd).getD i []

theorem survivorsOf_eq (left : List (List (NewLens × List Survivor))) (i : Nat) :
    ((left.filterMap (·[i]?)).map Prod.snd).flatten = survivorsOf left i := by
  induction left with
  | nil => rfl
  | cons models left ih =>
    rw [survivorsOf, List.flatMap_cons, ← survivorsOf, ← ih, List.filterMap_cons,
      List.getD_eq_getElem?_getD, List.getElem?_map]
    cases models[i]? <;> rfl

theorem exists_at {α β : Type} {R : α → β → Prop} {l : List α} {l' : List β}
    (h : List.Forall₂ R l l') {i : Nat} (hi : i < l.length) :
    ∃ a b, l[i]? = some a ∧ l'[i]? = some b ∧ R a b := by
  have hi' : i < l'.length := h.length_eq ▸ hi
  exact ⟨l[i], l'[i], List.getElem?_eq_getElem hi, List.getElem?_eq_getElem hi',
    (List.forall₂_iff_get.mp h).2 i hi hi'⟩

/-- One model of every worker. -/
theorem column_left {modelNum i : Nat} (hi : i < modelNum)
    (hmodels : ∀ idsOfModels ∈ idss, idsOfModels.length = modelNum)
    (h : List.Forall₂ (List.Forall₂ fun seqIds e => e.1.Describes seqIds e.2) idss left) :
    idss.mapM (·[i]?) = some (idss.filterMap (·[i]?)) ∧
      ((left.map fun models => NewLensForModels.ofModels (models.map Prod.fst)).mapM
        fun dpData => dpData.ofModel i) = some ((left.filterMap (·[i]?)).map Prod.fst) ∧
      List.Forall₂ (fun seqIds e => e.1.Describes seqIds e.2) (idss.filterMap (·[i]?))
        (left.filterMap (·[i]?)) := by
  induction h with
  | nil => exact ⟨rfl, rfl, .nil⟩
  | @cons idsOfModels models idss left hd h ih =>
    obtain ⟨hlen, hmodels⟩ := List.forall_mem_cons.mp hmodels
    obtain ⟨hids, hlens, hdescribes⟩ := ih hmodels
    obtain ⟨seqIds, e, hseqIds, he, hfirst⟩ := exists_at hd (hi.trans_eq hlen.symm)
    have hof : (NewLensForModels.ofModels (models.map Prod.fst)).ofModel i = some e.1 := by
      simp only [NewLensForModels.ofModel, NewLensForModels.ofModels, List.getElem?_map, he]
      rfl
    refine ⟨?_, ?_, ?_⟩
    · rw [List.mapM_cons, hseqIds, hids, List.filterMap_cons, hseqIds]
      rfl
    · rw [List.map_cons, List.mapM_cons, hof, hlens, List.filterMap_cons, he]
      rfl
    · rw [List.filterMap_cons, List.filterMap_cons, hseqIds, he]
      exact .cons hfirst hdescribes

/-- For every model the merged arrays are those of its survivors. -/
theorem mergeNewInpOutLensForModels_spec {modelNum : Nat}
    (hmodels : ∀ idsOfModels ∈ idss, idsOfModels.length = modelNum)
    (h : List.Forall₂ (List.Forall₂ fun seqIds e => e.1.Describes seqIds e.2) idss left)
    (hids : ∀ i < modelNum, (idss.filterMap (·[i]?)).flatten.Nodup) :
    ∃ merged : List (List Survivor),
      mergeNewInpOutLensForModels modelNum idss
          (left.map fun models => NewLensForModels.ofModels (models.map Prod.fst)) =
        some (merged.map (·.map Survivor.inpLen), merged.map (·.map Survivor.outLen),
          merged.map (·.map Survivor.seqId)) ∧
      merged.length = modelNum ∧
      ∀ i < modelNum, MergedTo (survivorsOf left i) (merged.getD i []) := by
  have hone : ∀ i, ∃ merged : List Survivor, i < modelNum →
      mergeNewInpOutLens (idss.filterMap (·[i]?)) ((left.filterMap (·[i]?)).map Prod.fst) =
        some (merged.map Survivor.inpLen, merged.map Survivor.outLen,
          merged.map Survivor.seqId) ∧ MergedTo (survivorsOf left i) merged := by
    intro i
    by_cases hi : i < modelNum
    · obtain ⟨merged, hmerged, hto⟩ :=
        mergeNewInpOutLens_spec (column_left hi hmodels h).2.2 (hids i hi)
      rw [survivorsOf_eq] at hto
      exact ⟨merged, fun _ => ⟨hmerged, hto⟩⟩
    · exact ⟨[], fun hlt => absurd hlt hi⟩
  choose merged hmerged using hone
  refine ⟨(List.range modelNum).map merged, ?_, by rw [List.length_map, List.length_range], ?_⟩
  · have hrun : ∀ i ∈ List.range modelNum, (do
        let newInpOutLensList ← (left.map fun models =>
          NewLensForModels.ofModels (models.map Prod.fst)).mapM fun dpData => dpData.ofModel i
        let dpInpSeqIdsList ← idss.mapM fun dpData => dpData[i]?
        mergeNewInpOutLens dpInpSeqIdsList newInpOutLensList) =
        some ((merged i).map Survivor.inpLen, (merged i).map Survivor.outLen,
          (merged i).map Survivor.seqId) := by
      intro i hi
      have hi := List.mem_range.mp hi
      obtain ⟨hids, hlens, -⟩ := column_left hi hmodels h
      rw [hlens, Option.bind_eq_bind, Option.bind_some, hids, Option.bind_eq_bind,
        Option.bind_some]
      exact (hmerged i hi).1
    rw [mergeNewInpOutLensForModels, mapM_of_forall hrun]
    simp only [Option.bind_eq_bind, Option.bind_some, List.map_map]
    rfl
  · intro i hi
    rw [List.getD_eq_getElem?_getD, List.getElem?_map, List.getElem?_range hi]
    exact (hmerged i hi).2

end

/-! ## Dealing out and merging -/

/-- Every request is dealt out to one worker, and merging what the workers are left with gives the
arrays of the survivors. -/
def MyExecPlan.Lossless (p : MyExecPlan) (arriveTimes : List ℚ) : Prop :=
  ∃ workers : List (List Request),
    p.sortAndPartitionDataParallel arriveTimes = some (workers.map levelOf) ∧
    workers.length = p.key.dpSize ∧
    workers.flatten.Perm (p.model.requests arriveTimes p.extraCost) ∧
    ∀ left : List (NewLens × List Survivor),
      List.Forall₂ (fun seqIds e => e.1.Describes seqIds e.2) (workers.map ids) left →
      ∃ merged, mergeNewInpOutLens (workers.map ids) (left.map Prod.fst) =
          some (merged.map Survivor.inpLen, merged.map Survivor.outLen,
            merged.map Survivor.seqId) ∧
        MergedTo (left.map Prod.snd).flatten merged

/-- The same for each of the fused models; a request has the same worker in all of them. -/
def MyVerticalFusedExecPlan.Lossless (p : MyVerticalFusedExecPlan)
    (arriveTimesList : List (List ℚ)) : Prop :=
  ∃ workers : List (List (List Request)),
    p.sortAndPartitionDataParallel arriveTimesList = some (workers.map (·.map levelOf)) ∧
    workers.length = p.key.dpSize ∧ (∀ levels ∈ workers, levels.length = p.modelList.length) ∧
    (∀ i, (workers.map (·.getD i [])).flatten.Perm
      ((modelRequests p.extraCost (p.modelList.zip arriveTimesList)).getD i [])) ∧
    (∀ (i j w w' seqId : Nat), seqId ∈ ids ((workers.getD w []).getD i []) →
      seqId ∈ ids ((workers.getD w' []).getD j []) → w = w') ∧
    ∀ left : List (List (NewLens × List Survivor)),
      List.Forall₂ (List.Forall₂ fun seqIds e => e.1.Describes seqIds e.2)
        (workers.map (·.map ids)) left →
      ∃ merged : List (List Survivor),
        mergeNewInpOutLensForModels p.modelList.length (workers.map (·.map ids))
            (left.map fun models => NewLensForModels.ofModels (models.map Prod.fst)) =
          some (merged.map (·.map Survivor.inpLen), merged.map (·.map Survivor.outLen),
            merged.map (·.map Survivor.seqId)) ∧
        merged.length = p.modelList.length ∧
        ∀ i < p.modelList.length, MergedTo (survivorsOf left i) (merged.getD i [])

theorem ids_requests {m : ModelRequests} {arriveTimes : List ℚ} (h : m.Parallel arriveTimes)
    (extraCost : ℚ) : ids (m.requests arriveTimes extraCost) = m.seqIds :=
  congrArg Level.seqIds (levelOf_requests h extraCost)

theorem MyExecPlan.lossless {p : MyExecPlan} {arriveTimes : List ℚ}
    (h : p.model.Parallel arriveTimes) (hids : p.model.seqIds.Nodup) (hdp : 0 < p.key.dpSize) :
    p.Lossless arriveTimes := by
  have hperm : ((List.range p.key.dpSize).map fun dpId => strided (sortByArrival
      (p.model.requests arriveTimes p.extraCost)) dpId p.key.dpSize).flatten.Perm
      (p.model.requests arriveTimes p.extraCost) := by
    rw [← List.flatMap_def]
    exact (pending_range hdp _).trans (sortByArrival_perm _)
  refine ⟨_, (workers_eq h).trans (congrArg some ?_), ?_, hperm, fun left hleft => ?_⟩
  · rw [MyExecPlan.workers, List.map_map]
    rfl
  · rw [List.length_map, List.length_range]
  · refine mergeNewInpOutLens_spec hleft ?_
    rw [← List.map_flatten]
    have hnd : (ids (p.model.requests arriveTimes p.extraCost)).Nodup := by
      rw [ids_requests h]
      exact hids
    exact (hperm.map _).nodup_iff.mpr hnd

section

variable {parts : List (List (List Request))}

/-- What the workers of a fused plan have, from what every model is dealt out to. -/
def byWorker (dpSize : Nat) (parts : List (List (List Request))) : List (List (List Request)) :=
  (List.range dpSize).map fun dpId => parts.map fun part => sortBySeqId (part.getD dpId [])

theorem length_byWorker {dpSize : Nat} : (byWorker dpSize parts).length = dpSize := by
  rw [byWorker, List.length_map, List.length_range]

theorem length_of_mem_byWorker {dpSize : Nat} {levels : List (List Request)}
    (h : levels ∈ byWorker dpSize parts) : levels.length = parts.length := by
  obtain ⟨dpId, -, rfl⟩ := List.mem_map.mp h
  exact List.length_map _

theorem getD_byWorker_perm {dpSize w : Nat} (hw : w < dpSize) (i : Nat) :
    (((byWorker dpSize parts).getD w []).getD i []).Perm ((parts.getD i []).getD w []) := by
  rw [byWorker, List.getD_eq_getElem?_getD (l := (List.range dpSize).map _), List.getElem?_map,
    List.getElem?_range hw, Option.map_some, Option.getD_some, List.getD_eq_getElem?_getD,
    List.getElem?_map, List.getD_eq_getElem?_getD (l := parts)]
  cases parts[i]? with
  | none => exact .nil
  | some part => exact sortBySeqId_perm _

theorem range_getD {α : Type} {l : List (List α)} {n : Nat} (h : l.length = n) :
    (List.range n).map (l.getD · []) = l := by
  subst h
  refine List.ext_getElem (by rw [List.length_map, List.length_range]) fun i hi hi' => ?_
  rw [List.getElem_map, List.getElem_range, List.getD_eq_getElem?_getD,
    List.getElem?_eq_getElem hi', Option.getD_some]

/-- Together the workers have of a model what it is dealt out to. -/
theorem flatten_byWorker_perm {dpSize : Nat} (hparts : ∀ part ∈ parts, part.length = dpSize)
    (i : Nat) : ((byWorker dpSize parts).map (·.getD i [])).flatten.Perm
      (parts.getD i []).flatten := by
  have hflat : (parts.getD i []).flatten =
      (List.range dpSize).flatMap fun dpId => (parts.getD i []).getD dpId [] := by
    rw [List.getD_eq_getElem?_getD]
    cases hpart : parts[i]? with
    | none => simp
    | some part =>
      rw [Option.getD_some, List.flatMap_def, range_getD (hparts part (List.mem_of_getElem? hpart))]
  rw [hflat, byWorker, List.map_map, ← List.flatMap_def]
  refine List.Perm.flatMap_left _ fun dpId _ => ?_
  rw [Function.comp_apply, List.getD_eq_getElem?_getD, List.getElem?_map,
    List.getD_eq_getElem?_getD (l := parts)]
  cases parts[i]? with
  | none => exact .nil
  | some part => exact sortBySeqId_perm _

/-- One model of every worker. -/
theorem filterMap_ids (workers : List (List (List Request))) (i : Nat) :
    ((workers.map (·.map ids)).filterMap (·[i]?)).flatten =
      ids (workers.map (·.getD i [])).flatten := by
  induction workers with
  | nil => rfl
  | cons levels workers ih =>
    rw [List.map_cons, List.filterMap_cons, List.getElem?_map, List.map_cons, List.flatten_cons,
      ids, List.map_append, List.getD_eq_getElem?_getD, ← ids, ← ids, ← ih]
    cases levels[i]? <;> rfl

end

section

variable {p : MyVerticalFusedExecPlan} {arriveTimesList : List (List ℚ)}

theorem nodup_ids_of_parallel
    (h : ∀ m ∈ p.modelList.zip arriveTimesList, m.1.Parallel m.2 ∧ m.1.seqIds.Nodup) :
    ∀ rs ∈ modelRequests p.extraCost (p.modelList.zip arriveTimesList), (ids rs).Nodup := by
  intro rs hrs
  obtain ⟨m, hm, rfl⟩ := List.mem_map.mp hrs
  rw [ids_requests (h m hm).1]
  exact (h m hm).2

/-- A fused plan deals its requests out exactly when the ids of every model are ascending. -/
theorem MyVerticalFusedExecPlan.returns_iff
    (hlen : arriveTimesList.length = p.modelList.length)
    (h : ∀ m ∈ p.modelList.zip arriveTimesList, m.1.Parallel m.2 ∧ m.1.seqIds.Nodup) :
    (∃ r, p.sortAndPartitionDataParallel arriveTimesList = some r) ↔
      ∀ m ∈ p.modelList, m.seqIds.Pairwise (· ≤ ·) := by
  have htotal : (∃ parts, assignModels p.key.dpSize p.extraCost [] []
      (p.modelList.zip arriveTimesList) = some parts) ↔
      ∀ m ∈ p.modelList.zip arriveTimesList, m.1.seqIds.Pairwise (· ≤ ·) :=
    assignModels_total [] []
  have hmodels : (p.modelList.zip arriveTimesList).map Prod.fst = p.modelList :=
    List.map_fst_zip hlen.ge
  conv_rhs => rw [← hmodels]
  rw [List.forall_mem_map, ← htotal, workers_eq (nodup_ids_of_parallel h), workers]
  constructor
  · rintro ⟨r, hr⟩
    obtain ⟨parts, hparts, -⟩ := Option.map_eq_some_iff.mp hr
    exact ⟨parts, hparts⟩
  · rintro ⟨parts, hparts⟩
    exact ⟨_, congrArg _ hparts⟩

theorem MyVerticalFusedExecPlan.lossless (hlen : arriveTimesList.length = p.modelList.length)
    (h : ∀ m ∈ p.modelList.zip arriveTimesList, m.1.Parallel m.2 ∧ m.1.seqIds.Nodup)
    (hconsecutive : Consecutive (modelRequests p.extraCost (p.modelList.zip arriveTimesList)))
    (hdp : 0 < p.key.dpSize) {r : List (List Level)}
    (hrun : p.sortAndPartitionDataParallel arriveTimesList = some r) :
    p.Lossless arriveTimesList := by
  have hids := nodup_ids_of_parallel h
  rw [workers_eq hids, workers] at hrun
  obtain ⟨parts, hparts, -⟩ := Option.map_eq_some_iff.mp hrun
  have hnone : (ids (List.flatten ([] : List (List Request)))).Nodup := List.nodup_nil
  have hspec := assignModels_spec hdp hids hnone (Nat.zero_le _) (fun _ h => h)
    hconsecutive.linked hparts
  have hmodels : (modelRequests p.extraCost (p.modelList.zip arriveTimesList)).length =
      p.modelList.length := by
    rw [modelRequests, List.length_map, List.length_zip, hlen, Nat.min_self]
  have hperm : ∀ i, ((byWorker p.key.dpSize parts).map (·.getD i [])).flatten.Perm
      ((modelRequests p.extraCost (p.modelList.zip arriveTimesList)).getD i []) := fun i =>
    (flatten_byWorker_perm hspec.workers i).trans (hspec.perm i)
  have hlevels : ∀ levels ∈ byWorker p.key.dpSize parts, levels.length = p.modelList.length :=
    fun levels hl => (length_of_mem_byWorker hl).trans (hspec.length_eq.trans hmodels)
  -- A worker has a request of a model only when it has been dealt out to it.
  have hdealt : ∀ w i seqId, seqId ∈ ids (((byWorker p.key.dpSize parts).getD w []).getD i []) →
      seqId ∈ ids ((parts.getD i []).getD w []) := by
    intro w i seqId hmem
    by_cases hw : w < p.key.dpSize
    · exact ((getD_byWorker_perm hw i).map _).subset hmem
    · rw [List.getD_eq_getElem?_getD (l := byWorker p.key.dpSize parts),
        List.getElem?_eq_none (length_byWorker.trans_le (Nat.not_lt.mp hw))] at hmem
      cases hmem
  refine ⟨byWorker p.key.dpSize parts, ?_, length_byWorker, hlevels, hperm,
    fun i j w w' seqId hw hw' => ?_, fun left hleft => ?_⟩
  · rw [workers_eq hids, workers, hparts, Option.map_some, byWorker, List.map_map]
    refine congrArg some (List.map_congr_left fun dpId _ => ?_)
    rw [Function.comp_apply, List.map_map]
    rfl
  · exact hspec.same_owner i j w w' seqId (hdealt w i seqId hw) (hdealt w' j seqId hw')
  · refine mergeNewInpOutLensForModels_spec ?_ hleft fun i hi => ?_
    · intro idsOfModels hmem
      obtain ⟨levels, hl, rfl⟩ := List.mem_map.mp hmem
      rw [List.length_map, hlevels levels hl]
    · rw [filterMap_ids]
      refine ((hperm i).map _).nodup_iff.mpr ?_
      rw [List.getD_eq_getElem?_getD, List.getElem?_eq_getElem (hi.trans_eq hmodels.symm)]
      exact hids _ (List.getElem_mem _)

end

/-- Dealing requests out to data-parallel workers and merging what is left loses nothing, for plans
of one model and for plans of fused models. -/
theorem dealing_and_merging_lossless :
    (∀ (p : MyExecPlan) (arriveTimes : List ℚ), p.model.Parallel arriveTimes →
      p.model.seqIds.Nodup → 0 < p.key.dpSize → p.Lossless arriveTimes) ∧
    ∀ (p : MyVerticalFusedExecPlan) (arriveTimesList : List (List ℚ)),
      arriveTimesList.length = p.modelList.length →
      (∀ m ∈ p.modelList.zip arriveTimesList, m.1.Parallel m.2 ∧ m.1.seqIds.Nodup) →
      Consecutive (modelRequests p.extraCost (p.modelList.zip arriveTimesList)) →
      0 < p.key.dpSize →
      ((∃ r, p.sortAndPartitionDataParallel arriveTimesList = some r) ↔
        ∀ m ∈ p.modelList, m.seqIds.Pairwise (· ≤ ·)) ∧
      ∀ r, p.sortAndPartitionDataParallel arriveTimesList = some r → p.Lossless arriveTimesList :=
  ⟨fun _ _ h hids hdp => MyExecPlan.lossless h hids hdp, fun _ _ hlen h hconsecutive hdp =>
    ⟨MyVerticalFusedExecPlan.returns_iff hlen h, fun _ hrun =>
      MyVerticalFusedExecPlan.lossless hlen h hconsecutive hdp hrun⟩⟩

/-- Three requests on two workers, and two fused models of which the second continues two of the
first model's requests. -/
theorem dealing_and_merging_lossless_two_workers :
    MyExecPlan.Lossless
      ⟨"a", ⟨1, 1 / 2, 2, 0, 2⟩, ⟨[5, 3, 7], [2, 4, 1], [4, 9, 6]⟩, 1⟩ [3, 0, 2] ∧
    MyVerticalFusedExecPlan.Lossless
      ⟨"b", ⟨1, 1 / 2, 2, 0, 2⟩,
        [⟨[5, 3, 7], [2, 4, 1], [1, 4, 6]⟩, ⟨[8, 2], [3, 5], [4, 6]⟩], 0⟩
      [[3, 0, 2], [-1, -1]] := by
  refine ⟨dealing_and_merging_lossless.1 _ _ ⟨rfl, rfl, rfl⟩ (by decide) (by decide), ?_⟩
  have hmodels : ∀ m ∈ ([⟨[5, 3, 7], [2, 4, 1], [1, 4, 6]⟩, ⟨[8, 2], [3, 5], [4, 6]⟩] :
      List ModelRequests).zip ([[3, 0, 2], [-1, -1]] : List (List ℚ)),
      m.1.Parallel m.2 ∧ m.1.seqIds.Nodup := by
    intro m hm
    simp only [List.zip_cons_cons, List.zip_nil_left, List.mem_cons, List.not_mem_nil,
      or_false] at hm
    rcases hm with rfl | rfl
    · exact ⟨⟨rfl, rfl, rfl⟩, by decide⟩
    · exact ⟨⟨rfl, rfl, rfl⟩, by decide⟩
  have hfused := dealing_and_merging_lossless.2
    ⟨"b", ⟨1, 1 / 2, 2, 0, 2⟩,
      [⟨[5, 3, 7], [2, 4, 1], [1, 4, 6]⟩, ⟨[8, 2], [3, 5], [4, 6]⟩], 0⟩
    [[3, 0, 2], [-1, -1]] rfl hmodels (fun i j k seqId hij hjk _ hk => ?_) (by decide)
  · obtain ⟨r, hr⟩ := hfused.1.mpr (by decide)
    exact hfused.2 r hr
  · obtain ⟨k, rfl⟩ : ∃ n, k = n + 2 := ⟨k - 2, by omega⟩
    cases hk

/-- One fused model, whose two requests are not in the order of their ids. -/
def unsortedFused : MyVerticalFusedExecPlan :=
  ⟨"b", ⟨1, 1 / 2, 2, 0, 2⟩, [⟨[5, 3], [2, 4], [4, 1]⟩], 0⟩

/-- The assertion that the ids are sorted fails, so nothing is dealt out. -/
theorem not_lossless_unsortedFused : ¬ ∀ (p : MyVerticalFusedExecPlan)
    (arriveTimesList : List (List ℚ)), arriveTimesList.length = p.modelList.length →
      (∀ m ∈ p.modelList.zip arriveTimesList, m.1.Parallel m.2 ∧ m.1.seqIds.Nodup) →
      Consecutive (modelRequests p.extraCost (p.modelList.zip arriveTimesList)) →
      0 < p.key.dpSize → p.Lossless arriveTimesList := by
  intro hall
  have hmodels : ∀ m ∈ unsortedFused.modelList.zip ([[0, 0]] : List (List ℚ)),
      m.1.Parallel m.2 ∧ m.1.seqIds.Nodup := by
    intro m hm
    obtain rfl := List.mem_singleton.mp hm
    exact ⟨⟨rfl, rfl, rfl⟩, by decide⟩
  obtain ⟨workers, hrun, -⟩ := hall unsortedFused [[0, 0]] rfl hmodels
    (fun i j k seqId hij hjk _ hk => by
      obtain ⟨k, rfl⟩ : ∃ n, k = n + 2 := ⟨k - 2, by omega⟩
      cases hk) (by decide)
  have hsorted := (MyVerticalFusedExecPlan.returns_iff rfl hmodels).mp ⟨_, hrun⟩
  exact absurd (hsorted _ (.head _)) (by decide)

end Mil.Fcfs
