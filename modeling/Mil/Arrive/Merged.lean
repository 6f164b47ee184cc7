import Mathlib.Algebra.Order.Floor.Defs
import Mathlib.Data.Rat.Floor
import Mil.Lib.Columns

/-!
# Merged finish times

The data-parallel workers of a plan have the finish times of their own requests.
`get_finish_times_merged` of `benchmarks/search_exec_plans.py` puts them into one array over all the
requests the base model has ever had, keeps the array, and reads from it what it is asked for.
Requests that no worker has were finished before: their default is `-1` once the extra cost is added.

A plan of one model and a plan of fused models differ in the number of base models only. An array
has the type of its default, so with an extra cost that is an integer it is an array of integers,
and a time that is stored in it loses its fraction.
-/

set_option autoImplicit false

namespace Mil.Arrive

open Mil.Lib

/-! ## Numbers and arrays -/

/-- A number of Python: an `int` or a `float`. -/
structure Number where
  isInt : Bool
  value : ℚ
deriving DecidableEq

/-- The number stored in an array. -/
def cast (isInt : Bool) (x : ℚ) : ℚ :=
  if isInt then (if 0 ≤ x then ⌊x⌋ else ⌈x⌉) else x

structure NpArray where
  isInt : Bool
  values : List ℚ
deriving DecidableEq

/-- `np.asarray([x] * n)`. -/
def NpArray.full (x : Number) (n : Nat) : NpArray := ⟨x.isInt, List.replicate n x.value⟩

/-- An array with one value is as long as it has to be. -/
def broadcast (n : Nat) : List ℚ → List ℚ
  | [x] => List.replicate n x
  | xs => xs

/-- `values[inds] = xs`. -/
def scatter (pairs : List (Nat × ℚ)) (values : List ℚ) : Option (List ℚ) :=
  pairs.foldlM (fun values e => if e.1 < values.length then some (values.set e.1 e.2) else none)
    values

def NpArray.setAt (inds : List Nat) (xs : List ℚ) (a : NpArray) : Option NpArray :=
  let xs := broadcast inds.length xs
  if xs.length = inds.length then
    (scatter (inds.zip (xs.map (cast a.isInt))) a.values).map fun values =>
      { a with values := values }
  else none

/-- `get_infor_given_seq_ids`. -/
def getInforGivenSeqIds (values : NpArray) (seqIdsWeHave seqIdsRequested : List Nat)
    (default : ℚ) : Option (List ℚ) :=
  seqIdsRequested.mapM fun seqId =>
    let ind := searchsorted seqIdsWeHave seqId
    if seqIdsWeHave[ind]? = some seqId then values.values[ind]?
    else some (cast values.isInt default)

/-! ## Plans -/

/-- What a base model of a plan has to do with arrival times. -/
structure BaseModel where
  modelId : Nat
  inpBaseModelIds : List Nat
  oriTotInpNum : Nat
  oriInpSeqIds : List Nat
  inpSeqIds : List Nat
  independentSrcs : Bool
  inpReqFromWhichModelWhichOutReqs : List (Nat × List (Nat × Nat))
deriving DecidableEq

/-- `MyExecPlan`, with one base model, and `MyVerticalFusedExecPlan`. The lists of requests and
finish times have, for each worker, one for each base model. -/
structure ExecPlan where
  isVerticalFused : Bool
  modelId : Nat
  modelList : List BaseModel
  dpInpSeqIdsList : List (List (List Nat))
  finishTimesList : List (List (List ℚ))
  extraCost : Number
  finishTimesMerged : List NpArray
deriving DecidableEq

def ExecPlan.getBaseModelIds (p : ExecPlan) : List Nat := p.modelList.map BaseModel.modelId

/-- `inp_base_model_ids` of the plan's model; fused models are not their own inputs. -/
def ExecPlan.inpBaseModelIds (p : ExecPlan) : List Nat :=
  let inputs := p.modelList.flatMap BaseModel.inpBaseModelIds
  if p.isVerticalFused then inputs.filter (· ∉ p.getBaseModelIds) else inputs

/-- `-1-self.extra_cost`. -/
def ExecPlan.defaultTime (p : ExecPlan) : Number := ⟨p.extraCost.isInt, -1 - p.extraCost.value⟩

/-- The array over all requests of a base model. -/
def ExecPlan.mergeFinishTimes (p : ExecPlan) (modelInd : Nat) : Option NpArray := do
  let model ← p.modelList[modelInd]?
  (p.dpInpSeqIdsList.zip p.finishTimesList).foldlM (fun merged e => do
      let dpInpSeqIds ← e.1[modelInd]?
      let finishTimes ← e.2[modelInd]?
      merged.setAt (dpInpSeqIds.map (searchsorted model.oriInpSeqIds)) finishTimes)
    (.full p.defaultTime model.oriTotInpNum)

/-- The plan with other arrays kept. -/
def ExecPlan.withKept (p : ExecPlan) (kept : List NpArray) : ExecPlan :=
  { p with finishTimesMerged := kept }

/-- `get_finish_times_merged`, and the plan with the array it keeps. -/
def ExecPlan.getFinishTimesMerged (p : ExecPlan) (seqIds : List Nat) (modelInd : Nat) :
    Option (List ℚ × ExecPlan) := do
  let model ← p.modelList[modelInd]?
  let kept ← p.finishTimesMerged[modelInd]?
  let merged ← (if kept.values = [] then p.mergeFinishTimes modelInd else some kept)
  let times ← getInforGivenSeqIds merged model.oriInpSeqIds seqIds p.defaultTime.value
  return (times, p.withKept (p.finishTimesMerged.set modelInd merged))

/-! ## Scattering -/

theorem scatter_spec {pairs : List (Nat × ℚ)} {values : List ℚ}
    (hpairs : ∀ e ∈ pairs, e.1 < values.length) (hnodup : (pairs.map Prod.fst).Nodup) :
    ∃ values', scatter pairs values = some values' ∧ values'.length = values.length ∧
      ∀ i, values'[i]? = (pairs.lookup i).or values[i]? := by
  induction pairs generalizing values with
  | nil => exact ⟨values, rfl, rfl, fun i => rfl⟩
  | cons e pairs ih =>
    obtain ⟨he, hpairs⟩ := List.forall_mem_cons.mp hpairs
    obtain ⟨hnew, hnodup⟩ := List.nodup_cons.mp hnodup
    have hset : ∀ d ∈ pairs, d.1 < (values.set e.1 e.2).length :=
      fun d hd => (hpairs d hd).trans_eq (List.length_set).symm
    obtain ⟨values', hrun, hlen, hget⟩ := ih hset hnodup
    refine ⟨values', ?_, hlen.trans List.length_set, fun i => ?_⟩
    · rw [scatter, List.foldlM_cons, if_pos he]
      exact hrun
    · rw [hget i, List.lookup_cons]
      by_cases hi : i = e.1
      · subst hi
        have hnone : pairs.lookup e.1 = none := by
          rw [List.lookup_eq_none_iff]
          intro d hd
          rw [bne_iff_ne]
          exact fun heq => hnew (heq ▸ List.mem_map_of_mem hd)
        rw [hnone, beq_self_eq_true, List.getElem?_set_self he]
        rfl
      · rw [beq_eq_false_iff_ne.mpr hi, List.getElem?_set_ne (Ne.symm hi)]

theorem scatter_append (pairs pairs' : List (Nat × ℚ)) (values : List ℚ) :
    scatter (pairs ++ pairs') values = (scatter pairs values).bind (scatter pairs') :=
  List.foldlM_append

theorem broadcast_of_length {n : Nat} {xs : List ℚ} (h : xs.length = n) : broadcast n xs = xs := by
  subst h
  match xs with
  | [] => rfl
  | [_] => rfl
  | _ :: _ :: _ => rfl

/-- Times are stored unchanged in an array of floats. -/
theorem setAt_float {inds : List Nat} {xs : List ℚ} (h : xs.length = inds.length)
    (values : List ℚ) : NpArray.setAt inds xs ⟨false, values⟩ =
      (scatter (inds.zip xs) values).map (NpArray.mk false) := by
  have hcast : xs.map (cast false) = xs := List.map_id xs
  rw [NpArray.setAt, broadcast_of_length h, if_pos h, hcast]

/-! ## The merged array -/

section

variable {p : ExecPlan} {j : Nat} {model : BaseModel}

/-- The finish times of the workers' requests of a base model, by request. -/
def ExecPlan.timesOf (p : ExecPlan) (j : Nat) : List (Nat × ℚ) :=
  (p.dpInpSeqIdsList.zip p.finishTimesList).flatMap fun e => (e.1.getD j []).zip (e.2.getD j [])

/-- When a request of a base model finishes, if it has not been finished before. -/
def ExecPlan.finishTime (p : ExecPlan) (j seqId : Nat) : Option ℚ := (p.timesOf j).lookup seqId

/-- The workers have different requests of the base model, each with its finish time. -/
structure ExecPlan.SimulatedAt (p : ExecPlan) (j : Nat) (model : BaseModel) : Prop where
  sorted : model.oriInpSeqIds.Pairwise (· < ·)
  length_eq : model.oriTotInpNum = model.oriInpSeqIds.length
  workers : ∀ e ∈ p.dpInpSeqIdsList.zip p.finishTimesList, ∃ dpInpSeqIds finishTimes,
    e.1[j]? = some dpInpSeqIds ∧ e.2[j]? = some finishTimes ∧
      finishTimes.length = dpInpSeqIds.length
  nodup : ((p.timesOf j).map Prod.fst).Nodup
  known : ∀ e ∈ p.timesOf j, e.1 ∈ model.oriInpSeqIds

theorem getElem?_position {ids : List Nat} (hsorted : ids.Pairwise (· < ·)) {seqId : Nat}
    (h : seqId ∈ ids) : ids[searchsorted ids seqId]? = some seqId := by
  have hget : ids[searchsorted (ids.map id) (id seqId)]? = some seqId :=
    getElem?_searchsorted hsorted h
  rwa [List.map_id] at hget

theorem position_inj {ids : List Nat} (hsorted : ids.Pairwise (· < ·)) {a b : Nat} (ha : a ∈ ids)
    (hb : b ∈ ids) (h : searchsorted ids a = searchsorted ids b) : a = b := by
  have hget := getElem?_position hsorted ha
  rw [h, getElem?_position hsorted hb] at hget
  exact (Option.some.inj hget).symm

theorem lookup_position {ids : List Nat} (hsorted : ids.Pairwise (· < ·))
    {pairs : List (Nat × ℚ)} (hpairs : ∀ e ∈ pairs, e.1 ∈ ids) {seqId : Nat} (h : seqId ∈ ids) :
    (pairs.map fun e => (searchsorted ids e.1, e.2)).lookup (searchsorted ids seqId) =
      pairs.lookup seqId := by
  induction pairs with
  | nil => rfl
  | cons e pairs ih =>
    obtain ⟨he, hpairs⟩ := List.forall_mem_cons.mp hpairs
    rw [List.map_cons, List.lookup_cons, List.lookup_cons, ih hpairs]
    by_cases heq : seqId = e.1
    · rw [heq, beq_self_eq_true, beq_self_eq_true]
    · have hne : searchsorted ids seqId ≠ searchsorted ids e.1 := fun hsame =>
        heq (position_inj hsorted h he hsame)
      rw [beq_eq_false_iff_ne.mpr heq, beq_eq_false_iff_ne.mpr hne]

/-- The workers' arrays are scattered one after the other. -/
theorem mergeFinishTimes_eq (hmodel : p.modelList[j]? = some model) (h : p.SimulatedAt j model)
    (hfloat : p.extraCost.isInt = false) : p.mergeFinishTimes j =
      (scatter ((p.timesOf j).map fun e => (searchsorted model.oriInpSeqIds e.1, e.2))
        (List.replicate model.oriTotInpNum (-1 - p.extraCost.value))).map (NpArray.mk false) := by
  have hfold : ∀ (es : List (List (List Nat) × List (List ℚ))) (values : List ℚ),
      (∀ e ∈ es, ∃ dpInpSeqIds finishTimes, e.1[j]? = some dpInpSeqIds ∧
        e.2[j]? = some finishTimes ∧ finishTimes.length = dpInpSeqIds.length) →
      (es.foldlM (fun (merged : NpArray) e => do
          let dpInpSeqIds ← e.1[j]?
          let finishTimes ← e.2[j]?
          merged.setAt (dpInpSeqIds.map (searchsorted model.oriInpSeqIds)) finishTimes)
        ⟨false, values⟩) =
      (scatter ((es.flatMap fun e => (e.1.getD j []).zip (e.2.getD j [])).map fun e =>
        (searchsorted model.oriInpSeqIds e.1, e.2)) values).map (NpArray.mk false) := by
    intro es
    induction es with
    | nil => exact fun _ _ => rfl
    | cons e es ih =>
      intro values hes
      obtain ⟨⟨dpInpSeqIds, finishTimes, hids, htimes, hlen⟩, hes⟩ := List.forall_mem_cons.mp hes
      have hzip : (dpInpSeqIds.map (searchsorted model.oriInpSeqIds)).zip finishTimes =
          (dpInpSeqIds.zip finishTimes).map fun e =>
            (searchsorted model.oriInpSeqIds e.1, e.2) := by
        rw [List.zip_map_left]
        rfl
      rw [List.foldlM_cons, hids, htimes, List.flatMap_cons, List.map_append, scatter_append,
        List.getD_eq_getElem?_getD, List.getD_eq_getElem?_getD, hids, htimes]
      simp only [Option.bind_eq_bind, Option.bind_some, Option.getD_some]
      rw [setAt_float (by rw [List.length_map, hlen]), hzip]
      cases scatter ((dpInpSeqIds.zip finishTimes).map fun e =>
          (searchsorted model.oriInpSeqIds e.1, e.2)) values with
      | none => rfl
      | some values' => exact ih values' hes
  rw [ExecPlan.mergeFinishTimes, hmodel, Option.bind_eq_bind, Option.bind_some, NpArray.full,
    ExecPlan.defaultTime, hfloat]
  exact hfold _ _ h.workers

/-- The merged array has at the place of a request its finish time, or the default. -/
theorem mergeFinishTimes_spec (hmodel : p.modelList[j]? = some model) (h : p.SimulatedAt j model)
    (hfloat : p.extraCost.isInt = false) : ∃ values,
      p.mergeFinishTimes j = some ⟨false, values⟩ ∧ ∀ seqId ∈ model.oriInpSeqIds,
        values[searchsorted model.oriInpSeqIds seqId]? =
          some ((p.finishTime j seqId).getD (-1 - p.extraCost.value)) := by
  have hlt : ∀ seqId ∈ model.oriInpSeqIds,
      searchsorted model.oriInpSeqIds seqId < model.oriTotInpNum := fun seqId hmem => by
    rw [h.length_eq]
    exact (List.getElem?_eq_some_iff.mp (getElem?_position h.sorted hmem)).1
  have hpairs : ∀ e ∈ (p.timesOf j).map fun e => (searchsorted model.oriInpSeqIds e.1, e.2),
      e.1 < (List.replicate model.oriTotInpNum (-1 - p.extraCost.value)).length := by
    intro e he
    obtain ⟨d, hd, rfl⟩ := List.mem_map.mp he
    rw [List.length_replicate]
    exact hlt d.1 (h.known d hd)
  have hnodup : (((p.timesOf j).map fun e =>
      (searchsorted model.oriInpSeqIds e.1, e.2)).map Prod.fst).Nodup := by
    have hmap : ((p.timesOf j).map fun e =>
        (searchsorted model.oriInpSeqIds e.1, e.2)).map Prod.fst =
        ((p.timesOf j).map Prod.fst).map (searchsorted model.oriInpSeqIds) := by
      rw [List.map_map, List.map_map]
      rfl
    rw [hmap]
    refine List.Nodup.map_on (fun a ha b hb heq => ?_) h.nodup
    obtain ⟨e, he, rfl⟩ := List.mem_map.mp ha
    obtain ⟨e', he', rfl⟩ := List.mem_map.mp hb
    exact position_inj h.sorted (h.known e he) (h.known e' he') heq
  obtain ⟨values, hvalues, -, hget⟩ := scatter_spec hpairs hnodup
  refine ⟨values, ?_, fun seqId hmem => ?_⟩
  · rw [mergeFinishTimes_eq hmodel h hfloat, hvalues]
    rfl
  · rw [hget, lookup_position h.sorted h.known hmem, List.getElem?_replicate,
      if_pos (hlt seqId hmem), ← ExecPlan.finishTime]
    cases p.finishTime j seqId <;> rfl

/-- What is read from the merged array: finish times, and the default for other requests. -/
theorem getInforGivenSeqIds_merged (hmodel : p.modelList[j]? = some model)
    (h : p.SimulatedAt j model) (hfloat : p.extraCost.isInt = false) {merged : NpArray}
    (hmerged : p.mergeFinishTimes j = some merged) (seqIds : List Nat) :
    getInforGivenSeqIds merged model.oriInpSeqIds seqIds (-1 - p.extraCost.value) =
      some (seqIds.map fun seqId => (p.finishTime j seqId).getD (-1 - p.extraCost.value)) := by
  obtain ⟨values, hvalues, hget⟩ := mergeFinishTimes_spec hmodel h hfloat
  obtain rfl := Option.some.inj (hmerged.symm.trans hvalues)
  refine mapM_of_forall fun seqId _ => ?_
  dsimp only
  by_cases hmem : seqId ∈ model.oriInpSeqIds
  · rw [if_pos (getElem?_position h.sorted hmem), hget seqId hmem]
  · have hnone : p.finishTime j seqId = none := by
      rw [ExecPlan.finishTime, List.lookup_eq_none_iff]
      intro e he
      rw [bne_iff_ne]
      exact fun heq => hmem (heq ▸ h.known e he)
    rw [if_neg fun hat => hmem (List.mem_of_getElem? hat), hnone]
    rfl

/-! ## Keeping the array -/

/-- What a plan may keep: for each base model nothing yet, or its merged array. -/
structure ExecPlan.Kept (p : ExecPlan) (kept : List NpArray) : Prop where
  length_eq : kept.length = p.modelList.length
  merged : ∀ j a, kept[j]? = some a → a.values = [] ∨ p.mergeFinishTimes j = some a

/-- The arrival time that a request of a base model gives the requests that need it. -/
def ExecPlan.timeOf (p : ExecPlan) (j seqId : Nat) : ℚ :=
  ((p.finishTime j seqId).map (· + p.extraCost.value)).getD (-1)

theorem getFinishTimesMerged_spec (hmodel : p.modelList[j]? = some model)
    (h : p.SimulatedAt j model) (hfloat : p.extraCost.isInt = false) {kept : List NpArray}
    (hkept : p.Kept kept) (seqIds : List Nat) : ∃ times kept',
      (p.withKept kept).getFinishTimesMerged seqIds j = some (times, p.withKept kept') ∧
      times.map (· + p.extraCost.value) = seqIds.map (p.timeOf j) ∧ p.Kept kept' := by
  have hj : j < kept.length := by
    rw [hkept.length_eq]
    exact (List.getElem?_eq_some_iff.mp hmodel).1
  obtain ⟨values, hvalues, -⟩ := mergeFinishTimes_spec hmodel h hfloat
  have hget := getInforGivenSeqIds_merged hmodel h hfloat hvalues seqIds
  have hmerged : (if (kept[j]).values = [] then (p.withKept kept).mergeFinishTimes j
      else some kept[j]) = some ⟨false, values⟩ := by
    split
    · exact hvalues
    · rename_i hne
      exact ((hkept.merged j _ (List.getElem?_eq_getElem hj)).resolve_left hne).symm.trans hvalues
  refine ⟨seqIds.map fun seqId => (p.finishTime j seqId).getD (-1 - p.extraCost.value),
    kept.set j ⟨false, values⟩, ?_, ?_, ?_, fun i a hi => ?_⟩
  · have hmodel' : (p.withKept kept).modelList[j]? = some model := hmodel
    have hkept' : (p.withKept kept).finishTimesMerged[j]? = some kept[j] :=
      List.getElem?_eq_getElem hj
    rw [ExecPlan.getFinishTimesMerged, hmodel', hkept']
    simp only [Option.bind_eq_bind, Option.bind_some, hmerged]
    show (getInforGivenSeqIds _ _ _ (-1 - p.extraCost.value)).bind _ = _
    rw [hget]
    rfl
  · rw [List.map_map]
    refine List.map_congr_left fun seqId _ => ?_
    rw [Function.comp_apply, ExecPlan.timeOf]
    cases p.finishTime j seqId with
    | none => exact sub_add_cancel _ _
    | some t => rfl
  · rw [List.length_set, hkept.length_eq]
  · by_cases hij : j = i
    · subst hij
      rw [List.getElem?_set_self hj] at hi
      obtain rfl := Option.some.inj hi
      exact .inr hvalues
    · rw [List.getElem?_set_ne hij] at hi
      exact hkept.merged i a hi

end

end Mil.Arrive
