import Mil.Lib.Columns
import Mil.Fcfs.PlanInputs

/-!
# Dealing out and merging, array by array

`_sort_and_partition_data_parallel` and `merge_new_inp_out_lens_of_data_parallel_workers` of both
kinds of plans, as `benchmarks/search_exec_plans.py` has them: the input lengths, output lengths,
ids and arrival times of the requests are parallel arrays, and every sort, slice, look-up and
selection is made on each of the arrays with the same positions. What a worker is left with after a
stage comes as an array of positions, or as a mask over its requests.
-/

set_option autoImplicit false

namespace Mil.Fcfs

open Mil.Lib

/-! ## The arrays of a worker -/

def Level.empty : Level := ⟨[], [], [], []⟩

/-- Every array indexed by the same positions. -/
def Level.index (order : List Nat) (l : Level) : Option Level := do
  let inpLens ← gather order l.inpLens
  let outLens ← gather order l.outLens
  let arriveTimes ← gather order l.arriveTimes
  let seqIds ← gather order l.seqIds
  return { inpLens := inpLens, outLens := outLens, arriveTimes := arriveTimes, seqIds := seqIds }

/-- `[dp_id::dp_size]` of every array. -/
def Level.strided (dpId dpSize : Nat) (l : Level) : Level where
  inpLens := Lib.strided l.inpLens dpId dpSize
  outLens := Lib.strided l.outLens dpId dpSize
  arriveTimes := Lib.strided l.arriveTimes dpId dpSize
  seqIds := Lib.strided l.seqIds dpId dpSize

def Level.extend (l l' : Level) : Level where
  inpLens := l.inpLens ++ l'.inpLens
  outLens := l.outLens ++ l'.outLens
  arriveTimes := l.arriveTimes ++ l'.arriveTimes
  seqIds := l.seqIds ++ l'.seqIds

/-- The order of the pairs `(arrive_time, seq_id)`. -/
def EarlierOrSame (a b : ℚ × Nat) : Prop := a.1 < b.1 ∨ a.1 = b.1 ∧ a.2 ≤ b.2

instance : DecidableRel EarlierOrSame := fun a b =>
  inferInstanceAs (Decidable (a.1 < b.1 ∨ a.1 = b.1 ∧ a.2 ≤ b.2))

/-- `_sort_and_partition_data_parallel` of `MyExecPlan`. -/
def MyExecPlan.sortAndPartitionDataParallel (p : MyExecPlan) (arriveTimes : List ℚ) :
    Option (List Level) := do
  let arriveTimes := arriveTimes.map (· - p.extraCost)
  let order := argsort EarlierOrSame (arriveTimes.zip p.model.seqIds)
  let sorted ← Level.index order
    { inpLens := p.model.inpLens, outLens := p.model.outLens, arriveTimes := arriveTimes
      seqIds := p.model.seqIds }
  return (List.range p.key.dpSize).map fun dpId => sorted.strided dpId p.key.dpSize

/-! ## Fused plans -/

/-- `_sort_and_assign`. -/
def sortAndAssign (dpSize : Nat) (seqInfos : List Request) (assigned : List Level) :
    Option (List Level) := do
  let infos := levelOf seqInfos
  let sorted ← infos.index (argsort EarlierOrSame (infos.arriveTimes.zip infos.seqIds))
  return (List.range dpSize).map fun dpId =>
    (assigned.getD dpId .empty).extend (sorted.strided dpId dpSize)

/-- `_assign_in_consistent_with_previous_assignment`, given what the workers have of the model
before. -/
def assignInConsistent (dpSize : Nat) (seqInfos : List Request) (previous assigned : List Level) :
    Option (List Level) :=
  let infos := levelOf seqInfos
  (List.range dpSize).mapM fun dpId => do
    let seqIdsToAdd :=
      (unique infos.seqIds).filter (· ∈ (previous.getD dpId .empty).seqIds)
    let sorted ← infos.index (argsort (· ≤ ·) infos.seqIds)
    let added ← sorted.index (seqIdsToAdd.map (searchsorted sorted.seqIds))
    return (assigned.getD dpId .empty).extend added

/-- The loop over the models, with the assertion that the ids of each are sorted. -/
def assignArrays (dpSize : Nat) (extraCost : ℚ) :
    List Nat → List Level → List (ModelRequests × List ℚ) → Option (List (List Level))
  | _, _, [] => some []
  | visited, previous, (m, arriveTimes) :: rest => do
    let (unknown, known, visited) := splitVisited visited (m.requests arriveTimes extraCost)
    if m.seqIds.Pairwise (· ≤ ·) then
      let assigned ← sortAndAssign dpSize unknown (List.replicate dpSize .empty)
      let assigned ← assignInConsistent dpSize known previous assigned
      let later ← assignArrays dpSize extraCost visited assigned rest
      return assigned :: later
    else none

/-- `_sort_by_seq_ids` for one worker and model. -/
def Level.sortBySeqIds (l : Level) : Option Level := l.index (argsort (· ≤ ·) l.seqIds)

/-- `_sort_and_partition_data_parallel` of `MyVerticalFusedExecPlan`, which a plan is asked for
once. -/
def MyVerticalFusedExecPlan.sortAndPartitionDataParallel (p : MyVerticalFusedExecPlan)
    (arriveTimesList : List (List ℚ)) : Option (List (List Level)) := do
  let models ← assignArrays p.key.dpSize p.extraCost [] [] (p.modelList.zip arriveTimesList)
  (List.range p.key.dpSize).mapM fun dpId =>
    models.mapM fun assigned => (assigned.getD dpId .empty).sortBySeqIds

/-! ## Merging -/

/-- What an array is indexed by. -/
inductive Selector where
  | indices (positions : List Nat)
  | mask (flags : List Bool)
deriving DecidableEq

/-- `array[selector]`; a mask has to be as long as the array. -/
def Selector.select (seqIds : List Nat) : Selector → Option (List Nat)
  | indices positions => gather positions seqIds
  | mask flags =>
    if flags.length = seqIds.length then
      some (((seqIds.zip flags).filter Prod.snd).map Prod.fst)
    else none

/-- A selection of the elements of an array: different positions, or a mask of its length. -/
def Selector.Selects (length : Nat) : Selector → Prop
  | indices positions => positions.Nodup ∧ ∀ i ∈ positions, i < length
  | mask flags => flags.length = length

/-- What a worker is left with. -/
structure NewLens where
  inpLens : List Nat
  outLens : List Nat
  valid : Selector
deriving DecidableEq

/-- `merge_new_inp_out_lens_of_data_parallel_workers` for one model. -/
def mergeNewInpOutLens (dpInpSeqIdsList : List (List Nat)) (newInpOutLensList : List NewLens) :
    Option (List Nat × List Nat × List Nat) := do
  let inpSeqIdsList ← (dpInpSeqIdsList.zip newInpOutLensList).mapM fun e => e.2.valid.select e.1
  let order := argsort (· ≤ ·) inpSeqIdsList.flatten
  let inpLens ← gather order (newInpOutLensList.map NewLens.inpLens).flatten
  let outLens ← gather order (newInpOutLensList.map NewLens.outLens).flatten
  let inpSeqIds ← gather order inpSeqIdsList.flatten
  return (inpLens, outLens, inpSeqIds)

/-- What a worker of fused models is left with: a list for each of the three, over the models. -/
structure NewLensForModels where
  inpLens : List (List Nat)
  outLens : List (List Nat)
  valid : List Selector

/-- `[dp_data[data_i][i] for data_i in range(data_num)]`. -/
def NewLensForModels.ofModel (dpData : NewLensForModels) (i : Nat) : Option NewLens := do
  let inpLens ← dpData.inpLens[i]?
  let outLens ← dpData.outLens[i]?
  let valid ← dpData.valid[i]?
  return { inpLens := inpLens, outLens := outLens, valid := valid }

/-- `merge_new_inp_out_lens_of_data_parallel_workers` of `MyVerticalFusedExecPlan`. -/
def mergeNewInpOutLensForModels (modelNum : Nat) (dpInpSeqIdsListForModels : List (List (List Nat)))
    (newInpOutLensListForModels : List NewLensForModels) :
    Option (List (List Nat) × List (List Nat) × List (List Nat)) := do
  let merged ← (List.range modelNum).mapM fun i => do
    let newInpOutLensList ← newInpOutLensListForModels.mapM fun dpData => dpData.ofModel i
    let dpInpSeqIdsList ← dpInpSeqIdsListForModels.mapM fun dpData => dpData[i]?
    mergeNewInpOutLens dpInpSeqIdsList newInpOutLensList
  return (merged.map fun m => m.1, merged.map fun m => m.2.1, merged.map fun m => m.2.2)

end Mil.Fcfs
