import Mathlib.Algebra.Order.Ring.Rat
import Mathlib.Data.List.GetD
import Mil.Lib.Dict

/-!
# Stages from a non-preemptive schedule

The solver gives every task, that is every model, a plan, GPUs and a start. From that
`get_complete_non_preemptive_schedule` makes the plan groups of the stages one after another: a stage
ends when the first of its models ends.

`selection[task_idx]` has the fields that are read here; the index of the strategy, and what the
strategy has besides its plan, are left out.
-/

set_option autoImplicit false

namespace Mil.Stages

open Mil.Lib

/-! ## What the solver gives -/

structure ExecPlan where
  modelId : Nat
  totalLatencyList : List ℚ
  extraCost : ℚ
deriving DecidableEq, Repr

/-- `selection[task_idx]`. -/
structure Selected where
  selectedGpus : List Nat
  startTime : ℚ
  plan : ExecPlan
deriving DecidableEq, Repr

structure Model where
  modelId : Nat
  inputModelIds : List Nat
deriving DecidableEq, Repr

/-- The arguments, with `self.model_dict`. -/
structure LpResult where
  models : List Model
  modelId2Order : List (Nat × Nat)
  selection : List (Nat × Selected)
  totGpuNum : Nat
deriving DecidableEq, Repr

variable (lp : LpResult)

/-- `gpu_model_order`, which is filled along with `selection`. -/
def LpResult.gpuModelOrder : List (List (Nat × ℚ)) :=
  (List.range lp.totGpuNum).map fun gpuIdx =>
    (lp.selection.filter fun e => gpuIdx ∈ e.2.selectedGpus).map fun e => (e.1, e.2.startTime)

/-! ## End times -/

/-- A model does not end before the first model it reads from. -/
def stretchEndTime (endTimeDict : List (Nat × ℚ)) (model : Model) : Option (List (Nat × ℚ)) :=
  match model.inputModelIds with
  | [] => some endTimeDict
  | inpModelId :: _ => do
    let inpTaskIdx ← lp.modelId2Order.lookup inpModelId
    let taskIdx ← lp.modelId2Order.lookup model.modelId
    let endTime ← endTimeDict.lookup taskIdx
    let inpEndTime ← endTimeDict.lookup inpTaskIdx
    return Dict.set taskIdx (max endTime inpEndTime) endTimeDict

/-- `end_time_dict`. -/
def endTimes : Option (List (Nat × ℚ)) := do
  let endTimeDict ← lp.selection.mapM fun e => do
    let latency ← e.2.plan.totalLatencyList.max?
    return (e.1, e.2.startTime + latency + e.2.plan.extraCost)
  lp.models.foldlM (stretchEndTime lp) endTimeDict

/-! ## One stage -/

/-- `gpu_is_busy`. -/
def gpuIsBusy (endTimeDict : List (Nat × ℚ)) (minEndTime : ℚ) (runningTaskIdxs : List Nat) :
    Option (List Bool) :=
  runningTaskIdxs.foldlM (fun busy taskIdx => do
      let info ← lp.selection.lookup taskIdx
      let endTime ← endTimeDict.lookup taskIdx
      return info.selectedGpus.foldl (fun busy gpuIdx => busy.set gpuIdx (minEndTime < endTime)) busy)
    (List.replicate lp.totGpuNum false)

/-- `runnable`: the task is the first that waits on its GPUs, and none of these is busy. -/
def isRunnable (remaining : List (List Nat)) (busy : List Bool) (taskIdx : Nat) :
    List Nat → Option Bool
  | [] => some true
  | gpuIdx :: gpus => do
    let waiting ← remaining[gpuIdx]?
    let first ← waiting.head?
    if first ≠ taskIdx then some false
    else
      let isBusy ← busy[gpuIdx]?
      if isBusy then some false else isRunnable remaining busy taskIdx gpus

/-- Whether a task is alive in the next stage. -/
def isAlive (remaining : List (List Nat)) (busy : List Bool) (minEndTime : ℚ)
    (runningTaskIdxs : List Nat) (taskIdx : Nat) (endTime : ℚ) : Option Bool := do
  let info ← lp.selection.lookup taskIdx
  if info.startTime ≤ minEndTime ∧ minEndTime < endTime then some true
  else if endTime ≤ minEndTime then some false
  else if taskIdx ∈ runningTaskIdxs then some true
  else isRunnable remaining busy taskIdx info.selectedGpus

/-- A task that is alive leaves the queues of its GPUs in which it is the first. -/
def leaveQueues (remaining : List (List Nat)) (taskIdx : Nat) : Option (List (List Nat)) := do
  let info ← lp.selection.lookup taskIdx
  info.selectedGpus.foldlM (fun remaining gpuIdx => do
    let waiting ← remaining[gpuIdx]?
    return if waiting.head? = some taskIdx then remaining.set gpuIdx waiting.tail else remaining)
    remaining

/-- `each_gpu_remaining_model_info` and `plan_group_list`. -/
structure Extraction where
  remaining : List (List Nat)
  planGroupList : List (List ExecPlan)

/-- `_get_complete_non_preemptive_schedule`. -/
def addPlanGroup (s : Extraction) : Option Extraction := do
  let endTimeDict ← endTimes lp
  let runningPlanGroup ← s.planGroupList.getLast?
  let runningTaskIdxs ← runningPlanGroup.mapM fun plan => lp.modelId2Order.lookup plan.modelId
  let runningEndTimes ← runningTaskIdxs.mapM fun taskIdx => endTimeDict.lookup taskIdx
  let minEndTime := runningEndTimes.min?.getD 0
  let busy ← gpuIsBusy lp endTimeDict minEndTime runningTaskIdxs
  let aliveTaskIdxs ← endTimeDict.foldlM (fun alive e => do
      let isAlive ← isAlive lp s.remaining busy minEndTime runningTaskIdxs e.1 e.2
      return if isAlive then alive ++ [e.1] else alive) []
  let planGroup ← aliveTaskIdxs.mapM fun taskIdx => (lp.selection.lookup taskIdx).map Selected.plan
  let remaining ← aliveTaskIdxs.foldlM (leaveQueues lp) s.remaining
  return ⟨remaining, s.planGroupList ++ [planGroup]⟩

/-! ## All stages -/

/-- The `while True` loop, which ends at the first empty plan group. -/
def addPlanGroups : Nat → Extraction → Option (List (List ExecPlan))
  | 0, _ => none
  | fuel + 1, s => do
    let s ← addPlanGroup lp s
    let planGroup ← s.planGroupList.getLast?
    if planGroup.length = 0 then some s.planGroupList else addPlanGroups fuel s

/-- `get_complete_non_preemptive_schedule`. -/
def getCompleteNonPreemptiveSchedule (fuel : Nat) (gpuModelOrder : List (List (Nat × ℚ))) :
    Option (List (List ExecPlan)) := do
  let remaining := gpuModelOrder.map fun gpu =>
    (gpu.mergeSort fun info info' => info.2 ≤ info'.2).map Prod.fst
  let planGroupList ← addPlanGroups lp fuel ⟨remaining, [[]]⟩
  return planGroupList.filter fun planGroup => 0 < planGroup.length

end Mil.Stages
