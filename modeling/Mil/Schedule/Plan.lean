import Mathlib.Algebra.GroupWithZero.Nat
import Mathlib.Data.List.Basic
import Mathlib.Data.List.Lex
import Mathlib.Data.List.Nodup
import Mathlib.Data.List.Sort
import Mathlib.Logic.Function.Basic

/-!
# Execution plans and their states

The scheduler of `benchmarks/schedule_multi_model.py` runs a sequence of plan groups, one group a
stage. An execution plan gives a model its tensor-parallel degree `num_worker` and its number of
data-parallel workers `dp_size`; it takes `num_worker * dp_size` GPUs. A `MyExecPlanState` is a
plan of one stage together with two mutable attributes, `launched` and `comp_gpus`.

The immutable part of such an object is `PlanState`; the place in its stage tells two objects
apart, so that equality is object identity. The mutable part of every object is its `Cell`, and
`Cells` is the heap. A raised exception is an `Except` error.
-/

set_option autoImplicit false

namespace Mil.Schedule

/-! ## Plans -/

/-- `MyExecPlan`, with the fields the runtime scheduler reads. `mem_per_comp_gpu` is only compared
and is given in tenths; `load_cost_just_for_refer` is added to an integer array, so it is given as
the integer part that is added. -/
structure ExecPlan where
  modelId : Nat
  inputModelIds : List Nat
  numWorker : Nat
  memPerCompGpu : Nat
  wldDegree : Nat
  cacheGpuNum : Nat
  dpSize : Nat
  loadCostJustForRefer : Nat
  numWorker_pos : 0 < numWorker
  dpSize_pos : 0 < dpSize
deriving DecidableEq

/-- `(model_id, get_key())`, by which plans of different stages are compared. -/
abbrev ModelKey := Nat × Nat × Nat × Nat × Nat × Nat

instance : LawfulBEq ModelKey := inferInstance

def ExecPlan.modelKey (p : ExecPlan) : ModelKey :=
  (p.modelId, p.numWorker, p.memPerCompGpu, p.wldDegree, p.cacheGpuNum, p.dpSize)

def ExecPlan.gpuNum (p : ExecPlan) : Nat := p.numWorker * p.dpSize

/-- `MyExecPlanGroupSeq`. `MyExecPlanGroup._topological_sort` collects the plans of a group from a
dictionary keyed by model id until it has them all, so a group has one plan per model. -/
structure ExecPlanGroupSeq where
  planGroupSeq : List (List ExecPlan)
  distinct : ∀ group ∈ planGroupSeq, (group.map ExecPlan.modelId).Nodup

/-- Every stage fits the machine. -/
def ExecPlanGroupSeq.Fits (seq : ExecPlanGroupSeq) (totGpuNum : Nat) : Prop :=
  ∀ group ∈ seq.planGroupSeq, (group.map ExecPlan.gpuNum).sum ≤ totGpuNum

/-! ## Plan states -/

/-- `MyExecPlanState` without its mutable attributes. -/
structure PlanState where
  execPlan : ExecPlan
  stageI : Nat
  position : Nat
  lastExecPlanForTheModel : Bool
  needPrepareInferEnv : Bool
deriving DecidableEq

abbrev PlanState.modelId (ps : PlanState) : Nat := ps.execPlan.modelId
abbrev PlanState.inputModelIds (ps : PlanState) : List Nat := ps.execPlan.inputModelIds
abbrev PlanState.numWorker (ps : PlanState) : Nat := ps.execPlan.numWorker
abbrev PlanState.dpSize (ps : PlanState) : Nat := ps.execPlan.dpSize
abbrev PlanState.modelKey (ps : PlanState) : ModelKey := ps.execPlan.modelKey
abbrev PlanState.gpuNum (ps : PlanState) : Nat := ps.execPlan.gpuNum

/-- The body of the loop of `prepare_exec_plan_states` over one stage: `checked` is
`checked_model_ids`, `previous` the stage before, if there is one. -/
def preparePlanGroup (stageI : Nat) (previous : Option (List ExecPlan)) :
    Nat → List ExecPlan → List Nat → List PlanState × List Nat
  | _, [], checked => ([], checked)
  | position, p :: rest, checked =>
    let last := p.modelId ∉ checked
    let need := match previous with
      | none => false
      | some plans => p.modelKey ∉ plans.map ExecPlan.modelKey
    let (group, checked) := preparePlanGroup stageI previous (position + 1) rest
      (if last then checked ++ [p.modelId] else checked)
    (⟨p, stageI, position, last, need⟩ :: group, checked)

/-- The loop of `prepare_exec_plan_states`, which goes through the stages from the last one. -/
def preparePlanGroups : Nat → Option (List ExecPlan) → List (List ExecPlan) →
    List (List PlanState) × List Nat
  | _, _, [] => ([], [])
  | stageI, previous, plans :: rest =>
    let (groups, checked) := preparePlanGroups (stageI + 1) (some plans) rest
    let (group, checked) := preparePlanGroup stageI previous 0 plans checked
    (group :: groups, checked)

/-- `prepare_exec_plan_states`. -/
def prepareExecPlanStates (seq : ExecPlanGroupSeq) : List (List PlanState) :=
  (preparePlanGroups 0 none seq.planGroupSeq).1

/-! ## The heap and the scheduler's state -/

/-- The mutable attributes of a `MyExecPlanState`. -/
structure Cell where
  launched : Bool
  compGpus : List Nat

abbrev Cells := PlanState → Cell

def Cells.setLaunched (cells : Cells) (ps : PlanState) : Cells :=
  Function.update cells ps { cells ps with launched := true }

def Cells.setCompGpus (cells : Cells) (ps : PlanState) (gpus : List Nat) : Cells :=
  Function.update cells ps { cells ps with compGpus := gpus }

/-- What the scheduling loop carries from round to round: `launched_exec_plan_states`,
`candidate_exec_plan_states`, `new_target_stage_i`, and the heap. -/
structure State where
  launched : List PlanState
  candidates : List PlanState
  target : Nat
  cells : Cells

inductive Raised
  /-- `IndexError`: no stage, or no GPU left for a plan of the first stage -/
  | emptyList
  /-- `IndexError`: `roots[0]` -/
  | noRoot
  /-- `KeyError`: `launched_plan_gpus` -/
  | planGpusMissing
  /-- `AssertionError`: `State error` -/
  | stateError
  /-- `AssertionError`: `State error2` -/
  | stateError2
  /-- `ValueError`: `reshape` -/
  | badUnit
  /-- `KeyError`: `launched_comp_gpu_dict` -/
  | compGpusMissing
  /-- `IndexError`: an array indexed by an empty array, which is not one of integers -/
  | emptyIndex
  /-- `AssertionError`: `counts == fully_connected_gpu_unit` -/
  | partialUnit
  /-- `ValueError`: `np.concatenate` of no array -/
  | noGpuGroup
  /-- `ValueError`: `min` of an empty worker -/
  | emptyWorker
deriving DecidableEq, Repr

/-- `np.argsort`: the positions of an array in increasing order of their values, in whatever order
where values are equal. -/
structure Argsort where
  run : List Nat → List Nat
  perm : ∀ xs, (run xs).Perm (List.range xs.length)
  sorted : ∀ xs, (run xs).Pairwise fun i j => xs.getD i 0 ≤ xs.getD j 0

structure Config where
  totGpuNum : Nat
  fullyConnectedGpuUnit : Nat
  /-- `'LightRule' in search_method_baseline` and it is not `LightRule_our_cost_model` -/
  lightRule : Bool
  noRuntimeAdjustment : Bool
  argsort : Argsort

/-! ## Sorting -/

/-- `sorted(l, key=key)`, which is stable. -/
def sortedBy (key : PlanState → List Nat) (l : List PlanState) : List PlanState :=
  l.insertionSort fun a b => key a ≤ key b

/-- `sorted(l, key=key, reverse=True)`, which is stable as well. -/
def sortedReverse (key : PlanState → List Nat) (l : List PlanState) : List PlanState :=
  l.insertionSort fun a b => key b ≤ key a

/-! ## The first stage -/

/-- The loop of `initialize_SHARED_CONTECT`. -/
def placeFirstStage : List PlanState → List Nat → Cells → Except Raised Cells
  | [], _, cells => pure cells
  | ps :: rest, availableGpus, cells =>
    if availableGpus = [] then throw .emptyList
    else placeFirstStage rest (availableGpus.drop ps.gpuNum)
      ((cells.setCompGpus ps (availableGpus.take ps.gpuNum)).setLaunched ps)

def firstStageKey (cfg : Config) (ps : PlanState) : List Nat :=
  [ps.numWorker, if ps.gpuNum % cfg.fullyConnectedGpuUnit = 0 then 1 else 0, ps.dpSize]

/-- `initialize_SHARED_CONTECT`, as far as the scheduler's state is concerned. -/
def initializeSharedContect (cfg : Config) : List (List PlanState) → Except Raised State
  | [] => throw .emptyList
  | first :: later => do
    let launched := sortedReverse (firstStageKey cfg) first
    let cells ← placeFirstStage launched (List.range cfg.totGpuNum) fun _ => ⟨false, []⟩
    pure ⟨launched, later.headD [], 1, cells⟩

end Mil.Schedule
