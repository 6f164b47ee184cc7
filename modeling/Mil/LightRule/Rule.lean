import Mathlib.Algebra.GroupWithZero.Nat
import Mathlib.Data.List.Sort
import Mathlib.Data.Rat.Defs
import Mathlib.Algebra.Order.Ring.Rat
import Mil.Lib.Dict

/-!
# The light rule

`preemptive_schedule` inside `get_candidate_plan_groups_LightRule` of
`benchmarks/search_exec_plans.py`: models with workloads are scheduled in stages. A stage keeps the
plans of the models that still have work, and either admits waiting models with their smallest plans
(as long as all the models together demand more GPUs than there are) or spends the free GPUs on larger
plans. It lasts until the first of its models has no work left.

All arithmetic is rational. The tables the functions close over, the plans of every model, the
throughputs, the loading costs and the average output lengths, are the fields of `Rule`. A dictionary
is a list of pairs in the order of insertion; the order in which Python goes through a set is left
open as `setOrder`. `none` is a raised exception or a loop that has used up its fuel. The prints, and
`plan_extra_costs`, which nothing reads, are left out.
-/

set_option autoImplicit false

namespace Mil.LightRule

open Mil.Lib

/-! ## Data -/

structure ModelInfor where
  modelId : Nat
  modelName : String
  inputModelIds : List Nat
deriving DecidableEq, Repr

/-- `MyExecPlan`; `obj` tells the plans of a model apart that agree in the two sizes. -/
structure Plan where
  model : ModelInfor
  numWorker : Nat
  dpSize : Nat
  obj : Nat
deriving DecidableEq, Repr

/-- `get_tot_worker_num([plan])`. -/
def Plan.gpuNum (p : Plan) : Nat := p.numWorker * p.dpSize

/-- A plan group: the plan of every model that is scheduled. -/
abbrev PlanDict := List (Nat × Plan)

/-- `get_tot_worker_num` of a plan group. -/
def groupGpuNum (plans : PlanDict) : Nat := (plans.map fun e => e.2.gpuNum).sum

/-- What the functions close over: `self.model_dict`, `tot_gpu_num`, `exec_plans_dict`, the second
component of `token_per_secs_dict`, `get_prepare_cost`, `min_gpu_num_dict` and `avg_outlen_dict`. -/
structure Rule where
  models : List ModelInfor
  totGpuNum : Nat
  execPlans : Nat → List Plan
  tokenPerSecs : String → Nat → ℚ
  prepareCost : Plan → ℚ
  minGpuNum : String → Nat × Nat
  avgOutlen : Nat → ℚ
  setOrder : List Nat → List Nat

/-! ## Costs -/

namespace Rule

variable (c : Rule)

/-- `self.model_dict[model_id].input_model_ids`. -/
def inputs (modelId : Nat) : List Nat :=
  ((c.models.find? (·.modelId = modelId)).map (·.inputModelIds)).getD []

/-- `_get_throughput`. -/
def throughput (p : Plan) : ℚ :=
  c.tokenPerSecs p.model.modelName p.numWorker * ((p.gpuNum : ℚ) / p.numWorker)

/-- `sorted_model_ids`: by the number of inputs. -/
def sortedModelIds (plans : PlanDict) : List Nat :=
  (Dict.keys plans).insertionSort fun a b => (c.inputs a).length ≤ (c.inputs b).length

end Rule

/-- `cost_dict` and `extra_cost_dict`. -/
structure Costs where
  cost : List (Nat × ℚ)
  extra : List (Nat × ℚ)

section

variable (c : Rule) (last : PlanDict) (workload : Nat → ℚ)

/-- `_comp_single_model_cost`. -/
def Rule.compSingleModelCost (plans : PlanDict) (costs : Costs) (modelId : Nat) : Option Costs := do
  let plan ← plans.lookup modelId
  let extraCost := if last.lookup modelId = some plan then 0 else c.prepareCost plan
  let own := workload modelId / c.throughput plan + extraCost
  let costs := Costs.mk (Dict.set modelId own costs.cost) (Dict.set modelId extraCost costs.extra)
  match plan.model.inputModelIds.head? with
  | none => pure costs
  | some inp =>
    if inp ∈ Dict.keys plans then do
      let inpModelFinishTime ← costs.cost.lookup inp
      pure (if own ≤ inpModelFinishTime then
        { costs with cost := Dict.set modelId inpModelFinishTime costs.cost } else costs)
    else pure costs

def Rule.compModelCosts (plans : PlanDict) : Option Costs :=
  (c.sortedModelIds plans).foldlM (c.compSingleModelCost last workload plans) ⟨[], []⟩

end

/-! ## Workloads -/

section

variable (c : Rule)

/-- `_update_single_model_workload`. -/
def Rule.updateSingleModelWorkload (plans : PlanDict) (costs : Costs) (minCost : ℚ)
    (workload : Nat → ℚ) (modelId : Nat) : Option (Nat → ℚ) := do
  let plan ← plans.lookup modelId
  let extraCost ← costs.extra.lookup modelId
  if extraCost < minCost then
    let rest := max (workload modelId - (minCost - extraCost) * c.throughput plan) 0
    let cost ← costs.cost.lookup modelId
    let rest := if cost = minCost then 0 else rest
    let workload := Function.update workload modelId rest
    match plan.model.inputModelIds.head? with
    | none => pure workload
    | some inp =>
      if inp ∈ Dict.keys plans then
        let workloadNotReady := workload inp / c.avgOutlen inp * c.avgOutlen modelId
        pure (if rest ≤ workloadNotReady then Function.update workload modelId workloadNotReady
          else workload)
      else pure workload
  else pure workload

def Rule.updateWorkloadDict (plans last : PlanDict) (workload : Nat → ℚ) : Option (Nat → ℚ) := do
  let costs ← c.compModelCosts last workload plans
  let minCost ← (costs.cost.map Prod.snd).min?
  (c.sortedModelIds plans).foldlM (c.updateSingleModelWorkload plans costs minCost) workload

end

/-! ## Larger plans -/

/-- What the selection loop updates. -/
structure Selection where
  plans : PlanDict
  costs : List (Nat × ℚ)
  remaining : Nat
  allocation : List (Nat × Nat × Nat)

/-- What is known of a larger plan: `plan_costs[plan]`, the GPUs and the cost its model has now. -/
structure Candidate where
  maxCost : ℚ
  ownCost : ℚ
  gpuNow : Nat
  costNow : ℚ

/-- `get_tot_worker_num([plan]) - allocation[plan.model.model_id][0]`. -/
def moreGpus (e : Plan × Candidate) : ℚ := (e.1.gpuNum : ℚ) - e.2.gpuNow

/-- The order of Python's pairs. -/
def lexLE (a b : ℚ × ℚ) : Bool := decide (a.1 < b.1) || (decide (a.1 = b.1) && decide (a.2 ≤ b.2))

section

variable (c : Rule) (last : PlanDict) (workload : Nat → ℚ)

/-- The models to look at: the slowest ones, their inputs and the models they are an input of, as far
as they have work left. -/
def Rule.modelIdsToCheck (s : Selection) (maxCost : ℚ) : List Nat :=
  let slowest := (s.costs.filter (·.2 = maxCost)).map Prod.fst
  let related := slowest.flatMap fun modelId =>
    c.inputs modelId ++ (c.models.filter (modelId ∈ ·.inputModelIds)).map (·.modelId)
  (c.setOrder (slowest ++ related)).filter (0 < workload ·)

/-- The costs if the model had this plan. -/
def Rule.tryPlan (s : Selection) (modelId gpuNow : Nat) (found : List (Plan × Candidate)) (p : Plan) :
    Option (List (Plan × Candidate)) := do
  let costs ← c.compModelCosts last workload (Dict.set modelId p s.plans)
  let maxCost ← (costs.cost.map Prod.snd).max?
  let ownCost ← costs.cost.lookup modelId
  let costNow ← s.costs.lookup modelId
  pure (Dict.set p ⟨maxCost, ownCost, gpuNow, costNow⟩ found)

/-- `plan_costs`: all larger plans of these models for which there are enough GPUs. -/
def Rule.planCosts (s : Selection) (modelIds : List Nat) : Option (List (Plan × Candidate)) :=
  modelIds.foldlM (fun found modelId => do
    let (gpuNow, _) ← s.allocation.lookup modelId
    let possible := (c.execPlans modelId).filter fun p =>
      gpuNow < p.gpuNum && p.gpuNum ≤ s.remaining + gpuNow
    possible.foldlM (c.tryPlan last workload s modelId gpuNow) found) []

/-- The plan with the best ratio among those that lower the maximum, or else the smallest step among
those that lower the cost of their model. -/
def bestPlan (maxCost : ℚ) (found : List (Plan × Candidate)) : Option (Plan × Candidate) :=
  let better := found.filter (·.2.maxCost < maxCost)
  if better = [] then
    ((found.filter fun e => e.2.ownCost < e.2.costNow).insertionSort fun a b =>
      lexLE (moreGpus a, -(a.2.costNow - a.2.ownCost))
        (moreGpus b, -(b.2.costNow - b.2.ownCost))).head?
  else
    (better.insertionSort fun a b =>
      lexLE ((maxCost - b.2.maxCost) / moreGpus b, moreGpus b)
        ((maxCost - a.2.maxCost) / moreGpus a, moreGpus a)).head?

/-- `_select_best_plan_to_decrease_max_latency`; `some none` is `False`. -/
def Rule.selectBestPlan (s : Selection) : Option (Option Selection) := do
  let maxCost ← (s.costs.map Prod.snd).max?
  let found ← c.planCosts last workload s (c.modelIdsToCheck workload s maxCost)
  match bestPlan maxCost found with
  | none => pure none
  | some (p, cand) =>
    let plans := Dict.set p.model.modelId p s.plans
    let costs ← c.compModelCosts last workload plans
    pure (some ⟨plans, costs.cost, s.remaining + cand.gpuNow - p.gpuNum,
      Dict.set p.model.modelId (p.gpuNum, p.numWorker) s.allocation⟩)

/-- `while gpu_num > 0`. -/
def Rule.selectPlans : Nat → Selection → Option Selection
  | 0, s => if s.remaining = 0 then some s else none
  | fuel + 1, s =>
    if s.remaining = 0 then some s
    else do
      match ← c.selectBestPlan last workload s with
      | none => pure s
      | some s' => Rule.selectPlans fuel s'

end

/-! ## Stages -/

/-- `last_stage_plan_dict`, `workload_dict` and `waiting_models`. -/
structure State where
  last : PlanDict
  workload : Nat → ℚ
  waiting : List ModelInfor

/-- The plans of the last stage whose models have work left. -/
def State.carried (s : State) : PlanDict := s.last.filter (0 < s.workload ·.1)

section

variable (c : Rule)

/-- `tot_gpu_num_demand`. -/
def Rule.demand (workload : Nat → ℚ) : Nat :=
  ((c.models.filter (0 < workload ·.modelId)).map fun m => (c.minGpuNum m.modelName).1).sum

/-- `sorted(exec_plans_dict[model.model_id], key=get_tot_worker_num)[0]`. -/
def Rule.smallestPlan (m : ModelInfor) : Option Plan :=
  ((c.execPlans m.modelId).insertionSort fun p q => p.gpuNum ≤ q.gpuNum).head?

/-- The variables of the loop over the waiting models. -/
structure Admission where
  plans : PlanDict
  gpuNum : Nat
  remainingModels : List ModelInfor

/-- One waiting model. The loop over its inputs has no effect: its `continue` is its own. -/
def Rule.admit (a : Admission) (m : ModelInfor) : Option Admission := do
  let p ← c.smallestPlan m
  if a.gpuNum + p.gpuNum ≤ c.totGpuNum then
    pure { a with plans := Dict.set m.modelId p a.plans, gpuNum := a.gpuNum + p.gpuNum }
  else pure { a with remainingModels := a.remainingModels ++ [m] }

def Rule.admitWaiting (s : State) : Option Admission :=
  s.waiting.foldlM c.admit ⟨s.carried, groupGpuNum s.carried, []⟩

/-- The plans of `min_gpu_num_dict`, for every model. -/
def Rule.minPlans : Option PlanDict :=
  c.models.mapM fun m => do
    let p ← (c.execPlans m.modelId).find? fun p => (p.gpuNum, p.numWorker) = c.minGpuNum m.modelName
    pure (m.modelId, p)

/-- The plan group the second branch starts from, with the allocation. -/
def Rule.startPlans (s : State) : Option (PlanDict × List (Nat × Nat × Nat)) :=
  if s.last = [] then do
    let plans ← c.minPlans
    pure (plans, c.models.map fun m => (m.modelId, c.minGpuNum m.modelName))
  else pure (s.carried, s.carried.map fun e => (e.1, e.2.gpuNum, e.2.numWorker))

/-- `_preemptive_scheduling`: the plan group of the stage and the state after it. -/
def Rule.preemptiveScheduling (s : State) : Option (PlanDict × State) :=
  if c.totGpuNum ≤ c.demand s.workload then do
    let a ← c.admitWaiting s
    let workload ← c.updateWorkloadDict a.plans s.last s.workload
    pure (a.plans, ⟨a.plans, workload, a.remainingModels⟩)
  else do
    let (plans, allocation) ← c.startPlans s
    let remaining := c.totGpuNum - (allocation.map fun e => e.2.1).sum
    let costs ← c.compModelCosts s.last s.workload plans
    let sel ← c.selectPlans s.last s.workload remaining ⟨plans, costs.cost, remaining, allocation⟩
    let workload ← c.updateWorkloadDict sel.plans s.last s.workload
    pure (sel.plans, ⟨sel.plans, workload, s.waiting⟩)

/-- `max(workload_dict.values()) > 0`. -/
def Rule.unfinished (s : State) : Bool := c.models.any fun m => 0 < s.workload m.modelId

/-- `preemptive_schedule`: the plan groups of the stages, each with the state after it. -/
def Rule.preemptiveSchedule : Nat → State → Option (List (PlanDict × State))
  | 0, s => if c.unfinished s then none else some []
  | fuel + 1, s =>
    if c.unfinished s then do
      let (group, s') ← c.preemptiveScheduling s
      let rest ← Rule.preemptiveSchedule fuel s'
      pure ((group, s') :: rest)
    else some []

end

end Mil.LightRule
