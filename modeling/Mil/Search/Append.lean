import Mathlib.Data.Finset.Card
import Mil.Lib.FoldM
import Mil.Search.Plans

/-!
# Enumerating plan groups

`_append_exec_plan`: depth by depth, every plan group so far is extended by every plan of the next
model that is good and fits, and the extended groups are added to the list.

A plan that is added is not the candidate itself but a plan object looked up in
`uniq_exec_plan_mapping` under its path key: the plans of the group its model reads from, and its own
key. The table is part of the state; that the plan under a key has the model and the key it is stored
for is carried by its type. A plan whose model gets a new input by the extension is copied, together
with a new entry of the table.
-/

set_option autoImplicit false

namespace Mil.Search

open Mil.Fusion Mil.Lib

/-! ## Models -/

/-- What the enumeration reads of the models: `input_model_ids` and `get_base_model_ids` by model id,
and `out_edge_dict`. -/
structure ModelTable where
  inputModelIds : Nat → List Nat
  baseModelIds : Nat → List Nat
  outEdges : EdgeDict
  acyclic : Acyclic (Edge outEdges)

/-- `in_stage_out_edge_dict[model_id]`, of a `defaultdict`. -/
def outModelIds (outEdges : EdgeDict) (modelId : Nat) : List Nat := (outEdges.lookup modelId).getD []

/-- The `while` loop that collects `affected_model_ids`. -/
def affectedModelIds (outEdges : EdgeDict) : Nat → List Nat → Option (List Nat)
  | 0, _ => none
  | fuel + 1, newlyAdd =>
    let tmpNewlyAdd := newlyAdd.flatMap (outModelIds outEdges)
    if tmpNewlyAdd = [] then some []
    else (affectedModelIds outEdges fuel tmpNewlyAdd).map (tmpNewlyAdd ++ ·)

/-! ## The table of plan objects -/

/-- A key of the table: the models and keys of the plans on the way, that of the plan itself last. -/
structure PathKey where
  steps : List (Nat × PlanKey)
deriving DecidableEq

/-- `uniq_exec_plan_mapping`. -/
structure UniqExecPlanMapping where
  entries : List (PathKey × (ExecPlan × List ExecPlan))
  own : ∀ e ∈ entries, e.1.steps.getLast? = some e.2.1.ident

namespace UniqExecPlanMapping

def empty : UniqExecPlanMapping := ⟨[], fun _ he => absurd he List.not_mem_nil⟩

def set (mapping : UniqExecPlanMapping) (pathKey : PathKey) (plan : ExecPlan)
    (pathPlans : List ExecPlan) (h : pathKey.steps.getLast? = some plan.ident) : UniqExecPlanMapping where
  entries := Dict.set pathKey (plan, pathPlans) mapping.entries
  own e he := by
    rcases Dict.eq_or_mem_of_mem_set he with rfl | he
    · exact h
    · exact mapping.own e he

theorem ident_of_lookup {mapping : UniqExecPlanMapping} {pathKey : PathKey}
    {e : ExecPlan × List ExecPlan} {i : Nat × PlanKey}
    (h : mapping.entries.lookup pathKey = some e) (hlast : pathKey.steps.getLast? = some i) :
    e.1.ident = i := by
  have hown := mapping.own _ (Dict.mem_of_lookup h)
  exact Option.some.inj (hown.symm.trans hlast)

end UniqExecPlanMapping

/-- `_get_path_key`. -/
def getPathKey (models : ModelTable) (planGroup : List ExecPlan) (plan : ExecPlan) :
    PathKey × List ExecPlan :=
  let inpModelIds := (models.inputModelIds plan.modelId).insertionSort (· ≤ ·)
  let inpPlans := inpModelIds.filterMap fun inp =>
    planGroup.find? fun q => inp = q.modelId ∨ inp ∈ models.baseModelIds q.modelId
  (⟨(inpPlans ++ [plan]).map ExecPlan.ident⟩, inpPlans ++ [plan])

theorem getLast?_getPathKey (models : ModelTable) (planGroup : List ExecPlan) (plan : ExecPlan) :
    (getPathKey models planGroup plan).1.steps.getLast? = some plan.ident := by
  simp [getPathKey]

/-! ## One extension -/

/-- The loop over the plans of a group in
`_update_plan_group_consider_new_inp_for_horizontally_fused_models`. -/
def copyAffected (models : ModelTable) (affected : List Nat) (planGroup : List ExecPlan) :
    List ExecPlan → List ExecPlan × UniqExecPlanMapping → List ExecPlan × UniqExecPlanMapping
  | [], acc => acc
  | plan :: plans, (newPlanGroup, mapping) =>
    if plan.modelId ∈ affected then
      let copied := plan.copyThePlan
      copyAffected models affected planGroup plans (newPlanGroup ++ [copied],
        mapping.set (getPathKey models planGroup plan).1 copied
          (getPathKey models planGroup plan).2 (getLast?_getPathKey models planGroup plan))
    else copyAffected models affected planGroup plans (newPlanGroup ++ [plan], mapping)

/-- `_update_plan_group_consider_new_inp_for_horizontally_fused_models`. Every round of the search
for affected models goes along one edge, so one more than the number of edges is enough fuel. -/
def updatePlanGroup (models : ModelTable) (planGroup : List ExecPlan) (newExecPlan : ExecPlan)
    (mapping : UniqExecPlanMapping) : Option (List ExecPlan × UniqExecPlanMapping) := do
  let affected ← affectedModelIds models.outEdges
    ((models.outEdges.flatMap Prod.snd).length + 1) [newExecPlan.modelId]
  if affected = [] then return (planGroup, mapping)
  else return copyAffected models affected planGroup planGroup ([], mapping)

/-- The plan object to use for a candidate. -/
def planToUse (models : ModelTable) (planGroup : List ExecPlan) (execPlan : ExecPlan)
    (mapping : UniqExecPlanMapping) : ExecPlan × UniqExecPlanMapping :=
  match mapping.entries.lookup (getPathKey models planGroup execPlan).1 with
  | some (plan, _) => (plan, mapping)
  | none =>
    (execPlan.copyThePlan,
      mapping.set (getPathKey models planGroup execPlan).1 execPlan.copyThePlan
        (getPathKey models planGroup execPlan).2 (getLast?_getPathKey models planGroup execPlan))

/-- Whether the group is extended by the candidate. -/
def canExtend (totGpuNum : Nat) (bytePerGpu : ℚ) (goodKeys : List PlanKey)
    (planGroup : List ExecPlan) (execPlan : ExecPlan) : Bool :=
  getTotWorkerNum planGroup ≠ totGpuNum && execPlan.getKey ∈ goodKeys &&
    isValidExecPlanCombination (planGroup ++ [execPlan]) totGpuNum bytePerGpu

/-- The body of the loop over the candidates. -/
def extendPlanGroup (models : ModelTable) (totGpuNum : Nat) (bytePerGpu : ℚ)
    (goodKeys : List PlanKey) (planGroup : List ExecPlan)
    (acc : List (List ExecPlan) × UniqExecPlanMapping) (execPlan : ExecPlan) :
    Option (List (List ExecPlan) × UniqExecPlanMapping) :=
  if canExtend totGpuNum bytePerGpu goodKeys planGroup execPlan then do
    let (execPlanToUse, mapping) := planToUse models planGroup execPlan acc.2
    let (planGroupToUse, mapping) ← updatePlanGroup models planGroup execPlanToUse mapping
    return (acc.1 ++ [planGroupToUse ++ [execPlanToUse]], mapping)
  else some acc

/-- `_append_exec_plan`, from a depth on: for every model the candidates and the good keys. -/
def appendExecPlan (models : ModelTable) (totGpuNum : Nat) (bytePerGpu : ℚ) :
    List (List ExecPlan × List PlanKey) → List (List ExecPlan) → UniqExecPlanMapping →
    Option (List (List ExecPlan) × UniqExecPlanMapping)
  | [], planGroups, mapping => some (planGroups, mapping)
  | (execPlans, goodKeys) :: rest, planGroups, mapping => do
    let (newPlanGroups, mapping) ← planGroups.foldlM (fun acc planGroup =>
      execPlans.foldlM (extendPlanGroup models totGpuNum bytePerGpu goodKeys planGroup) acc)
      ([], mapping)
    appendExecPlan models totGpuNum bytePerGpu rest (planGroups ++ newPlanGroups) mapping

end Mil.Search
