import Mathlib.Logic.Relation
import Mil.Search.Enumerate
import Mil.Search.Objects

/-!
# Estimating the plans of a group

When a `MyExecPlanGroup` is made, the arrival times of every plan are computed from the finish times
of its input plans in the group, and each plan that has no latency yet is given to the simulation with
its arrival times; the results come when the plan is waited for. A plan object is therefore estimated
once, in the first group it is found in. Its finish times are merged when they are first asked for and
kept; asking while the simulation runs raises an exception.

The computation of the arrival times from the finish times and the simulation are parameters. They
may depend on the model and the key of a plan and, for the arrival times, on the finish times of the
input plans in the group, by their model ids. The extra cost of a plan is the same in all groups of a
stage and is part of these functions.

The last section says what a plan carries when it is estimated from scratch in a group.
-/

set_option autoImplicit false

namespace Mil.Search

open Mil.Fusion Mil.Lib

/-! ## The models of a stage -/

/-- The models, with `inp_base_model_ids`. A model reads from another if and only if there is an edge
between them, whether one asks for model ids or for base models. -/
structure StageModels extends ModelTable where
  inpBaseModelIds : Nat → List Nat
  mem_inputModelIds : ∀ a b, a ∈ inputModelIds b ↔ b ∈ outModelIds outEdges a
  exists_inpBaseModelId : ∀ a b,
    (∃ c ∈ inpBaseModelIds b, c ∈ baseModelIds a) ↔ b ∈ outModelIds outEdges a

variable {A F R : Type}

/-- `_get_arrive_times`, the simulation of a plan with its arrival times, and
`get_finish_times_merged` of a plan with and without results. -/
structure Estimator (A F R : Type) where
  arriveTimes : Nat × PlanKey → (Nat → Option F) → A
  simulate : Nat × PlanKey → A → R
  finishTimes : Nat × PlanKey → Option R → F

/-! ## The state of the plan objects -/

/-- Whether a plan is simulated: not yet, with these arrival times, or with these arrival times and
results. -/
inductive Estimate (A R : Type)
  | fresh
  | running (arriveTimes : A)
  | done (arriveTimes : A) (results : R)
deriving DecidableEq

def Estimate.results : Estimate A R → Option R
  | .done _ r => some r
  | _ => none

/-- What changes about a plan object: its estimate, and `finish_times_merged` once it is kept. -/
structure PlanState (A F R : Type) where
  estimate : Estimate A R
  finishTimesMerged : Option F

/-- The plan objects with their states, and the plan groups constructed so far. -/
structure Table (A F R : Type) extends Objects where
  planGroups : List (List PlanObj)
  states : PlanObj → PlanState A F R

/-- The plan of model `i`, if `execPlan` reads from it and it is in the group
(`inp_exec_plan_dict`). -/
def inpExecPlan (models : StageModels) (planGroup : List PlanObj) (modelId i : Nat) :
    Option PlanObj :=
  if ∃ c ∈ models.inpBaseModelIds modelId, c ∈ models.baseModelIds i then
    planGroup.find? fun q => q.modelId = i
  else none

namespace Table

variable (models : StageModels) (E : Estimator A F R) (t : Table A F R)

def estimate (o : PlanObj) : Estimate A R := (t.states o).estimate

/-- `get_finish_times_merged`. -/
def finishTimes (o : PlanObj) : F :=
  (t.states o).finishTimesMerged.getD (E.finishTimes o.ident (t.estimate o).results)

/-- `_get_arrive_times`. -/
def arriveTimes (plans : List PlanObj) (o : PlanObj) : A :=
  E.arriveTimes o.ident fun i => (inpExecPlan models plans o.modelId i).map (t.finishTimes E)

/-- The plan is read by a plan of the list. -/
def isRead (plans : List PlanObj) (o : PlanObj) : Bool :=
  plans.any fun q => inpExecPlan models plans q.modelId o.modelId = some o

/-- Asking the plan for its finish times raises an exception: the arrays of its workers have different
lengths while the simulation runs. -/
def raises (o : PlanObj) : Bool :=
  match t.estimate o, (t.states o).finishTimesMerged with
  | .running _, none => true
  | _, _ => false

/-- `estimate_exec_time`, unless the plan has a latency. -/
def startEstimate (plans : List PlanObj) (o : PlanObj) : Estimate A R :=
  match t.estimate o with
  | .done a r => .done a r
  | _ => .running (t.arriveTimes models E plans o)

/-- `MyExecPlanGroup(plans, ...)`. -/
def build (plans : List PlanObj) : Option (Table A F R) :=
  if plans.any fun o => isRead models plans o && t.raises o then none
  else some { t with
    states := fun o =>
      { estimate := if o ∈ plans then t.startEstimate models E plans o else t.estimate o
        finishTimesMerged :=
          if isRead models plans o then some (t.finishTimes E o)
          else (t.states o).finishTimesMerged } }

/-- `_wait_for_remote_fake_scheduling`. -/
def wait (o : PlanObj) : Table A F R :=
  match t.estimate o with
  | .running a =>
    { t with
      states := Function.update t.states o
        { t.states o with estimate := .done a (E.simulate o.ident a) } }
  | _ => t

/-- A group is made and all its plans are waited for. -/
def estimateGroup (plans : List PlanObj) : Option (Table A F R) :=
  (t.build models E plans).map fun t => plans.foldl (Table.wait E) t

end Table

/-! ## What a search does with the table -/

/-- The steps of a search: a plan object for a candidate is made (`get_possible_exec_plans`), a
candidate is appended to a group, a plan is put behind the plans of a sorted group
(`_get_correct_tmp_plan_group`), and plans are estimated. -/
inductive Act
  | create (plan : ExecPlan)
  | append (planGroup : List PlanObj) (execPlan : PlanObj)
  | update (planGroup : List PlanObj) (plan : PlanObj)
  | build (plans : List PlanObj)
  | wait (plan : PlanObj)

/-- A step, if it raises no exception. -/
def exec (models : StageModels) (E : Estimator A F R) (t : Table A F R) : Act → Option (Table A F R)
  | .create _ => some { t with next := t.next + 1 }
  | .append planGroup execPlan => do
    let (tmpPlanGroup, os) ← Objects.appendPlan models.toModelTable planGroup execPlan t.toObjects
    return { t with toObjects := os, planGroups := t.planGroups ++ [tmpPlanGroup] }
  | .update planGroup plan =>
    let (planToUse, os) :=
      Objects.updateUniqExecPlanMapping models.toModelTable planGroup plan t.toObjects
    some { t with toObjects := os, planGroups := t.planGroups ++ [planGroup ++ [planToUse]] }
  | .build plans => t.build models E plans
  | .wait plan => some (t.wait E plan)

/-- The table at the beginning of a search. -/
def Table.start (A F R : Type) : Table A F R where
  next := 0
  entries := []
  own _ he := absurd he List.not_mem_nil
  planGroups := [[]]
  states _ := ⟨.fresh, none⟩

/-- What the callers see to: a group has one plan of a model, the groups that
`_get_correct_tmp_plan_group` makes are sorted, and what is estimated is a group or the plans stored
under a key. -/
def Calls (models : StageModels) (t : Table A F R) : Act → Prop
  | .create _ => True
  | .append planGroup execPlan => planGroup ∈ t.planGroups ∧ execPlan.id < t.next ∧
      execPlan.modelId ∉ planGroup.map PlanObj.modelId
  | .update planGroup plan => planGroup ∈ t.planGroups ∧ plan.id < t.next ∧
      plan.modelId ∉ planGroup.map PlanObj.modelId ∧
      ∀ q ∈ planGroup, q.modelId ∉ outModelIds models.outEdges plan.modelId
  | .build plans => plans ∈ t.planGroups ∨ ∃ e ∈ t.entries, e.2.2 = plans
  | .wait _ => True

/-! ## Estimates from scratch -/

/-- The key of the plan that a group has of a model. -/
def planKey (planGroup : List PlanObj) (modelId : Nat) : Option PlanKey :=
  (planGroup.map PlanObj.ident).lookup modelId

section

variable (models : StageModels) (E : Estimator A F R) (keys : Nat → Option PlanKey)

/-- Arrival times and results of a model's plan, where `keys` gives the plans of the group. -/
def scratchAt : Nat → Nat → Option (A × R)
  | 0, _ => none
  | fuel + 1, modelId => (keys modelId).map fun key =>
    let arrive := E.arriveTimes (modelId, key) fun i =>
      if ∃ c ∈ models.inpBaseModelIds modelId, c ∈ models.baseModelIds i then
        (keys i).bind fun k =>
          (scratchAt fuel i).map fun v => E.finishTimes (i, k) (some v.2)
      else none
    (arrive, E.simulate (modelId, key) arrive)

/-- Arrival times and results from scratch. A path of models that read from each other has no more
models than there are edges, and one. -/
def scratch : Nat → Option (A × R) :=
  scratchAt models E keys ((models.outEdges.flatMap Prod.snd).length + 1)

/-- The plans of a model's inputs in the group, direct and indirect, are the same. -/
inductive SameInputs (models : StageModels) (keys keys' : Nat → Option PlanKey) : Nat → Prop
  | intro {modelId : Nat}
      (direct : ∀ i, modelId ∈ outModelIds models.outEdges i → keys i = keys' i)
      (indirect : ∀ i, modelId ∈ outModelIds models.outEdges i → keys i ≠ none →
        SameInputs models keys keys' i) :
      SameInputs models keys keys' modelId

end

/-! ## Results from scratch depend on the inputs only -/

section

variable {models : StageModels} {E : Estimator A F R} {keys keys' : Nat → Option PlanKey}

/-- The inputs of a model are further from the end of the graph. -/
theorem lt_of_reads {i m : Nat} (h : m ∈ outModelIds models.outEdges i) :
    (models.outEdges.flatMap Prod.snd).length - reach models.outEdges i <
      (models.outEdges.flatMap Prod.snd).length - reach models.outEdges m := by
  have hlt := reach_lt models.acyclic (edge_of_mem_outModelIds h)
  have hle := reach_le models.outEdges i
  omega

theorem scratchAt_succ {fuel m : Nat}
    (hfuel : (models.outEdges.flatMap Prod.snd).length - reach models.outEdges m < fuel) :
    scratchAt models E keys fuel m = scratchAt models E keys (fuel + 1) m := by
  induction fuel generalizing m with
  | zero => exact absurd hfuel (Nat.not_lt_zero _)
  | succ fuel ih =>
    rw [scratchAt, scratchAt]
    refine congrArg (Option.map · (keys m)) (funext fun key => ?_)
    have htimes : ∀ i, (∃ c ∈ models.inpBaseModelIds m, c ∈ models.baseModelIds i) →
        scratchAt models E keys fuel i = scratchAt models E keys (fuel + 1) i := fun i hi =>
      ih (lt_of_lt_of_le (lt_of_reads ((models.exists_inpBaseModelId i m).mp hi))
        (Nat.le_of_lt_succ hfuel))
    simp +contextual only [htimes]

/-- One level of the computation from scratch. -/
theorem scratch_eq (models : StageModels) (E : Estimator A F R) (keys : Nat → Option PlanKey)
    (m : Nat) : scratch models E keys m = (keys m).map fun key =>
      let arrive := E.arriveTimes (m, key) fun i =>
        if ∃ c ∈ models.inpBaseModelIds m, c ∈ models.baseModelIds i then
          (keys i).bind fun k =>
            (scratch models E keys i).map fun v => E.finishTimes (i, k) (some v.2)
        else none
      (arrive, E.simulate (m, key) arrive) := by
  have hfuel : (models.outEdges.flatMap Prod.snd).length - reach models.outEdges m <
      (models.outEdges.flatMap Prod.snd).length + 1 := Nat.lt_succ_of_le (Nat.sub_le _ _)
  rw [scratch, scratchAt_succ hfuel, scratchAt]

theorem SameInputs.symm {m : Nat} (h : SameInputs models keys keys' m) :
    SameInputs models keys' keys m := by
  induction h with
  | intro direct _ ih =>
    exact .intro (fun i hi => (direct i hi).symm) fun i hi hne => ih i hi (direct i hi ▸ hne)

theorem SameInputs.trans {keys'' : Nat → Option PlanKey} {m : Nat}
    (h : SameInputs models keys keys' m) (h' : SameInputs models keys' keys'' m) :
    SameInputs models keys keys'' m := by
  induction h with
  | intro direct _ ih =>
    cases h' with
    | intro direct' indirect' =>
      exact .intro (fun i hi => (direct i hi).trans (direct' i hi)) fun i hi hne =>
        ih i hi hne (indirect' i hi (direct i hi ▸ hne))

/-- A set of models whose inputs have the same plans in two groups, where the inputs that are in the
groups belong to the set. -/
theorem sameInputs_of_closed {S : Nat → Prop}
    (hinputs : ∀ m, S m → ∀ i, m ∈ outModelIds models.outEdges i →
      keys i = keys' i ∧ (keys i ≠ none → S i))
    {m : Nat} (hm : S m) : SameInputs models keys keys' m := by
  -- On the distance from the end of the graph.
  induction hn : (models.outEdges.flatMap Prod.snd).length - reach models.outEdges m
    using Nat.strong_induction_on generalizing m with
  | _ n ih =>
    refine .intro (fun i hi => (hinputs m hm i hi).1) fun i hi hne => ?_
    exact ih _ (hn ▸ lt_of_reads hi) ((hinputs m hm i hi).2 hne) rfl

theorem SameInputs.refl (models : StageModels) (keys : Nat → Option PlanKey) (m : Nat) :
    SameInputs models keys keys m :=
  sameInputs_of_closed (S := fun _ => True) (fun _ _ _ _ => ⟨rfl, fun _ => trivial⟩) trivial

theorem scratch_congr {m : Nat} (h : SameInputs models keys keys' m) (hm : keys m = keys' m) :
    scratch models E keys m = scratch models E keys' m := by
  induction h with
  | @intro m direct _ ih =>
    rw [scratch_eq, scratch_eq, hm]
    refine congrArg (Option.map · (keys' m)) (funext fun key => ?_)
    have htimes : ∀ i, (∃ c ∈ models.inpBaseModelIds m, c ∈ models.baseModelIds i) →
        ((keys i).bind fun k =>
            (scratch models E keys i).map fun v => E.finishTimes (i, k) (some v.2)) =
          (keys' i).bind fun k =>
            (scratch models E keys' i).map fun v => E.finishTimes (i, k) (some v.2) := by
      intro i hi
      have hedge := (models.exists_inpBaseModelId i m).mp hi
      cases hkey : keys i with
      | none => rw [← direct i hedge, hkey]; rfl
      | some k =>
        rw [ih i hedge (by rw [hkey]; exact Option.some_ne_none k) (direct i hedge),
          ← direct i hedge, hkey]
    simp +contextual only [htimes]

end

end Mil.Search
