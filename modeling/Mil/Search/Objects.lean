import Mil.Search.Append

/-!
# Plan objects

`_append_exec_plan` and `_update_uniq_exec_plan_mapping` once more, now with the identity of the plan
objects: what is stored in `uniq_exec_plan_mapping` is an object, and two groups that find it under
the same path key share it. `copy_the_plan` makes a new object. Forgetting the identities gives the
enumeration of `Mil.Search.appendExecPlan` back (`Objects.appendExecPlan_erase`).

The two places that store a copy differ in the plans they keep with it: the enumeration keeps the
candidate itself at the end, `_update_uniq_exec_plan_mapping` the copy.
-/

set_option autoImplicit false

namespace Mil.Search

open Mil.Fusion Mil.Lib

/-- The key of a plan has all the fields but the share of the parameters. -/
theorem ExecPlan.eq_iff_ident {p q : ExecPlan} :
    p.ident = q.ident ∧ p.paramBytePerCacheGpu = q.paramBytePerCacheGpu ↔ p = q := by
  constructor
  · rintro ⟨hident, hparam⟩
    cases p
    cases q
    simp only [ExecPlan.ident, ExecPlan.getKey, Prod.mk.injEq, PlanKey.mk.injEq] at hident
    obtain ⟨rfl, rfl, rfl, rfl, rfl, rfl⟩ := hident
    cases hparam
    rfl
  · rintro rfl
    exact ⟨rfl, rfl⟩

instance : DecidableEq ExecPlan := fun _ _ => decidable_of_iff _ ExecPlan.eq_iff_ident

/-- A plan object: which one it is, and the arguments of its constructor. -/
structure PlanObj where
  id : Nat
  plan : ExecPlan
deriving DecidableEq

namespace PlanObj

abbrev modelId (o : PlanObj) : Nat := o.plan.modelId

abbrev ident (o : PlanObj) : Nat × PlanKey := o.plan.ident

end PlanObj

/-- The objects made so far, which have the ids below `next`, and `uniq_exec_plan_mapping`. -/
structure Objects where
  next : Nat
  entries : List (PathKey × (PlanObj × List PlanObj))
  own : ∀ e ∈ entries, e.1.steps.getLast? = some e.2.1.ident

/-- `_get_path_key`. -/
def objPathKey (models : ModelTable) (planGroup : List PlanObj) (execPlan : PlanObj) :
    PathKey × List PlanObj :=
  let inpModelIds := (models.inputModelIds execPlan.modelId).insertionSort (· ≤ ·)
  let inpPlans := inpModelIds.filterMap fun inp =>
    planGroup.find? fun q => inp = q.modelId ∨ inp ∈ models.baseModelIds q.modelId
  (⟨(inpPlans ++ [execPlan]).map PlanObj.ident⟩, inpPlans ++ [execPlan])

theorem getLast?_objPathKey (models : ModelTable) (planGroup : List PlanObj) (execPlan : PlanObj) :
    (objPathKey models planGroup execPlan).1.steps.getLast? = some execPlan.ident := by
  simp [objPathKey]

namespace Objects

/-- The object that `copy_the_plan` makes next. -/
def copyOf (os : Objects) (execPlan : PlanObj) : PlanObj := ⟨os.next, execPlan.plan.copyThePlan⟩

/-- A copy is made and stored under a key that ends with the plan. -/
def storeCopy (os : Objects) (pathKey : PathKey) (execPlan : PlanObj) (pathPlans : List PlanObj)
    (h : pathKey.steps.getLast? = some execPlan.ident) : Objects where
  next := os.next + 1
  entries := Dict.set pathKey (os.copyOf execPlan, pathPlans) os.entries
  own e he := by
    rcases Dict.eq_or_mem_of_mem_set he with rfl | he
    · exact h
    · exact os.own e he

/-! ## Appending a plan to a group -/

/-- The plan object to use for a candidate, in `_append_exec_plan`. -/
def planToUse (models : ModelTable) (planGroup : List PlanObj) (execPlan : PlanObj) (os : Objects) :
    PlanObj × Objects :=
  match os.entries.lookup (objPathKey models planGroup execPlan).1 with
  | some (plan, _) => (plan, os)
  | none =>
    (os.copyOf execPlan,
      os.storeCopy (objPathKey models planGroup execPlan).1 execPlan
        (objPathKey models planGroup execPlan).2 (getLast?_objPathKey models planGroup execPlan))

/-- `_update_uniq_exec_plan_mapping`. -/
def updateUniqExecPlanMapping (models : ModelTable) (planGroup : List PlanObj) (plan : PlanObj)
    (os : Objects) : PlanObj × Objects :=
  match os.entries.lookup (objPathKey models planGroup plan).1 with
  | some (stored, _) => (stored, os)
  | none =>
    (os.copyOf plan,
      os.storeCopy (objPathKey models planGroup plan).1 plan
        ((objPathKey models planGroup plan).2.dropLast ++ [os.copyOf plan])
        (getLast?_objPathKey models planGroup plan))

/-- The loop of `_update_plan_group_consider_new_inp_for_horizontally_fused_models`. -/
def copyAffected (models : ModelTable) (affected : List Nat) (planGroup : List PlanObj) :
    List PlanObj → List PlanObj × Objects → List PlanObj × Objects
  | [], acc => acc
  | plan :: plans, (newPlanGroup, os) =>
    if plan.modelId ∈ affected then
      copyAffected models affected planGroup plans (newPlanGroup ++ [os.copyOf plan],
        os.storeCopy (objPathKey models planGroup plan).1 plan
          (objPathKey models planGroup plan).2 (getLast?_objPathKey models planGroup plan))
    else copyAffected models affected planGroup plans (newPlanGroup ++ [plan], os)

/-- `_update_plan_group_consider_new_inp_for_horizontally_fused_models`. -/
def updatePlanGroup (models : ModelTable) (planGroup : List PlanObj) (newExecPlan : PlanObj)
    (os : Objects) : Option (List PlanObj × Objects) := do
  let affected ← affectedModelIds models.outEdges
    ((models.outEdges.flatMap Prod.snd).length + 1) [newExecPlan.modelId]
  if affected = [] then return (planGroup, os)
  else return copyAffected models affected planGroup planGroup ([], os)

/-- The group made of a group and a candidate that fits. -/
def appendPlan (models : ModelTable) (planGroup : List PlanObj) (execPlan : PlanObj) (os : Objects) :
    Option (List PlanObj × Objects) := do
  let (execPlanToUse, os) := planToUse models planGroup execPlan os
  let (planGroupToUse, os) ← updatePlanGroup models planGroup execPlanToUse os
  return (planGroupToUse ++ [execPlanToUse], os)

theorem appendPlan_eq (models : ModelTable) (planGroup : List PlanObj) (execPlan : PlanObj)
    (os : Objects) : appendPlan models planGroup execPlan os =
      (updatePlanGroup models planGroup (planToUse models planGroup execPlan os).1
        (planToUse models planGroup execPlan os).2).map
          fun r => (r.1 ++ [(planToUse models planGroup execPlan os).1], r.2) := by
  rw [appendPlan]
  generalize planToUse models planGroup execPlan os = out
  obtain ⟨execPlanToUse, os'⟩ := out
  show (updatePlanGroup models planGroup execPlanToUse os').bind _ = _
  cases updatePlanGroup models planGroup execPlanToUse os' with
  | none => rfl
  | some r => rfl

/-- The body of the loop over the candidates. -/
def extendPlanGroup (models : ModelTable) (totGpuNum : Nat) (bytePerGpu : ℚ)
    (goodKeys : List PlanKey) (planGroup : List PlanObj) (acc : List (List PlanObj) × Objects)
    (execPlan : PlanObj) : Option (List (List PlanObj) × Objects) :=
  if canExtend totGpuNum bytePerGpu goodKeys (planGroup.map PlanObj.plan) execPlan.plan then do
    let (tmpPlanGroup, os) ← appendPlan models planGroup execPlan acc.2
    return (acc.1 ++ [tmpPlanGroup], os)
  else some acc

/-- `_append_exec_plan`, from a depth on: for every model the candidates and the good keys. -/
def appendExecPlan (models : ModelTable) (totGpuNum : Nat) (bytePerGpu : ℚ) :
    List (List PlanObj × List PlanKey) → List (List PlanObj) → Objects →
    Option (List (List PlanObj) × Objects)
  | [], planGroups, os => some (planGroups, os)
  | (execPlans, goodKeys) :: rest, planGroups, os => do
    let (newPlanGroups, os) ← planGroups.foldlM (fun acc planGroup =>
      execPlans.foldlM (extendPlanGroup models totGpuNum bytePerGpu goodKeys planGroup) acc)
      ([], os)
    appendExecPlan models totGpuNum bytePerGpu rest (planGroups ++ newPlanGroups) os

/-! ## Forgetting the identities -/

/-- The table with the arguments of the objects. -/
def erase (os : Objects) : UniqExecPlanMapping where
  entries := os.entries.map fun e => (e.1, (e.2.1.plan, e.2.2.map PlanObj.plan))
  own e he := by
    obtain ⟨e₀, he₀, rfl⟩ := List.mem_map.mp he
    exact os.own e₀ he₀

section

variable (models : ModelTable) {totGpuNum : Nat} {bytePerGpu : ℚ} {goodKeys : List PlanKey}

theorem getPathKey_erase (planGroup : List PlanObj) (execPlan : PlanObj) :
    getPathKey models (planGroup.map PlanObj.plan) execPlan.plan =
      ((objPathKey models planGroup execPlan).1,
        (objPathKey models planGroup execPlan).2.map PlanObj.plan) := by
  have hinp : ∀ inps : List Nat,
      (inps.filterMap fun inp => (planGroup.map PlanObj.plan).find? fun q =>
        inp = q.modelId ∨ inp ∈ models.baseModelIds q.modelId) =
      (inps.filterMap fun inp => planGroup.find? fun q =>
        inp = q.modelId ∨ inp ∈ models.baseModelIds q.modelId).map PlanObj.plan := by
    intro inps
    rw [List.map_filterMap]
    refine congrArg (List.filterMap · inps) (funext fun inp => ?_)
    exact List.find?_map
  simp only [getPathKey, objPathKey, hinp, List.map_append, List.map_map, List.map_singleton]
  rfl

theorem lookup_erase (os : Objects) (pathKey : PathKey) : os.erase.entries.lookup pathKey =
    (os.entries.lookup pathKey).map fun e => (e.1.plan, e.2.map PlanObj.plan) :=
  Dict.lookup_map (fun e : PlanObj × List PlanObj => (e.1.plan, e.2.map PlanObj.plan)) os.entries
    pathKey

theorem eq_of_entries {mapping mapping' : UniqExecPlanMapping}
    (h : mapping.entries = mapping'.entries) : mapping = mapping' := by
  cases mapping
  cases mapping'
  cases h
  rfl

theorem erase_storeCopy (os : Objects) {pathKey : PathKey} {execPlan : PlanObj}
    (pathPlans : List PlanObj) (h : pathKey.steps.getLast? = some execPlan.ident) :
    (os.storeCopy pathKey execPlan pathPlans h).erase =
      os.erase.set pathKey execPlan.plan.copyThePlan (pathPlans.map PlanObj.plan) h := by
  apply eq_of_entries
  exact Dict.set_map (fun e : PlanObj × List PlanObj => (e.1.plan, e.2.map PlanObj.plan)) os.entries
    pathKey (os.copyOf execPlan, pathPlans)

theorem planToUse_erase (planGroup : List PlanObj) (execPlan : PlanObj) (os : Objects) :
    Search.planToUse models (planGroup.map PlanObj.plan) execPlan.plan os.erase =
      ((planToUse models planGroup execPlan os).1.plan,
        (planToUse models planGroup execPlan os).2.erase) := by
  unfold Search.planToUse planToUse
  simp only [getPathKey_erase, lookup_erase]
  cases os.entries.lookup (objPathKey models planGroup execPlan).1 with
  | none => exact Prod.ext rfl (erase_storeCopy os _ (getLast?_objPathKey models planGroup execPlan)).symm
  | some e => rfl

theorem copyAffected_erase (affected : List Nat) (planGroup plans : List PlanObj)
    (acc : List PlanObj × Objects) :
    Search.copyAffected models affected (planGroup.map PlanObj.plan) (plans.map PlanObj.plan)
        (acc.1.map PlanObj.plan, acc.2.erase) =
      ((copyAffected models affected planGroup plans acc).1.map PlanObj.plan,
        (copyAffected models affected planGroup plans acc).2.erase) := by
  induction plans generalizing acc with
  | nil => rfl
  | cons plan plans ih =>
    rw [List.map_cons, Search.copyAffected, copyAffected]
    by_cases haffected : plan.modelId ∈ affected
    · rw [if_pos haffected, if_pos haffected, ← ih]
      simp only [getPathKey_erase, List.map_append, List.map_singleton]
      rw [erase_storeCopy]
      rfl
    · rw [if_neg haffected, if_neg haffected, ← ih, List.map_append, List.map_singleton]

theorem updatePlanGroup_erase (planGroup : List PlanObj) (newExecPlan : PlanObj) (os : Objects) :
    Search.updatePlanGroup models (planGroup.map PlanObj.plan) newExecPlan.plan os.erase =
      (updatePlanGroup models planGroup newExecPlan os).map
        fun r => (r.1.map PlanObj.plan, r.2.erase) := by
  unfold Search.updatePlanGroup updatePlanGroup
  cases affectedModelIds models.outEdges ((models.outEdges.flatMap Prod.snd).length + 1)
      [newExecPlan.modelId] with
  | none => rfl
  | some affected =>
    by_cases hnil : affected = []
    · subst hnil
      rfl
    · show (if affected = [] then _ else _) = Option.map _ (if affected = [] then _ else _)
      rw [if_neg hnil, if_neg hnil]
      exact congrArg some (copyAffected_erase models affected planGroup planGroup ([], os))

/-- A group is extended by the same plans. -/
theorem extendPlanGroup_erase (planGroup : List PlanObj) (acc : List (List PlanObj) × Objects)
    (execPlan : PlanObj) :
    Search.extendPlanGroup models totGpuNum bytePerGpu goodKeys (planGroup.map PlanObj.plan)
        (acc.1.map (List.map PlanObj.plan), acc.2.erase) execPlan.plan =
      (extendPlanGroup models totGpuNum bytePerGpu goodKeys planGroup acc execPlan).map
        fun r => (r.1.map (List.map PlanObj.plan), r.2.erase) := by
  unfold Search.extendPlanGroup extendPlanGroup
  split
  · simp only [planToUse_erase, appendPlan_eq]
    rw [updatePlanGroup_erase]
    cases updatePlanGroup models planGroup (planToUse models planGroup execPlan acc.2).1
        (planToUse models planGroup execPlan acc.2).2 with
    | none => rfl
    | some r => simp
  · rfl

/-- The enumeration with objects goes through the same groups. -/
theorem appendExecPlan_erase (lists : List (List PlanObj × List PlanKey))
    (planGroups : List (List PlanObj)) (os : Objects) :
    Search.appendExecPlan models totGpuNum bytePerGpu
        (lists.map fun c => (c.1.map PlanObj.plan, c.2)) (planGroups.map (List.map PlanObj.plan))
        os.erase =
      (appendExecPlan models totGpuNum bytePerGpu lists planGroups os).map
        fun r => (r.1.map (List.map PlanObj.plan), r.2.erase) := by
  induction lists generalizing planGroups os with
  | nil => rfl
  | cons c lists ih =>
    have hfold := foldlM_map
      (f := fun acc planGroup =>
        c.1.foldlM (extendPlanGroup models totGpuNum bytePerGpu c.2 planGroup) acc)
      (g := fun acc planGroup => (c.1.map PlanObj.plan).foldlM
        (Search.extendPlanGroup models totGpuNum bytePerGpu c.2 planGroup) acc)
      (fun acc planGroup => foldlM_map (extendPlanGroup_erase models planGroup) c.1 acc)
      planGroups ([], os)
    rw [List.map_cons, Search.appendExecPlan, appendExecPlan]
    refine (congrArg (· >>= _) hfold).trans ?_
    cases planGroups.foldlM (fun acc planGroup =>
        c.1.foldlM (extendPlanGroup models totGpuNum bytePerGpu c.2 planGroup) acc) ([], os) with
    | none => rfl
    | some r =>
      show Search.appendExecPlan models totGpuNum bytePerGpu _
        (planGroups.map (List.map PlanObj.plan) ++ r.1.map (List.map PlanObj.plan)) r.2.erase = _
      rw [← List.map_append, ih]
      rfl

end

end Objects

end Mil.Search
