import Mil.Search.Estimates

/-!
# When shared plan objects carry the right estimates

A plan object is estimated once and then used in every group that finds it under its path key. The key
names the plans of the direct inputs only, so the groups may differ in the plans of inputs further up.

`Meets` is the condition on a step under which this does no harm: a stored object is only used for a
group in which the inputs of its model, direct and indirect, have the plans they have in the groups
that contain the object; and plans are only estimated when the finish times of their inputs are there.
In every run whose steps meet it, the estimate of every plan object in every group is the one from
scratch (`reach_carriesScratch`).
-/

set_option autoImplicit false

namespace Mil.Search

open Mil.Fusion Mil.Lib

variable {A F R : Type} {models : StageModels} {E : Estimator A F R}

/-! ## The condition -/

/-- What a step must not do. An object stored under the key of a plan is in groups that have the same
plans of the inputs. When plans are estimated, the plans they read from have results, and a plan of a
group that is estimated finds the plans it reads from in one of its groups. -/
def Meets (models : StageModels) (t : Table A F R) : Act → Prop
  | .append planGroup plan | .update planGroup plan => ∀ stored pathPlans,
      t.entries.lookup (objPathKey models.toModelTable planGroup plan).1 = some (stored, pathPlans) →
      ∀ g ∈ t.planGroups, stored ∈ g →
        SameInputs models (planKey g) (planKey planGroup) plan.modelId
  | .build plans =>
      (∀ o ∈ plans, Table.isRead models plans o = true → (t.estimate o).results ≠ none) ∧
      ∀ o ∈ plans, (t.estimate o).results = none → ∀ g ∈ t.planGroups, o ∈ g →
        ∃ g' ∈ t.planGroups, o ∈ g' ∧
          inpExecPlan models plans o.modelId = inpExecPlan models g' o.modelId
  | .create _ | .wait _ => True

/-- The tables that runs of a search lead to, where every step meets the condition. -/
inductive Reach (models : StageModels) (E : Estimator A F R) : Table A F R → Prop
  | start : Reach models E (.start A F R)
  | step {t t' : Table A F R} {act : Act} (h : Reach models E t) (hcalls : Calls models t act)
      (hmeets : Meets models t act) (hexec : exec models E t act = some t') : Reach models E t'

/-! ## Keys of a group -/

theorem planKey_append (g g' : List PlanObj) (m : Nat) :
    planKey (g ++ g') m = (planKey g m).or (planKey g' m) := by
  rw [planKey, List.map_append, List.lookup_append]
  rfl

theorem planKey_eq_none {g : List PlanObj} {m : Nat} :
    planKey g m = none ↔ m ∉ g.map PlanObj.modelId := by
  rw [planKey, Dict.lookup_eq_none, Dict.keys, List.map_map]
  rfl

theorem planKey_of_mem {g : List PlanObj} (hg : (g.map PlanObj.modelId).Nodup) {o : PlanObj}
    (ho : o ∈ g) : planKey g o.modelId = some o.plan.getKey := by
  have hkeys : Dict.keys (g.map PlanObj.ident) = g.map PlanObj.modelId := by
    rw [Dict.keys, List.map_map]
    rfl
  exact Dict.lookup_of_mem (hkeys ▸ hg) (List.mem_map_of_mem ho)

theorem planKey_congr {g g' : List PlanObj} (h : g.map PlanObj.ident = g'.map PlanObj.ident) :
    planKey g = planKey g' := by
  funext m
  rw [planKey, planKey, h]

theorem modelIds_congr {g g' : List PlanObj} (h : g.map PlanObj.ident = g'.map PlanObj.ident) :
    g.map PlanObj.modelId = g'.map PlanObj.modelId := by
  have hfst : ∀ l : List PlanObj, l.map PlanObj.modelId = (l.map PlanObj.ident).map Prod.fst :=
    fun l => by rw [List.map_map]; rfl
  rw [hfst, hfst, h]

/-- The plan of a model in a group, and its key. -/
theorem planKey_eq_find (g : List PlanObj) (m : Nat) :
    planKey g m = (g.find? fun q => q.modelId = m).map fun q => q.plan.getKey := by
  induction g with
  | nil => rfl
  | cons o g ih =>
    by_cases ho : o.modelId = m
    · subst ho
      rw [List.find?_cons_of_pos (by simp)]
      exact Dict.lookup_cons_self
    · rw [List.find?_cons_of_neg (by simpa using ho), ← ih]
      exact Dict.lookup_cons_ne (p := o.ident) ho

/-! ## The invariant -/

/-- The estimate, as far as there is one, is made of these arrival times and results. -/
def Estimate.Of (E : Estimator A F R) (ident : Nat × PlanKey) (v : Option (A × R)) :
    Estimate A R → Prop
  | .fresh => True
  | .running a => v = some (a, E.simulate ident a)
  | .done a r => v = some (a, r)

/-- Groups have distinct models and known plan objects; every stored object is in a group; groups that
share an object have the same plans of its inputs; and estimates are those from scratch. -/
structure Inv (models : StageModels) (E : Estimator A F R) (t : Table A F R) : Prop where
  known : ∀ g ∈ t.planGroups, ∀ o ∈ g, o.id < t.next
  distinct : ∀ g ∈ t.planGroups, (g.map PlanObj.modelId).Nodup
  stored : ∀ e ∈ t.entries, ∃ g ∈ t.planGroups, e.2.1 ∈ g
  pathKnown : ∀ e ∈ t.entries, ∀ o ∈ e.2.2, o.id < t.next
  fresh : ∀ o : PlanObj, t.next ≤ o.id → t.states o = ⟨.fresh, none⟩
  agree : ∀ g ∈ t.planGroups, ∀ g' ∈ t.planGroups, ∀ o ∈ g, o ∈ g' →
    SameInputs models (planKey g) (planKey g') o.modelId
  right : ∀ g ∈ t.planGroups, ∀ o ∈ g,
    (t.estimate o).Of E o.ident (scratch models E (planKey g) o.modelId)
  merged : ∀ o f, (t.states o).finishTimesMerged = some f →
    ∃ a r, t.estimate o = .done a r ∧ f = E.finishTimes o.ident (some r)

theorem Inv.start : Inv models E (.start A F R) where
  known g hg o ho := by
    rw [List.mem_singleton.mp hg] at ho
    cases ho
  distinct g hg := by
    rw [List.mem_singleton.mp hg]
    exact List.nodup_nil
  stored e he := absurd he List.not_mem_nil
  pathKnown e he := absurd he List.not_mem_nil
  fresh _ _ := rfl
  agree g hg g' hg' o ho := by
    rw [List.mem_singleton.mp hg] at ho
    cases ho
  right g hg o ho := by
    rw [List.mem_singleton.mp hg] at ho
    cases ho
  merged o f h := by cases h

theorem Inv.create {t : Table A F R} (h : Inv models E t) :
    Inv models E { t with next := t.next + 1 } where
  known g hg o ho := Nat.lt_succ_of_lt (h.known g hg o ho)
  distinct := h.distinct
  stored := h.stored
  pathKnown e he o ho := Nat.lt_succ_of_lt (h.pathKnown e he o ho)
  fresh o ho := h.fresh o (Nat.le_of_succ_le ho)
  agree := h.agree
  right := h.right
  merged := h.merged

/-! ## A new group -/

/-- A group made of new plan objects and of objects whose inputs have the plans they have in a group
before. -/
structure NewGroup (models : StageModels) (t : Table A F R) (os : Objects) (new : List PlanObj) :
    Prop where
  distinct : (new.map PlanObj.modelId).Nodup
  next_le : t.next ≤ os.next
  members : ∀ o ∈ new, (t.next ≤ o.id ∧ o.id < os.next) ∨
    ∃ g ∈ t.planGroups, o ∈ g ∧ SameInputs models (planKey g) (planKey new) o.modelId
  entries : ∀ e ∈ os.entries, e ∈ t.entries ∨ (e.2.1 ∈ new ∧ ∀ o ∈ e.2.2, o.id < os.next)

theorem Inv.newGroup {t : Table A F R} (h : Inv models E t) {os : Objects} {new : List PlanObj}
    (hnew : NewGroup models t os new) :
    Inv models E { t with toObjects := os, planGroups := t.planGroups ++ [new] } := by
  have hold : ∀ g ∈ t.planGroups, ∀ o ∈ g, ¬ t.next ≤ o.id := fun g hg o ho =>
    Nat.not_le.mpr (h.known g hg o ho)
  -- A member that is in a group before has the inputs it has there.
  have hshared : ∀ g ∈ t.planGroups, ∀ o ∈ g, o ∈ new →
      SameInputs models (planKey g) (planKey new) o.modelId := by
    intro g hg o ho hmem
    rcases hnew.members o hmem with ⟨hfresh, -⟩ | ⟨g', hg', ho', hsame⟩
    · exact absurd hfresh (hold g hg o ho)
    · exact (h.agree g hg g' hg' o ho ho').trans hsame
  constructor
  case known =>
    intro g hg o ho
    rcases List.mem_append.mp hg with hg | hg
    · exact lt_of_lt_of_le (h.known g hg o ho) hnew.next_le
    · rw [List.mem_singleton.mp hg] at ho
      rcases hnew.members o ho with ⟨-, hlt⟩ | ⟨g', hg', ho', -⟩
      · exact hlt
      · exact lt_of_lt_of_le (h.known g' hg' o ho') hnew.next_le
  case distinct =>
    intro g hg
    rcases List.mem_append.mp hg with hg | hg
    · exact h.distinct g hg
    · exact List.mem_singleton.mp hg ▸ hnew.distinct
  case stored =>
    intro e he
    rcases hnew.entries e he with he | ⟨he, -⟩
    · obtain ⟨g, hg, heg⟩ := h.stored e he
      exact ⟨g, List.mem_append_left _ hg, heg⟩
    · exact ⟨new, List.mem_append_right _ (List.mem_singleton_self new), he⟩
  case pathKnown =>
    intro e he o ho
    rcases hnew.entries e he with he | ⟨-, hpath⟩
    · exact lt_of_lt_of_le (h.pathKnown e he o ho) hnew.next_le
    · exact hpath o ho
  case fresh =>
    intro o ho
    exact h.fresh o (hnew.next_le.trans ho)
  case agree =>
    intro g hg g' hg' o ho ho'
    -- each of the two groups is an old one or the new one
    rcases List.mem_append.mp hg with hg | hg <;> rcases List.mem_append.mp hg' with hg' | hg'
    · exact h.agree g hg g' hg' o ho ho'
    · rw [List.mem_singleton.mp hg'] at ho' ⊢
      exact hshared g hg o ho ho'
    · rw [List.mem_singleton.mp hg] at ho ⊢
      exact (hshared g' hg' o ho' ho).symm
    · rw [List.mem_singleton.mp hg, List.mem_singleton.mp hg']
      exact SameInputs.refl models _ _
  case right =>
    intro g hg o ho
    rcases List.mem_append.mp hg with hg | hg
    · exact h.right g hg o ho
    · rw [List.mem_singleton.mp hg] at ho ⊢
      rcases hnew.members o ho with ⟨hfresh, -⟩ | ⟨g', hg', ho', hsame⟩
      · show ((t.states o).estimate).Of E o.ident _
        rw [h.fresh o hfresh]
        trivial
      · have hkey : planKey g' o.modelId = planKey new o.modelId := by
          rw [planKey_of_mem (h.distinct g' hg') ho', planKey_of_mem hnew.distinct ho]
        rw [← scratch_congr hsame hkey]
        exact h.right g' hg' o ho'
  case merged => exact h.merged

/-! ## Appending a plan -/

/-- What follows an affected model, or the new one, is affected. -/
theorem mem_affected {outEdges : EdgeDict} {fuel : Nat} {newlyAdd affected : List Nat}
    (h : affectedModelIds outEdges fuel newlyAdd = some affected) {a b : Nat}
    (ha : a ∈ newlyAdd ∨ a ∈ affected) (hab : b ∈ outModelIds outEdges a) : b ∈ affected := by
  induction fuel generalizing newlyAdd affected with
  | zero => cases h
  | succ fuel ih =>
    rw [affectedModelIds] at h
    have hnew : a ∈ newlyAdd → b ∈ newlyAdd.flatMap (outModelIds outEdges) := fun ha =>
      List.mem_flatMap.mpr ⟨a, ha, hab⟩
    by_cases hnil : newlyAdd.flatMap (outModelIds outEdges) = []
    · rw [if_pos hnil] at h
      obtain rfl := Option.some.inj h
      rcases ha with ha | ha
      · exact absurd (hnil ▸ hnew ha) List.not_mem_nil
      · cases ha
    · rw [if_neg hnil] at h
      obtain ⟨rest, hrest, rfl⟩ := Option.map_eq_some_iff.mp h
      rcases ha with ha | ha
      · exact List.mem_append_left _ (hnew ha)
      · exact List.mem_append_right _ (ih hrest (List.mem_append.mp ha))

/-- What copying the affected plans of a group does. -/
structure Copied (models : StageModels) (affected : List Nat) (g plans : List PlanObj)
    (acc out : List PlanObj × Objects) : Prop where
  idents : out.1.map PlanObj.ident = acc.1.map PlanObj.ident ++ plans.map PlanObj.ident
  next_le : acc.2.next ≤ out.2.next
  kept : ∀ o ∈ acc.1, o ∈ out.1
  members : ∀ o ∈ out.1, o ∈ acc.1 ∨ (acc.2.next ≤ o.id ∧ o.id < out.2.next) ∨
    (o ∈ plans ∧ o.modelId ∉ affected)
  entries : ∀ e ∈ out.2.entries, e ∈ acc.2.entries ∨ (e.2.1 ∈ out.1 ∧ ∀ o ∈ e.2.2, o ∈ g)

theorem mem_objPathKey {g : List PlanObj} {plan o : PlanObj}
    (h : o ∈ (objPathKey models.toModelTable g plan).2) : o ∈ g ∨ o = plan := by
  rcases List.mem_append.mp h with h | h
  · obtain ⟨inp, -, hfind⟩ := List.mem_filterMap.mp h
    exact .inl (List.mem_of_find?_eq_some hfind)
  · exact .inr (List.mem_singleton.mp h)

theorem copied (affected : List Nat) (g : List PlanObj) {plans : List PlanObj} (hplans : plans ⊆ g)
    (acc : List PlanObj × Objects) : Copied models affected g plans acc
      (Objects.copyAffected models.toModelTable affected g plans acc) := by
  induction plans generalizing acc with
  | nil => exact ⟨(List.append_nil _).symm, Nat.le_refl _, fun _ ho => ho, fun _ ho => .inl ho,
      fun _ he => .inl he⟩
  | cons plan plans ih =>
    obtain ⟨l, os⟩ := acc
    have hrest : plans ⊆ g := fun o ho => hplans (.tail _ ho)
    rw [Objects.copyAffected]
    by_cases haffected : plan.modelId ∈ affected
    · rw [if_pos haffected]
      have h := ih hrest (l ++ [os.copyOf plan],
        os.storeCopy (objPathKey models.toModelTable g plan).1 plan
          (objPathKey models.toModelTable g plan).2 (getLast?_objPathKey models.toModelTable g plan))
      have hcopy : os.copyOf plan ∈ l ++ [os.copyOf plan] :=
        List.mem_append_right _ (List.mem_singleton_self _)
      constructor
      case idents =>
        rw [h.idents, List.map_append, List.append_assoc]
        rfl
      case next_le => exact (Nat.le_succ os.next).trans h.next_le
      case kept => exact fun o ho => h.kept o (List.mem_append_left _ ho)
      case members =>
        intro o ho
        rcases h.members o ho with ho | ⟨hle, hlt⟩ | ⟨ho, hnot⟩
        · rcases List.mem_append.mp ho with ho | ho
          · exact .inl ho
          · rw [List.mem_singleton.mp ho]
            exact .inr (.inl ⟨Nat.le_refl _, h.next_le⟩)
        · exact .inr (.inl ⟨(Nat.le_succ os.next).trans hle, hlt⟩)
        · exact .inr (.inr ⟨.tail _ ho, hnot⟩)
      case entries =>
        intro e he
        rcases h.entries e he with he | he
        · rcases Dict.eq_or_mem_of_mem_set he with rfl | he
          · refine .inr ⟨h.kept _ hcopy, fun o ho => ?_⟩
            rcases mem_objPathKey ho with ho | rfl
            · exact ho
            · exact hplans (.head _)
          · exact .inl he
        · exact .inr he
    · rw [if_neg haffected]
      have h := ih hrest (l ++ [plan], os)
      constructor
      case idents =>
        rw [h.idents, List.map_append, List.append_assoc]
        rfl
      case next_le => exact h.next_le
      case kept => exact fun o ho => h.kept o (List.mem_append_left _ ho)
      case members =>
        intro o ho
        rcases h.members o ho with ho | ho | ⟨ho, hnot⟩
        · rcases List.mem_append.mp ho with ho | ho
          · exact .inl ho
          · rw [List.mem_singleton.mp ho]
            exact .inr (.inr ⟨.head _, haffected⟩)
        · exact .inr (.inl ho)
        · exact .inr (.inr ⟨.tail _ ho, hnot⟩)
      case entries => exact h.entries

theorem updatePlanGroup_copied {g : List PlanObj} {plan : PlanObj} {os : Objects}
    {out : List PlanObj × Objects}
    (h : Objects.updatePlanGroup models.toModelTable g plan os = some out) :
    ∃ affected fuel, affectedModelIds models.outEdges fuel [plan.modelId] = some affected ∧
      Copied models affected g g ([], os) out := by
  rw [Objects.updatePlanGroup] at h
  obtain ⟨affected, haffected, hout⟩ := Option.bind_eq_some_iff.mp h
  refine ⟨affected, _, haffected, ?_⟩
  by_cases hnil : affected = []
  · rw [if_pos hnil] at hout
    obtain rfl := Option.some.inj hout
    exact ⟨rfl, Nat.le_refl _, fun _ ho => absurd ho List.not_mem_nil,
      fun o ho => .inr (.inr ⟨ho, hnil ▸ List.not_mem_nil⟩), fun _ he => .inl he⟩
  · rw [if_neg hnil] at hout
    obtain rfl := Option.some.inj hout
    exact copied affected g (List.Subset.refl g) ([], os)

/-- The plan object to use is a stored one or a new one, with the model and key of the candidate. -/
structure Chosen (models : StageModels) (g : List PlanObj) (plan : PlanObj) (os : Objects)
    (out : PlanObj × Objects) : Prop where
  ident : out.1.ident = plan.ident
  next_le : os.next ≤ out.2.next
  source : (∃ pathPlans, os.entries.lookup (objPathKey models.toModelTable g plan).1 =
      some (out.1, pathPlans)) ∨ (os.next ≤ out.1.id ∧ out.1.id < out.2.next)
  entries : ∀ e ∈ out.2.entries, e ∈ os.entries ∨
    (e.2.1 = out.1 ∧ ∀ o ∈ e.2.2, o ∈ g ∨ o = plan ∨ o = out.1)

theorem chosen_stored {g : List PlanObj} {plan stored : PlanObj} {os : Objects}
    {pathPlans : List PlanObj}
    (h : os.entries.lookup (objPathKey models.toModelTable g plan).1 = some (stored, pathPlans)) :
    Chosen models g plan os (stored, os) where
  ident := Option.some.inj ((os.own _ (Dict.mem_of_lookup h)).symm.trans
    (getLast?_objPathKey models.toModelTable g plan))
  next_le := Nat.le_refl _
  source := .inl ⟨pathPlans, h⟩
  entries _ he := .inl he

theorem chosen_copy {g : List PlanObj} {plan : PlanObj} {os : Objects} {pathPlans : List PlanObj}
    (hpath : ∀ o ∈ pathPlans, o ∈ g ∨ o = plan ∨ o = os.copyOf plan) :
    Chosen models g plan os (os.copyOf plan,
      os.storeCopy (objPathKey models.toModelTable g plan).1 plan pathPlans
        (getLast?_objPathKey models.toModelTable g plan)) where
  ident := rfl
  next_le := Nat.le_succ os.next
  source := .inr ⟨Nat.le_refl _, Nat.lt_succ_self os.next⟩
  entries e he := by
    rcases Dict.eq_or_mem_of_mem_set he with rfl | he
    · exact .inr ⟨rfl, hpath⟩
    · exact .inl he

theorem planToUse_chosen (g : List PlanObj) (plan : PlanObj) (os : Objects) :
    Chosen models g plan os (Objects.planToUse models.toModelTable g plan os) := by
  unfold Objects.planToUse
  split
  · rename_i stored pathPlans hlookup
    exact chosen_stored hlookup
  · exact chosen_copy fun o ho => (mem_objPathKey ho).imp_right .inl

theorem updateUniqExecPlanMapping_chosen (g : List PlanObj) (plan : PlanObj) (os : Objects) :
    Chosen models g plan os
      (Objects.updateUniqExecPlanMapping models.toModelTable g plan os) := by
  unfold Objects.updateUniqExecPlanMapping
  split
  · rename_i stored pathPlans hlookup
    exact chosen_stored hlookup
  · refine chosen_copy fun o ho => ?_
    rcases List.mem_append.mp ho with ho | ho
    · exact (mem_objPathKey (List.dropLast_subset _ ho)).imp_right .inl
    · exact .inr (.inr (List.mem_singleton.mp ho))

/-! ## The inputs of the plans of a new group -/

/-- `b` reads from `a`, directly or not. -/
abbrev ReadsFrom (models : StageModels) (a b : Nat) : Prop :=
  Relation.TransGen (fun a b => b ∈ outModelIds models.outEdges a) a b

theorem not_readsFrom_self (m : Nat) : ¬ ReadsFrom models m m := fun h =>
  models.acyclic m (Relation.TransGen.mono (fun _ _ => edge_of_mem_outModelIds) m m h)

theorem mem_affected_of_readsFrom {fuel m : Nat} {affected : List Nat}
    (h : affectedModelIds models.outEdges fuel [m] = some affected) {b : Nat}
    (hb : ReadsFrom models m b) : b ∈ affected := by
  induction hb with
  | single hb => exact mem_affected h (.inl (List.mem_singleton_self m)) hb
  | tail _ hbc ih => exact mem_affected h (.inr ih) hbc

section

variable {g new : List PlanObj} {plan : PlanObj}

/-- Other models have the plans they had. -/
theorem planKey_new (hnew : new.map PlanObj.ident = g.map PlanObj.ident ++ [plan.ident]) {i : Nat}
    (hi : i ≠ plan.modelId) : planKey g i = planKey new i := by
  have happend : new.map PlanObj.ident = (g ++ [plan]).map PlanObj.ident := by
    rw [hnew, List.map_append]
    rfl
  have hnone : planKey [plan] i = none := planKey_eq_none.mpr fun hmem =>
    hi (List.mem_singleton.mp hmem)
  rw [planKey_congr happend, planKey_append, hnone, Option.or_none]

theorem distinct_new (hg : (g.map PlanObj.modelId).Nodup)
    (hplan : plan.modelId ∉ g.map PlanObj.modelId)
    (hnew : new.map PlanObj.ident = g.map PlanObj.ident ++ [plan.ident]) :
    (new.map PlanObj.modelId).Nodup := by
  have happend : new.map PlanObj.ident = (g ++ [plan]).map PlanObj.ident := by
    rw [hnew, List.map_append]
    rfl
  rw [modelIds_congr happend, List.map_append]
  exact List.nodup_append.mpr ⟨hg, List.nodup_singleton _,
    fun _ hx _ hy heq => hplan (List.mem_singleton.mp hy ▸ heq ▸ hx)⟩

/-- A model that does not read from the new one has the inputs it had. -/
theorem sameInputs_of_not_readsFrom
    (hnew : new.map PlanObj.ident = g.map PlanObj.ident ++ [plan.ident]) {m : Nat}
    (hm : ¬ ReadsFrom models plan.modelId m) : SameInputs models (planKey g) (planKey new) m := by
  refine sameInputs_of_closed (S := fun m => ¬ ReadsFrom models plan.modelId m)
    (fun m hm i hi => ⟨planKey_new hnew ?_, fun _ hreads => hm (hreads.tail hi)⟩) hm
  rintro rfl
  exact hm (.single hi)

/-- In a sorted group, no model reads from the new one. -/
theorem sameInputs_of_sorted
    (hnew : new.map PlanObj.ident = g.map PlanObj.ident ++ [plan.ident])
    (hsorted : ∀ q ∈ g, q.modelId ∉ outModelIds models.outEdges plan.modelId) {m : Nat}
    (hm : m ∈ g.map PlanObj.modelId ∨ m = plan.modelId) :
    SameInputs models (planKey g) (planKey new) m := by
  refine sameInputs_of_closed (S := fun m => m ∈ g.map PlanObj.modelId ∨ m = plan.modelId)
    (fun m hm i hi => ⟨planKey_new hnew ?_, fun hne => .inl ?_⟩) hm
  · rintro rfl
    rcases hm with hm | rfl
    · obtain ⟨q, hq, rfl⟩ := List.mem_map.mp hm
      exact hsorted q hq hi
    · exact not_readsFrom_self _ (.single hi)
  · exact not_not.mp fun hnot => hne (planKey_eq_none.mpr hnot)

end

/-- The plan object at the end of a new group, and its inputs there. -/
theorem Chosen.member {t : Table A F R} (h : Inv models E t) {g new : List PlanObj} {plan : PlanObj}
    {out : PlanObj × Objects} (hchosen : Chosen models g plan t.toObjects out)
    (hmeets : ∀ stored pathPlans,
      t.entries.lookup (objPathKey models.toModelTable g plan).1 = some (stored, pathPlans) →
      ∀ g' ∈ t.planGroups, stored ∈ g' → SameInputs models (planKey g') (planKey g) plan.modelId)
    (hsame : SameInputs models (planKey g) (planKey new) plan.modelId) :
    (t.next ≤ out.1.id ∧ out.1.id < out.2.next) ∨
      ∃ g' ∈ t.planGroups, out.1 ∈ g' ∧ SameInputs models (planKey g') (planKey new) out.1.modelId := by
  have hmodel : out.1.modelId = plan.modelId := congrArg Prod.fst hchosen.ident
  rcases hchosen.source with ⟨pathPlans, hlookup⟩ | hfresh
  · obtain ⟨g', hg', hmem⟩ := h.stored _ (Dict.mem_of_lookup hlookup)
    refine .inr ⟨g', hg', hmem, ?_⟩
    rw [hmodel]
    exact (hmeets out.1 pathPlans hlookup g' hg' hmem).trans hsame
  · exact .inl hfresh

theorem Chosen.pathKnown {t : Table A F R} (h : Inv models E t) {g : List PlanObj} {plan : PlanObj}
    {out : PlanObj × Objects} (hchosen : Chosen models g plan t.toObjects out)
    (hg : g ∈ t.planGroups) (hplan : plan.id < t.next) : ∀ e ∈ out.2.entries,
      e ∈ t.entries ∨ (e.2.1 = out.1 ∧ ∀ o ∈ e.2.2, o.id < out.2.next) := by
  intro e he
  refine (hchosen.entries e he).imp_right fun hnew => ⟨hnew.1, fun o ho => ?_⟩
  rcases hnew.2 o ho with ho | rfl | rfl
  · exact lt_of_lt_of_le (h.known g hg o ho) hchosen.next_le
  · exact lt_of_lt_of_le hplan hchosen.next_le
  · rcases hchosen.source with ⟨pathPlans, hlookup⟩ | hfresh
    · obtain ⟨g', hg', hmem⟩ := h.stored _ (Dict.mem_of_lookup hlookup)
      exact lt_of_lt_of_le (h.known g' hg' _ hmem) hchosen.next_le
    · exact hfresh.2

/-! ## The steps -/

theorem Inv.append {t t' : Table A F R} (h : Inv models E t) {g : List PlanObj} {plan : PlanObj}
    (hcalls : Calls models t (.append g plan)) (hmeets : Meets models t (.append g plan))
    (hexec : exec models E t (.append g plan) = some t') : Inv models E t' := by
  obtain ⟨hg, hplan, hnot⟩ := hcalls
  obtain ⟨⟨new, os⟩, happend, hsome⟩ := Option.bind_eq_some_iff.mp hexec
  obtain rfl := Option.some.inj hsome
  rw [Objects.appendPlan_eq] at happend
  obtain ⟨⟨g', os'⟩, hupdate, hout⟩ := Option.map_eq_some_iff.mp happend
  have hchosen : Chosen models g plan t.toObjects _ := planToUse_chosen g plan t.toObjects
  generalize Objects.planToUse models.toModelTable g plan t.toObjects = out
    at hchosen hupdate hout
  obtain ⟨rfl, rfl⟩ := Prod.mk.inj hout
  obtain ⟨affected, fuel, haffected, hcopied⟩ := updatePlanGroup_copied hupdate
  have hmodel : out.1.modelId = plan.modelId := congrArg Prod.fst hchosen.ident
  have hidents : (g' ++ [out.1]).map PlanObj.ident = g.map PlanObj.ident ++ [plan.ident] := by
    rw [List.map_append, hcopied.idents, List.map_nil, List.nil_append, List.map_singleton,
      hchosen.ident]
  have hle : t.next ≤ os'.next := hchosen.next_le.trans hcopied.next_le
  refine h.newGroup ⟨distinct_new (h.distinct g hg) hnot hidents, hle, fun o ho => ?_,
    fun e he => ?_⟩
  · rcases List.mem_append.mp ho with ho | ho
    · rcases hcopied.members o ho with ho | ⟨hnew, hlt⟩ | ⟨ho, hunaffected⟩
      · cases ho
      · exact .inl ⟨hchosen.next_le.trans hnew, hlt⟩
      · refine .inr ⟨g, hg, ho, sameInputs_of_not_readsFrom hidents fun hreads => ?_⟩
        exact hunaffected (mem_affected_of_readsFrom haffected (hmodel ▸ hreads))
    · rw [List.mem_singleton.mp ho]
      refine (hchosen.member h hmeets
        (sameInputs_of_not_readsFrom hidents (not_readsFrom_self _))).imp_left fun hfresh => ?_
      exact ⟨hfresh.1, lt_of_lt_of_le hfresh.2 hcopied.next_le⟩
  · rcases hcopied.entries e he with he | ⟨he, hpath⟩
    · refine (hchosen.pathKnown h hg hplan e he).imp_right fun hnew => ⟨?_, fun o ho => ?_⟩
      · exact hnew.1 ▸ List.mem_append_right _ (List.mem_singleton_self _)
      · exact lt_of_lt_of_le (hnew.2 o ho) hcopied.next_le
    · refine .inr ⟨List.mem_append_left _ he, fun o ho => ?_⟩
      exact lt_of_lt_of_le (h.known g hg o (hpath o ho)) hle

theorem Inv.update {t t' : Table A F R} (h : Inv models E t) {g : List PlanObj} {plan : PlanObj}
    (hcalls : Calls models t (.update g plan)) (hmeets : Meets models t (.update g plan))
    (hexec : exec models E t (.update g plan) = some t') : Inv models E t' := by
  obtain ⟨hg, hplan, hnot, hsorted⟩ := hcalls
  have hchosen : Chosen models g plan t.toObjects _ :=
    updateUniqExecPlanMapping_chosen g plan t.toObjects
  rw [exec] at hexec
  generalize Objects.updateUniqExecPlanMapping models.toModelTable g plan t.toObjects = out
    at hchosen hexec
  obtain rfl := Option.some.inj hexec
  have hidents : (g ++ [out.1]).map PlanObj.ident = g.map PlanObj.ident ++ [plan.ident] := by
    rw [List.map_append, List.map_singleton, hchosen.ident]
  refine h.newGroup ⟨distinct_new (h.distinct g hg) hnot hidents, hchosen.next_le, fun o ho => ?_,
    fun e he => ?_⟩
  · rcases List.mem_append.mp ho with ho | ho
    · exact .inr ⟨g, hg, ho,
        sameInputs_of_sorted hidents hsorted (.inl (List.mem_map_of_mem ho))⟩
    · rw [List.mem_singleton.mp ho]
      exact hchosen.member h hmeets (sameInputs_of_sorted hidents hsorted (.inr rfl))
  · refine (hchosen.pathKnown h hg hplan e he).imp_right fun hnew => ⟨?_, hnew.2⟩
    exact hnew.1 ▸ List.mem_append_right _ (List.mem_singleton_self _)

/-! ## Estimating -/

theorem inpExecPlan_eq_some {l : List PlanObj} {m i : Nat} {q : PlanObj}
    (h : inpExecPlan models l m i = some q) :
    q ∈ l ∧ q.modelId = i ∧ ∃ c ∈ models.inpBaseModelIds m, c ∈ models.baseModelIds i := by
  unfold inpExecPlan at h
  split at h
  · rename_i hreads
    exact ⟨List.mem_of_find?_eq_some h, by simpa using List.find?_some h, hreads⟩
  · cases h

theorem isRead_of_inpExecPlan {l : List PlanObj} {o q : PlanObj} {i : Nat} (ho : o ∈ l)
    (h : inpExecPlan models l o.modelId i = some q) : Table.isRead models l q = true := by
  obtain ⟨-, rfl, -⟩ := inpExecPlan_eq_some h
  exact List.any_eq_true.mpr ⟨o, ho, by simpa using h⟩

/-- A plan with results is asked for the finish times of these. -/
theorem Inv.finishTimes_eq {t : Table A F R} (h : Inv models E t) {o : PlanObj} {a : A} {r : R}
    (ho : t.estimate o = .done a r) : t.finishTimes E o = E.finishTimes o.ident (some r) := by
  unfold Table.finishTimes
  cases hmerged : (t.states o).finishTimesMerged with
  | none => rw [Option.getD_none, ho]; rfl
  | some f =>
    obtain ⟨a', r', ho', rfl⟩ := h.merged o f hmerged
    rw [ho] at ho'
    cases ho'
    rfl

theorem exists_done {e : Estimate A R} (h : e.results ≠ none) : ∃ a r, e = .done a r := by
  cases e with
  | fresh => exact absurd rfl h
  | running a => exact absurd rfl h
  | done a r => exact ⟨a, r, rfl⟩

/-- The plan reads the same results as in a group from scratch. -/
theorem Inv.arriveTimes_eq {t : Table A F R} (h : Inv models E t) {plans g : List PlanObj}
    {o : PlanObj} (hread : ∀ q ∈ plans, Table.isRead models plans q = true →
      (t.estimate q).results ≠ none) (hmem : o ∈ plans) (hg : g ∈ t.planGroups) (ho : o ∈ g)
    (hinp : inpExecPlan models plans o.modelId = inpExecPlan models g o.modelId) :
    scratch models E (planKey g) o.modelId =
      some (t.arriveTimes models E plans o, E.simulate o.ident (t.arriveTimes models E plans o)) := by
  have htimes : (fun i => (inpExecPlan models plans o.modelId i).map (t.finishTimes E)) = fun i =>
      if ∃ c ∈ models.inpBaseModelIds o.modelId, c ∈ models.baseModelIds i then
        (planKey g i).bind fun k =>
          (scratch models E (planKey g) i).map fun v => E.finishTimes (i, k) (some v.2)
      else none := by
    funext i
    cases hi : inpExecPlan models plans o.modelId i with
    | none =>
      -- Nothing to read from: not an input, or not in the group.
      have hnone : inpExecPlan models g o.modelId i = none := hinp ▸ hi
      unfold inpExecPlan at hnone
      by_cases hreads : ∃ c ∈ models.inpBaseModelIds o.modelId, c ∈ models.baseModelIds i
      · rw [if_pos hreads] at hnone
        rw [if_pos hreads, planKey_eq_find, hnone]
        rfl
      · rw [if_neg hreads]
        rfl
    | some q =>
      obtain ⟨hqplans, -, -⟩ := inpExecPlan_eq_some hi
      obtain ⟨hqg, rfl, hreads⟩ := inpExecPlan_eq_some (hinp ▸ hi : inpExecPlan models g _ i = some q)
      obtain ⟨a, r, hdone⟩ := exists_done (hread q hqplans (isRead_of_inpExecPlan hmem hi))
      have hright := h.right g hg q hqg
      rw [hdone] at hright
      rw [if_pos hreads, planKey_of_mem (h.distinct g hg) hqg,
        (hright : scratch models E (planKey g) q.modelId = some (a, r))]
      exact congrArg some (h.finishTimes_eq hdone)
  rw [scratch_eq, planKey_of_mem (h.distinct g hg) ho, ← htimes]
  rfl

theorem startEstimate_of_done {t : Table A F R} (plans : List PlanObj) {o : PlanObj} {a : A} {r : R}
    (h : t.estimate o = .done a r) : t.startEstimate models E plans o = .done a r := by
  rw [Table.startEstimate, h]

theorem startEstimate_of_none {t : Table A F R} (plans : List PlanObj) {o : PlanObj}
    (h : (t.estimate o).results = none) :
    t.startEstimate models E plans o = .running (t.arriveTimes models E plans o) := by
  rw [Table.startEstimate]
  cases hest : t.estimate o with
  | fresh => rfl
  | running a => rfl
  | done a r =>
    rw [hest] at h
    cases h

theorem Inv.build {t t' : Table A F R} (h : Inv models E t) {plans : List PlanObj}
    (hcalls : Calls models t (.build plans)) (hmeets : Meets models t (.build plans))
    (hexec : exec models E t (.build plans) = some t') : Inv models E t' := by
  obtain ⟨hread, hinputs⟩ := hmeets
  have hbuild : t.build models E plans = some t' := hexec
  unfold Table.build at hbuild
  split at hbuild
  · cases hbuild
  obtain rfl := Option.some.inj hbuild
  have hknown : ∀ o ∈ plans, o.id < t.next := by
    intro o ho
    rcases hcalls with hg | ⟨e, he, rfl⟩
    · exact h.known plans hg o ho
    · exact h.pathKnown e he o ho
  have hreadKnown : ∀ o : PlanObj, Table.isRead models plans o = true → o ∈ plans := by
    intro o ho
    obtain ⟨q, -, hq⟩ := List.any_eq_true.mp ho
    exact (inpExecPlan_eq_some (of_decide_eq_true hq)).1
  have hkept : ∀ o a r, t.estimate o = .done a r →
      (if o ∈ plans then t.startEstimate models E plans o else t.estimate o) = .done a r := by
    intro o a r ho
    split
    · exact startEstimate_of_done plans ho
    · exact ho
  refine { h with fresh := ?fresh, right := ?right, merged := ?merged }
  case fresh =>
    intro o ho
    have hnot : o ∉ plans := fun hmem => absurd (hknown o hmem) (Nat.not_lt.mpr ho)
    have hnotRead : ¬ Table.isRead models plans o = true := fun hr => hnot (hreadKnown o hr)
    show PlanState.mk (if o ∈ plans then _ else _) (if _ then _ else _) = _
    rw [if_neg hnot, if_neg hnotRead]
    exact h.fresh o ho
  case right =>
    intro g hg o ho
    show (if o ∈ plans then t.startEstimate models E plans o else t.estimate o).Of E _ _
    by_cases hmem : o ∈ plans
    · rw [if_pos hmem]
      -- a plan without results is simulated now, with the inputs it has in one of its groups
      by_cases hnone : (t.estimate o).results = none
      · obtain ⟨g', hg', ho', hinp⟩ := hinputs o hmem hnone g hg ho
        have hkey : planKey g o.modelId = planKey g' o.modelId := by
          rw [planKey_of_mem (h.distinct g hg) ho, planKey_of_mem (h.distinct g' hg') ho']
        rw [startEstimate_of_none plans hnone, scratch_congr (h.agree g hg g' hg' o ho ho') hkey]
        exact h.arriveTimes_eq hread hmem hg' ho' hinp
      · obtain ⟨a, r, hdone⟩ := exists_done hnone
        have hright := h.right g hg o ho
        rw [hdone] at hright
        rw [startEstimate_of_done plans hdone]
        exact hright
    · rw [if_neg hmem]
      exact h.right g hg o ho
  case merged =>
    intro o f hf
    replace hf : (if Table.isRead models plans o then some (t.finishTimes E o)
      else (t.states o).finishTimesMerged) = some f := hf
    by_cases hr : Table.isRead models plans o = true
    · rw [if_pos hr] at hf
      obtain ⟨a, r, hdone⟩ := exists_done (hread o (hreadKnown o hr) hr)
      exact ⟨a, r, hkept o a r hdone, (Option.some.inj hf).symm.trans (h.finishTimes_eq hdone)⟩
    · rw [if_neg hr] at hf
      obtain ⟨a, r, hdone, rfl⟩ := h.merged o f hf
      exact ⟨a, r, hkept o a r hdone, rfl⟩

theorem Inv.wait {t : Table A F R} (h : Inv models E t) (o : PlanObj) :
    Inv models E (t.wait E o) := by
  unfold Table.wait
  split
  · rename_i a hrunning
    have hold : t.next ≤ o.id → False := fun ho => by
      rw [Table.estimate, h.fresh o ho] at hrunning
      cases hrunning
    refine { h with fresh := ?fresh, right := ?right, merged := ?merged }
    case fresh =>
      intro q hq
      show Function.update t.states o _ q = _
      rw [Function.update_of_ne fun heq : q = o => hold (by rwa [← heq])]
      exact h.fresh q hq
    case right =>
      intro g hg q hq
      show (Function.update t.states o _ q).estimate.Of E _ _
      by_cases heq : q = o
      · subst heq
        rw [Function.update_self]
        have hright := h.right g hg q hq
        rw [hrunning] at hright
        exact hright
      · rw [Function.update_of_ne heq]
        exact h.right g hg q hq
    case merged =>
      intro q f hf
      show ∃ a' r, (Function.update t.states o _ q).estimate = .done a' r ∧ _
      replace hf : (Function.update t.states o _ q).finishTimesMerged = some f := hf
      by_cases heq : q = o
      · subst heq
        rw [Function.update_self] at hf
        obtain ⟨a', r, hdone, -⟩ := h.merged q f hf
        rw [hdone] at hrunning
        cases hrunning
      · rw [Function.update_of_ne heq] at hf ⊢
        exact h.merged q f hf
  · exact h

/-! ## Runs -/

theorem Inv.step {t t' : Table A F R} (h : Inv models E t) {act : Act} (hcalls : Calls models t act)
    (hmeets : Meets models t act) (hexec : exec models E t act = some t') : Inv models E t' := by
  cases act with
  | create plan =>
    obtain rfl := Option.some.inj hexec
    exact h.create
  | append g plan => exact h.append hcalls hmeets hexec
  | update g plan => exact h.update hcalls hmeets hexec
  | build plans => exact h.build hcalls hmeets hexec
  | wait o =>
    obtain rfl := Option.some.inj hexec
    exact h.wait o

theorem Reach.inv {t : Table A F R} (h : Reach models E t) : Inv models E t := by
  induction h with
  | start => exact Inv.start
  | step _ hcalls hmeets hexec ih => exact ih.step hcalls hmeets hexec

/-! ## Estimating a whole group -/

theorem wait_estimate_of_done {t : Table A F R} {o : PlanObj} {a : A} {r : R}
    (h : t.estimate o = .done a r) (q : PlanObj) : (t.wait E q).estimate o = .done a r := by
  unfold Table.wait
  split
  · rename_i a' hrunning
    have hne : o ≠ q := by
      rintro rfl
      rw [h] at hrunning
      cases hrunning
    show (Function.update t.states q _ o).estimate = _
    rw [Function.update_of_ne hne]
    exact h
  · exact h

theorem wait_estimate_of_running {t : Table A F R} {o : PlanObj} {a : A}
    (h : t.estimate o = .running a) : (t.wait E o).estimate o = .done a (E.simulate o.ident a) := by
  unfold Table.wait
  split
  · rename_i a' hrunning
    rw [h] at hrunning
    cases hrunning
    show (Function.update t.states o _ o).estimate = _
    rw [Function.update_self]
  · rename_i hnot
    exact absurd h (hnot a)

theorem wait_estimate_of_ne {t : Table A F R} {o q : PlanObj} (hne : o ≠ q) :
    (t.wait E q).estimate o = t.estimate o := by
  unfold Table.wait
  split
  · show (Function.update t.states q _ o).estimate = _
    rw [Function.update_of_ne hne]
    rfl
  · rfl

theorem foldl_wait_of_done {l : List PlanObj} {t : Table A F R} {o : PlanObj} {a : A} {r : R}
    (h : t.estimate o = .done a r) : (l.foldl (Table.wait E) t).estimate o = .done a r := by
  induction l generalizing t with
  | nil => exact h
  | cons q l ih => exact ih (wait_estimate_of_done h q)

/-- Whatever has been started is done after the waiting. -/
theorem foldl_wait_done {l : List PlanObj} {t : Table A F R} {o : PlanObj} (ho : o ∈ l)
    (h : t.estimate o ≠ .fresh) : ∃ a r, (l.foldl (Table.wait E) t).estimate o = .done a r := by
  induction l generalizing t with
  | nil => cases ho
  | cons q l ih =>
    by_cases heq : o = q
    · subst heq
      cases hest : t.estimate o with
      | fresh => exact absurd hest h
      | running a =>
        exact ⟨a, _, foldl_wait_of_done (t := t.wait E o) (wait_estimate_of_running hest)⟩
      | done a r => exact ⟨a, r, foldl_wait_of_done (t := t.wait E o) (wait_estimate_of_done hest o)⟩
    · refine ih ((List.mem_cons.mp ho).resolve_left heq) ?_
      rwa [wait_estimate_of_ne heq]

theorem Inv.foldl_wait {l : List PlanObj} {t : Table A F R} (h : Inv models E t) :
    Inv models E (l.foldl (Table.wait E) t) := by
  induction l generalizing t with
  | nil => exact h
  | cons q l ih => exact ih (h.wait q)

theorem foldl_wait_planGroups (l : List PlanObj) (t : Table A F R) :
    (l.foldl (Table.wait E) t).planGroups = t.planGroups := by
  induction l generalizing t with
  | nil => rfl
  | cons q l ih =>
    refine (ih (t.wait E q)).trans ?_
    unfold Table.wait
    split <;> rfl

/-- Plans whose sources have results can be estimated. -/
theorem build_returns {t : Table A F R} {plans : List PlanObj}
    (hmeets : Meets models t (.build plans)) : ∃ t', t.build models E plans = some t' ∧
      t'.planGroups = t.planGroups ∧ ∀ o ∈ plans, t'.estimate o ≠ .fresh := by
  have hnot : ¬ (plans.any fun o => Table.isRead models plans o && t.raises o) = true := by
    intro hany
    obtain ⟨o, ho, hboth⟩ := List.any_eq_true.mp hany
    obtain ⟨hread, hraises⟩ := Bool.and_eq_true_iff.mp hboth
    obtain ⟨a, r, hdone⟩ := exists_done (hmeets.1 o ho hread)
    rw [Table.raises, hdone] at hraises
    cases hraises
  refine ⟨_, if_neg hnot, rfl, fun o ho => ?_⟩
  show (if o ∈ plans then t.startEstimate models E plans o else t.estimate o) ≠ .fresh
  rw [if_pos ho]
  by_cases hnone : (t.estimate o).results = none
  · rw [startEstimate_of_none plans hnone]
    nofun
  · obtain ⟨a, r, hdone⟩ := exists_done hnone
    rw [startEstimate_of_done plans hdone]
    nofun

/-- In every run whose steps meet the condition, a plan of a group that has been estimated, in
whatever group, carries the arrival times and results from scratch in this group; and when all plans
the group reads from have results, estimating it gives every plan of it those from scratch. -/
theorem reach_carriesScratch {t : Table A F R} (h : Reach models E t) {g : List PlanObj}
    (hg : g ∈ t.planGroups) :
    (∀ o ∈ g, ∀ a r, t.estimate o = .done a r →
      scratch models E (planKey g) o.modelId = some (a, r)) ∧
    (Meets models t (.build g) → ∃ t', t.estimateGroup models E g = some t' ∧ ∀ o ∈ g,
      ∃ a r, t'.estimate o = .done a r ∧ scratch models E (planKey g) o.modelId = some (a, r)) := by
  have hof : ∀ {t : Table A F R}, Inv models E t → g ∈ t.planGroups → ∀ o ∈ g, ∀ a r,
      t.estimate o = .done a r → scratch models E (planKey g) o.modelId = some (a, r) := by
    intro t h hg o ho a r hdone
    have hright := h.right g hg o ho
    rw [hdone] at hright
    exact hright
  refine ⟨hof h.inv hg, fun hmeets => ?_⟩
  obtain ⟨t', hbuild, hgroups, hstarted⟩ := build_returns (E := E) hmeets
  have hinv : Inv models E t' := h.inv.build (.inl hg) hmeets hbuild
  refine ⟨g.foldl (Table.wait E) t', by rw [Table.estimateGroup, hbuild]; rfl, fun o ho => ?_⟩
  obtain ⟨a, r, hdone⟩ := foldl_wait_done (E := E) ho (hstarted o ho)
  have hg' : g ∈ (g.foldl (Table.wait E) t').planGroups := by
    rw [foldl_wait_planGroups, hgroups]
    exact hg
  exact ⟨a, r, hdone, hof hinv.foldl_wait hg' o ho a r hdone⟩

/-! ## A chain of three models -/

section Chain

def chainInputs (m : Nat) : List Nat := if m = 1 then [0] else if m = 2 then [1] else []

theorem outModelIds_chain (a b : Nat) :
    a ∈ chainInputs b ↔ b ∈ outModelIds [(0, [1]), (1, [2])] a := by
  unfold chainInputs outModelIds
  match a, b with
  | 0, b => simp; grind
  | 1, b => simp [List.lookup_cons]; grind
  | a + 2, b => simp [List.lookup_cons]; grind

/-- Model 1 reads from model 0, and model 2 from model 1. -/
def chain : StageModels where
  inputModelIds := chainInputs
  baseModelIds m := [m]
  outEdges := [(0, [1]), (1, [2])]
  acyclic m hm := by
    have hlt : ∀ a b, Edge [(0, [1]), (1, [2])] a b → a < b := by
      rintro a b ⟨e, he, rfl, hb⟩
      rcases List.mem_cons.mp he with rfl | he
      · rw [List.mem_singleton.mp hb]
        exact Nat.zero_lt_one
      · rw [List.mem_singleton.mp he] at hb ⊢
        rw [List.mem_singleton.mp hb]
        exact Nat.one_lt_two
    have hpath : ∀ b, Relation.TransGen (Edge [(0, [1]), (1, [2])]) m b → m < b := by
      intro b hb
      induction hb with
      | single h => exact hlt _ _ h
      | tail _ h ih => exact ih.trans (hlt _ _ h)
    exact lt_irrefl m (hpath m hm)
  inpBaseModelIds := chainInputs
  mem_inputModelIds := outModelIds_chain
  exists_inpBaseModelId a b := by
    rw [← outModelIds_chain]
    simp

/-- One request for each model: it arrives when the model before has finished it, and takes four units
of time on one worker. -/
def oneRequest : Estimator ℤ ℤ ℤ where
  arriveTimes i times := (times (i.1 - 1)).getD (-1)
  simulate i arrive := max arrive 0 + (if i.2.numWorker = 1 then 4 else 2)
  finishTimes _ results := results.getD (-1)

/-- A plan of a model on some workers. -/
def workers (modelId n : Nat) (h : 0 < n) : ExecPlan := ⟨modelId, n, 2, 0, 9 / 10, 1, 0, h, Nat.one_pos⟩

def slow : ExecPlan := workers 0 1 Nat.one_pos

def fast : ExecPlan := workers 0 2 Nat.two_pos

def second : ExecPlan := workers 1 1 Nat.one_pos

def third : ExecPlan := workers 2 1 Nat.one_pos

/-- A plan of a model that reads nothing. -/
def other : ExecPlan := workers 3 1 Nat.one_pos

theorem Reach.get {t : Table A F R} (h : Reach models E t) (act : Act) (hcalls : Calls models t act)
    (hmeets : Meets models t act) (hsome : (exec models E t act).isSome) :
    Reach models E ((exec models E t act).get hsome) :=
  h.step hcalls hmeets (Option.some_get hsome).symm

/-- Nothing is stored under the key. -/
theorem meets_of_none {t : Table A F R} {g : List PlanObj} {plan : PlanObj}
    (h : t.entries.lookup (objPathKey models.toModelTable g plan).1 = none) :
    Meets models t (.append g plan) := by
  intro stored pathPlans hlookup
  rw [h] at hlookup
  cases hlookup

/-- The second model reads from the first one only. -/
theorem sameInputs_second {keys keys' : Nat → Option PlanKey} (h : keys 0 = keys' 0) :
    SameInputs chain keys keys' 1 := by
  refine sameInputs_of_closed (S := fun m => m ≤ 1) (fun m hm i hi => ?_) (Nat.le_refl 1)
  have hin : i ∈ chainInputs m := (outModelIds_chain i m).mpr hi
  have hzero : i = 0 := by
    unfold chainInputs at hin
    split at hin
    · exact List.mem_singleton.mp hin
    · rw [if_neg (by omega)] at hin
      exact absurd hin List.not_mem_nil
  subst hzero
  exact ⟨h, fun _ => Nat.zero_le 1⟩

/-- The object stored for a plan of the second model is in groups with the same plan of the first. -/
theorem meets_of_stored {t : Table A F R} {g : List PlanObj} {plan : PlanObj}
    (hplan : plan.modelId = 1)
    (h : ∀ e ∈ (t.entries.lookup (objPathKey chain.toModelTable g plan).1).toList,
      ∀ g' ∈ t.planGroups, e.1 ∈ g' → planKey g' 0 = planKey g 0) :
    Meets chain t (.append g plan) := by
  intro stored pathPlans hlookup g' hg' hmem
  rw [hplan]
  exact sameInputs_second (h (stored, pathPlans) (hlookup ▸ List.mem_singleton_self _) g' hg' hmem)

/-- A group is built of plans none of which is read, or whose results are there. -/
theorem meets_build {t : Table A F R} {g : List PlanObj} (hg : g ∈ t.planGroups)
    (hread : ∀ o ∈ g, Table.isRead models g o = true → (t.estimate o).results ≠ none) :
    Meets models t (.build g) :=
  ⟨hread, fun _ ho _ _ _ _ => ⟨g, hg, ho, rfl⟩⟩

/-- A run in which the plan object of the second model is made for one group, estimated there, and
handed out again to another one. -/
theorem exists_sharedRun : ∃ t : Table ℤ ℤ ℤ, Reach chain oneRequest t ∧
    [⟨1, slow⟩, ⟨5, second⟩] ∈ t.planGroups ∧
    [⟨1, slow⟩, ⟨3, other⟩, ⟨5, second⟩] ∈ t.planGroups ∧
    t.estimate ⟨1, slow⟩ = .done (-1) 4 ∧ t.estimate ⟨5, second⟩ = .done 4 8 := by
  have h : Reach chain oneRequest (.start ℤ ℤ ℤ) := .start
  have h := h.get (.create slow) trivial trivial (by decide)
  have h := h.get (.append [] ⟨0, slow⟩) ⟨by decide, by decide, by decide⟩
    (meets_of_none (by decide)) (by decide)
  have h := h.get (.build [⟨1, slow⟩]) (.inl (by decide +kernel))
    (meets_build (by decide +kernel) (by decide +kernel)) (by decide +kernel)
  have h := h.get (.wait ⟨1, slow⟩) trivial trivial (by decide)
  have h := h.get (.create other) trivial trivial (by decide)
  have h := h.get (.append [⟨1, slow⟩] ⟨2, other⟩)
    ⟨by decide +kernel, by decide +kernel, by decide +kernel⟩
    (meets_of_none (by decide +kernel)) (by decide +kernel)
  have h := h.get (.create second) trivial trivial (by decide +kernel)
  have h := h.get (.append [⟨1, slow⟩] ⟨4, second⟩)
    ⟨by decide +kernel, by decide +kernel, by decide +kernel⟩
    (meets_of_none (by decide +kernel)) (by decide +kernel)
  have h := h.get (.build [⟨1, slow⟩, ⟨5, second⟩]) (.inl (by decide +kernel))
    (meets_build (by decide +kernel) (by decide +kernel)) (by decide +kernel)
  have h := h.get (.wait ⟨5, second⟩) trivial trivial (by decide +kernel)
  have h := h.get (.append [⟨1, slow⟩, ⟨3, other⟩] ⟨4, second⟩)
    ⟨by decide +kernel, by decide +kernel, by decide +kernel⟩
    (meets_of_stored rfl (by decide +kernel)) (by decide +kernel)
  exact ⟨_, h, by decide +kernel, by decide +kernel, by decide +kernel, by decide +kernel⟩

theorem reach_carriesScratch_shared : ∃ t t' : Table ℤ ℤ ℤ, Reach chain oneRequest t ∧
    t.estimate ⟨5, second⟩ = .done 4 8 ∧
    t.estimateGroup chain oneRequest [⟨1, slow⟩, ⟨3, other⟩, ⟨5, second⟩] = some t' ∧
    ∀ o ∈ [(⟨1, slow⟩ : PlanObj), ⟨3, other⟩, ⟨5, second⟩], ∃ a r, t'.estimate o = .done a r ∧
      scratch chain oneRequest (planKey [⟨1, slow⟩, ⟨3, other⟩, ⟨5, second⟩]) o.modelId =
        some (a, r) := by
  obtain ⟨t, h, -, hg, hdone, hshared⟩ := exists_sharedRun
  have hread : ∀ o ∈ [(⟨1, slow⟩ : PlanObj), ⟨3, other⟩, ⟨5, second⟩],
      Table.isRead chain [⟨1, slow⟩, ⟨3, other⟩, ⟨5, second⟩] o = true →
        (t.estimate o).results ≠ none := by
    intro o ho hr
    rcases List.mem_cons.mp ho with rfl | ho
    · rw [hdone]
      exact Option.some_ne_none 4
    · have hnot : ∀ o ∈ [(⟨3, other⟩ : PlanObj), ⟨5, second⟩],
          Table.isRead chain [⟨1, slow⟩, ⟨3, other⟩, ⟨5, second⟩] o = false := by decide
      exact absurd hr (by rw [hnot o ho]; exact Bool.false_ne_true)
  obtain ⟨t', ht', hright⟩ := (reach_carriesScratch h hg).2 (meets_build hg hread)
  exact ⟨t, t', h, hshared, ht', hright⟩

/-- Steps one after the other. -/
def execs (models : StageModels) (E : Estimator A F R) (t : Table A F R) (acts : List Act) :
    Option (Table A F R) := acts.foldlM (exec models E) t

/-- Two plans of the first model lead to two plan objects of the second one, but to one of the third,
which is estimated in the group with the slow plan. -/
def sharingActs : List Act :=
  [.create slow, .create fast, .append [] ⟨0, slow⟩, .append [] ⟨1, fast⟩,
    .build [⟨2, slow⟩], .wait ⟨2, slow⟩, .build [⟨3, fast⟩], .wait ⟨3, fast⟩,
    .create second, .append [⟨2, slow⟩] ⟨4, second⟩, .append [⟨3, fast⟩] ⟨4, second⟩,
    .build [⟨2, slow⟩, ⟨5, second⟩], .wait ⟨5, second⟩,
    .build [⟨3, fast⟩, ⟨6, second⟩], .wait ⟨6, second⟩,
    .create third, .append [⟨2, slow⟩, ⟨5, second⟩] ⟨7, third⟩,
    .append [⟨3, fast⟩, ⟨6, second⟩] ⟨7, third⟩,
    .build [⟨2, slow⟩, ⟨5, second⟩, ⟨8, third⟩], .wait ⟨8, third⟩]

example : (execs chain oneRequest (.start ℤ ℤ ℤ) sharingActs).map
      (fun t => (decide ([⟨3, fast⟩, ⟨6, second⟩, ⟨8, third⟩] ∈ t.planGroups),
        t.estimate ⟨8, third⟩)) = some (true, .done 8 12) ∧
    scratch chain oneRequest (planKey [⟨3, fast⟩, ⟨6, second⟩, ⟨8, third⟩]) 2 = some (6, 10) := by
  decide +kernel

end Chain

end Mil.Search
