import Mathlib.Data.List.GetD
import Mil.Schedule.Plan

/-!
# The prepared stages

What `prepare_exec_plan_states` writes into the plan states: the number of the stage, whether no
later stage has a plan of the same model, and whether the stage before has a plan with the same
key. `Stages` collects these facts; the results about the scheduler rest on nothing else of it.
-/

set_option autoImplicit false

namespace Mil.Schedule

/-- Stage `i` of the prepared plan states. -/
abbrev stage (groups : List (List PlanState)) (i : Nat) : List PlanState := groups.getD i []

structure Stages (groups : List (List PlanState)) : Prop where
  stageI : ∀ {i : Nat} {ps : PlanState}, ps ∈ stage groups i → ps.stageI = i
  distinct : ∀ i, ((stage groups i).map PlanState.modelId).Nodup
  last : ∀ {i : Nat} {ps : PlanState}, ps ∈ stage groups i →
    (ps.lastExecPlanForTheModel = true ↔
      ∀ j, i < j → ∀ q ∈ stage groups j, q.modelId ≠ ps.modelId)
  need : ∀ {i : Nat} {ps : PlanState}, ps ∈ stage groups i → ps.needPrepareInferEnv = false →
    i = 0 ∨ ∃ q ∈ stage groups (i - 1), q.modelKey = ps.modelKey

theorem mem_getD_nil {β : Type} {l : List (List β)} {i : Nat} {x : β} :
    x ∈ l.getD i [] ↔ ∃ h : i < l.length, x ∈ l[i] := by
  constructor
  · intro hx
    by_cases hi : i < l.length
    · exact ⟨hi, List.getD_eq_getElem l [] hi ▸ hx⟩
    · rw [List.getD_eq_default l [] (Nat.le_of_not_lt hi)] at hx
      exact absurd hx List.not_mem_nil
  · rintro ⟨hi, hx⟩
    exact (List.getD_eq_getElem l [] hi).symm ▸ hx

/-! ## One stage -/

theorem preparePlanGroup_spec (stageI : Nat) (previous : Option (List ExecPlan)) :
    ∀ (plans : List ExecPlan) (position : Nat) (checked : List Nat),
      (plans.map ExecPlan.modelId).Nodup →
      (preparePlanGroup stageI previous position plans checked).1.map PlanState.execPlan = plans ∧
      (∀ m, m ∈ (preparePlanGroup stageI previous position plans checked).2 ↔
        m ∈ checked ∨ m ∈ plans.map ExecPlan.modelId) ∧
      ∀ ps ∈ (preparePlanGroup stageI previous position plans checked).1,
        ps.stageI = stageI ∧ (ps.lastExecPlanForTheModel = true ↔ ps.modelId ∉ checked) ∧
        (ps.needPrepareInferEnv = false → ∀ before, previous = some before →
          ps.modelKey ∈ before.map ExecPlan.modelKey)
  | [], position, checked, _ => by simp [preparePlanGroup]
  | p :: plans, position, checked, hnodup => by
    rw [List.map_cons, List.nodup_cons] at hnodup
    obtain ⟨hmap, hchecked, hspec⟩ := preparePlanGroup_spec stageI previous plans (position + 1)
      (if p.modelId ∉ checked then checked ++ [p.modelId] else checked) hnodup.2
    have hmem : ∀ m, (m ∈ if p.modelId ∉ checked then checked ++ [p.modelId] else checked) ↔
        m ∈ checked ∨ m = p.modelId := fun m => by
      by_cases hp : p.modelId ∈ checked
      · simp only [hp, not_true, if_false]
        exact ⟨.inl, fun h => h.elim id fun heq => heq ▸ hp⟩
      · simp [hp]
    refine ⟨congrArg (p :: ·) hmap, fun m => ?_, fun ps hps => ?_⟩
    · simp only [preparePlanGroup]
      rw [hchecked, hmem, List.map_cons, List.mem_cons, or_assoc]
    · rcases List.mem_cons.mp hps with rfl | hps
      · refine ⟨rfl, decide_eq_true_iff, fun hneed before hprev => ?_⟩
        subst hprev
        simpa using hneed
      · obtain ⟨hstage, hlast, hneed⟩ := hspec ps hps
        refine ⟨hstage, hlast.trans ?_, hneed⟩
        -- A later plan of the same stage belongs to another model.
        have hne : ps.modelId ≠ p.modelId := fun heq => hnodup.1
          (heq ▸ hmap ▸ List.mem_map_of_mem (List.mem_map_of_mem hps))
        rw [hmem, not_or]
        exact and_iff_left hne

/-! ## All stages -/

theorem preparePlanGroups_spec :
    ∀ (plans : List (List ExecPlan)) (first : Nat) (previous : Option (List ExecPlan)),
      (∀ group ∈ plans, (group.map ExecPlan.modelId).Nodup) →
      (preparePlanGroups first previous plans).1.map (List.map PlanState.execPlan) = plans ∧
      (∀ m, m ∈ (preparePlanGroups first previous plans).2 ↔
        m ∈ plans.flatten.map ExecPlan.modelId) ∧
      ∀ k, ∀ ps ∈ stage (preparePlanGroups first previous plans).1 k,
        ps.stageI = first + k ∧
        (ps.lastExecPlanForTheModel = true ↔
          ps.modelId ∉ (plans.drop (k + 1)).flatten.map ExecPlan.modelId) ∧
        (ps.needPrepareInferEnv = false → ∀ before,
          (previous :: plans.map some).getD k none = some before →
          ps.modelKey ∈ before.map ExecPlan.modelKey)
  | [], first, previous, _ => by simp [preparePlanGroups]
  | plans :: rest, first, previous, hdistinct => by
    obtain ⟨hmap, hchecked, hrest⟩ := preparePlanGroups_spec rest (first + 1) (some plans)
      fun g hg => hdistinct g (.tail _ hg)
    obtain ⟨hmap', hchecked', hspec⟩ := preparePlanGroup_spec first previous plans 0
      (preparePlanGroups (first + 1) (some plans) rest).2 (hdistinct plans (.head _))
    refine ⟨?_, fun m => ?_, fun k => ?_⟩
    · rw [preparePlanGroups, List.map_cons, hmap', hmap]
    · rw [preparePlanGroups, hchecked', hchecked, List.flatten_cons, List.map_append,
        List.mem_append, or_comm]
    · cases k with
      | zero =>
        intro ps hps
        obtain ⟨hstage, hlast, hneed⟩ := hspec ps hps
        exact ⟨hstage, hlast.trans (not_congr (hchecked _)), fun h before hb => hneed h before hb⟩
      | succ k =>
        intro ps hps
        obtain ⟨hstage, hlast, hneed⟩ := hrest k ps hps
        exact ⟨by omega, hlast, hneed⟩

theorem map_prepareExecPlanStates (seq : ExecPlanGroupSeq) :
    (prepareExecPlanStates seq).map (List.map PlanState.execPlan) = seq.planGroupSeq :=
  (preparePlanGroups_spec _ _ _ seq.distinct).1

theorem map_stage (seq : ExecPlanGroupSeq) (i : Nat) :
    (stage (prepareExecPlanStates seq) i).map PlanState.execPlan = seq.planGroupSeq.getD i [] := by
  conv_rhs => rw [← map_prepareExecPlanStates seq]
  simp only [stage, List.getD_eq_getElem?_getD, List.getElem?_map]
  cases (prepareExecPlanStates seq)[i]? <;> rfl

theorem length_prepareExecPlanStates (seq : ExecPlanGroupSeq) :
    (prepareExecPlanStates seq).length = seq.planGroupSeq.length := by
  rw [← map_prepareExecPlanStates seq, List.length_map]

theorem map_modelId_stage (seq : ExecPlanGroupSeq) (i : Nat) :
    (stage (prepareExecPlanStates seq) i).map PlanState.modelId =
      (seq.planGroupSeq.getD i []).map ExecPlan.modelId := by
  rw [← map_stage, List.map_map]
  rfl

theorem mem_map_flatten_drop (seq : ExecPlanGroupSeq) (i m : Nat) :
    m ∈ (seq.planGroupSeq.drop i).flatten.map ExecPlan.modelId ↔
      ∃ j, i ≤ j ∧ ∃ q ∈ stage (prepareExecPlanStates seq) j, q.modelId = m := by
  have hstage : ∀ j, (∃ q ∈ stage (prepareExecPlanStates seq) j, q.modelId = m) ↔
      m ∈ (seq.planGroupSeq.getD j []).map ExecPlan.modelId := fun j => by
    rw [← map_modelId_stage, List.mem_map]
  simp only [hstage]
  simp only [List.mem_map, List.mem_flatten, mem_getD_nil]
  constructor
  · rintro ⟨p, ⟨plans, hplans, hp⟩, rfl⟩
    obtain ⟨k, hk, rfl⟩ := List.mem_drop_iff_getElem.mp hplans
    exact ⟨i + k, Nat.le_add_right _ _, p, ⟨by omega, hp⟩, rfl⟩
  · rintro ⟨j, hij, p, ⟨hj, hp⟩, rfl⟩
    obtain ⟨k, rfl⟩ := Nat.exists_eq_add_of_le hij
    exact ⟨p, ⟨_, List.mem_drop_iff_getElem.mpr ⟨k, by omega, rfl⟩, hp⟩, rfl⟩

/-- What `prepare_exec_plan_states` returns. -/
theorem stages_prepareExecPlanStates (seq : ExecPlanGroupSeq) :
    Stages (prepareExecPlanStates seq) := by
  have hspec := (preparePlanGroups_spec seq.planGroupSeq 0 none seq.distinct).2.2
  refine ⟨fun {i ps} hps => ?_, fun i => ?_, fun {i ps} hps => ?_, fun {i ps} hps hneed => ?_⟩
  · simpa using (hspec i ps hps).1
  · rw [map_modelId_stage]
    by_cases hi : i < seq.planGroupSeq.length
    · rw [List.getD_eq_getElem _ _ hi]
      exact seq.distinct _ (List.getElem_mem hi)
    · rw [List.getD_eq_default _ _ (Nat.le_of_not_lt hi)]
      exact List.nodup_nil
  · rw [(hspec i ps hps).2.1, mem_map_flatten_drop]
    exact ⟨fun h j hj q hq heq => h ⟨j, hj, q, hq, heq⟩,
      fun h ⟨j, hj, q, hq, heq⟩ => h j hj q hq heq⟩
  · cases i with
    | zero => exact .inl rfl
    | succ k =>
      have hk : k < seq.planGroupSeq.length := by
        obtain ⟨this, -⟩ := mem_getD_nil.mp hps
        rw [length_prepareExecPlanStates] at this
        omega
      have hkey := (hspec (k + 1) ps hps).2.2 hneed seq.planGroupSeq[k] (by simp [hk])
      obtain ⟨p, hp, heq⟩ := List.mem_map.mp hkey
      rw [← List.getD_eq_getElem _ [] hk, ← map_stage] at hp
      obtain ⟨q, hq, rfl⟩ := List.mem_map.mp hp
      exact .inr ⟨q, hq, heq⟩

theorem sum_gpuNum_stage_le {seq : ExecPlanGroupSeq} {totGpuNum : Nat} (h : seq.Fits totGpuNum)
    (i : Nat) : ((stage (prepareExecPlanStates seq) i).map PlanState.gpuNum).sum ≤ totGpuNum := by
  have hmap : (stage (prepareExecPlanStates seq) i).map PlanState.gpuNum =
      (seq.planGroupSeq.getD i []).map ExecPlan.gpuNum := by
    rw [← map_stage, List.map_map]
    rfl
  rw [hmap]
  by_cases hi : i < seq.planGroupSeq.length
  · rw [List.getD_eq_getElem _ _ hi]
    exact h _ (List.getElem_mem hi)
  · rw [List.getD_eq_default _ _ (Nat.le_of_not_lt hi)]
    exact Nat.zero_le _

/-! ## Consequences -/

variable {groups : List (List PlanState)} {i : Nat} {ps q : PlanState}

theorem Stages.nodup (h : Stages groups) (i : Nat) : (stage groups i).Nodup :=
  (h.distinct i).of_map _

theorem Stages.eq_of_modelId (h : Stages groups) (hps : ps ∈ stage groups i)
    (hq : q ∈ stage groups i) (heq : ps.modelId = q.modelId) : ps = q :=
  List.inj_on_of_nodup_map (h.distinct i) hps hq heq

/-- A model whose last plan is in an earlier stage has no plan in a later one. -/
theorem Stages.modelId_ne_of_last (h : Stages groups) {j : Nat} (hps : ps ∈ stage groups i)
    (hlast : ps.lastExecPlanForTheModel = true) (hq : q ∈ stage groups j) (hij : i < j) :
    q.modelId ≠ ps.modelId :=
  (h.last hps).mp hlast j hij q hq

theorem modelId_eq_of_modelKey {ps q : PlanState} (h : ps.modelKey = q.modelKey) :
    ps.modelId = q.modelId :=
  congrArg Prod.fst h

theorem gpuNum_eq_of_modelKey {ps q : PlanState} (h : ps.modelKey = q.modelKey) :
    ps.gpuNum = q.gpuNum :=
  congrArg (fun k : ModelKey => k.2.1 * k.2.2.2.2.2) h

theorem PlanState.gpuNum_pos (ps : PlanState) : 0 < ps.gpuNum :=
  Nat.mul_pos ps.execPlan.numWorker_pos ps.execPlan.dpSize_pos

end Mil.Schedule
