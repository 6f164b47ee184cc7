import Mathlib.Data.List.Dedup
import Mil.Arrive.PlanGroup

/-!
# Finding the sources of a base model

In a group every base model belongs to one plan, at one place of it. So `inp_info` has for each
source of a base model exactly one entry when another plan runs it (`infoOf_of_source`), and no entry
otherwise (`infoOf_of_no_source`): entries and sources are paired rightly by position.
-/

set_option autoImplicit false

namespace Mil.Arrive

open Mil.Lib

/-- The plan at position `i` has the base model as its `j`-th. -/
def HasModel (plans : List ExecPlan) (i : Nat) (q : ExecPlan) (j modelId : Nat) : Prop :=
  plans[i]? = some q ∧ q.getBaseModelIds[j]? = some modelId

/-- A plan other than the `k`-th runs the base model. -/
def SourceOutside (plans : List ExecPlan) (k modelId : Nat) (q : ExecPlan) (j : Nat) : Prop :=
  ∃ i, i ≠ k ∧ HasModel plans i q j modelId

/-- The models of a group are different, and no model of a plan is a source of the plan. -/
structure Distinct (plans : List ExecPlan) : Prop where
  baseModelIds : (plans.flatMap ExecPlan.getBaseModelIds).Nodup
  modelIds : (plans.map ExecPlan.modelId).Nodup
  no_self_source : ∀ p ∈ plans, p.isVerticalFused = false →
    ∃ m, p.modelList = [m] ∧ m.modelId ∉ m.inpBaseModelIds

section

variable {plans : List ExecPlan} (h : Distinct plans)

include h

theorem Distinct.position_unique {i i' modelId : Nat} {q q' : ExecPlan} (hq : plans[i]? = some q)
    (hq' : plans[i']? = some q') (hmem : modelId ∈ q.getBaseModelIds)
    (hmem' : modelId ∈ q'.getBaseModelIds) : i = i' := by
  have hdisjoint := (List.nodup_flatMap.mp h.baseModelIds).2
  obtain ⟨hi, rfl⟩ := List.getElem?_eq_some_iff.mp hq
  obtain ⟨hi', rfl⟩ := List.getElem?_eq_some_iff.mp hq'
  rcases Nat.lt_trichotomy i i' with hlt | heq | hgt
  · exact absurd hmem' (List.pairwise_iff_getElem.mp hdisjoint i i' hi hi' hlt hmem)
  · exact heq
  · exact absurd hmem (List.pairwise_iff_getElem.mp hdisjoint i' i hi' hi hgt hmem')

theorem Distinct.hasModel_unique {i i' j j' modelId : Nat} {q q' : ExecPlan}
    (hq : HasModel plans i q j modelId) (hq' : HasModel plans i' q' j' modelId) :
    i = i' ∧ q = q' ∧ j = j' := by
  obtain rfl := h.position_unique hq.1 hq'.1 (List.mem_of_getElem? hq.2)
    (List.mem_of_getElem? hq'.2)
  obtain rfl := Option.some.inj (hq.1.symm.trans hq'.1)
  have hnodup : q.getBaseModelIds.Nodup :=
    (List.nodup_flatMap.mp h.baseModelIds).1 q (List.mem_of_getElem? hq.1)
  have hj := (List.getElem?_eq_some_iff.mp hq.2).1
  exact ⟨rfl, rfl, (List.getElem?_inj hj hnodup).mp (hq.2.trans hq'.2.symm)⟩

theorem Distinct.lookup_plan (modelId : Nat) (q : ExecPlan) (i : Nat) :
    (Dict.update [] (plans.zipIdx.map fun e => (e.1.modelId, e))).lookup modelId = some (q, i) ↔
      plans[i]? = some q ∧ q.modelId = modelId := by
  have hkeys : (Dict.keys (plans.zipIdx.map fun e => (e.1.modelId, e))).Nodup := by
    rw [Dict.keys_map_pair, ← Function.comp_def ExecPlan.modelId Prod.fst, ← List.map_map,
      List.zipIdx_map_fst]
    exact h.modelIds
  rw [Dict.update_nil hkeys]
  constructor
  · intro hlookup
    obtain ⟨e, he, heq⟩ := List.mem_map.mp (Dict.mem_of_lookup hlookup)
    obtain ⟨rfl, rfl⟩ := Prod.mk.inj heq
    exact ⟨List.mem_zipIdx_iff_getElem?.mp he, rfl⟩
  · rintro ⟨hq, rfl⟩
    exact Dict.lookup_of_mem hkeys (List.mem_map.mpr
      ⟨(q, i), List.mem_zipIdx_iff_getElem?.mpr hq, rfl⟩)

theorem Distinct.lookup_node (ori modelId : Nat) :
    (Dict.update [] (plans.flatMap fun q => q.getBaseModelIds.map fun ori =>
      (ori, q.modelId))).lookup ori = some modelId ↔
      ∃ q ∈ plans, ori ∈ q.getBaseModelIds ∧ q.modelId = modelId := by
  have hkeys : (Dict.keys (plans.flatMap fun q => q.getBaseModelIds.map fun ori =>
      (ori, q.modelId))).Nodup := by
    have hmap : Dict.keys (plans.flatMap fun q => q.getBaseModelIds.map fun ori =>
        (ori, q.modelId)) = plans.flatMap ExecPlan.getBaseModelIds := by
      rw [Dict.keys, List.map_flatMap]
      refine List.flatMap_congr fun q _ => ?_
      rw [List.map_map]
      exact List.map_id _
    rw [hmap]
    exact h.baseModelIds
  rw [Dict.update_nil hkeys]
  constructor
  · intro hlookup
    obtain ⟨q, hq, hmem⟩ := List.mem_flatMap.mp (Dict.mem_of_lookup hlookup)
    obtain ⟨ori', hori, heq⟩ := List.mem_map.mp hmem
    obtain ⟨rfl, rfl⟩ := Prod.mk.inj heq
    exact ⟨q, hq, hori, rfl⟩
  · rintro ⟨q, hq, hori, rfl⟩
    exact Dict.lookup_of_mem hkeys (List.mem_flatMap.mpr
      ⟨q, hq, List.mem_map.mpr ⟨ori, hori, rfl⟩⟩)

/-- The plans that run inputs of a plan, found through the ids of their models. -/
theorem Distinct.mem_inpExecPlans (p q : ExecPlan) (i : Nat) :
    (q, i) ∈ inpExecPlans plans p ↔
      plans[i]? = some q ∧ ∃ modelId ∈ p.inpBaseModelIds, modelId ∈ q.getBaseModelIds := by
  rw [inpExecPlans, List.mem_filterMap]
  constructor
  · rintro ⟨modelId, hmem, hlookup⟩
    obtain ⟨hq, rfl⟩ := (h.lookup_plan modelId q i).mp hlookup
    obtain ⟨ori, hori, hnode⟩ := List.mem_filterMap.mp (List.mem_dedup.mp hmem)
    obtain ⟨q', hq', hbase, heq⟩ := (h.lookup_node ori _).mp hnode
    obtain rfl : q' = q :=
      List.inj_on_of_nodup_map h.modelIds hq' (List.mem_of_getElem? hq) heq
    exact ⟨hq, ori, hori, hbase⟩
  · rintro ⟨hq, ori, hori, hbase⟩
    refine ⟨q.modelId, List.mem_dedup.mpr (List.mem_filterMap.mpr ⟨ori, hori, ?_⟩),
      (h.lookup_plan _ q i).mpr ⟨hq, rfl⟩⟩
    exact (h.lookup_node ori _).mpr ⟨q, List.mem_of_getElem? hq, hbase, rfl⟩

theorem Distinct.nodup_inpExecPlans (p : ExecPlan) : (inpExecPlans plans p).Nodup := by
  refine List.Nodup.filterMap (fun modelId modelId' e he he' => ?_) (List.nodup_dedup _)
  rw [← ((h.lookup_plan modelId e.1 e.2).mp he).2, ((h.lookup_plan modelId' e.1 e.2).mp he').2]

/-- A plan is not among those that run its inputs. -/
theorem Distinct.ne_of_mem_inpExecPlans {p q : ExecPlan} {k i : Nat} (hp : plans[k]? = some p)
    (hq : (q, i) ∈ inpExecPlans plans p) : i ≠ k := by
  rintro rfl
  obtain ⟨hq, modelId, hmem, hbase⟩ := (h.mem_inpExecPlans p q i).mp hq
  obtain rfl := Option.some.inj (hp.symm.trans hq)
  rw [ExecPlan.inpBaseModelIds] at hmem
  cases hfused : p.isVerticalFused with
  | true =>
    simp only [hfused, if_true] at hmem
    exact of_decide_eq_true (List.mem_filter.mp hmem).2 hbase
  | false =>
    obtain ⟨m, hm, hself⟩ := h.no_self_source p (List.mem_of_getElem? hp) hfused
    simp only [hfused, Bool.false_eq_true, if_false, hm, List.flatMap_singleton] at hmem
    rw [ExecPlan.getBaseModelIds, hm, List.map_singleton, List.mem_singleton] at hbase
    exact hself (hbase ▸ hmem)

end

/-! ## Entries -/

/-- An element of a list without duplicates has one place. -/
theorem filter_zipIdx {l : List Nat} (hnodup : l.Nodup) {j a : Nat} (hj : l[j]? = some a)
    (n : Nat) : (l.zipIdx n).filter (·.1 = a) = [(a, n + j)] := by
  induction l generalizing j n with
  | nil => cases hj
  | cons b l ih =>
    obtain ⟨hb, hnodup⟩ := List.nodup_cons.mp hnodup
    rw [List.zipIdx_cons]
    cases j with
    | zero =>
      obtain rfl := Option.some.inj hj
      have hrest : (l.zipIdx (n + 1)).filter (·.1 = b) = [] := by
        refine List.filter_eq_nil_iff.mpr fun e he => ?_
        rw [decide_eq_true_eq]
        exact fun heq => hb (heq ▸ List.fst_mem_of_mem_zipIdx he)
      rw [List.filter_cons, hrest, if_pos (decide_eq_true rfl), Nat.add_zero]
    | succ j =>
      have hne : b ≠ a := fun heq => hb (heq ▸ List.mem_of_getElem? hj)
      rw [List.filter_cons_of_neg (by simpa using hne), ih hnodup hj, Nat.add_right_comm,
        Nat.add_assoc]

theorem infoOf_eq_nil {inps : List (ExecPlan × Nat)} {modelId : Nat}
    (hinps : ∀ e ∈ inps, modelId ∉ e.1.getBaseModelIds) : infoOf inps modelId = [] := by
  refine List.flatMap_eq_nil_iff.mpr fun e he => ?_
  rw [List.map_eq_nil_iff, List.filter_eq_nil_iff]
  intro d hd
  rw [decide_eq_true_eq]
  exact fun heq => hinps e he (heq ▸ List.fst_mem_of_mem_zipIdx hd)

theorem infoOf_eq_singleton {inps : List (ExecPlan × Nat)} (hnodup : inps.Nodup) {modelId : Nat}
    (hunique : ∀ e ∈ inps, ∀ e' ∈ inps, modelId ∈ e.1.getBaseModelIds →
      modelId ∈ e'.1.getBaseModelIds → e = e')
    {e : ExecPlan × Nat} (he : e ∈ inps) (hids : e.1.getBaseModelIds.Nodup) {j : Nat}
    (hj : e.1.getBaseModelIds[j]? = some modelId) : infoOf inps modelId = [(e.2, j)] := by
  induction inps with
  | nil => cases he
  | cons d inps ih =>
    obtain ⟨hd, hnodup⟩ := List.nodup_cons.mp hnodup
    rw [infoOf, List.flatMap_cons, ← infoOf]
    rcases List.mem_cons.mp he with rfl | he
    · have hrest : infoOf inps modelId = [] := infoOf_eq_nil fun e' he' hmem => by
        have heq := hunique e (.head _) e' (.tail _ he') (List.mem_of_getElem? hj) hmem
        exact hd (heq ▸ he')
      rw [hrest, filter_zipIdx hids hj, Nat.zero_add]
      rfl
    · have hfirst : d.1.getBaseModelIds.zipIdx.filter (·.1 = modelId) = [] := by
        refine List.filter_eq_nil_iff.mpr fun c hc => ?_
        rw [decide_eq_true_eq]
        intro heq
        have hmem : modelId ∈ d.1.getBaseModelIds := heq ▸ List.fst_mem_of_mem_zipIdx hc
        have hsame := hunique d (.head _) e (.tail _ he) hmem (List.mem_of_getElem? hj)
        exact hd (hsame ▸ he)
      rw [hfirst, ih hnodup (fun e he e' he' => hunique e (.tail _ he) e' (.tail _ he')) he]
      rfl

section

variable {plans : List ExecPlan} (h : Distinct plans) {p : ExecPlan} {k : Nat}
  (hp : plans[k]? = some p) {m : BaseModel} {modelId : Nat}

include h hp

/-- Another plan runs the source: there is one entry for it. -/
theorem infoOf_of_source (hm : m ∈ p.modelList) (hinput : modelId ∈ m.inpBaseModelIds)
    {q : ExecPlan} {i j : Nat} (hi : i ≠ k) (hq : HasModel plans i q j modelId) :
    infoOf (inpExecPlans plans p) modelId = [(i, j)] := by
  have hbase := List.mem_of_getElem? hq.2
  have hown : modelId ∉ p.getBaseModelIds := fun hmem => hi (h.position_unique hq.1 hp hbase hmem)
  have hin : modelId ∈ p.inpBaseModelIds := by
    have hall : modelId ∈ p.modelList.flatMap BaseModel.inpBaseModelIds :=
      List.mem_flatMap.mpr ⟨m, hm, hinput⟩
    rw [ExecPlan.inpBaseModelIds]
    split
    · exact List.mem_filter.mpr ⟨hall, decide_eq_true hown⟩
    · exact hall
  have hmem : (q, i) ∈ inpExecPlans plans p :=
    (h.mem_inpExecPlans p q i).mpr ⟨hq.1, modelId, hin, hbase⟩
  have hids : q.getBaseModelIds.Nodup :=
    (List.nodup_flatMap.mp h.baseModelIds).1 q (List.mem_of_getElem? hq.1)
  refine infoOf_eq_singleton (h.nodup_inpExecPlans p) (fun e he e' he' hmem hmem' => ?_) hmem hids
    hq.2
  obtain ⟨he, -⟩ := (h.mem_inpExecPlans p e.1 e.2).mp he
  obtain ⟨he', -⟩ := (h.mem_inpExecPlans p e'.1 e'.2).mp he'
  have hpos := h.position_unique he he' hmem hmem'
  rw [hpos, he'] at he
  exact Prod.ext (Option.some.inj he).symm hpos

/-- No other plan runs the source: there is no entry. -/
theorem infoOf_of_no_source (hnone : ∀ q j, ¬ SourceOutside plans k modelId q j) :
    infoOf (inpExecPlans plans p) modelId = [] := by
  refine infoOf_eq_nil fun e he hmem => ?_
  obtain ⟨j, hj⟩ := List.mem_iff_getElem?.mp hmem
  obtain ⟨he', -⟩ := (h.mem_inpExecPlans p e.1 e.2).mp he
  exact hnone e.1 j ⟨e.2, h.ne_of_mem_inpExecPlans hp he, he', hj⟩

end

end Mil.Arrive
