import Mil.LightRule.Costs

/-!
# The workloads after a stage

A stage lasts for the least cost of its models. Whoever has this cost has no work left afterwards: its
own time is longer than its loading time, and its first input, whose cost is not larger, has no work
left either. So every stage finishes a model (`updateWorkloadDict_spec`).
-/

set_option autoImplicit false

namespace Mil.LightRule

open Mil.Lib

section

variable {c : Rule} {plans last : PlanDict} {w : Nat → ℚ} {costs : Costs} {minCost : ℚ}

/-- What is left of the work of a model: what its first input has not produced yet is left as well. -/
def Rule.workLeft (c : Rule) (plans : PlanDict) (minCost : ℚ) (w : Nat → ℚ) (modelId : Nat) (p : Plan)
    (t e : ℚ) : ℚ :=
  let rest := if t = minCost then 0 else max (w modelId - (minCost - e) * c.throughput p) 0
  match p.model.inputModelIds.head? with
  | none => rest
  | some inp =>
    if inp ∈ Dict.keys plans then max rest (w inp / c.avgOutlen inp * c.avgOutlen modelId) else rest

theorem updateSingleModelWorkload_eq {modelId : Nat} {p : Plan} {t e : ℚ}
    (hp : plans.lookup modelId = some p) (he : costs.extra.lookup modelId = some e)
    (ht : costs.cost.lookup modelId = some t) (hne : modelId ∉ p.model.inputModelIds) :
    c.updateSingleModelWorkload plans costs minCost w modelId =
      some (if e < minCost then
        Function.update w modelId (c.workLeft plans minCost w modelId p t e) else w) := by
  rw [Rule.updateSingleModelWorkload, hp, he]
  simp only [Option.bind_eq_bind, Option.bind_some, ht]
  by_cases hlt : e < minCost
  · rw [if_pos hlt, if_pos hlt, Rule.workLeft]
    cases hhead : p.model.inputModelIds.head? with
    | none => rfl
    | some inp =>
      have hinp : inp ≠ modelId := fun heq => hne (heq ▸ List.mem_of_head? hhead)
      by_cases hin : inp ∈ Dict.keys plans
      · simp only [if_pos hin, Function.update_of_ne hinp]
        generalize (if t = minCost then 0 else
          max (w modelId - (minCost - e) * c.throughput p) 0) = rest
        by_cases hle : rest ≤ w inp / c.avgOutlen inp * c.avgOutlen modelId
        · rw [if_pos hle, max_eq_right hle, Function.update_idem]
          rfl
        · rw [if_neg hle, max_eq_left (le_of_not_ge hle)]
          rfl
      · simp only [if_neg hin]
        rfl
  · rw [if_neg hlt, if_neg hlt]
    rfl

theorem workLeft_nonneg {modelId : Nat} {p : Plan} {t e : ℚ} :
    0 ≤ c.workLeft plans minCost w modelId p t e := by
  have hrest : 0 ≤ if t = minCost then 0 else
      max (w modelId - (minCost - e) * c.throughput p) 0 := by
    split
    · exact le_refl 0
    · exact le_max_right _ _
  rw [Rule.workLeft]
  split
  · exact hrest
  · split
    · exact hrest.trans (le_max_left _ _)
    · exact hrest

/-- Whoever has the least cost has no work left, once its first input has none. -/
theorem workLeft_eq_zero {modelId : Nat} {p : Plan} {e : ℚ}
    (hfirst : ∀ inp, p.model.inputModelIds.head? = some inp → inp ∈ Dict.keys plans → w inp = 0) :
    c.workLeft plans minCost w modelId p minCost e = 0 := by
  rw [Rule.workLeft]
  simp only [if_true]
  split
  · rfl
  · rename_i inp hhead
    split
    · rename_i hin
      rw [hfirst inp hhead hin, zero_div, zero_mul, max_self]
    · rfl

/-- The workloads when the models in `done` have been updated. -/
structure Updated (w : Nat → ℚ) (costs : Costs) (minCost : ℚ) (done : List Nat) (w' : Nat → ℚ) :
    Prop where
  frame : ∀ modelId, modelId ∉ done → w' modelId = w modelId
  nonneg : ∀ modelId, 0 ≤ w' modelId
  finished : ∀ modelId ∈ done, costs.cost.lookup modelId = some minCost → w' modelId = 0

/-- One model. -/
theorem updateSingleModelWorkload_spec (hc : c.WellFormed) (hg : GroupOk c plans)
    (hcosts : CostsOk c last plans w (c.sortedModelIds plans) costs)
    (hmin : ∀ modelId t, costs.cost.lookup modelId = some t → minCost ≤ t)
    (hpos : ∀ modelId ∈ Dict.keys plans, 0 < w modelId) {done : List Nat} {w₁ : Nat → ℚ}
    (h : Updated w costs minCost done w₁) {modelId : Nat} (hid : modelId ∈ Dict.keys plans)
    (hnew : modelId ∉ done)
    (hfirst : ∀ inp, (c.inputs modelId).head? = some inp → inp ∈ Dict.keys plans → inp ∈ done) :
    ∃ w₂, c.updateSingleModelWorkload plans costs minCost w₁ modelId = some w₂ ∧
      Updated w costs minCost (done ++ [modelId]) w₂ := by
  obtain ⟨p, hp, hm, rfl, hplan⟩ := hg.lookup hid
  obtain ⟨q, t, e, hq, ht, he, -, hown, hinp⟩ :=
    hcosts.cost _ ((sortedModelIds_perm c plans).symm.subset hid)
  obtain rfl : q = p := Option.some.inj (hq.symm.trans hp)
  rw [hc.inputs_eq hm] at hfirst hinp
  rw [updateSingleModelWorkload_eq hp he ht (hc.not_self_input hm)]
  refine ⟨_, rfl, ?_, ?_, ?_⟩
  · intro modelId hout
    rw [List.mem_append, List.mem_singleton, not_or] at hout
    split
    · rw [Function.update_of_ne hout.2, h.frame modelId hout.1]
    · exact h.frame modelId hout.1
  · intro modelId
    split
    · by_cases heq : modelId = q.model.modelId
      · rw [heq, Function.update_self]
        exact workLeft_nonneg
      · rw [Function.update_of_ne heq]
        exact h.nonneg modelId
    · exact h.nonneg modelId
  · intro modelId hmem hcost
    rcases List.mem_append.mp hmem with hmem | hmem
    · have hne : modelId ≠ q.model.modelId := fun heq => hnew (heq ▸ hmem)
      split
      · rw [Function.update_of_ne hne, h.finished modelId hmem hcost]
      · exact h.finished modelId hmem hcost
    · obtain rfl := List.mem_singleton.mp hmem
      obtain rfl := Option.some.inj (ht.symm.trans hcost)
      -- The model's own time is longer than its loading time, because it has work.
      have hlt : e < t := by
        have hwork := div_pos (hpos _ hid) (hc.throughput_pos hm hplan)
        exact lt_of_lt_of_le (lt_add_of_pos_left e hwork) hown
      rw [if_pos hlt, Function.update_self]
      refine workLeft_eq_zero fun inp hhead hin => ?_
      obtain ⟨t', ht', hle⟩ := hinp inp hhead hin
      have heq := le_antisymm hle (hmin inp t' ht')
      exact h.finished inp (hfirst inp hhead hin) (heq ▸ ht')

/-- The update of a group, each of whose models has work left. -/
theorem updateWorkloadDict_spec (hc : c.WellFormed) (hg : GroupOk c plans) (hne : plans ≠ [])
    (hpos : ∀ modelId ∈ Dict.keys plans, 0 < w modelId) (hw : ∀ modelId, 0 ≤ w modelId)
    (horder : CostOrder c (Dict.keys plans)) :
    ∃ w', c.updateWorkloadDict plans last w = some w' ∧
      (∀ modelId, modelId ∉ Dict.keys plans → w' modelId = w modelId) ∧
      (∀ modelId, 0 ≤ w' modelId) ∧ ∃ modelId ∈ Dict.keys plans, w' modelId = 0 := by
  have hcosts : ∃ costs, c.compModelCosts last w plans = some costs :=
    (compModelCosts_spec hc hg).1 horder
  obtain ⟨costs, hcosts⟩ := hcosts
  obtain ⟨-, hok⟩ := (compModelCosts_spec hc hg).2 costs hcosts
  have hperm := sortedModelIds_perm c plans
  have hvalues : costs.cost.map Prod.snd ≠ [] := by
    intro hnil
    have hkeys := hok.keys_cost
    rw [List.map_eq_nil_iff.mp hnil] at hkeys
    rw [← hkeys] at hperm
    exact hne (List.map_eq_nil_iff.mp (List.nil_perm.mp hperm))
  obtain ⟨minCost, hminCost⟩ := Option.isSome_iff_exists.mp (List.isSome_min?_of_ne_nil hvalues)
  obtain ⟨hmem, hle⟩ := List.min?_eq_some_iff.mp hminCost
  have hcostKeys : (Dict.keys costs.cost).Nodup :=
    hok.keys_cost ▸ hperm.nodup_iff.mpr hg.keys_nodup
  have hmin : ∀ modelId t, costs.cost.lookup modelId = some t → minCost ≤ t := fun modelId t ht =>
    hle t (List.mem_map_of_mem (f := Prod.snd) (Dict.mem_of_lookup ht))
  have hrun : ∀ rest done w₁, c.sortedModelIds plans = done ++ rest →
      Updated w costs minCost done w₁ →
      ∃ w', rest.foldlM (c.updateSingleModelWorkload plans costs minCost) w₁ = some w' ∧
        Updated w costs minCost (c.sortedModelIds plans) w' := by
    intro rest
    induction rest with
    | nil =>
      intro done w₁ hsplit h
      rw [List.append_nil] at hsplit
      exact ⟨w₁, rfl, hsplit ▸ h⟩
    | cons modelId rest ih =>
      intro done w₁ hsplit h
      have hid : modelId ∈ Dict.keys plans :=
        hperm.subset (hsplit ▸ List.mem_append_right _ (.head _))
      have hnew : modelId ∉ done := by
        have hnodup := hperm.nodup_iff.mpr hg.keys_nodup
        rw [hsplit] at hnodup
        exact fun hin => (List.nodup_append'.mp hnodup).2.2 hin (.head _)
      obtain ⟨w₂, hw₂, h₂⟩ := updateSingleModelWorkload_spec hc hg hok hmin hpos h hid hnew
        (horder done modelId rest hsplit)
      rw [List.foldlM_cons, hw₂]
      exact ih (done ++ [modelId]) w₂ (by rw [hsplit, List.append_assoc, List.singleton_append]) h₂
  obtain ⟨w', hw', h'⟩ := hrun (c.sortedModelIds plans) [] w rfl
    ⟨fun _ _ => rfl, hw, fun _ h => absurd h List.not_mem_nil⟩
  obtain ⟨e, he, heq⟩ := List.mem_map.mp hmem
  have hkey : e.1 ∈ c.sortedModelIds plans := hok.keys_cost ▸ List.mem_map_of_mem he
  refine ⟨w', ?_, fun modelId hout => h'.frame modelId fun hin => hout (hperm.subset hin),
    h'.nonneg, e.1, hperm.subset hkey, h'.finished e.1 hkey ?_⟩
  · rw [Rule.updateWorkloadDict, hcosts]
    simp only [Option.bind_eq_bind, Option.bind_some, hminCost]
    exact hw'
  · exact heq ▸ Dict.lookup_of_mem hcostKeys he

/-- If the update returns, the order was right, and there was something to update. -/
theorem updateWorkloadDict_inv (hc : c.WellFormed) (hg : GroupOk c plans) {w' : Nat → ℚ}
    (h : c.updateWorkloadDict plans last w = some w') : CostOrder c (Dict.keys plans) ∧ plans ≠ [] := by
  rw [Rule.updateWorkloadDict] at h
  obtain ⟨costs, hcosts, hrest⟩ := Option.bind_eq_some_iff.mp h
  obtain ⟨minCost, hminCost, -⟩ := Option.bind_eq_some_iff.mp hrest
  obtain ⟨horder, hok⟩ := (compModelCosts_spec hc hg).2 costs hcosts
  refine ⟨horder, ?_⟩
  rintro rfl
  have hkeys := hok.keys_cost
  obtain ⟨hmem, -⟩ := List.min?_eq_some_iff.mp hminCost
  obtain ⟨e, he, -⟩ := List.mem_map.mp hmem
  have hin : e.1 ∈ c.sortedModelIds [] := hkeys ▸ List.mem_map_of_mem he
  exact absurd ((sortedModelIds_perm c []).subset hin) List.not_mem_nil

end

end Mil.LightRule
