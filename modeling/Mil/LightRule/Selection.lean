import Mil.Lib.FoldM
import Mil.LightRule.Workloads

/-!
# Spending the free GPUs

A step of the selection loop gives one model of the group a larger plan for which there are enough
GPUs. So the group keeps its models and fits, and there are fewer free GPUs than before; the loop ends
(`selectPlans_total`). A step needs every model it looks at to be in the group.
-/

set_option autoImplicit false

namespace Mil.LightRule

open Mil.Lib

section

variable {c : Rule} {plans last : PlanDict} {w : Nat → ℚ} {s s' : Selection}

/-! ## Groups with the same models -/

theorem GroupOk.set (h : GroupOk c plans) {p : Plan} (hm : p.model ∈ c.models)
    (hp : p ∈ c.execPlans p.model.modelId) : GroupOk c (Dict.set p.model.modelId p plans) := by
  have hkeys := Dict.nodup_keys_set h.keys_nodup p.model.modelId p
  refine ⟨hkeys, fun e he => ?_⟩
  have hlook := Dict.lookup_of_mem hkeys (k := e.1) (a := e.2) he
  rw [Dict.lookup_set] at hlook
  by_cases heq : e.1 = p.model.modelId
  · rw [if_pos heq] at hlook
    obtain rfl := Option.some.inj hlook
    exact ⟨hm, heq.symm, heq ▸ hp⟩
  · rw [if_neg heq] at hlook
    exact h.plan e (Dict.mem_of_lookup hlook)

/-! ## One step -/

/-- What holds of the variables of the loop: the group is one of the models `ids`, every model of it
has a cost and the GPUs of its plan, and the free GPUs are what the group leaves. -/
structure SelectionOk (c : Rule) (ids : List Nat) (s : Selection) : Prop where
  group : GroupOk c s.plans
  keys : Dict.keys s.plans = ids
  costs : ∀ modelId, modelId ∈ Dict.keys s.costs ↔ modelId ∈ ids
  allocation : ∀ modelId, (∀ p, s.plans.lookup modelId = some p →
    ∃ tp, s.allocation.lookup modelId = some (p.gpuNum, tp)) ∧
    (modelId ∉ ids → s.allocation.lookup modelId = none)
  fits : groupGpuNum s.plans + s.remaining ≤ c.totGpuNum

/-- The larger plans found so far. -/
def FoundOk (c : Rule) (s : Selection) (found : List (Plan × Candidate)) : Prop :=
  ∀ e ∈ found, e.1.model ∈ c.models ∧ e.1 ∈ c.execPlans e.1.model.modelId ∧
    (∃ tp, s.allocation.lookup e.1.model.modelId = some (e.2.gpuNow, tp)) ∧
    e.2.gpuNow < e.1.gpuNum ∧ e.1.gpuNum ≤ s.remaining + e.2.gpuNow

variable {ids : List Nat} {found : List (Plan × Candidate)}

theorem SelectionOk.lookup (h : SelectionOk c ids s) {modelId gpuNow tp : Nat}
    (ha : s.allocation.lookup modelId = some (gpuNow, tp)) :
    ∃ p, s.plans.lookup modelId = some p ∧ p.model ∈ c.models ∧ p.model.modelId = modelId ∧
      p.gpuNum = gpuNow := by
  have hid : modelId ∈ ids := by
    by_contra hout
    rw [(h.allocation modelId).2 hout] at ha
    cases ha
  obtain ⟨p, hp, hm, hpid, -⟩ := h.group.lookup (h.keys ▸ hid)
  obtain ⟨tp', htp'⟩ := (h.allocation modelId).1 p hp
  rw [ha] at htp'
  exact ⟨p, hp, hm, hpid, (congrArg Prod.fst (Option.some.inj htp')).symm⟩

theorem FoundOk.set (h : FoundOk c s found) {p : Plan} {cand : Candidate}
    (hnew : FoundOk c s [(p, cand)]) : FoundOk c s (Dict.set p cand found) := by
  intro e he
  rcases Dict.eq_or_mem_of_mem_set he with rfl | he
  · exact hnew _ (.head _)
  · exact h e he

theorem tryPlan_inv {modelId gpuNow : Nat} {p : Plan} {found' : List (Plan × Candidate)}
    (h : c.tryPlan last w s modelId gpuNow found p = some found') :
    ∃ cand : Candidate, cand.gpuNow = gpuNow ∧ found' = Dict.set p cand found := by
  rw [Rule.tryPlan] at h
  obtain ⟨costs, -, h⟩ := Option.bind_eq_some_iff.mp h
  obtain ⟨maxCost, -, h⟩ := Option.bind_eq_some_iff.mp h
  obtain ⟨ownCost, -, h⟩ := Option.bind_eq_some_iff.mp h
  obtain ⟨costNow, -, h⟩ := Option.bind_eq_some_iff.mp h
  exact ⟨_, rfl, (Option.some.inj h).symm⟩

/-- The larger plans of one model keep to the free GPUs. -/
theorem FoundOk.tryPlans (hc : c.WellFormed) (hok : SelectionOk c ids s) {modelId gpuNow tp : Nat}
    (ha : s.allocation.lookup modelId = some (gpuNow, tp)) {found' : List (Plan × Candidate)}
    (h : FoundOk c s found)
    (hrun : ((c.execPlans modelId).filter fun p =>
      gpuNow < p.gpuNum && p.gpuNum ≤ s.remaining + gpuNow).foldlM
        (c.tryPlan last w s modelId gpuNow) found = some found') : FoundOk c s found' := by
  obtain ⟨q, -, hm, hid, -⟩ := hok.lookup ha
  refine foldlM_inv (P := FoundOk c s) (fun p hp t t' ht hstep => ?_) h hrun
  obtain ⟨hplan, hguard⟩ := List.mem_filter.mp hp
  rw [Bool.and_eq_true, decide_eq_true_eq, decide_eq_true_eq] at hguard
  obtain ⟨cand, rfl, rfl⟩ := tryPlan_inv hstep
  subst hid
  obtain ⟨hmodel, -, -⟩ := hc.plans q.model hm p hplan
  refine ht.set fun e he => ?_
  obtain rfl := List.mem_singleton.mp he
  show p.model ∈ c.models ∧ p ∈ c.execPlans p.model.modelId ∧
    (∃ tp, s.allocation.lookup p.model.modelId = some (cand.gpuNow, tp)) ∧ _
  rw [hmodel]
  exact ⟨hm, hplan, ⟨tp, ha⟩, hguard⟩

theorem planCosts_inv (hc : c.WellFormed) (hok : SelectionOk c ids s) {modelIds : List Nat}
    (h : c.planCosts last w s modelIds = some found) : FoundOk c s found := by
  refine foldlM_inv (P := FoundOk c s) (fun modelId _ t t' ht hstep => ?_)
    (fun _ he => absurd he List.not_mem_nil) h
  obtain ⟨⟨gpuNow, tp⟩, ha, hrun⟩ := Option.bind_eq_some_iff.mp hstep
  exact ht.tryPlans hc hok ha hrun

theorem bestPlan_mem {maxCost : ℚ} {e : Plan × Candidate} (h : bestPlan maxCost found = some e) :
    e ∈ found := by
  have hsort : ∀ (r : Plan × Candidate → Plan × Candidate → Prop) [DecidableRel r]
      (l : List (Plan × Candidate)), (l.insertionSort r).head? = some e → e ∈ l :=
    fun r _ l hl => (List.perm_insertionSort r l).subset (List.mem_of_head? hl)
  rw [bestPlan] at h
  split at h
  · exact List.mem_of_mem_filter (hsort _ _ h)
  · exact List.mem_of_mem_filter (hsort _ _ h)

/-- A larger plan for one model: the others keep theirs, and fewer GPUs are free. -/
theorem SelectionOk.step (hc : c.WellFormed) (hok : SelectionOk c ids s)
    (h : c.selectBestPlan last w s = some (some s')) :
    SelectionOk c ids s' ∧ s'.remaining < s.remaining := by
  rw [Rule.selectBestPlan] at h
  obtain ⟨maxCost, -, h⟩ := Option.bind_eq_some_iff.mp h
  obtain ⟨found, hfound, h⟩ := Option.bind_eq_some_iff.mp h
  cases hbest : bestPlan maxCost found with
  | none =>
    rw [hbest] at h
    cases h
  | some e =>
    obtain ⟨p, cand⟩ := e
    rw [hbest] at h
    obtain ⟨costs, hcosts, h⟩ := Option.bind_eq_some_iff.mp h
    obtain rfl := Option.some.inj (Option.some.inj h)
    obtain ⟨hm, hp, ⟨tp, ha⟩, hlarger, hfree⟩ :=
      planCosts_inv hc hok hfound _ (bestPlan_mem hbest)
    obtain ⟨q, hq, -, -, hgpu⟩ := hok.lookup ha
    have hin : p.model.modelId ∈ Dict.keys s.plans := Dict.mem_keys_of_lookup hq
    have hkeys := Dict.keys_set_of_mem (a := p) hin
    have hgroup := hok.group.set hm hp
    obtain ⟨-, hcostsOk⟩ := (compModelCosts_spec hc hgroup).2 costs hcosts
    refine ⟨⟨hgroup, hkeys.trans hok.keys, fun modelId => ?_, fun modelId => ⟨?_, ?_⟩, ?_⟩, ?_⟩
    · show modelId ∈ Dict.keys costs.cost ↔ modelId ∈ ids
      rw [hcostsOk.keys_cost, (sortedModelIds_perm c _).mem_iff, hkeys, hok.keys]
    · intro r hr
      show ∃ tp, (Dict.set p.model.modelId (p.gpuNum, p.numWorker) s.allocation).lookup modelId =
        some (r.gpuNum, tp)
      rw [Dict.lookup_set] at hr
      rw [Dict.lookup_set]
      by_cases heq : modelId = p.model.modelId
      · rw [if_pos heq] at hr
        rw [if_pos heq, Option.some.inj hr]
        exact ⟨_, rfl⟩
      · rw [if_neg heq] at hr
        rw [if_neg heq]
        exact (hok.allocation modelId).1 r hr
    · intro hout
      show (Dict.set p.model.modelId (p.gpuNum, p.numWorker) s.allocation).lookup modelId = none
      have hne : modelId ≠ p.model.modelId := fun heq => hout (hok.keys ▸ heq ▸ hin)
      rw [Dict.lookup_set, if_neg hne]
      exact (hok.allocation modelId).2 hout
    · have hsum : Dict.sum Plan.gpuNum (Dict.set p.model.modelId p s.plans) + q.gpuNum =
          Dict.sum Plan.gpuNum s.plans + p.gpuNum := Dict.sum_set_of_mem Plan.gpuNum p hq
      have hfits := hok.fits
      show Dict.sum Plan.gpuNum (Dict.set p.model.modelId p s.plans) +
        (s.remaining + cand.gpuNow - p.gpuNum) ≤ c.totGpuNum
      change Dict.sum Plan.gpuNum s.plans + s.remaining ≤ c.totGpuNum at hfits
      simp only at hlarger hfree hgpu
      omega
    · show s.remaining + cand.gpuNow - p.gpuNum < s.remaining
      simp only at hlarger hfree
      omega

/-! ## The loop -/

theorem selectPlans_inv (hc : c.WellFormed) {fuel : Nat} (hok : SelectionOk c ids s)
    (h : c.selectPlans last w fuel s = some s') : SelectionOk c ids s' := by
  induction fuel generalizing s with
  | zero =>
    rw [Rule.selectPlans] at h
    split at h
    · exact Option.some.inj h ▸ hok
    · cases h
  | succ fuel ih =>
    rw [Rule.selectPlans] at h
    split at h
    · exact Option.some.inj h ▸ hok
    · obtain ⟨best, hbest, h⟩ := Option.bind_eq_some_iff.mp h
      cases best with
      | none => exact Option.some.inj h ▸ hok
      | some t => exact ih (hok.step hc hbest).1 h

/-- The models to look at are in the group if every model with work left is. -/
theorem modelIdsToCheck_subset (hc : c.WellFormed) (hok : SelectionOk c ids s)
    (hall : ∀ m ∈ c.models, 0 < w m.modelId → m.modelId ∈ ids) {maxCost : ℚ} :
    c.modelIdsToCheck w s maxCost ⊆ ids := by
  intro modelId hid
  obtain ⟨hid, hpos⟩ := List.mem_filter.mp hid
  rw [decide_eq_true_eq] at hpos
  have hslow : ∀ a ∈ (s.costs.filter (·.2 = maxCost)).map Prod.fst, a ∈ ids := by
    intro a ha
    obtain ⟨e, he, rfl⟩ := List.mem_map.mp ha
    exact (hok.costs e.1).mp (List.mem_map_of_mem (List.mem_of_mem_filter he))
  rcases List.mem_append.mp (List.mem_dedup.mp ((hc.setOrder_perm _).subset hid)) with h | h
  · exact hslow modelId h
  · obtain ⟨a, ha, h⟩ := List.mem_flatMap.mp h
    obtain ⟨p, -, hm, rfl, -⟩ := hok.group.lookup (hok.keys.symm ▸ hslow a ha)
    rw [hc.inputs_eq hm] at h
    rcases List.mem_append.mp h with h | h
    · obtain ⟨m, hm', rfl⟩ := List.mem_map.mp (hc.inputs_mem _ _ ⟨p.model, hm, rfl, h⟩)
      exact hall m hm' hpos
    · obtain ⟨m, hm', rfl⟩ := List.mem_map.mp h
      exact hall m (List.mem_of_mem_filter hm') hpos

theorem tryPlan_total (hc : c.WellFormed) (hok : SelectionOk c ids s) (horder : CostOrder c ids)
    {modelId gpuNow : Nat} (hid : modelId ∈ ids) {p : Plan} (hp : p ∈ c.execPlans modelId) :
    ∃ found', c.tryPlan last w s modelId gpuNow found p = some found' := by
  obtain ⟨q, hq, hm, rfl, -⟩ := hok.group.lookup (hok.keys ▸ hid)
  obtain ⟨hmodel, -, -⟩ := hc.plans q.model hm p hp
  have hin : p.model.modelId ∈ Dict.keys s.plans := hmodel ▸ hok.keys ▸ hid
  have hgroup := hok.group.set (p := p) (hmodel ▸ hm) (hmodel ▸ hp)
  have hkeys := Dict.keys_set_of_mem (a := p) hin
  obtain ⟨costs, hcosts⟩ :=
    (compModelCosts_spec (w := w) hc hgroup).1 ((hkeys.trans hok.keys).symm ▸ horder)
  obtain ⟨-, hcostsOk⟩ := (compModelCosts_spec hc hgroup).2 costs hcosts
  rw [hmodel] at hcosts hcostsOk hkeys hin
  have hkey : q.model.modelId ∈ c.sortedModelIds (Dict.set q.model.modelId p s.plans) :=
    (sortedModelIds_perm c _).symm.subset (hkeys ▸ hin)
  obtain ⟨-, t, -, -, ht, -⟩ := hcostsOk.cost _ hkey
  have hvalues : costs.cost.map Prod.snd ≠ [] :=
    List.ne_nil_of_mem (List.mem_map_of_mem (f := Prod.snd) (Dict.mem_of_lookup ht))
  obtain ⟨maxCost, hmax⟩ := Option.isSome_iff_exists.mp (List.isSome_max?_of_ne_nil hvalues)
  obtain ⟨costNow, hnow⟩ := Option.ne_none_iff_exists'.mp fun hnone =>
    Dict.lookup_eq_none.mp hnone ((hok.costs _).mpr hid)
  refine ⟨Dict.set p ⟨maxCost, t, gpuNow, costNow⟩ found, ?_⟩
  rw [Rule.tryPlan, hcosts]
  simp only [Option.bind_eq_bind, Option.bind_some, hmax, ht, hnow]
  rfl

/-- A step returns if every model with work left is in the group and the costs can be computed. -/
theorem selectBestPlan_total (hc : c.WellFormed) (hok : SelectionOk c ids s)
    (horder : CostOrder c ids) (hne : ids ≠ [])
    (hall : ∀ m ∈ c.models, 0 < w m.modelId → m.modelId ∈ ids) :
    ∃ best, c.selectBestPlan last w s = some best := by
  have hvalues : s.costs.map Prod.snd ≠ [] := by
    obtain ⟨modelId, hid⟩ := List.exists_mem_of_ne_nil ids hne
    obtain ⟨e, he, -⟩ := List.mem_map.mp ((hok.costs modelId).mpr hid)
    exact List.ne_nil_of_mem (List.mem_map_of_mem (f := Prod.snd) he)
  obtain ⟨maxCost, hmax⟩ := Option.isSome_iff_exists.mp (List.isSome_max?_of_ne_nil hvalues)
  obtain ⟨found, hfound, -⟩ : ∃ found,
      c.planCosts last w s (c.modelIdsToCheck w s maxCost) = some found ∧ True := by
    refine foldlM_total (P := fun _ => True) (fun modelId hid t _ => ?_) trivial
    have hid := modelIdsToCheck_subset hc hok hall hid
    obtain ⟨q, hq, -⟩ := hok.group.lookup (hok.keys ▸ hid)
    obtain ⟨tp, ha⟩ := (hok.allocation modelId).1 q hq
    rw [ha]
    refine foldlM_total (P := fun _ => True) (fun p hp t' _ => ?_) trivial
    obtain ⟨found', h⟩ := tryPlan_total hc hok horder hid (List.mem_of_mem_filter hp)
    exact ⟨found', h, trivial⟩
  rw [Rule.selectBestPlan, hmax, Option.bind_eq_bind, Option.bind_some, hfound]
  simp only [Option.bind_eq_bind, Option.bind_some]
  cases hbest : bestPlan maxCost found with
  | none => exact ⟨none, rfl⟩
  | some e =>
    obtain ⟨hm, hp, ⟨tp, ha⟩, -⟩ := planCosts_inv hc hok hfound _ (bestPlan_mem hbest)
    obtain ⟨q, hq, -⟩ := hok.lookup ha
    have hkeys := Dict.keys_set_of_mem (a := e.1) (Dict.mem_keys_of_lookup hq)
    have hcosts : ∃ costs,
        c.compModelCosts last w (Dict.set e.1.model.modelId e.1 s.plans) = some costs :=
      (compModelCosts_spec hc (hok.group.set hm hp)).1 ((hkeys.trans hok.keys).symm ▸ horder)
    obtain ⟨costs, hcosts⟩ := hcosts
    simp only [hcosts, Option.bind_some]
    exact ⟨_, rfl⟩

/-- The loop ends: every step takes GPUs. -/
theorem selectPlans_total (hc : c.WellFormed) {fuel : Nat} (hok : SelectionOk c ids s)
    (hfuel : s.remaining ≤ fuel) (horder : CostOrder c ids) (hne : ids ≠ [])
    (hall : ∀ m ∈ c.models, 0 < w m.modelId → m.modelId ∈ ids) :
    ∃ s', c.selectPlans last w fuel s = some s' := by
  induction fuel generalizing s with
  | zero =>
    rw [Rule.selectPlans, if_pos (Nat.le_zero.mp hfuel)]
    exact ⟨s, rfl⟩
  | succ fuel ih =>
    rw [Rule.selectPlans]
    split
    · exact ⟨s, rfl⟩
    · obtain ⟨best, hbest⟩ := selectBestPlan_total hc hok horder hne hall
      rw [hbest, Option.bind_eq_bind, Option.bind_some]
      cases best with
      | none => exact ⟨s, rfl⟩
      | some t =>
        obtain ⟨hok', hlt⟩ := hok.step hc hbest
        exact ih hok' (by omega)

end

end Mil.LightRule
