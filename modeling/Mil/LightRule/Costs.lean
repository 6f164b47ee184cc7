import Mathlib.Algebra.Order.Field.Basic
import Mathlib.Data.Nat.Cast.Order.Ring
import Mil.Lib.Topological
import Mil.LightRule.Rule

/-!
# The costs of a plan group

The costs are computed in the order of `sortedModelIds`, and the cost of a model reads the cost of its
first input if that is in the group. So they can be computed exactly when every first input in the
group comes before the models it feeds (`CostOrder`); then the cost of a model is at least its own
time and at least the cost of its first input (`CostsOk`).
-/

set_option autoImplicit false

namespace Mil.LightRule

open Mil.Lib

/-! ## Rules and plan groups -/

/-- The edges of the model graph. -/
def Rule.Edge (c : Rule) (a b : Nat) : Prop := ∃ m ∈ c.models, m.modelId = b ∧ a ∈ m.inputModelIds

/-- An acyclic graph of models, each of whose smallest plans, which `min_gpu_num_dict` gives, fits;
positive throughputs and average output lengths, and loading costs that are not negative. -/
structure Rule.WellFormed (c : Rule) : Prop where
  ne_nil : c.models ≠ []
  ids_nodup : (c.models.map (·.modelId)).Nodup
  inputs_mem : ∀ a b, c.Edge a b → a ∈ c.models.map (·.modelId)
  acyclic : Acyclic c.Edge
  plans : ∀ m ∈ c.models, ∀ p ∈ c.execPlans m.modelId,
    p.model = m ∧ 0 < p.numWorker ∧ 0 < p.dpSize
  smallest_mem : ∀ m ∈ c.models, ∃ p ∈ c.execPlans m.modelId,
    (p.gpuNum, p.numWorker) = c.minGpuNum m.modelName
  smallest_le : ∀ m ∈ c.models, ∀ p ∈ c.execPlans m.modelId,
    (c.minGpuNum m.modelName).1 ≤ p.gpuNum
  smallest_fits : ∀ m ∈ c.models, (c.minGpuNum m.modelName).1 ≤ c.totGpuNum
  tokens_pos : ∀ name tp, 0 < c.tokenPerSecs name tp
  prepare_nonneg : ∀ p, 0 ≤ c.prepareCost p
  avgOutlen_pos : ∀ modelId, 0 < c.avgOutlen modelId
  setOrder_perm : ∀ l, (c.setOrder l).Perm l.dedup

/-- Plans of different models of the system. -/
structure GroupOk (c : Rule) (plans : PlanDict) : Prop where
  keys_nodup : (Dict.keys plans).Nodup
  plan : ∀ e ∈ plans, e.2.model ∈ c.models ∧ e.2.model.modelId = e.1 ∧ e.2 ∈ c.execPlans e.1

section

variable {c : Rule} {plans last : PlanDict} {w : Nat → ℚ}

theorem Rule.WellFormed.eq_of_modelId (hc : c.WellFormed) {m q : ModelInfor} (hm : m ∈ c.models)
    (hq : q ∈ c.models) (h : m.modelId = q.modelId) : m = q :=
  List.inj_on_of_nodup_map hc.ids_nodup hm hq h

theorem Rule.WellFormed.inputs_eq (hc : c.WellFormed) {m : ModelInfor} (hm : m ∈ c.models) :
    c.inputs m.modelId = m.inputModelIds := by
  have hsome : (c.models.find? (·.modelId = m.modelId)).isSome :=
    List.find?_isSome.mpr ⟨m, hm, decide_eq_true rfl⟩
  obtain ⟨q, hq⟩ := Option.isSome_iff_exists.mp hsome
  have hid := List.find?_some hq
  rw [decide_eq_true_eq] at hid
  rw [Rule.inputs, hq, Option.map_some, Option.getD_some,
    hc.eq_of_modelId (List.mem_of_find?_eq_some hq) hm hid]

theorem Rule.WellFormed.not_self_input (hc : c.WellFormed) {m : ModelInfor} (hm : m ∈ c.models) :
    m.modelId ∉ m.inputModelIds :=
  fun h => hc.acyclic.irrefl m.modelId ⟨m, hm, rfl, h⟩

theorem Rule.WellFormed.throughput_pos (hc : c.WellFormed) {m : ModelInfor} (hm : m ∈ c.models)
    {p : Plan} (hp : p ∈ c.execPlans m.modelId) : 0 < c.throughput p := by
  obtain ⟨-, hw, hd⟩ := hc.plans m hm p hp
  refine mul_pos (hc.tokens_pos _ _) (div_pos ?_ (Nat.cast_pos.mpr hw))
  exact Nat.cast_pos.mpr (Nat.mul_pos hw hd)

/-- The plan of a model in a group. -/
theorem GroupOk.lookup (h : GroupOk c plans) {modelId : Nat} (hid : modelId ∈ Dict.keys plans) :
    ∃ p, plans.lookup modelId = some p ∧ p.model ∈ c.models ∧ p.model.modelId = modelId ∧
      p ∈ c.execPlans modelId := by
  obtain ⟨e, he, rfl⟩ := List.mem_map.mp hid
  exact ⟨e.2, Dict.lookup_of_mem h.keys_nodup he, h.plan e he⟩

theorem sortedModelIds_perm (c : Rule) (plans : PlanDict) :
    (c.sortedModelIds plans).Perm (Dict.keys plans) := List.perm_insertionSort _ _

/-! ## The order of the costs -/

/-- Every first input that is among the models `ids` comes, in the order by the number of inputs,
before the models it feeds. -/
def CostOrder (c : Rule) (ids : List Nat) : Prop :=
  ∀ before modelId after,
    (ids.insertionSort fun a b => (c.inputs a).length ≤ (c.inputs b).length) =
      before ++ modelId :: after →
    ∀ inp, (c.inputs modelId).head? = some inp → inp ∈ ids → inp ∈ before

/-- The costs of the models in `done`. -/
structure CostsOk (c : Rule) (last plans : PlanDict) (w : Nat → ℚ) (done : List Nat) (costs : Costs) :
    Prop where
  keys_cost : Dict.keys costs.cost = done
  keys_extra : Dict.keys costs.extra = done
  cost : ∀ modelId ∈ done, ∃ p t e, plans.lookup modelId = some p ∧
    costs.cost.lookup modelId = some t ∧ costs.extra.lookup modelId = some e ∧ 0 ≤ e ∧
    w modelId / c.throughput p + e ≤ t ∧
    ∀ inp, (c.inputs modelId).head? = some inp → inp ∈ Dict.keys plans →
      ∃ t', costs.cost.lookup inp = some t' ∧ t' ≤ t

theorem CostsOk.nil : CostsOk c last plans w [] ⟨[], []⟩ :=
  ⟨rfl, rfl, fun _ h => absurd h List.not_mem_nil⟩

/-- The costs of one more model. -/
theorem CostsOk.concat {done : List Nat} {costs costs' : Costs}
    (h : CostsOk c last plans w done costs) {modelId : Nat} (hnew : modelId ∉ done) {p : Plan}
    {t e : ℚ} (hp : plans.lookup modelId = some p) (hkeys : Dict.keys costs'.cost = done ++ [modelId])
    (hcost : ∀ k, costs'.cost.lookup k = if k = modelId then some t else costs.cost.lookup k)
    (hextra : costs'.extra = Dict.set modelId e costs.extra) (hnonneg : 0 ≤ e)
    (hown : w modelId / c.throughput p + e ≤ t)
    (hinp : ∀ inp, (c.inputs modelId).head? = some inp → inp ∈ Dict.keys plans →
      ∃ t', costs.cost.lookup inp = some t' ∧ t' ≤ t) :
    CostsOk c last plans w (done ++ [modelId]) costs' := by
  have hne : ∀ k, k ∈ done → k ≠ modelId := fun k hk heq => hnew (heq ▸ hk)
  have hmem : ∀ k t', costs.cost.lookup k = some t' → k ∈ done := fun k t' hk =>
    h.keys_cost ▸ Dict.mem_keys_of_lookup hk
  -- The costs that were there stay.
  have hold : ∀ k t', costs.cost.lookup k = some t' → costs'.cost.lookup k = some t' :=
    fun k t' hk => by rw [hcost, if_neg (hne k (hmem k t' hk)), hk]
  refine ⟨hkeys, ?_, fun k hk => ?_⟩
  · rw [hextra, Dict.keys_set_of_not_mem (h.keys_extra ▸ hnew), h.keys_extra]
  · rcases List.mem_append.mp hk with hk | hk
    · obtain ⟨q, t', e', hq, ht', he', hrest, hle, hfirst⟩ := h.cost k hk
      refine ⟨q, t', e', hq, hold k t' ht', ?_, hrest, hle, fun inp hhead hin => ?_⟩
      · rw [hextra, Dict.lookup_set, if_neg (hne k hk), he']
      · obtain ⟨t'', ht'', hle'⟩ := hfirst inp hhead hin
        exact ⟨t'', hold inp t'' ht'', hle'⟩
    · obtain rfl := List.mem_singleton.mp hk
      refine ⟨p, t, e, hp, ?_, ?_, hnonneg, hown, fun inp hhead hin => ?_⟩
      · rw [hcost, if_pos rfl]
      · rw [hextra, Dict.lookup_set, if_pos rfl]
      · obtain ⟨t', ht', hle'⟩ := hinp inp hhead hin
        exact ⟨t', hold inp t' ht', hle'⟩

/-- The time to load the plan, if it is not running already. -/
def Rule.extraCost (c : Rule) (last : PlanDict) (modelId : Nat) (p : Plan) : ℚ :=
  if last.lookup modelId = some p then 0 else c.prepareCost p

/-- The time the model needs by itself. -/
def Rule.ownCost (c : Rule) (last : PlanDict) (w : Nat → ℚ) (modelId : Nat) (p : Plan) : ℚ :=
  w modelId / c.throughput p + c.extraCost last modelId p

theorem Rule.WellFormed.extraCost_nonneg (hc : c.WellFormed) (modelId : Nat) (p : Plan) :
    0 ≤ c.extraCost last modelId p := by
  rw [Rule.extraCost]
  split
  · exact le_refl 0
  · exact hc.prepare_nonneg p

/-- The dictionaries with the model's own time. -/
def Costs.own (costs : Costs) (c : Rule) (last : PlanDict) (w : Nat → ℚ) (modelId : Nat) (p : Plan) :
    Costs :=
  ⟨Dict.set modelId (c.ownCost last w modelId p) costs.cost,
    Dict.set modelId (c.extraCost last modelId p) costs.extra⟩

theorem compSingleModelCost_alone {costs : Costs} {modelId : Nat} {p : Plan}
    (hp : plans.lookup modelId = some p)
    (halone : ∀ inp, p.model.inputModelIds.head? = some inp → inp ∉ Dict.keys plans) :
    c.compSingleModelCost last w plans costs modelId = some (costs.own c last w modelId p) := by
  rw [Rule.compSingleModelCost, hp]
  cases hhead : p.model.inputModelIds.head? with
  | none => simp only [Option.bind_eq_bind, Option.bind_some, hhead]; rfl
  | some inp =>
    simp only [Option.bind_eq_bind, Option.bind_some, hhead, if_neg (halone inp hhead)]
    rfl

theorem compSingleModelCost_fed {costs : Costs} {modelId inp : Nat} {p : Plan}
    (hp : plans.lookup modelId = some p) (hhead : p.model.inputModelIds.head? = some inp)
    (hin : inp ∈ Dict.keys plans) (hne : inp ≠ modelId) :
    c.compSingleModelCost last w plans costs modelId = (costs.cost.lookup inp).map fun t =>
      if c.ownCost last w modelId p ≤ t then
        { costs.own c last w modelId p with
          cost := Dict.set modelId t (costs.own c last w modelId p).cost }
      else costs.own c last w modelId p := by
  rw [Rule.compSingleModelCost, hp]
  simp only [Option.bind_eq_bind, Option.bind_some, hhead, if_pos hin, Dict.lookup_set, if_neg hne]
  cases costs.cost.lookup inp <;> rfl

/-- One model: its cost can be computed if its first input is not in the group or has its cost. -/
theorem compSingleModelCost_spec (hc : c.WellFormed) (hg : GroupOk c plans) {done : List Nat}
    {costs : Costs} (h : CostsOk c last plans w done costs) {modelId : Nat}
    (hid : modelId ∈ Dict.keys plans) (hnew : modelId ∉ done) :
    (c.compSingleModelCost last w plans costs modelId = none ∧
      ∃ inp, (c.inputs modelId).head? = some inp ∧ inp ∈ Dict.keys plans ∧ inp ∉ done) ∨
    ∃ costs', c.compSingleModelCost last w plans costs modelId = some costs' ∧
      CostsOk c last plans w (done ++ [modelId]) costs' ∧
      ∀ inp, (c.inputs modelId).head? = some inp → inp ∈ Dict.keys plans → inp ∈ done := by
  obtain ⟨p, hp, hm, rfl, -⟩ := hg.lookup hid
  rw [hc.inputs_eq hm]
  have hinputs := hc.inputs_eq hm
  have hnonneg : 0 ≤ c.extraCost last p.model.modelId p := hc.extraCost_nonneg _ _
  have hkeys : Dict.keys (costs.own c last w p.model.modelId p).cost =
      done ++ [p.model.modelId] := by
    rw [Costs.own, Dict.keys_set_of_not_mem (h.keys_cost ▸ hnew), h.keys_cost]
  by_cases hfed : ∃ inp, p.model.inputModelIds.head? = some inp ∧ inp ∈ Dict.keys plans
  · obtain ⟨inp, hhead, hin⟩ := hfed
    have hne : inp ≠ p.model.modelId := fun heq =>
      hc.not_self_input hm (heq ▸ List.mem_of_head? hhead)
    rw [compSingleModelCost_fed hp hhead hin hne]
    by_cases hdone : inp ∈ done
    · obtain ⟨-, t, -, -, ht, -⟩ := h.cost inp hdone
      have hfirst : ∀ x, t ≤ x → ∀ inp', (c.inputs p.model.modelId).head? = some inp' →
          inp' ∈ Dict.keys plans → ∃ t', costs.cost.lookup inp' = some t' ∧ t' ≤ x := by
        intro x hx inp' heq _
        rw [hinputs, hhead] at heq
        exact ⟨t, Option.some.inj heq ▸ ht, hx⟩
      rw [ht, Option.map_some]
      refine .inr ⟨_, rfl, ?_, fun inp' heq _ => ?_⟩
      · by_cases hle : c.ownCost last w p.model.modelId p ≤ t
        · rw [if_pos hle]
          refine h.concat hnew hp ?_ (fun k => ?_) rfl hnonneg hle (hfirst t (le_refl t))
          · rw [Dict.keys_set_of_mem (hkeys ▸ List.mem_append_right _ (.head _)), hkeys]
          · rw [Dict.lookup_set, Costs.own, Dict.lookup_set]
            split <;> rfl
        · rw [if_neg hle]
          exact h.concat hnew hp hkeys (Dict.lookup_set _ _ _) rfl hnonneg (le_refl _)
            (hfirst _ (le_of_not_ge hle))
      · rw [hhead] at heq
        exact Option.some.inj heq ▸ hdone
    · have hnone : costs.cost.lookup inp = none :=
        Dict.lookup_eq_none.mpr (h.keys_cost.symm ▸ hdone)
      exact .inl ⟨by rw [hnone]; rfl, inp, hhead, hin, hdone⟩
  · have halone : ∀ inp, p.model.inputModelIds.head? = some inp → inp ∉ Dict.keys plans :=
      fun inp hhead hin => hfed ⟨inp, hhead, hin⟩
    refine .inr ⟨_, compSingleModelCost_alone hp halone, ?_,
      fun inp hhead hin => absurd hin (halone inp hhead)⟩
    exact h.concat hnew hp hkeys (Dict.lookup_set _ _ _) rfl hnonneg (le_refl _)
      fun inp hhead hin => absurd hin (halone inp (hinputs ▸ hhead))

/-- All models: the costs are there exactly when the order is right. -/
theorem compModelCosts_spec (hc : c.WellFormed) (hg : GroupOk c plans) :
    (CostOrder c (Dict.keys plans) → ∃ costs, c.compModelCosts last w plans = some costs) ∧
      ∀ costs, c.compModelCosts last w plans = some costs → CostOrder c (Dict.keys plans) ∧
        CostsOk c last plans w (c.sortedModelIds plans) costs := by
  have hnodup : (c.sortedModelIds plans).Nodup :=
    (sortedModelIds_perm c plans).nodup_iff.mpr hg.keys_nodup
  have hmem : ∀ id ∈ c.sortedModelIds plans, id ∈ Dict.keys plans :=
    fun id hid => (sortedModelIds_perm c plans).subset hid
  -- by induction on the models left, with the costs of those before them
  have hrun : ∀ rest done costs, c.sortedModelIds plans = done ++ rest →
      CostsOk c last plans w done costs →
      (CostOrder c (Dict.keys plans) →
        ∃ costs', rest.foldlM (c.compSingleModelCost last w plans) costs = some costs') ∧
      ∀ costs', rest.foldlM (c.compSingleModelCost last w plans) costs = some costs' →
        (∀ before id after, done ++ rest = before ++ id :: after → done.length ≤ before.length →
          ∀ inp, (c.inputs id).head? = some inp → inp ∈ Dict.keys plans → inp ∈ before) ∧
        CostsOk c last plans w (done ++ rest) costs' := by
    intro rest
    induction rest with
    | nil =>
      intro done costs hsplit h
      refine ⟨fun _ => ⟨costs, rfl⟩, fun costs' heq => ?_⟩
      obtain rfl := Option.some.inj heq
      rw [List.append_nil]
      refine ⟨fun before id after heq hle => ?_, h⟩
      rw [heq, List.length_append, List.length_cons] at hle
      omega
    | cons id rest ih =>
      intro done costs hsplit h
      have hid : id ∈ Dict.keys plans := hmem id (hsplit ▸ List.mem_append_right _ (.head _))
      have hnew : id ∉ done := by
        rw [hsplit] at hnodup
        exact fun hin => (List.nodup_append'.mp hnodup).2.2 hin (.head _)
      have hsplit' : c.sortedModelIds plans = (done ++ [id]) ++ rest := by
        rw [hsplit, List.append_assoc, List.singleton_append]
      rw [List.foldlM_cons]
      rcases compSingleModelCost_spec hc hg h hid hnew with ⟨hnone, inp, hhead, hin, hout⟩ |
        ⟨costs', hcosts', hok, hfirst⟩
      · rw [hnone]
        exact ⟨fun horder => absurd (horder done id rest hsplit inp hhead hin) hout,
          fun _ heq => by cases heq⟩
      · rw [hcosts']
        obtain ⟨hsome, hspec⟩ := ih (done ++ [id]) costs' hsplit' hok
        rw [List.append_assoc, List.singleton_append] at hspec
        refine ⟨hsome, fun costs'' heq => ?_⟩
        obtain ⟨horder, hok'⟩ := hspec costs'' heq
        refine ⟨fun before id' after hsplit'' hle inp hhead hin => ?_, hok'⟩
        by_cases hlen : done.length = before.length
        · obtain ⟨rfl, htail⟩ := List.append_inj hsplit'' hlen
          exact hfirst inp ((List.cons.inj htail).1 ▸ hhead) hin
        · refine horder before id' after hsplit'' ?_ inp hhead hin
          rw [List.length_append, List.length_singleton]
          omega
  obtain ⟨hsome, hspec⟩ := hrun (c.sortedModelIds plans) [] ⟨[], []⟩ rfl .nil
  refine ⟨hsome, fun costs heq => ?_⟩
  obtain ⟨horder, hok⟩ := hspec costs heq
  exact ⟨fun before id after hsplit => horder before id after hsplit (Nat.zero_le _), hok⟩

end

end Mil.LightRule
