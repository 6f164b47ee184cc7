import Mil.Fusion.Rewire
import Mil.Lib.Allocation

/-!
# Vertical fusion keeps the model graph

The fused system groups the base models into chains, its edges are the edges between the groups, and
they are acyclic: a step from one group to another leads from a model its first model reaches to the
first model of the other. So the plans of any group can be sorted.
-/

set_option autoImplicit false

namespace Mil.Fusion

open Mil.Lib

/-! ## Groups of base models -/

/-- A model of the new system: a chain of base models, which is entered at its first one. -/
structure Grouped (g : ModelGraph) (m : ModelInfor) : Prop where
  ne_nil : m.baseModelIds ≠ []
  linked : m.baseModelIds.IsChain g.Edge
  enters : ∀ a b, b ∈ m.baseModelIds → g.Edge a b →
    a ∈ m.baseModelIds ∨ g.Edge a (m.baseModelIds.headD 0)
  inpBase : ∀ i, i ∈ m.inpBaseModelIds ↔ i ∉ m.baseModelIds ∧ ∃ b ∈ m.baseModelIds, g.Edge i b

section

variable {g : ModelGraph} {m : ModelInfor} {c : Chain}

theorem Grouped.reaches (h : Grouped g m) {b : Nat} (hb : b ∈ m.baseModelIds) :
    Relation.ReflTransGen g.Edge (m.baseModelIds.headD 0) b := by
  refine List.IsChain.induction (Relation.ReflTransGen g.Edge (m.baseModelIds.headD 0))
    m.baseModelIds h.linked (fun _ _ hedge hx => hx.tail hedge) (fun hne => ?_) b hb
  rw [List.headD_eq_head?_getD, List.head?_eq_some_head hne, Option.getD_some]

theorem grouped_base (hm : m ∈ g.baseModels) : Grouped g m := by
  obtain ⟨hbase, -, hinp, -⟩ := ModelGraph.mem_baseModels hm
  refine ⟨?_, ?_, ?_, ?_⟩
  · rw [hbase]
    exact List.cons_ne_nil _ _
  · rw [hbase]
    exact .singleton _
  · intro a b hb hedge
    rw [hbase, List.mem_singleton] at hb
    rw [hbase]
    exact .inr (hb ▸ hedge)
  · intro i
    rw [hinp, mem_inputsOf, hbase]
    simp only [List.mem_singleton, exists_eq_left, iff_and_self]
    rintro hedge rfl
    exact g.acyclic.irrefl _ hedge

theorem mem_outsideIds {ids own : List Nat} {i : Nat} :
    i ∈ outsideIds ids own ↔ i ∉ own ∧ i ∈ ids := by
  rw [outsideIds, List.mem_insertionSort, List.mem_dedup, List.mem_filter, decide_eq_true_eq,
    and_comm]

theorem grouped_fused (h : c.Ok g) (modelId : Nat) :
    Grouped g (fusedModelInfor modelId c.first c.rest) := by
  have hbase : (fusedModelInfor modelId c.first c.rest).baseModelIds = c.ids := rfl
  refine ⟨List.cons_ne_nil _ _, h.linked, ?_, ?_⟩
  · intro a b hb hedge
    rw [hbase] at hb ⊢
    obtain ⟨m, hm, rfl⟩ := List.mem_map.mp hb
    have hin := (ModelGraph.mem_inputModelIds (h.models hm)).mpr hedge
    exact (h.enters m hm a hin).imp_right
      (ModelGraph.mem_inputModelIds (h.models (.head _))).mp
  · intro i
    rw [hbase]
    have hinp : (fusedModelInfor modelId c.first c.rest).inpBaseModelIds =
        outsideIds (c.models.flatMap (·.inpBaseModelIds)) c.ids := rfl
    rw [hinp, mem_outsideIds, and_congr_right_iff, List.mem_flatMap]
    intro _
    constructor
    · rintro ⟨m, hm, hin⟩
      rw [(ModelGraph.mem_baseModels (h.models hm)).2.2.1, mem_inputsOf] at hin
      exact ⟨m.modelId, List.mem_map_of_mem hm, hin⟩
    · rintro ⟨b, hb, hedge⟩
      obtain ⟨m, hm, rfl⟩ := List.mem_map.mp hb
      refine ⟨m, hm, ?_⟩
      rwa [(ModelGraph.mem_baseModels (h.models hm)).2.2.1, mem_inputsOf]

end

/-! ## The fused models -/

/-- What the list of the fused models is. -/
structure FusedObjs (g : ModelGraph) (nextId : Nat) (chains : List Chain) (fused : List ModelInfor) :
    Prop where
  grouped : ∀ f ∈ fused, Grouped g f
  sublist : (fused.flatMap (·.baseModelIds)).Sublist (chains.flatMap Chain.ids)
  le : ∀ f ∈ fused, nextId ≤ f.modelId
  ids_nodup : (fused.map (·.modelId)).Nodup

theorem fusedModelObjs_spec {g : ModelGraph} {chains : List Chain} (h : ∀ c ∈ chains, c.Ok g)
    (nextId : Nat) : FusedObjs g nextId chains (fusedModelObjs nextId chains) := by
  induction chains generalizing nextId with
  | nil => exact ⟨by simp [fusedModelObjs], .refl _, by simp [fusedModelObjs], List.nodup_nil⟩
  | cons c chains ih =>
    obtain ⟨hc, hchains⟩ := List.forall_mem_cons.mp h
    rw [fusedModelObjs]
    by_cases hrest : c.rest = []
    · rw [if_pos hrest]
      obtain ⟨hgrouped, hsub, hle, hnodup⟩ := ih hchains nextId
      exact ⟨hgrouped, hsub.trans (List.sublist_append_right _ _), hle, hnodup⟩
    · rw [if_neg hrest]
      obtain ⟨hgrouped, hsub, hle, hnodup⟩ := ih hchains (nextId + 1)
      refine ⟨List.forall_mem_cons.mpr ⟨grouped_fused hc nextId, hgrouped⟩, ?_, ?_, ?_⟩
      · rw [List.flatMap_cons, List.flatMap_cons]
        exact hsub.append_left _
      · exact List.forall_mem_cons.mpr ⟨Nat.le_refl _, fun f hf => Nat.le_of_succ_le (hle f hf)⟩
      · rw [List.map_cons]
        refine List.nodup_cons.mpr ⟨fun hmem => ?_, hnodup⟩
        obtain ⟨f, hf, heq⟩ := List.mem_map.mp hmem
        have hlt := hle f hf
        rw [heq] at hlt
        exact absurd hlt (Nat.not_succ_le_self nextId)

/-! ## The new system -/

/-- The system the fusion gives: a partition of the base models into chains, with the edges between
the chains. -/
structure FusedSystem (g : ModelGraph) (s : ModelSystem) : Prop where
  ids_nodup : (s.models.map (·.modelId)).Nodup
  grouped : ∀ m ∈ s.models, Grouped g m
  perm : (s.models.flatMap (·.baseModelIds)).Perm g.ids
  inputs_nodup : ∀ m ∈ s.models, m.inputModelIds.Nodup
  mem_inputs : ∀ m ∈ s.models, ∀ k, k ∈ m.inputModelIds ↔ ∃ q ∈ s.models, q.modelId = k ∧
    q ≠ m ∧ ∃ a ∈ q.baseModelIds, ∃ b ∈ m.baseModelIds, g.Edge a b

section

variable {g : ModelGraph} {nextId : Nat} {chains : List Chain} {fused : List ModelInfor}

/-- The models of the new system before its edges: those that are not part of a fused one, and the
fused ones. -/
def groupedModels (g : ModelGraph) (fused : List ModelInfor) : List ModelInfor :=
  g.baseModels.filter (·.modelId ∉ Dict.keys (basePairs fused)) ++ fused

/-- What a base model is mapped to. -/
def newIdOf (fused : List ModelInfor) (b : Nat) : Nat := ((basePairs fused).lookup b).getD b

/-- The base model is in the group it is mapped to, and in no other. -/
theorem newIdOf_eq_iff (hnodup : (fused.flatMap (·.baseModelIds)).Nodup) {b k : Nat}
    (hb : b ∈ g.ids) :
    newIdOf fused b = k ↔ ∃ m ∈ groupedModels g fused, b ∈ m.baseModelIds ∧ m.modelId = k := by
  rw [newIdOf]
  cases hlook : (basePairs fused).lookup b with
  | some k' =>
    have hkey := Dict.mem_keys_of_lookup hlook
    obtain ⟨f, hf, hbf, rfl⟩ := (lookup_basePairs hnodup).mp hlook
    rw [Option.getD_some]
    constructor
    · exact fun h => ⟨f, List.mem_append_right _ hf, hbf, h⟩
    · rintro ⟨m, hm, hbm, rfl⟩
      rcases List.mem_append.mp hm with hm | hm
      · obtain ⟨hmem, hout⟩ := List.mem_filter.mp hm
        rw [(ModelGraph.mem_baseModels hmem).1, List.mem_singleton] at hbm
        exact absurd (hbm ▸ hkey) (of_decide_eq_true hout)
      · have := (lookup_basePairs hnodup).mpr ⟨m, hm, hbm, rfl⟩
        exact Option.some.inj (hlook.symm.trans this)
  | none =>
    have hkey := Dict.lookup_eq_none.mp hlook
    rw [Option.getD_none]
    constructor
    · rintro rfl
      rw [← ModelGraph.map_modelId_baseModels] at hb
      obtain ⟨m, hm, rfl⟩ := List.mem_map.mp hb
      refine ⟨m, List.mem_append_left _ (List.mem_filter.mpr ⟨hm, decide_eq_true hkey⟩), ?_, rfl⟩
      rw [(ModelGraph.mem_baseModels hm).1]
      exact List.mem_singleton_self _
    · rintro ⟨m, hm, hbm, rfl⟩
      rcases List.mem_append.mp hm with hm | hm
      · rw [(ModelGraph.mem_baseModels (List.mem_of_mem_filter hm)).1] at hbm
        exact List.mem_singleton.mp hbm
      · refine absurd ?_ hkey
        rw [keys_basePairs]
        exact List.mem_flatMap.mpr ⟨m, hm, hbm⟩

theorem groupedModels_ids_nodup (h : FusedObjs g g.nextId chains fused) :
    ((groupedModels g fused).map (·.modelId)).Nodup := by
  rw [groupedModels, List.map_append]
  refine List.nodup_append.mpr ⟨?_, h.ids_nodup, fun a ha b hb heq => ?_⟩
  · have hids : (g.baseModels.map (·.modelId)).Nodup :=
      ModelGraph.map_modelId_baseModels (g := g) ▸ g.ids_nodup
    exact hids.sublist (List.filter_sublist.map _)
  · obtain ⟨m, hm, rfl⟩ := List.mem_map.mp ha
    obtain ⟨f, hf, rfl⟩ := List.mem_map.mp hb
    have hlt := (ModelGraph.mem_baseModels (List.mem_of_mem_filter hm)).2.1
    have hle := h.le f hf
    rw [← heq] at hle
    exact absurd hlt (Nat.not_lt.mpr hle)

theorem flatMap_base {l : List ModelInfor} (h : l ⊆ g.baseModels) :
    l.flatMap (·.baseModelIds) = l.map (·.modelId) := by
  induction l with
  | nil => rfl
  | cons m l ih =>
    obtain ⟨hm, hl⟩ := List.cons_subset.mp h
    rw [List.flatMap_cons, ih hl, (ModelGraph.mem_baseModels hm).1]
    rfl

theorem groupedModels_perm (hnodup : (fused.flatMap (·.baseModelIds)).Nodup)
    (hsub : fused.flatMap (·.baseModelIds) ⊆ g.ids) :
    ((groupedModels g fused).flatMap (·.baseModelIds)).Perm g.ids := by
  have hkept : (g.baseModels.filter (·.modelId ∉ Dict.keys (basePairs fused))).flatMap
      (·.baseModelIds) = g.ids.filter (· ∉ fused.flatMap (·.baseModelIds)) := by
    rw [flatMap_base fun m hm => List.mem_of_mem_filter hm, ← ModelGraph.map_modelId_baseModels,
      List.filter_map, keys_basePairs]
    rfl
  rw [groupedModels, List.flatMap_append, hkept]
  exact List.perm_append_comm.trans (perm_append_filter_notMem hnodup g.ids_nodup hsub)

/-- A model with the inputs the edges give it. -/
def withInputs (outEdges : EdgeDict) (m : ModelInfor) : ModelInfor :=
  { m with inputModelIds := inputsOf outEdges m.modelId }

/-- Groups that partition the base models, with the edges rewired to them. -/
theorem FusedSystem.of_rewired {models : List ModelInfor} {new : EdgeDict} {target : Nat → Nat}
    (hids : (models.map (·.modelId)).Nodup) (hgrouped : ∀ m ∈ models, Grouped g m)
    (hperm : (models.flatMap (·.baseModelIds)).Perm g.ids) (h : Rewired g.outEdges new target)
    (htarget : ∀ b ∈ g.ids, ∀ k,
      target b = k ↔ ∃ m ∈ models, b ∈ m.baseModelIds ∧ m.modelId = k) :
    FusedSystem g ⟨models.map (withInputs new), new, []⟩ := by
  refine ⟨?_, ?_, ?_, ?_, ?_⟩
  · show ((models.map (withInputs new)).map (·.modelId)).Nodup
    rw [List.map_map]
    exact hids
  · intro m hm
    obtain ⟨q, hq, rfl⟩ := List.mem_map.mp hm
    obtain ⟨hne, hlinked, henters, hinp⟩ := hgrouped q hq
    exact ⟨hne, hlinked, henters, hinp⟩
  · show ((models.map (withInputs new)).flatMap (·.baseModelIds)).Perm g.ids
    rw [List.flatMap_map]
    exact hperm
  · intro m hm
    obtain ⟨q, hq, rfl⟩ := List.mem_map.mp hm
    exact h.nodup q.modelId
  · intro m' hm' k
    obtain ⟨m, hm, rfl⟩ := List.mem_map.mp hm'
    show k ∈ inputsOf new m.modelId ↔ _
    rw [mem_inputsOf, h.edge_iff]
    constructor
    · rintro ⟨hne, a, b, hedge, ha, hb⟩
      have hmem := ModelGraph.Edge.mem_ids hedge
      obtain ⟨q, hq, haq, rfl⟩ := (htarget a hmem.1 k).mp ha
      obtain ⟨m₂, hm₂, hbm, heq⟩ := (htarget b hmem.2 m.modelId).mp hb
      obtain rfl : m₂ = m := List.inj_on_of_nodup_map hids hm₂ hm heq
      exact ⟨withInputs new q, List.mem_map_of_mem hq, rfl,
        fun heq => hne (congrArg (·.modelId) heq), a, haq, b, hbm, hedge⟩
    · rintro ⟨q', hq', rfl, hne, a, ha, b, hb, hedge⟩
      obtain ⟨q, hq, rfl⟩ := List.mem_map.mp hq'
      have hmem := ModelGraph.Edge.mem_ids hedge
      refine ⟨fun heq => hne ?_, a, b, hedge, ?_, ?_⟩
      · rw [List.inj_on_of_nodup_map hids hq hm heq]
      · exact (htarget a hmem.1 _).mpr ⟨q, hq, ha, rfl⟩
      · exact (htarget b hmem.2 _).mpr ⟨m, hm, hb, rfl⟩

/-- The models are collected in a dictionary; no id comes twice. -/
theorem newModels_eq (h : FusedObjs g g.nextId chains fused) :
    (Dict.update
      ((g.baseModels.filter (·.modelId ∉ Dict.keys (basePairs fused))).map fun m => (m.modelId, m))
      (fused.map fun f => (f.modelId, f))).map Prod.snd = groupedModels g fused := by
  have hids := groupedModels_ids_nodup h
  rw [groupedModels, List.map_append] at hids
  obtain ⟨-, hfused, hdisjoint⟩ := List.nodup_append'.mp hids
  rw [Dict.update_eq_append, List.map_append, List.map_map, List.map_map, groupedModels]
  · exact congrArg₂ _ (List.map_id _) (List.map_id _)
  · rwa [Dict.keys_map_pair]
  · rwa [Dict.keys_map_pair, Dict.keys_map_pair]

/-- The new system is built, and is a quotient of the graph of the base models. -/
theorem genNewModelSysWithFusedModels_ok (h : FusedObjs g g.nextId chains fused)
    (hchains : (chains.flatMap Chain.ids).Perm g.ids) (levels : List (List Nat)) :
    ∃ s, (ModelSystem.mk g.baseModels g.outEdges levels).genNewModelSysWithFusedModels fused =
      some s ∧ FusedSystem g s := by
  have hbases : (fused.flatMap (·.baseModelIds)).Nodup :=
    (hchains.nodup_iff.mpr g.ids_nodup).sublist h.sublist
  have hsub : fused.flatMap (·.baseModelIds) ⊆ g.ids :=
    fun b hb => hchains.subset (h.sublist.subset hb)
  have hmapping := fusedNodeMapping_eq
    (fun m hm => (ModelGraph.mem_baseModels (g := g) hm).1) hbases
  have hlookup : ∀ b ∈ g.ids, (completeNodeMapping g.baseModels (basePairs fused)).lookup b =
      some (newIdOf fused b) := fun b hb => by
    rw [lookup_completeNodeMapping, if_pos (ModelGraph.map_modelId_baseModels ▸ hb)]
    rfl
  obtain ⟨new, hnew, hcollected⟩ := collectEdges_ok (newIdOf fused)
    (fun a b (hedge : g.Edge a b) => hlookup b (ModelGraph.Edge.mem_ids hedge).2)
    (fun e he => hlookup e.1 (g.sources e he))
  have hrewired := hcollected.rewired
  have htarget : ∀ b ∈ g.ids, ∀ k, newIdOf fused b = k ↔
      ∃ m ∈ groupedModels g fused, b ∈ m.baseModelIds ∧ m.modelId = k :=
    fun b hb k => newIdOf_eq_iff hbases hb
  have htargets : ∀ k j, Edge (new.map fun e => (e.1, e.2.filter (· ≠ e.1))) k j →
      j ∈ (groupedModels g fused).map (·.modelId) := by
    intro k j hedge
    obtain ⟨-, a, b, hab, -, rfl⟩ := (hrewired.edge_iff k j).mp hedge
    obtain ⟨m, hm, -, heq⟩ := (htarget b (ModelGraph.Edge.mem_ids hab).2 _).mp rfl
    exact heq ▸ List.mem_map_of_mem hm
  have hgrouped : ∀ m ∈ groupedModels g fused, Grouped g m := by
    intro m hm
    rcases List.mem_append.mp hm with hm | hm
    · exact grouped_base (List.mem_of_mem_filter hm)
    · exact h.grouped m hm
  refine ⟨_, ?_, FusedSystem.of_rewired (groupedModels_ids_nodup h) hgrouped
    (groupedModels_perm hbases hsub) hrewired htarget⟩
  calc (ModelSystem.mk g.baseModels g.outEdges levels).genNewModelSysWithFusedModels fused
      = modelSystem (groupedModels g fused) (new.map fun e => (e.1, e.2.filter (· ≠ e.1))) := by
        rw [ModelSystem.genNewModelSysWithFusedModels, hmapping]
        show ((collectEdges (completeNodeMapping g.baseModels (basePairs fused))
          g.outEdges).bind _) = _
        rw [hnew, ← newModels_eq h]
        rfl
    _ = _ := modelSystem_ok htargets

/-- With a single level the system stays as it is, because it has no edges. -/
theorem fusedSystem_base (hnone : ∀ m ∈ g.baseModels, m.inputModelIds = [])
    (levels : List (List Nat)) : FusedSystem g ⟨g.baseModels, g.outEdges, levels⟩ := by
  refine ⟨ModelGraph.map_modelId_baseModels (g := g) ▸ g.ids_nodup, fun m hm => grouped_base hm, ?_,
    ?_, ?_⟩
  · show (g.baseModels.flatMap (·.baseModelIds)).Perm g.ids
    rw [flatMap_base (List.Subset.refl _), ModelGraph.map_modelId_baseModels]
  · intro m hm
    rw [hnone m hm]
    exact List.nodup_nil
  · intro m hm k
    rw [hnone m hm]
    refine iff_of_false List.not_mem_nil ?_
    rintro ⟨q, hq, -, -, a, -, b, hb, hedge⟩
    rw [(ModelGraph.mem_baseModels hm).1, List.mem_singleton] at hb
    have := (ModelGraph.mem_inputModelIds hm).mpr (hb ▸ hedge)
    rw [hnone m hm] at this
    exact List.not_mem_nil this

end

/-- The fusion returns, and its result is a quotient of the graph. -/
theorem fuseSimilarModelsInAChain_ok (g : ModelGraph) :
    ∃ s s', baseSystem g.models g.outEdges = some s ∧
      s.fuseSimilarModelsInAChain g.nextId = some s' ∧ FusedSystem g s' := by
  obtain ⟨levels, hs, hperm, hne, hone⟩ := g.baseSystem_ok
  by_cases hsingle : levels.length = 1
  · exact ⟨_, _, hs, if_pos hsingle, fusedSystem_base (hone hsingle) levels⟩
  · have hlevels : ∀ level ∈ levels, level ⊆ g.ids := fun level hlevel i hi =>
      hperm.subset (List.mem_flatten.mpr ⟨level, hlevel, hi⟩)
    obtain ⟨chains, hchains, hok, hall⟩ := fuseLevels_spec
      (s := ⟨g.baseModels, g.outEdges, levels⟩) rfl hne hlevels
      (fun c (hc : c ∈ []) => absurd hc List.not_mem_nil)
    obtain ⟨s', hs', hfused⟩ := genNewModelSysWithFusedModels_ok
      (fusedModelObjs_spec hok g.nextId) (hall.trans hperm) levels
    refine ⟨_, s', hs, ?_, hfused⟩
    rw [ModelSystem.fuseSimilarModelsInAChain, if_neg hsingle, hchains]
    exact hs'

end Mil.Fusion
