import Mil.Fusion.Quotient

/-!
# The order of the plans of a group

The models of a fused system depend on each other without cycles, and the inputs a plan has within
its group, which `_topological_sort` computes from the base models, are the inputs the edges of the
fused system give its model. So the loop of `_topological_sort` ends.
-/

set_option autoImplicit false

namespace Mil.Fusion

open Mil.Lib

section

variable {g : ModelGraph} {s : ModelSystem}

/-- A base model is in one model only. -/
theorem FusedSystem.unique (h : FusedSystem g s) {q m : ModelInfor} (hq : q ∈ s.models)
    (hm : m ∈ s.models) {b : Nat} (hbq : b ∈ q.baseModelIds) (hbm : b ∈ m.baseModelIds) : q = m := by
  have hnodup : (s.models.flatMap (·.baseModelIds)).Nodup := h.perm.nodup_iff.mpr g.ids_nodup
  have hsymm : Std.Symm (Function.onFun List.Disjoint fun m : ModelInfor => m.baseModelIds) :=
    ⟨fun _ _ h => h.symm⟩
  by_contra hne
  exact (List.nodup_flatMap.mp hnodup).2.forall hq hm hne hbq hbm

theorem FusedSystem.eq_of_modelId (h : FusedSystem g s) {q m : ModelInfor} (hq : q ∈ s.models)
    (hm : m ∈ s.models) (heq : q.modelId = m.modelId) : q = m :=
  List.inj_on_of_nodup_map h.ids_nodup hq hm heq

/-- The inputs of a model, as models. -/
theorem FusedSystem.input_iff (h : FusedSystem g s) {q m : ModelInfor} (hq : q ∈ s.models)
    (hm : m ∈ s.models) : q.modelId ∈ m.inputModelIds ↔
      q ≠ m ∧ ∃ a ∈ q.baseModelIds, ∃ b ∈ m.baseModelIds, g.Edge a b := by
  rw [h.mem_inputs m hm]
  constructor
  · rintro ⟨q', hq', heq, hrest⟩
    exact h.eq_of_modelId hq' hq heq ▸ hrest
  · exact fun hrest => ⟨q, hq, rfl, hrest⟩

/-- A step between two models is a path between their first base models. -/
theorem FusedSystem.acyclic (h : FusedSystem g s) : Acyclic fun q m : ModelInfor =>
    q ∈ s.models ∧ m ∈ s.models ∧ q.modelId ∈ m.inputModelIds := by
  refine g.acyclic.of_paths (·.baseModelIds.headD 0) fun q m ⟨hq, hm, hin⟩ => ?_
  obtain ⟨hne, a, ha, b, hb, hedge⟩ := (h.input_iff hq hm).mp hin
  rcases (h.grouped m hm).enters a b hb hedge with ham | hfirst
  · exact absurd (h.unique hq hm ha ham) hne
  · exact Relation.TransGen.tail' ((h.grouped q hq).reaches ha) hfirst

/-! ## Groups -/

/-- A plan group over the system: plans of different models. -/
structure PlanGroup {π : Type} (model : π → ModelInfor) (s : ModelSystem) (plans : List π) : Prop where
  mem : ∀ p ∈ plans, model p ∈ s.models
  nodup : (plans.map fun p => (model p).modelId).Nodup

variable {π : Type} {model : π → ModelInfor} {plans : List π}

theorem PlanGroup.eq_of_modelId (h : PlanGroup model s plans) {p q : π} (hp : p ∈ plans)
    (hq : q ∈ plans) (heq : (model p).modelId = (model q).modelId) : p = q :=
  List.inj_on_of_nodup_map h.nodup hp hq heq

/-- The base models of the group, each with the model it is part of. -/
theorem lookup_groupNodeMapping (hs : FusedSystem g s) (h : PlanGroup model s plans) {b k : Nat} :
    (groupNodeMapping model plans).lookup b = some k ↔
      ∃ p ∈ plans, b ∈ (model p).baseModelIds ∧ (model p).modelId = k := by
  have hbases : ((plans.map model).flatMap (·.baseModelIds)).Nodup := by
    refine List.nodup_flatMap.mpr ⟨fun m hm => ?_, ?_⟩
    · obtain ⟨p, hp, rfl⟩ := List.mem_map.mp hm
      have hnodup : (s.models.flatMap (·.baseModelIds)).Nodup := hs.perm.nodup_iff.mpr g.ids_nodup
      exact (List.nodup_flatMap.mp hnodup).1 _ (h.mem p hp)
    · rw [List.pairwise_map]
      refine (List.pairwise_map.mp h.nodup).imp_of_mem fun {p q} hp hq hne b hbp hbq => hne ?_
      rw [hs.unique (h.mem p hp) (h.mem q hq) hbp hbq]
  have hmap : groupNodeMapping model plans = basePairs (plans.map model) := by
    rw [← update_basePairs hbases, groupNodeMapping, basePairs, List.flatMap_map]
  rw [hmap, lookup_basePairs hbases]
  simp only [List.mem_map, exists_exists_and_eq_and]

/-- The inputs a plan has within its group are the inputs of its model that are in the group. -/
theorem mem_inpModelIdsThisStage (hs : FusedSystem g s) (h : PlanGroup model s plans) {p : π}
    (hp : p ∈ plans) {k : Nat} : k ∈ inpModelIdsThisStage model plans p ↔
      ∃ q ∈ plans, (model q).modelId = k ∧ k ∈ (model p).inputModelIds := by
  have hm := h.mem p hp
  rw [inpModelIdsThisStage, List.mem_dedup, List.mem_filterMap]
  constructor
  · rintro ⟨a, ha, hlook⟩
    obtain ⟨hout, b, hb, hedge⟩ := ((hs.grouped _ hm).inpBase a).mp ha
    obtain ⟨q, hq, haq, rfl⟩ := (lookup_groupNodeMapping hs h).mp hlook
    refine ⟨q, hq, rfl, (hs.input_iff (h.mem q hq) hm).mpr ⟨fun heq => ?_, a, haq, b, hb, hedge⟩⟩
    exact hout (heq ▸ haq)
  · rintro ⟨q, hq, rfl, hin⟩
    obtain ⟨hne, a, ha, b, hb, hedge⟩ := (hs.input_iff (h.mem q hq) hm).mp hin
    refine ⟨a, ((hs.grouped _ hm).inpBase a).mpr ⟨fun hap => ?_, b, hb, hedge⟩,
      (lookup_groupNodeMapping hs h).mpr ⟨q, hq, ha, rfl⟩⟩
    exact hne (hs.unique (h.mem q hq) hm ha hap)

/-- Every plan comes after the plans of its inputs. -/
def AfterInputs (model : π → ModelInfor) (plans sorted : List π) : Prop :=
  ∀ before p after, sorted = before ++ p :: after →
    ∀ q ∈ plans, (model q).modelId ∈ (model p).inputModelIds → q ∈ before

theorem topologicalSort_ok (hs : FusedSystem g s) (h : PlanGroup model s plans) :
    ∃ sorted inps, topologicalSort model plans = some (sorted, inps) ∧ sorted.Perm plans ∧
      AfterInputs model plans sorted := by
  have hpairs : Dict.update [] (plans.map fun p => ((model p).modelId, p)) =
      plans.map fun p => ((model p).modelId, p) :=
    Dict.update_eq_append (by rw [Dict.keys_map_pair]; exact h.nodup) (List.disjoint_nil_left _)
  have hvalues : (plans.map fun p => ((model p).modelId, p)).map Prod.snd = plans := by
    rw [List.map_map]
    exact List.map_id _
  have hinputs : ∀ p ∈ plans,
      inpModelIdsThisStage model plans p ⊆ plans.map fun p => (model p).modelId := by
    intro p hp k hk
    obtain ⟨q, hq, rfl, -⟩ := (mem_inpModelIdsThisStage hs h hp).mp hk
    exact List.mem_map_of_mem hq
  have hacyclic : Acyclic fun p q => p ∈ plans ∧ q ∈ plans ∧
      (model p).modelId ∈ inpModelIdsThisStage model plans q := by
    refine hs.acyclic.of_paths model fun p q ⟨hp, hq, hin⟩ => .single ?_
    obtain ⟨_, _, heq, hin'⟩ := (mem_inpModelIdsThisStage hs h hq).mp hin
    exact ⟨h.mem p hp, h.mem q hq, hin'⟩
  obtain ⟨sorted, hsorted, hperm, hfirst⟩ := sweeps_spec h.nodup hinputs hacyclic .nil
    (Nat.le_add_left _ _)
  have hdict : ∃ inps, (plans.mapM fun p => do
      let inps ← (inpModelIdsThisStage model plans p).mapM fun modelId =>
        (plans.map fun p => ((model p).modelId, p)).lookup modelId
      pure (p, inps)) = some inps := by
    refine exists_mapM fun p hp => ?_
    have hkeys : ∀ k ∈ inpModelIdsThisStage model plans p,
        ∃ q, (plans.map fun p => ((model p).modelId, p)).lookup k = some q := fun k hk => by
      refine Option.ne_none_iff_exists'.mp (mt Dict.lookup_eq_none.mp (not_not.mpr ?_))
      rw [Dict.keys_map_pair]
      exact hinputs p hp hk
    obtain ⟨qs, hqs⟩ := exists_mapM hkeys
    exact ⟨(p, qs), by rw [hqs]; rfl⟩
  obtain ⟨inps, hinps⟩ := hdict
  refine ⟨sorted, inps, ?_, hperm, ?_⟩
  · rw [topologicalSort, hpairs, hvalues]
    simp only [hinps, hsorted]
    rfl
  · intro before p after heq q hq hin
    have hp : p ∈ plans := hperm.subset (heq ▸ List.mem_append_right _ (.head _))
    obtain ⟨q', hq', hid⟩ := List.mem_map.mp (hfirst before p after heq
      ((mem_inpModelIdsThisStage hs h hp).mpr ⟨q, hq, rfl, hin⟩))
    have hmem : q' ∈ plans := hperm.subset (heq ▸ List.mem_append_left _ hq')
    exact h.eq_of_modelId hmem hq hid ▸ hq'

end

/-! ## The graph is kept -/

/-- What the new system has to be: a partition of the base models, each of whose models follows a
chain of edges, with the edges between different models, each once and without cycles. -/
structure KeepsGraph (g : ModelGraph) (s : ModelSystem) : Prop where
  partition : (s.models.flatMap (·.baseModelIds)).Perm g.ids
  chains : ∀ m ∈ s.models, m.baseModelIds ≠ [] ∧ m.baseModelIds.IsChain g.Edge
  inputs_nodup : ∀ m ∈ s.models, m.inputModelIds.Nodup
  inputs : ∀ m ∈ s.models, ∀ k, k ∈ m.inputModelIds ↔ ∃ q ∈ s.models, q.modelId = k ∧ q ≠ m ∧
    ∃ a ∈ q.baseModelIds, ∃ b ∈ m.baseModelIds, g.Edge a b
  acyclic : Acyclic fun q m : ModelInfor =>
    q ∈ s.models ∧ m ∈ s.models ∧ q.modelId ∈ m.inputModelIds

theorem FusedSystem.keepsGraph {g : ModelGraph} {s : ModelSystem} (h : FusedSystem g s) :
    KeepsGraph g s :=
  ⟨h.perm, fun m hm => ⟨(h.grouped m hm).ne_nil, (h.grouped m hm).linked⟩, h.inputs_nodup,
    h.mem_inputs, h.acyclic⟩

/-- The fusion of the models of a graph gives a system that keeps the graph, and the plans of any
group over it are sorted. -/
theorem fusion_keepsGraph (g : ModelGraph) :
    ∃ s s', baseSystem g.models g.outEdges = some s ∧
      s.fuseSimilarModelsInAChain g.nextId = some s' ∧ KeepsGraph g s' ∧
      ∀ (π : Type) (model : π → ModelInfor) (plans : List π), PlanGroup model s' plans →
        ∃ sorted inps, topologicalSort model plans = some (sorted, inps) ∧ sorted.Perm plans ∧
          AfterInputs model plans sorted := by
  obtain ⟨s, s', hs, hs', hfused⟩ := fuseSimilarModelsInAChain_ok g
  exact ⟨s, s', hs, hs', hfused.keepsGraph, fun _ _ _ hgroup => topologicalSort_ok hfused hgroup⟩

/-- Three refinement steps that all read the first answer and each other, and a judge of the last
two. -/
def refineGraph : ModelGraph where
  models := [⟨0, "draft", [0], [], [], false⟩, ⟨1, "refine", [1], [], [], false⟩,
    ⟨2, "refine", [2], [], [], false⟩, ⟨3, "refine", [3], [], [], false⟩,
    ⟨4, "judge", [4], [], [], false⟩]
  outEdges := [(0, [1, 2, 3]), (1, [2, 3]), (2, [3, 4]), (3, [4])]
  nextId := 5
  base := by decide
  ids_nodup := by decide
  ids_lt := by decide
  unfinished := by decide
  sources := by decide
  targets := by decide
  acyclic := .of_lt id fun a b ⟨e, he, ha, hb⟩ => by
    have hlt : ∀ e ∈ ([(0, [1, 2, 3]), (1, [2, 3]), (2, [3, 4]), (3, [4])] : EdgeDict),
        ∀ out ∈ e.2, e.1 < out := by decide
    exact ha ▸ hlt e he b hb

def draftModel : ModelInfor := ⟨0, "draft", [0], [], [], false⟩

def judgeModel : ModelInfor := ⟨4, "judge", [4], [5], [2, 3], false⟩

def refineModel : ModelInfor := ⟨5, "refine", [1, 2, 3], [0], [0], false⟩

/-- The steps become one model, and a group with the judge in front is sorted. -/
theorem fusion_keepsGraph_refine :
    ∃ s s', baseSystem refineGraph.models refineGraph.outEdges = some s ∧
      s.fuseSimilarModelsInAChain refineGraph.nextId = some s' ∧ KeepsGraph refineGraph s' ∧
      s'.models = [draftModel, judgeModel, refineModel] ∧
      ∃ sorted inps, topologicalSort id [judgeModel, refineModel, draftModel] = some (sorted, inps) ∧
        sorted.Perm [judgeModel, refineModel, draftModel] ∧
        AfterInputs id [judgeModel, refineModel, draftModel] sorted := by
  obtain ⟨s, s', hs, hs', hkeeps, hsort⟩ := fusion_keepsGraph refineGraph
  have hmodels : s'.models = [draftModel, judgeModel, refineModel] := by
    have hrun : ((baseSystem refineGraph.models refineGraph.outEdges).bind fun s =>
        s.fuseSimilarModelsInAChain refineGraph.nextId).map (·.models) =
        some [draftModel, judgeModel, refineModel] := by decide +kernel
    rw [hs, Option.bind_some, hs', Option.map_some] at hrun
    exact Option.some.inj hrun
  exact ⟨s, s', hs, hs', hkeeps, hmodels, hsort ModelInfor id _
    ⟨by rw [hmodels]; decide, by decide⟩⟩

end Mil.Fusion
