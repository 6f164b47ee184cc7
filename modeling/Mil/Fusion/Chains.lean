import Mathlib.Data.List.Chain
import Mil.Fusion.Graph

/-!
# The chains of the fusion

Every chain follows edges, and an input of one of its models from outside the chain is an input of
its first model (`Chain.Ok`): a model is accepted either because its only input is the last model of
the chain, or because its inputs are those of the first model together with the whole chain. The loop
over the levels keeps this and puts every model into one chain (`fuseLevels_spec`).
-/

set_option autoImplicit false

namespace Mil.Fusion

open Mil.Lib

/-! ## The condition -/

theorem meetVerticalFuseCondition_cases {toFuseInp modelIdsFused fusedModelInp : List Nat}
    (h : meetVerticalFuseCondition toFuseInp modelIdsFused fusedModelInp = true) :
    (∃ last, modelIdsFused.getLast? = some last ∧ toFuseInp = [last]) ∨
      toFuseInp.Perm (fusedModelInp ++ modelIdsFused) := by
  rw [meetVerticalFuseCondition, Bool.or_eq_true, Bool.and_eq_true, beq_iff_eq, beq_iff_eq,
    beq_iff_eq] at h
  rcases h with ⟨hone, hlast⟩ | hsorted
  · obtain ⟨last, rfl⟩ := List.length_eq_one_iff.mp hone
    exact .inl ⟨last, hlast.symm, rfl⟩
  · have hperm := List.perm_insertionSort (· ≤ ·) toFuseInp
    rw [hsorted] at hperm
    exact .inr (hperm.symm.trans (List.perm_insertionSort _ _))

/-! ## One chain -/

/-- What holds of a chain of base models. -/
structure Chain.Ok (g : ModelGraph) (c : Chain) : Prop where
  models : c.models ⊆ g.baseModels
  linked : c.ids.IsChain g.Edge
  enters : ∀ m ∈ c.models, ∀ i ∈ m.inputModelIds, i ∈ c.ids ∨ i ∈ c.first.inputModelIds

section

variable {g : ModelGraph} {c : Chain} {m : ModelInfor}

theorem ModelGraph.mem_inputModelIds (hm : m ∈ g.baseModels) {i : Nat} :
    i ∈ m.inputModelIds ↔ g.Edge i m.modelId := by
  rw [(ModelGraph.mem_baseModels hm).2.2.2, mem_inputsOf]

theorem Chain.Ok.single (hm : m ∈ g.baseModels) : Chain.Ok g ⟨m, []⟩ := by
  refine ⟨List.cons_subset.mpr ⟨hm, List.nil_subset _⟩, .singleton _, fun q hq i hi => .inr ?_⟩
  rw [Chain.models, List.mem_singleton] at hq
  exact hq ▸ hi

theorem Chain.ids_concat (c : Chain) (m : ModelInfor) :
    Chain.ids { c with rest := c.rest ++ [m] } = c.ids ++ [m.modelId] := by
  rw [Chain.ids, Chain.models, ← List.cons_append, List.map_append]
  rfl

/-- A model that is accepted has an edge from the last model of the chain, and no other inputs than
those of the chain and of its first model. -/
theorem Chain.accepted (h : c.Ok g) (hacc : c.accepts m = true) :
    (∀ last ∈ c.ids.getLast?, last ∈ m.inputModelIds) ∧
      ∀ i ∈ m.inputModelIds, i ∈ c.ids ∨ i ∈ c.first.inputModelIds := by
  rw [Chain.accepts, Bool.and_eq_true] at hacc
  obtain ⟨-, -, hbase, hinp⟩ := ModelGraph.mem_baseModels (h.models (.head _))
  rw [hbase, ← hinp] at hacc
  rcases meetVerticalFuseCondition_cases hacc.2 with ⟨last, hlast, heq⟩ | hperm
  · rw [hlast, heq]
    refine ⟨fun l hl => ?_, fun i hi => .inl ?_⟩
    · rw [Option.mem_some_iff.mp hl]
      exact List.mem_singleton_self l
    · rw [List.mem_singleton.mp hi]
      exact List.mem_of_getLast? hlast
  · refine ⟨fun l hl => ?_, fun i hi => ?_⟩
    · exact hperm.symm.subset (List.mem_append_right _ (List.mem_of_getLast? hl))
    · exact (List.mem_append.mp (hperm.subset hi)).symm

theorem Chain.Ok.concat (h : c.Ok g) (hm : m ∈ g.baseModels) (hacc : c.accepts m = true) :
    Chain.Ok g { c with rest := c.rest ++ [m] } := by
  obtain ⟨hlast, hinputs⟩ := Chain.accepted h hacc
  have hmodels : Chain.models { c with rest := c.rest ++ [m] } = c.models ++ [m] := rfl
  refine ⟨?_, ?_, ?_⟩
  · rw [hmodels]
    exact List.append_subset.mpr ⟨h.models, List.cons_subset.mpr ⟨hm, List.nil_subset _⟩⟩
  · rw [Chain.ids_concat]
    refine List.isChain_append.mpr ⟨h.linked, .singleton _, fun last hl b hb => ?_⟩
    rw [← Option.mem_some_iff.mp hb]
    exact (ModelGraph.mem_inputModelIds hm).mp (hlast last hl)
  · intro q hq i hi
    rw [Chain.ids_concat]
    rw [hmodels] at hq
    rcases List.mem_append.mp hq with hq | hq
    · exact (h.enters q hq i hi).imp_left (List.mem_append_left _)
    · rw [List.mem_singleton.mp hq] at hi
      exact (hinputs i hi).imp_left (List.mem_append_left _)

end

/-! ## All chains -/

section

variable {g : ModelGraph} {chains : List Chain}

theorem fuseModel_spec (h : ∀ c ∈ chains, c.Ok g) {m : ModelInfor} (hm : m ∈ g.baseModels) :
    (∀ c ∈ fuseModel m chains, c.Ok g) ∧
      ((fuseModel m chains).flatMap Chain.ids).Perm (chains.flatMap Chain.ids ++ [m.modelId]) := by
  induction chains with
  | nil =>
    refine ⟨fun c hc => ?_, .refl _⟩
    rw [List.mem_singleton.mp hc]
    exact .single hm
  | cons c chains ih =>
    obtain ⟨hc, hchains⟩ := List.forall_mem_cons.mp h
    rw [fuseModel]
    by_cases hacc : c.accepts m = true
    · rw [if_pos hacc]
      refine ⟨List.forall_mem_cons.mpr ⟨hc.concat hm hacc, hchains⟩, ?_⟩
      rw [List.flatMap_cons, List.flatMap_cons, Chain.ids_concat, List.append_assoc,
        List.append_assoc]
      exact List.perm_append_comm.append_left _
    · rw [if_neg hacc]
      obtain ⟨hok, hperm⟩ := ih hchains
      refine ⟨List.forall_mem_cons.mpr ⟨hc, hok⟩, ?_⟩
      rw [List.flatMap_cons, List.flatMap_cons, List.append_assoc]
      exact hperm.append_left _

/-- All models of a level. -/
theorem foldl_fuseModel_spec (h : ∀ c ∈ chains, c.Ok g) {models : List ModelInfor}
    (hmodels : models ⊆ g.baseModels) :
    (∀ c ∈ models.foldl (fun chains m => fuseModel m chains) chains, c.Ok g) ∧
      ((models.foldl (fun chains m => fuseModel m chains) chains).flatMap Chain.ids).Perm
        (chains.flatMap Chain.ids ++ models.map (·.modelId)) := by
  induction models generalizing chains with
  | nil => exact ⟨h, by rw [List.map_nil, List.append_nil, List.foldl_nil]⟩
  | cons m models ih =>
    obtain ⟨hm, hmodels⟩ := List.cons_subset.mp hmodels
    obtain ⟨hok, hperm⟩ := fuseModel_spec h hm
    obtain ⟨hok', hperm'⟩ := ih hok hmodels
    refine ⟨hok', hperm'.trans ((hperm.append_right _).trans (.of_eq ?_))⟩
    rw [List.append_assoc, List.singleton_append, List.map_cons]

theorem getModelsAtGivenLevel_ok {s : ModelSystem} (hs : s.models = g.baseModels)
    {level : List Nat} (hlevel : level ⊆ g.ids) :
    ∃ models, s.getModelsAtGivenLevel level = some models ∧ models ⊆ g.baseModels ∧
      models.map (·.modelId) = level := by
  induction level with
  | nil => exact ⟨[], rfl, List.nil_subset _, rfl⟩
  | cons modelId level ih =>
    obtain ⟨hid, hlevel⟩ := List.cons_subset.mp hlevel
    obtain ⟨models, hmodels, hsub, hmap⟩ := ih hlevel
    rw [← ModelGraph.map_modelId_baseModels] at hid
    obtain ⟨q, hq, hqid⟩ := List.mem_map.mp hid
    have hsome : (s.models.find? (·.modelId = modelId)).isSome :=
      List.find?_isSome.mpr ⟨q, hs ▸ hq, decide_eq_true hqid⟩
    obtain ⟨m, hm⟩ := Option.isSome_iff_exists.mp hsome
    have hmid := List.find?_some hm
    rw [decide_eq_true_eq] at hmid
    refine ⟨m :: models, ?_, List.cons_subset.mpr ⟨hs ▸ List.mem_of_find?_eq_some hm, hsub⟩, ?_⟩
    · rw [ModelSystem.getModelsAtGivenLevel] at hmodels ⊢
      rw [List.mapM_cons, hm, hmodels]
      rfl
    · rw [List.map_cons, hmap, hmid]

/-- The loop over the levels. -/
theorem fuseLevels_spec {s : ModelSystem} (hs : s.models = g.baseModels)
    {levels : List (List Nat)} (hne : ∀ level ∈ levels, level ≠ [])
    (hlevels : ∀ level ∈ levels, level ⊆ g.ids) (h : ∀ c ∈ chains, c.Ok g) :
    ∃ chains', s.fuseLevels levels chains = some chains' ∧ (∀ c ∈ chains', c.Ok g) ∧
      (chains'.flatMap Chain.ids).Perm (chains.flatMap Chain.ids ++ levels.flatten) := by
  induction levels generalizing chains with
  | nil => exact ⟨chains, rfl, h, by rw [List.flatten_nil, List.append_nil]⟩
  | cons level levels ih =>
    obtain ⟨hlne, hne⟩ := List.forall_mem_cons.mp hne
    obtain ⟨hlevel, hlevels⟩ := List.forall_mem_cons.mp hlevels
    obtain ⟨models, hmodels, hsub, hmap⟩ := getModelsAtGivenLevel_ok hs hlevel
    have hmne : models ≠ [] := fun hnil => hlne (by rw [← hmap, hnil, List.map_nil])
    obtain ⟨hok, hperm⟩ := foldl_fuseModel_spec h hsub
    obtain ⟨chains', hchains', hok', hperm'⟩ := ih hne hlevels hok
    refine ⟨chains', ?_, hok', hperm'.trans ((hperm.append_right _).trans (.of_eq ?_))⟩
    · rw [ModelSystem.fuseLevels, hmodels, ← hchains']
      exact if_neg hmne
    · rw [hmap, List.append_assoc, List.flatten_cons]

end

end Mil.Fusion
