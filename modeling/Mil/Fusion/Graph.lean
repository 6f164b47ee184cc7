import Mil.Fusion.System

/-!
# The graph of the base models and its levels

A model graph as a schedule gives it: base models with distinct ids, and acyclic edges between them.
Its system is built without an exception, every model is in exactly one level, and if there is only
one level then there are no edges (`ModelGraph.baseSystem_ok`).
-/

set_option autoImplicit false

namespace Mil.Fusion

open Mil.Lib

/-! ## Edges -/

/-- `out_edge_dict` has the edge. -/
def Edge (outEdges : EdgeDict) (a b : Nat) : Prop := ∃ e ∈ outEdges, e.1 = a ∧ b ∈ e.2

theorem mem_inputsOf {outEdges : EdgeDict} {a b : Nat} :
    a ∈ inputsOf outEdges b ↔ Edge outEdges a b := by
  simp only [inputsOf, Edge, List.mem_flatMap, List.mem_map, List.mem_filter, decide_eq_true_eq]
  constructor
  · rintro ⟨e, he, c, ⟨hc, rfl⟩, rfl⟩
    exact ⟨e, he, rfl, hc⟩
  · rintro ⟨e, he, rfl, hb⟩
    exact ⟨e, he, b, ⟨hb, rfl⟩, rfl⟩

theorem modelSystem_ok {models : List ModelInfor} {outEdges : EdgeDict}
    (h : ∀ a b, Edge outEdges a b → b ∈ models.map (·.modelId)) :
    modelSystem models outEdges = some
      ⟨models.map fun m => { m with inputModelIds := inputsOf outEdges m.modelId }, outEdges, []⟩ :=
  if_pos fun e he out hout => h e.1 out ⟨e, he, rfl, hout⟩

/-! ## Model graphs -/

/-- The base models and `out_edge_dict` of a schedule. The ids are taken from the counter
`_MODEL_ID`, which is at `nextId` afterwards. No model is finished, because the constructor of a model
divides by the number of its requests. -/
structure ModelGraph where
  models : List ModelInfor
  outEdges : EdgeDict
  nextId : Nat
  base : ∀ m ∈ models, m.baseModelIds = [m.modelId]
  ids_nodup : (models.map (·.modelId)).Nodup
  ids_lt : ∀ m ∈ models, m.modelId < nextId
  unfinished : ∀ m ∈ models, m.finished = false
  sources : ∀ e ∈ outEdges, e.1 ∈ models.map (·.modelId)
  targets : ∀ e ∈ outEdges, ∀ out ∈ e.2, out ∈ models.map (·.modelId)
  acyclic : Acyclic (Edge outEdges)

namespace ModelGraph

variable (g : ModelGraph)

abbrev Edge : Nat → Nat → Prop := Fusion.Edge g.outEdges

def ids : List Nat := g.models.map (·.modelId)

variable {g}

theorem Edge.mem_ids {a b : Nat} (h : g.Edge a b) : a ∈ g.ids ∧ b ∈ g.ids := by
  obtain ⟨e, he, rfl, hb⟩ := h
  exact ⟨g.sources e he, g.targets e he b hb⟩

end ModelGraph

/-! ## Levels -/

/-- The models the visited ones do not contain yet. -/
def unvisitedModels (models : List ModelInfor) (visited : List Nat) : List ModelInfor :=
  models.filter (·.modelId ∉ visited)

/-- The models of the next level, if none is finished. -/
def readyModels (models : List ModelInfor) (visited : List Nat) : List ModelInfor :=
  (unvisitedModels models visited).filter (·.inputModelIds ⊆ visited)

/-- What the levels of unfinished models are: together all that is not visited yet, none of them
empty, and the first one without unvisited inputs. -/
structure LevelsOf (models : List ModelInfor) (visited : List Nat) (levels : List (List Nat)) :
    Prop where
  perm : levels.flatten.Perm ((unvisitedModels models visited).map (·.modelId))
  ne_nil : ∀ level ∈ levels, level ≠ []
  first : ∀ level, levels.head? = some level → ∀ m ∈ models, m.modelId ∈ level →
    m.inputModelIds ⊆ visited

section

variable {models : List ModelInfor} {visited : List Nat}

theorem mem_unvisitedModels {m : ModelInfor} :
    m ∈ unvisitedModels models visited ↔ m ∈ models ∧ m.modelId ∉ visited := by
  rw [unvisitedModels, List.mem_filter, decide_eq_true_eq]

theorem mem_readyModels {m : ModelInfor} : m ∈ readyModels models visited ↔
    m ∈ models ∧ m.modelId ∉ visited ∧ m.inputModelIds ⊆ visited := by
  rw [readyModels, List.mem_filter, mem_unvisitedModels, decide_eq_true_eq, and_assoc]

theorem unvisitedModels_eq_nil :
    unvisitedModels models visited = [] ↔ ∀ m ∈ models, m.modelId ∈ visited := by
  simp [unvisitedModels, List.filter_eq_nil_iff]

theorem levelRounds_succ (hunfinished : ∀ m ∈ models, m.finished = false) {fuel : Nat}
    (hopen : unvisitedModels models visited ≠ []) (hready : readyModels models visited ≠ []) :
    levelRounds models (fuel + 1) visited =
      (levelRounds models fuel (visited ++ (readyModels models visited).map (·.modelId))).map
        fun levels => (readyModels models visited).map (·.modelId) :: levels := by
  have hfinished : (unvisitedModels models visited).filter (·.finished) = [] :=
    List.filter_eq_nil_iff.mpr fun m hm => by
      simp [hunfinished m (mem_unvisitedModels.mp hm).1]
  have hnew : ((unvisitedModels models visited).filter fun m =>
      !m.finished && decide (m.inputModelIds ⊆ visited)) = readyModels models visited :=
    List.filter_congr fun m hm => by simp [hunfinished m (mem_unvisitedModels.mp hm).1]
  rw [levelRounds, if_neg (mt unvisitedModels_eq_nil.mpr hopen)]
  rw [unvisitedModels] at hfinished hnew
  simp only [hfinished, hnew, List.map_nil, List.append_nil, List.map_eq_nil_iff, if_neg hready]

/-- A source among the unvisited models is ready. -/
theorem readyModels_ne_nil (hinputs : ∀ m ∈ models, m.inputModelIds ⊆ models.map (·.modelId))
    (hacyclic : Acyclic fun a b => a ∈ models ∧ b ∈ models ∧ a.modelId ∈ b.inputModelIds)
    (hopen : unvisitedModels models visited ≠ []) : readyModels models visited ≠ [] := by
  obtain ⟨a, ha, hmin⟩ := hacyclic.exists_source hopen
  obtain ⟨ham, hnew⟩ := mem_unvisitedModels.mp ha
  refine List.ne_nil_of_mem (mem_readyModels.mpr ⟨ham, hnew, fun i hi => ?_⟩)
  obtain ⟨b, hb, rfl⟩ := List.mem_map.mp (hinputs a ham hi)
  by_contra hout
  exact hmin b (mem_unvisitedModels.mpr ⟨hb, hout⟩) ⟨hb, ham, hi⟩

/-- A round splits the unvisited models into the next level and the models that stay unvisited. -/
theorem unvisitedModels_perm (visited : List Nat) (hids : (models.map (·.modelId)).Nodup) :
    (unvisitedModels models visited).Perm (readyModels models visited ++
      unvisitedModels models (visited ++ (readyModels models visited).map (·.modelId))) := by
  have hstill : unvisitedModels models (visited ++ (readyModels models visited).map (·.modelId)) =
      (unvisitedModels models visited).filter fun m => !decide (m.inputModelIds ⊆ visited) := by
    rw [unvisitedModels, unvisitedModels, List.filter_filter]
    refine List.filter_congr fun m hm => ?_
    have hready : m.modelId ∈ (readyModels models visited).map (·.modelId) ↔
        m.modelId ∉ visited ∧ m.inputModelIds ⊆ visited := by
      rw [List.mem_map]
      constructor
      · rintro ⟨q, hq, heq⟩
        obtain ⟨hqm, hq⟩ := mem_readyModels.mp hq
        exact List.inj_on_of_nodup_map hids hqm hm heq ▸ hq
      · exact fun h => ⟨m, mem_readyModels.mpr ⟨hm, h⟩, rfl⟩
    by_cases hv : m.modelId ∈ visited <;> simp only [List.mem_append, hready, hv] <;> simp
  rw [hstill, readyModels]
  exact (List.filter_append_perm _ _).symm

/-- With unfinished models and acyclic inputs the rounds end. -/
theorem levelRounds_spec (hids : (models.map (·.modelId)).Nodup)
    (hunfinished : ∀ m ∈ models, m.finished = false)
    (hinputs : ∀ m ∈ models, m.inputModelIds ⊆ models.map (·.modelId))
    (hacyclic : Acyclic fun a b => a ∈ models ∧ b ∈ models ∧ a.modelId ∈ b.inputModelIds) {fuel : Nat}
    (hfuel : (unvisitedModels models visited).length ≤ fuel) :
    ∃ levels, levelRounds models fuel visited = some levels ∧ LevelsOf models visited levels := by
  have hdone : ∀ visited, unvisitedModels models visited = [] → LevelsOf models visited [] :=
    fun visited hnil => ⟨hnil ▸ .refl _, fun _ h => absurd h List.not_mem_nil, fun _ h => by cases h⟩
  induction fuel generalizing visited with
  | zero =>
    have hnil := List.eq_nil_of_length_eq_zero (Nat.le_zero.mp hfuel)
    exact ⟨[], by rw [levelRounds, if_pos (unvisitedModels_eq_nil.mp hnil)], hdone _ hnil⟩
  | succ fuel ih =>
    by_cases hopen : unvisitedModels models visited = []
    · exact ⟨[], by rw [levelRounds, if_pos (unvisitedModels_eq_nil.mp hopen)], hdone _ hopen⟩
    · have hready := readyModels_ne_nil hinputs hacyclic hopen
      have hsplit := unvisitedModels_perm visited hids
      have hlength := hsplit.length_eq
      rw [List.length_append] at hlength
      have hpos := List.length_pos_of_ne_nil hready
      have hfuel' : (unvisitedModels models
          (visited ++ (readyModels models visited).map (·.modelId))).length ≤ fuel := by
        omega
      obtain ⟨levels, hlevels, hof⟩ := ih hfuel'
      rw [levelRounds_succ hunfinished hopen hready, hlevels]
      refine ⟨_, rfl, ?_, ?_, ?_⟩
      · rw [List.flatten_cons]
        refine (hof.perm.append_left _).trans ?_
        rw [← List.map_append]
        exact (hsplit.map _).symm
      · rintro level hlevel
        rcases List.mem_cons.mp hlevel with rfl | hlevel
        · exact mt List.map_eq_nil_iff.mp hready
        · exact hof.ne_nil level hlevel
      · rintro level hlevel m hm hmem
        obtain rfl := Option.some.inj hlevel
        obtain ⟨q, hq, heq⟩ := List.mem_map.mp hmem
        obtain ⟨hqm, -, hsub⟩ := mem_readyModels.mp hq
        exact List.inj_on_of_nodup_map hids hqm hm heq ▸ hsub

end

/-! ## The base system -/

namespace ModelGraph

variable (g : ModelGraph)

/-- The models of the base system. -/
def baseModels : List ModelInfor :=
  g.models.map fun m =>
    { m with
      inputModelIds := inputsOf g.outEdges m.modelId
      inpBaseModelIds := inputsOf g.outEdges m.modelId }

variable {g}

theorem map_modelId_baseModels : g.baseModels.map (·.modelId) = g.ids := by
  rw [baseModels, List.map_map]
  rfl

theorem mem_baseModels {m : ModelInfor} (h : m ∈ g.baseModels) :
    m.baseModelIds = [m.modelId] ∧ m.modelId < g.nextId ∧
      m.inpBaseModelIds = inputsOf g.outEdges m.modelId ∧
      m.inputModelIds = inputsOf g.outEdges m.modelId := by
  obtain ⟨q, hq, rfl⟩ := List.mem_map.mp h
  exact ⟨g.base q hq, g.ids_lt q hq, rfl, rfl⟩

/-- The system of the base models is built, and every model is in one of its levels. A single level
leaves no room for an edge. -/
theorem baseSystem_ok (g : ModelGraph) :
    ∃ levels, baseSystem g.models g.outEdges = some ⟨g.baseModels, g.outEdges, levels⟩ ∧
      levels.flatten.Perm g.ids ∧ (∀ level ∈ levels, level ≠ []) ∧
      (levels.length = 1 → ∀ m ∈ g.baseModels, m.inputModelIds = []) := by
  set models := g.models.map fun m => { m with inputModelIds := inputsOf g.outEdges m.modelId }
    with hmodels
  have hids : models.map (·.modelId) = g.ids := by
    rw [hmodels, List.map_map]
    rfl
  have hmem : ∀ m ∈ models, m.finished = false ∧
      m.inputModelIds = inputsOf g.outEdges m.modelId := fun m hm => by
    obtain ⟨q, hq, rfl⟩ := List.mem_map.mp hm
    exact ⟨g.unfinished q hq, rfl⟩
  have hinputs : ∀ m ∈ models, m.inputModelIds ⊆ models.map (·.modelId) := fun m hm i hi => by
    rw [(hmem m hm).2] at hi
    exact hids ▸ (Edge.mem_ids (mem_inputsOf.mp hi)).1
  have hacyclic : Acyclic fun a b => a ∈ models ∧ b ∈ models ∧ a.modelId ∈ b.inputModelIds :=
    g.acyclic.of_paths (·.modelId) fun a b ⟨_, hb, hin⟩ =>
      .single (mem_inputsOf.mp ((hmem b hb).2 ▸ hin))
  have hopen : unvisitedModels models [] = models :=
    List.filter_eq_self.mpr fun m _ => decide_eq_true List.not_mem_nil
  obtain ⟨levels, hlevels, hof⟩ := levelRounds_spec (hids ▸ g.ids_nodup)
    (fun m hm => (hmem m hm).1) hinputs hacyclic (Nat.le_of_eq (congrArg List.length hopen))
  have hperm := hof.perm
  rw [hopen, hids] at hperm
  refine ⟨levels, ?_, hperm, hof.ne_nil, fun hone m hm => ?_⟩
  · have hbase : models.map (fun m => { m with inpBaseModelIds := m.inputModelIds }) =
        g.baseModels := by
      rw [hmodels, List.map_map]
      rfl
    rw [baseSystem, modelSystem_ok fun a b h => (Edge.mem_ids h).2]
    show (ModelSystem.getAllLevelModels ⟨models, g.outEdges, []⟩).bind _ = _
    rw [ModelSystem.getAllLevelModels, hlevels]
    exact congrArg (fun ms => some (ModelSystem.mk ms g.outEdges levels)) hbase
  · obtain ⟨level, rfl⟩ := List.length_eq_one_iff.mp hone
    rw [List.flatten_singleton] at hperm
    obtain ⟨q, hq, rfl⟩ := List.mem_map.mp hm
    have hlevel : q.modelId ∈ level := hperm.symm.subset (List.mem_map_of_mem hq)
    have hq' : { q with inputModelIds := inputsOf g.outEdges q.modelId } ∈ models :=
      hmodels ▸ List.mem_map_of_mem hq
    have hnone := hof.first level rfl _ hq' hlevel
    exact List.subset_nil.mp hnone

end ModelGraph

end Mil.Fusion
