import Mathlib.Data.List.Perm.Lattice
import Mathlib.Data.List.Nodup
import Mil.Fusion.Graph

/-!
# The levels of a system in which some models have finished

`get_all_level_models(False)` goes through the models in rounds. A finished model is marked in the
first round, but what a round reads are the marks of the rounds before it. A model whose inputs have
all finished is therefore collected in the second round, not the first, unless it has no inputs.

If no model of the first round is unfinished, the level of that round is left out and nothing is
lost. If some unfinished model has no inputs, the first round gives level 0, and a model that waits
for finished inputs only is put on level 1 although it can start. Exactly this mixture is what makes
the levels differ from the lengths of the chains of unfinished models
(`getAllLevelModels_right_iff`).
-/

set_option autoImplicit false

namespace Mil.Fusion

open Mil.Lib

/-! ## What the levels should be -/

/-- The models of a search: distinct ids, inputs among the models, no cycles, and no finished model
with an input that has not finished. -/
structure LevelGraph (models : List ModelInfor) : Prop where
  ids_nodup : (models.map (·.modelId)).Nodup
  inputs : ∀ m ∈ models, m.inputModelIds ⊆ models.map (·.modelId)
  acyclic : Acyclic fun a b => a ∈ models ∧ b ∈ models ∧ a.modelId ∈ b.inputModelIds
  finished : ∀ m ∈ models, m.finished = true →
    ∀ q ∈ models, q.modelId ∈ m.inputModelIds → q.finished = true

/-- The model has not finished, and all its inputs have. -/
def CanStart (models : List ModelInfor) (m : ModelInfor) : Prop :=
  m.finished = false ∧ ∀ q ∈ models, q.modelId ∈ m.inputModelIds → q.finished = true

/-- A chain of unfinished models, each an input of the next, that ends in the model and has that many
models before it. -/
inductive ChainTo (models : List ModelInfor) : ModelInfor → Nat → Prop
  | single {m : ModelInfor} (hm : m ∈ models) (hf : m.finished = false) : ChainTo models m 0
  | snoc {q m : ModelInfor} {d : Nat} (hq : ChainTo models q d) (hm : m ∈ models)
      (hf : m.finished = false) (hin : q.modelId ∈ m.inputModelIds) : ChainTo models m (d + 1)

/-- The longest chain that ends in the model has that many models before it. -/
def LongestChain (models : List ModelInfor) (m : ModelInfor) (d : Nat) : Prop :=
  ChainTo models m d ∧ ∀ d', ChainTo models m d' → d' ≤ d

/-- Every unfinished model is on one level, the number of which is the length of the longest chain
before it, and level 0 has the models that can start. -/
structure LevelsRight (s : ModelSystem) (levels : List (List Nat)) : Prop where
  once : levels.flatten.Perm ((s.models.filter (!·.finished)).map (·.modelId))
  depth : ∀ m ∈ s.models, m.finished = false →
    ∀ d, m.modelId ∈ levels.getD d [] ↔ LongestChain s.models m d
  first : ∃ firstLevel, s.getModelsAtGivenLevel (levels.getD 0 []) = some firstLevel ∧
    ∀ m, m ∈ firstLevel ↔ m ∈ s.models ∧ CanStart s.models m

/-! ## Rounds -/

/-- The models a round puts on a level. -/
def newModels (models : List ModelInfor) (visited : List Nat) : List ModelInfor :=
  (unvisitedModels models visited).filter fun m =>
    !m.finished && decide (m.inputModelIds ⊆ visited)

/-- The ids that are visited after so many rounds. -/
def visitedAfter (models : List ModelInfor) : Nat → List Nat
  | 0 => []
  | k + 1 =>
    visitedAfter models k ++
      ((unvisitedModels models (visitedAfter models k)).filter (·.finished)).map (·.modelId) ++
      (newModels models (visitedAfter models k)).map (·.modelId)

/-- The level of a round, empty if there is none. -/
def newAt (models : List ModelInfor) (k : Nat) : List Nat :=
  (newModels models (visitedAfter models k)).map (·.modelId)

section

variable {models : List ModelInfor}

theorem ChainTo.mem {m : ModelInfor} {d : Nat} (h : ChainTo models m d) :
    m ∈ models ∧ m.finished = false := by
  cases h with
  | single hm hf => exact ⟨hm, hf⟩
  | snoc _ hm hf _ => exact ⟨hm, hf⟩

theorem longestChain_zero {m : ModelInfor} (hm : m ∈ models) (hf : m.finished = false) :
    LongestChain models m 0 ↔ CanStart models m := by
  constructor
  · rintro ⟨-, hmax⟩
    refine ⟨hf, fun q hq hin => ?_⟩
    by_contra hqf
    exact absurd (hmax 1 (.snoc (.single hq (Bool.eq_false_iff.mpr hqf)) hm hf hin)) (by simp)
  · rintro ⟨-, hall⟩
    refine ⟨.single hm hf, fun d' hd' => ?_⟩
    cases hd' with
    | single => exact le_refl 0
    | snoc hq _ _ hin =>
      obtain ⟨hqm, hqf⟩ := hq.mem
      rw [hall _ hqm hin] at hqf
      cases hqf

theorem mem_newModels {visited : List Nat} {m : ModelInfor} : m ∈ newModels models visited ↔
    m ∈ models ∧ m.modelId ∉ visited ∧ m.finished = false ∧ m.inputModelIds ⊆ visited := by
  rw [newModels, List.mem_filter, mem_unvisitedModels, Bool.and_eq_true, Bool.not_eq_true',
    decide_eq_true_eq, and_assoc]

theorem visitedAfter_subset_succ (k : Nat) :
    visitedAfter models k ⊆ visitedAfter models (k + 1) := by
  intro i hi
  rw [visitedAfter, List.append_assoc]
  exact List.mem_append_left _ hi

theorem visitedAfter_subset {j k : Nat} (h : j ≤ k) :
    visitedAfter models j ⊆ visitedAfter models k := by
  induction h with
  | refl => exact List.Subset.refl _
  | step _ ih => exact List.Subset.trans ih (visitedAfter_subset_succ _)

theorem newAt_subset_visitedAfter (k : Nat) :
    newAt models k ⊆ visitedAfter models (k + 1) := by
  intro i hi
  rw [visitedAfter]
  exact List.mem_append_right _ hi

namespace LevelGraph

variable (h : LevelGraph models)

include h

theorem eq_of_modelId {m q : ModelInfor} (hm : m ∈ models) (hq : q ∈ models)
    (heq : m.modelId = q.modelId) : m = q :=
  List.inj_on_of_nodup_map h.ids_nodup hm hq heq

theorem mem_newAt {m : ModelInfor} (hm : m ∈ models) {k : Nat} : m.modelId ∈ newAt models k ↔
    m.modelId ∉ visitedAfter models k ∧ m.finished = false ∧
      m.inputModelIds ⊆ visitedAfter models k := by
  rw [newAt, List.mem_map]
  constructor
  · rintro ⟨q, hq, heq⟩
    obtain ⟨hqm, hq⟩ := mem_newModels.mp hq
    exact h.eq_of_modelId hqm hm heq ▸ hq
  · exact fun hnew => ⟨m, mem_newModels.mpr ⟨hm, hnew⟩, rfl⟩

/-- What a round adds to the visited ids. -/
theorem mem_visitedAfter_step {m : ModelInfor} (hm : m ∈ models) (k : Nat) :
    m.modelId ∈ visitedAfter models (k + 1) ↔ m.modelId ∈ visitedAfter models k ∨
      m.finished = true ∨ m.inputModelIds ⊆ visitedAfter models k := by
  have hdone : m.modelId ∈ ((unvisitedModels models (visitedAfter models k)).filter
      (·.finished)).map (·.modelId) ↔ m.modelId ∉ visitedAfter models k ∧ m.finished = true := by
    rw [List.mem_map]
    constructor
    · rintro ⟨q, hq, heq⟩
      obtain ⟨hqu, hqf⟩ := List.mem_filter.mp hq
      obtain ⟨hqm, hqv⟩ := mem_unvisitedModels.mp hqu
      exact h.eq_of_modelId hqm hm heq ▸ ⟨hqv, hqf⟩
    · exact fun ⟨hv, hf⟩ =>
        ⟨m, List.mem_filter.mpr ⟨mem_unvisitedModels.mpr ⟨hm, hv⟩, hf⟩, rfl⟩
  have hnew := h.mem_newAt hm (k := k)
  rw [newAt] at hnew
  rw [visitedAfter, List.mem_append, List.mem_append, hdone, hnew]
  by_cases hv : m.modelId ∈ visitedAfter models k <;> cases hf : m.finished <;> simp [hv]

/-- After a round those are visited that have finished or whose inputs were visited before it. -/
theorem mem_visitedAfter_succ {m : ModelInfor} (hm : m ∈ models) (k : Nat) :
    m.modelId ∈ visitedAfter models (k + 1) ↔
      m.finished = true ∨ m.inputModelIds ⊆ visitedAfter models k := by
  rw [h.mem_visitedAfter_step hm k]
  refine or_iff_right_of_imp fun hv => ?_
  induction k with
  | zero => exact absurd hv List.not_mem_nil
  | succ k ih =>
    -- Visited earlier: for the same reason, and the marks are never taken back.
    have hreason : m.finished = true ∨ m.inputModelIds ⊆ visitedAfter models k := by
      rcases (h.mem_visitedAfter_step hm k).mp hv with hv | hv
      · exact ih hv
      · exact hv
    exact hreason.imp_right fun hin => List.Subset.trans hin (visitedAfter_subset_succ k)

theorem visitedAfter_of_finished {m : ModelInfor} (hm : m ∈ models) (hf : m.finished = true)
    (k : Nat) : m.modelId ∈ visitedAfter models (k + 1) :=
  (h.mem_visitedAfter_succ hm k).mpr (.inl hf)

/-- From the second round on there is a level as long as something is not visited. -/
theorem newAt_ne_nil {k : Nat} (hopen : unvisitedModels models (visitedAfter models (k + 1)) ≠ []) :
    newAt models (k + 1) ≠ [] := by
  obtain ⟨a, ha⟩ := List.exists_mem_of_ne_nil _ (readyModels_ne_nil h.inputs h.acyclic hopen)
  obtain ⟨ham, hv, hin⟩ := mem_readyModels.mp ha
  have hf : a.finished = false :=
    Bool.eq_false_iff.mpr fun hf => hv (h.visitedAfter_of_finished ham hf k)
  exact List.ne_nil_of_mem ((h.mem_newAt ham).mpr ⟨hv, hf, hin⟩)

/-! ## Rounds and chains -/

/-- If after the first `o + 1` rounds exactly those unfinished models are visited that can start,
then every further round adds one to the length of the chains. -/
theorem mem_visitedAfter_iff_chains {o : Nat}
    (hbase : ∀ m ∈ models, m.finished = false →
      (m.modelId ∈ visitedAfter models (o + 1) ↔ CanStart models m)) (k : Nat) :
    ∀ m ∈ models, m.finished = false →
      (m.modelId ∈ visitedAfter models (o + k + 1) ↔ ∀ d, ChainTo models m d → d ≤ k) := by
  induction k with
  | zero =>
    intro m hm hf
    rw [Nat.add_zero, hbase m hm hf, ← longestChain_zero hm hf]
    exact ⟨fun hlong => hlong.2, fun hmax => ⟨.single hm hf, hmax⟩⟩
  | succ k ih =>
    intro m hm hf
    rw [h.mem_visitedAfter_succ hm, hf]
    constructor
    · rintro (hfalse | hin) d hd
      · cases hfalse
      · cases hd with
        | single => exact Nat.zero_le _
        | snoc hq _ _ hqin =>
          obtain ⟨hqm, hqf⟩ := hq.mem
          exact Nat.succ_le_succ ((ih _ hqm hqf).mp (hin hqin) _ hq)
    · intro hmax
      refine .inr fun i hi => ?_
      obtain ⟨q, hq, rfl⟩ := List.mem_map.mp (h.inputs m hm hi)
      cases hqf : q.finished with
      | true => exact h.visitedAfter_of_finished hq hqf (o + k)
      | false =>
        refine (ih q hq hqf).mpr fun d hd => ?_
        exact Nat.le_of_succ_le_succ (hmax (d + 1) (.snoc hd hm hf hi))

/-- If moreover none of them is visited before, the levels of the rounds from `o` on go by the length
of the longest chain. -/
theorem mem_newAt_iff_longestChain {o : Nat}
    (hbase : ∀ m ∈ models, m.finished = false →
      (m.modelId ∈ visitedAfter models (o + 1) ↔ CanStart models m))
    (hstart : ∀ m ∈ models, m.finished = false → m.modelId ∉ visitedAfter models o)
    {m : ModelInfor} (hm : m ∈ models) (hf : m.finished = false) (d : Nat) :
    m.modelId ∈ newAt models (o + d) ↔ LongestChain models m d := by
  have hreach : m.modelId ∈ newAt models (o + d) ↔ m.modelId ∉ visitedAfter models (o + d) ∧
      m.modelId ∈ visitedAfter models (o + d + 1) := by
    rw [h.mem_newAt hm, h.mem_visitedAfter_succ hm, hf]
    simp
  have hnow := h.mem_visitedAfter_iff_chains hbase d m hm hf
  rw [hreach, hnow]
  cases d with
  | zero => exact ⟨fun hmax => ⟨.single hm hf, hmax.2⟩, fun hlong => ⟨hstart m hm hf, hlong.2⟩⟩
  | succ d =>
    have hbefore := h.mem_visitedAfter_iff_chains hbase d m hm hf
    rw [show o + (d + 1) = o + d + 1 from rfl, hbefore]
    constructor
    · rintro ⟨hlonger, hmax⟩
      push Not at hlonger
      obtain ⟨e, he, hde⟩ := hlonger
      obtain rfl : e = d + 1 := Nat.le_antisymm (hmax e he) hde
      exact ⟨he, hmax⟩
    · rintro ⟨hchain, hmax⟩
      exact ⟨fun hshort => absurd (hshort (d + 1) hchain) (by simp), hmax⟩

/-! ## The list of the levels -/

theorem unvisitedModels_shrinks {k : Nat}
    (hopen : unvisitedModels models (visitedAfter models k) ≠ []) :
    (unvisitedModels models (visitedAfter models (k + 1))).length <
      (unvisitedModels models (visitedAfter models k)).length := by
  have hfilter : unvisitedModels models (visitedAfter models (k + 1)) =
      (unvisitedModels models (visitedAfter models k)).filter
        (·.modelId ∉ visitedAfter models (k + 1)) := by
    rw [unvisitedModels, unvisitedModels, List.filter_filter]
    refine List.filter_congr fun m _ => ?_
    have hmono : m.modelId ∈ visitedAfter models k → m.modelId ∈ visitedAfter models (k + 1) :=
      fun hm => visitedAfter_subset_succ k hm
    by_cases hv : m.modelId ∈ visitedAfter models k
    · simp [hv, hmono hv]
    · simp [hv]
  obtain ⟨a, ha⟩ := List.exists_mem_of_ne_nil _ (readyModels_ne_nil h.inputs h.acyclic hopen)
  obtain ⟨ham, hv, hin⟩ := mem_readyModels.mp ha
  rw [hfilter, List.length_filter_lt_length_iff_exists]
  refine ⟨a, mem_unvisitedModels.mpr ⟨ham, hv⟩, ?_⟩
  simpa using (h.mem_visitedAfter_succ ham k).mpr (.inr hin)

/-- The rounds end, and leave the levels that are not empty. -/
theorem levelRounds_visitedAfter {fuel k : Nat}
    (hfuel : (unvisitedModels models (visitedAfter models k)).length ≤ fuel) :
    ∃ n, levelRounds models fuel (visitedAfter models k) =
        some (((List.range n).map fun j => newAt models (k + j)).filter (· ≠ [])) ∧
      unvisitedModels models (visitedAfter models (k + n)) = [] ∧
      ∀ j < n, unvisitedModels models (visitedAfter models (k + j)) ≠ [] := by
  induction fuel generalizing k with
  | zero =>
    have hnil := List.eq_nil_of_length_eq_zero (Nat.le_zero.mp hfuel)
    refine ⟨0, ?_, hnil, fun j hj => absurd hj (Nat.not_lt_zero j)⟩
    rw [levelRounds, if_pos (unvisitedModels_eq_nil.mp hnil)]
    rfl
  | succ fuel ih =>
    by_cases hopen : unvisitedModels models (visitedAfter models k) = []
    · refine ⟨0, ?_, hopen, fun j hj => absurd hj (Nat.not_lt_zero j)⟩
      rw [levelRounds, if_pos (unvisitedModels_eq_nil.mp hopen)]
      rfl
    · have hless := h.unvisitedModels_shrinks hopen
      obtain ⟨n, hlevels, hdone, hbusy⟩ := ih (k := k + 1) (by omega)
      refine ⟨n + 1, ?_, ?_, ?_⟩
      · have hround : levelRounds models (fuel + 1) (visitedAfter models k) =
            (levelRounds models fuel (visitedAfter models (k + 1))).map fun levels =>
              if newAt models k = [] then levels else newAt models k :: levels := by
          rw [levelRounds, if_neg (mt unvisitedModels_eq_nil.mpr hopen)]
          rfl
        have hshift : (List.range n).map (fun j => newAt models (k + 1 + j)) =
            (List.range n).map ((fun j => newAt models (k + j)) ∘ Nat.succ) :=
          List.map_congr_left fun j _ => by
            show newAt models (k + 1 + j) = newAt models (k + (j + 1))
            rw [Nat.add_right_comm, Nat.add_assoc]
        rw [hround, hlevels, List.range_succ_eq_map, List.map_cons, List.map_map, hshift,
          List.filter_cons, Option.map_some]
        by_cases hnil : newAt models k = [] <;> simp [hnil]
      · rwa [Nat.add_right_comm, Nat.add_assoc] at hdone
      · intro j hj
        cases j with
        | zero => exact hopen
        | succ j =>
          have hlater := hbusy j (Nat.lt_of_succ_lt_succ hj)
          rwa [Nat.add_right_comm, Nat.add_assoc] at hlater

/-- The levels of the system, by rounds. -/
theorem levelRounds_eq : ∃ n, levelRounds models models.length [] =
      some (((List.range n).map (newAt models)).filter (· ≠ [])) ∧
    unvisitedModels models (visitedAfter models n) = [] ∧
    ∀ j < n, unvisitedModels models (visitedAfter models j) ≠ [] := by
  have hall : unvisitedModels models [] = models :=
    List.filter_eq_self.mpr fun m _ => decide_eq_true List.not_mem_nil
  obtain ⟨n, hlevels, hdone, hbusy⟩ :=
    h.levelRounds_visitedAfter (k := 0) (Nat.le_of_eq (congrArg List.length hall))
  simp only [Nat.zero_add] at hlevels hdone hbusy
  exact ⟨n, hlevels, hdone, hbusy⟩

/-- Whatever the levels are, together they are the unfinished models. -/
theorem flatten_levels_perm {n : Nat} (hdone : unvisitedModels models (visitedAfter models n) = []) :
    (((List.range n).map (newAt models)).filter (· ≠ [])).flatten.Perm
      ((models.filter (!·.finished)).map (·.modelId)) := by
  rw [List.flatten_filter_ne_nil, ← List.flatMap_def]
  have hids : ((models.filter (!·.finished)).map (·.modelId)).Nodup :=
    h.ids_nodup.sublist (List.filter_sublist.map _)
  have hdisjoint : (List.range n).Pairwise (Function.onFun List.Disjoint (newAt models)) := by
    refine List.pairwise_lt_range.imp fun {j k} hjk i hij hik => ?_
    obtain ⟨q, hq, rfl⟩ := List.mem_map.mp hik
    refine (mem_newModels.mp hq).2.1 (visitedAfter_subset hjk ?_)
    exact newAt_subset_visitedAfter j hij
  have hround : ∀ k ∈ List.range n, (newAt models k).Nodup := fun k _ =>
    h.ids_nodup.sublist ((List.filter_sublist.trans List.filter_sublist).map _)
  refine (List.perm_ext_iff_of_nodup (List.nodup_flatMap.mpr ⟨hround, hdisjoint⟩) hids).mpr ?_
  intro i
  simp only [List.mem_flatMap, List.mem_range, List.mem_map, List.mem_filter, Bool.not_eq_true']
  constructor
  · rintro ⟨k, -, hi⟩
    obtain ⟨q, hq, rfl⟩ := List.mem_map.mp hi
    obtain ⟨hqm, -, hqf, -⟩ := mem_newModels.mp hq
    exact ⟨q, ⟨hqm, hqf⟩, rfl⟩
  · rintro ⟨q, ⟨hqm, hqf⟩, rfl⟩
    -- The first round after which the model is visited has it on its level.
    have hend : q.modelId ∈ visitedAfter models n := unvisitedModels_eq_nil.mp hdone q hqm
    clear hdone
    induction n with
    | zero => exact absurd hend List.not_mem_nil
    | succ n ih =>
      by_cases hv : q.modelId ∈ visitedAfter models n
      · have hsub : List.range n ⊆ List.range (n + 1) :=
          List.range_subset.mpr (Nat.le_succ n)
        obtain ⟨k, hk, hmem⟩ := ih (hdisjoint.sublist (List.range_sublist.mpr (Nat.le_succ n)))
          (fun k hk => hround k (hsub hk)) hv
        exact ⟨k, Nat.lt_succ_of_lt hk, hmem⟩
      · refine ⟨n, Nat.lt_succ_self n, (h.mem_newAt hqm).mpr ⟨hv, hqf, ?_⟩⟩
        rcases (h.mem_visitedAfter_succ hqm n).mp hend with hfin | hin
        · rw [hqf] at hfin
          cases hfin
        · exact hin

omit h in
/-- Leaving out the empty levels shifts them by the rounds without one, which come first. -/
theorem getD_levels {o n : Nat} (hempty : ∀ j < o, newAt models j = [])
    (hfull : ∀ j < n, o ≤ j → newAt models j ≠ [])
    (hdone : unvisitedModels models (visitedAfter models n) = []) (d : Nat) :
    (((List.range n).map (newAt models)).filter (· ≠ [])).getD d [] = newAt models (o + d) := by
  have hover : ∀ j, n ≤ j → newAt models j = [] := fun j hj => by
    refine List.map_eq_nil_iff.mpr (List.eq_nil_iff_forall_not_mem.mpr fun q hq => ?_)
    obtain ⟨hqm, hqv, -⟩ := mem_newModels.mp hq
    exact hqv (visitedAfter_subset hj (unvisitedModels_eq_nil.mp hdone q hqm))
  rcases Nat.le_total o n with hon | hno
  · obtain ⟨r, rfl⟩ := Nat.exists_eq_add_of_le hon
    have hfirst : ((List.range o).map (newAt models)).filter (· ≠ []) = [] :=
      List.filter_eq_nil_iff.mpr fun l hl => by
        obtain ⟨j, hj, rfl⟩ := List.mem_map.mp hl
        simp [hempty j (List.mem_range.mp hj)]
    have hrest : ((List.range r).map fun j => newAt models (o + j)).filter (· ≠ []) =
        (List.range r).map fun j => newAt models (o + j) :=
      List.filter_eq_self.mpr fun l hl => by
        obtain ⟨j, hj, rfl⟩ := List.mem_map.mp hl
        simpa using hfull (o + j) (Nat.add_lt_add_left (List.mem_range.mp hj) o)
          (Nat.le_add_right o j)
    rw [List.range_add, List.map_append, List.map_map, List.filter_append, hfirst,
      List.nil_append]
    show ((List.map (fun j => newAt models (o + j)) (List.range r)).filter (· ≠ [])).getD d [] = _
    rw [hrest]
    by_cases hd : d < r
    · simp [List.getD_eq_getElem?_getD, hd]
    · have hlate := hover (o + d) (by omega)
      simp [List.getD_eq_getElem?_getD, hd, hlate]
  · have hnone : ((List.range n).map (newAt models)).filter (· ≠ []) = [] :=
      List.filter_eq_nil_iff.mpr fun l hl => by
        obtain ⟨j, hj, rfl⟩ := List.mem_map.mp hl
        simp [hempty j (lt_of_lt_of_le (List.mem_range.mp hj) hno)]
    rw [hnone, hover (o + d) (by omega)]
    rfl

end LevelGraph

end

/-! ## Levels and chains -/

/-- An unfinished model without inputs and another one all of whose inputs have finished. -/
def MixedStart (models : List ModelInfor) : Prop :=
  (∃ m ∈ models, m.finished = false ∧ m.inputModelIds = []) ∧
    ∃ m ∈ models, CanStart models m ∧ m.inputModelIds ≠ []

section

variable {models : List ModelInfor}

theorem mem_newAt_zero (h : LevelGraph models) {m : ModelInfor} (hm : m ∈ models) :
    m.modelId ∈ newAt models 0 ↔ m.finished = false ∧ m.inputModelIds = [] := by
  rw [h.mem_newAt hm, visitedAfter, List.subset_nil]
  simp

theorem mem_visitedAfter_one (h : LevelGraph models) {m : ModelInfor} (hm : m ∈ models)
    (hf : m.finished = false) : m.modelId ∈ visitedAfter models 1 ↔ m.inputModelIds = [] := by
  rw [h.mem_visitedAfter_succ hm, hf, visitedAfter, List.subset_nil]
  simp

/-- Without a mixture the levels go by the longest chains: either the first round finds all the
models that can start, or it finds none and leaves no level. -/
theorem mem_getD_levels_iff (h : LevelGraph models) (hmixed : ¬ MixedStart models) {n : Nat}
    (hdone : unvisitedModels models (visitedAfter models n) = [])
    (hbusy : ∀ j < n, unvisitedModels models (visitedAfter models j) ≠ [])
    {m : ModelInfor} (hm : m ∈ models) (hf : m.finished = false) (d : Nat) :
    m.modelId ∈ (((List.range n).map (newAt models)).filter (· ≠ [])).getD d [] ↔
      LongestChain models m d := by
  by_cases hroot : ∃ r ∈ models, r.finished = false ∧ r.inputModelIds = []
  · have hinput : ∀ q ∈ models, CanStart models q → q.inputModelIds = [] := fun q hq hcan => by
      by_contra hne
      exact hmixed ⟨hroot, q, hq, hcan, hne⟩
    have hbase : ∀ q ∈ models, q.finished = false →
        (q.modelId ∈ visitedAfter models (0 + 1) ↔ CanStart models q) := fun q hq hqf => by
      rw [mem_visitedAfter_one h hq hqf]
      exact ⟨fun hnil => ⟨hqf, fun p _ hin => absurd (hnil ▸ hin) List.not_mem_nil⟩, hinput q hq⟩
    have hfull : ∀ j < n, 0 ≤ j → newAt models j ≠ [] := fun j hj _ => by
      cases j with
      | zero =>
        obtain ⟨r, hr, hroot⟩ := hroot
        exact List.ne_nil_of_mem ((mem_newAt_zero h hr).mpr hroot)
      | succ j => exact h.newAt_ne_nil (hbusy (j + 1) hj)
    rw [LevelGraph.getD_levels (fun j hj => absurd hj (Nat.not_lt_zero j)) hfull hdone]
    exact h.mem_newAt_iff_longestChain hbase (fun q _ _ => List.not_mem_nil) hm hf d
  · have hinput : ∀ q ∈ models, q.finished = false → q.inputModelIds ≠ [] :=
      fun q hq hqf hnil => hroot ⟨q, hq, hqf, hnil⟩
    have hstart : ∀ q ∈ models, q.finished = false → q.modelId ∉ visitedAfter models 1 :=
      fun q hq hqf hv => hinput q hq hqf ((mem_visitedAfter_one h hq hqf).mp hv)
    have hbase : ∀ q ∈ models, q.finished = false →
        (q.modelId ∈ visitedAfter models (1 + 1) ↔ CanStart models q) := fun q hq hqf => by
      rw [h.mem_visitedAfter_succ hq, hqf]
      constructor
      · rintro (hfalse | hin)
        · cases hfalse
        · refine ⟨hqf, fun p hp hpin => ?_⟩
          by_contra hpf
          exact hstart p hp (Bool.eq_false_iff.mpr hpf) (hin hpin)
      · rintro ⟨-, hall⟩
        refine .inr fun i hi => ?_
        obtain ⟨p, hp, rfl⟩ := List.mem_map.mp (h.inputs q hq hi)
        exact h.visitedAfter_of_finished hp (hall p hp hi) 0
    have hempty : ∀ j < 1, newAt models j = [] := fun j hj => by
      obtain rfl := Nat.lt_one_iff.mp hj
      refine List.eq_nil_iff_forall_not_mem.mpr fun i hi => ?_
      obtain ⟨q, hq, rfl⟩ := List.mem_map.mp hi
      obtain ⟨hqm, -, hqf, hin⟩ := mem_newModels.mp hq
      exact hinput q hqm hqf (List.subset_nil.mp hin)
    have hfull : ∀ j < n, 1 ≤ j → newAt models j ≠ [] := fun j hj hpos => by
      obtain ⟨i, rfl⟩ := Nat.exists_eq_add_of_le' hpos
      exact h.newAt_ne_nil (hbusy (i + 1) hj)
    rw [LevelGraph.getD_levels hempty hfull hdone]
    exact h.mem_newAt_iff_longestChain hbase hstart hm hf d

end

namespace ModelSystem

variable {s : ModelSystem}

/-- The models of a level are found, each under its own id. -/
theorem getModelsAtGivenLevel_ok (h : LevelGraph s.models) {level : List Nat}
    (hlevel : level ⊆ s.models.map (·.modelId)) :
    ∃ levelModels, s.getModelsAtGivenLevel level = some levelModels ∧
      ∀ m, m ∈ levelModels ↔ m ∈ s.models ∧ m.modelId ∈ level := by
  induction level with
  | nil => exact ⟨[], rfl, fun m => by simp⟩
  | cons i level ih =>
    obtain ⟨rest, hrest, hmem⟩ := ih fun j hj => hlevel (List.mem_cons_of_mem i hj)
    obtain ⟨q, hq, rfl⟩ := List.mem_map.mp (hlevel List.mem_cons_self)
    have hfind : s.models.find? (·.modelId = q.modelId) = some q := by
      obtain ⟨p, hp⟩ : ∃ p, s.models.find? (·.modelId = q.modelId) = some p :=
        Option.isSome_iff_exists.mp (List.find?_isSome.mpr ⟨q, hq, by simp⟩)
      have hid : p.modelId = q.modelId := by simpa using List.find?_some hp
      rw [hp, h.eq_of_modelId (List.mem_of_find?_eq_some hp) hq hid]
    refine ⟨q :: rest, ?_, fun m => ?_⟩
    · rw [getModelsAtGivenLevel] at hrest ⊢
      rw [List.mapM_cons, hfind, hrest]
      rfl
    · rw [List.mem_cons, List.mem_cons, hmem]
      constructor
      · rintro (rfl | ⟨hm, hin⟩)
        · exact ⟨hq, .inl rfl⟩
        · exact ⟨hm, .inr hin⟩
      · rintro ⟨hm, heq | hin⟩
        · exact .inl (h.eq_of_modelId hm hq heq)
        · exact .inr ⟨hm, hin⟩

/-- The function returns in every case, with every unfinished model on one level. -/
theorem getAllLevelModels_total (h : LevelGraph s.models) :
    ∃ levels, s.getAllLevelModels = some { s with allLevelModelIds := levels } ∧
      levels.flatten.Perm ((s.models.filter (!·.finished)).map (·.modelId)) := by
  obtain ⟨n, hlevels, hdone, -⟩ := h.levelRounds_eq
  exact ⟨_, by rw [getAllLevelModels, hlevels]; rfl, h.flatten_levels_perm hdone⟩

/-- With a mixture level 0 is what the first round finds, and a model that waits for finished inputs
only is not among it. -/
theorem not_levelsRight_of_mixedStart (h : LevelGraph s.models) (hmixed : MixedStart s.models) :
    ¬ ∃ levels, s.getAllLevelModels = some { s with allLevelModelIds := levels } ∧
      LevelsRight s levels := by
  rintro ⟨levels, hs, hright⟩
  obtain ⟨⟨r, hr, hroot⟩, m, hm, hcan, hne⟩ := hmixed
  obtain ⟨n, hlevels, hdone, hbusy⟩ := h.levelRounds_eq
  rw [getAllLevelModels, hlevels] at hs
  obtain rfl : _ = levels := congrArg allLevelModelIds (Option.some.inj hs)
  have hfull : ∀ j < n, 0 ≤ j → newAt s.models j ≠ [] := fun j hj _ => by
    cases j with
    | zero => exact List.ne_nil_of_mem ((mem_newAt_zero h hr).mpr hroot)
    | succ j => exact h.newAt_ne_nil (hbusy (j + 1) hj)
  have hlong := (hright.depth m hm hcan.1 0).mpr ((longestChain_zero hm hcan.1).mpr hcan)
  rw [LevelGraph.getD_levels (fun j hj => absurd hj (Nat.not_lt_zero j)) hfull hdone] at hlong
  exact hne ((mem_newAt_zero h hm).mp hlong).2

/-- The levels are right exactly when no unfinished model without inputs stands beside a model whose
inputs have all finished. -/
theorem getAllLevelModels_right_iff (s : ModelSystem) (h : LevelGraph s.models) :
    (∃ levels, s.getAllLevelModels = some { s with allLevelModelIds := levels } ∧
      LevelsRight s levels) ↔ ¬ MixedStart s.models := by
  constructor
  · exact fun hright hmixed => not_levelsRight_of_mixedStart h hmixed hright
  · intro hmixed
    obtain ⟨n, hlevels, hdone, hbusy⟩ := h.levelRounds_eq
    have hdepth := fun m hm hf d => mem_getD_levels_iff h hmixed hdone hbusy (m := m) hm hf d
    have honce := h.flatten_levels_perm hdone
    refine ⟨_, by rw [getAllLevelModels, hlevels]; rfl, honce, hdepth, ?_⟩
    have hlisted : ∀ i ∈ (((List.range n).map (newAt s.models)).filter (· ≠ [])).getD 0 [],
        i ∈ (s.models.filter (!·.finished)).map (·.modelId) := fun i hi => by
      refine honce.subset (List.mem_flatten.mpr ⟨_, ?_, hi⟩)
      rw [List.getD_eq_getElem?_getD] at hi ⊢
      cases hget : (((List.range n).map (newAt s.models)).filter (· ≠ []))[0]? with
      | none => rw [hget] at hi; cases hi
      | some level => exact List.mem_of_getElem? hget
    obtain ⟨firstLevel, hfirst, hmem⟩ := getModelsAtGivenLevel_ok h fun i hi =>
      (List.filter_sublist.map _).subset (hlisted i hi)
    refine ⟨firstLevel, hfirst, fun m => (hmem m).trans (and_congr_right fun hm => ?_)⟩
    constructor
    · intro hin
      obtain ⟨q, hq, heq⟩ := List.mem_map.mp (hlisted m.modelId hin)
      obtain ⟨hqm, hqf⟩ := List.mem_filter.mp hq
      obtain rfl := h.eq_of_modelId hqm hm heq
      have hf : q.finished = false := by simpa using hqf
      exact (longestChain_zero hm hf).mp ((hdepth q hm hf 0).mp hin)
    · exact fun hcan => (hdepth m hm hcan.1 0).mpr ((longestChain_zero hm hcan.1).mpr hcan)

/-- A finished model, the model that reads its outputs, and a model without inputs. -/
def mixedSystem : ModelSystem where
  models := [⟨0, "writer", [0], [], [], true⟩, ⟨1, "reader", [1], [0], [0], false⟩,
    ⟨2, "other", [2], [], [], false⟩]
  outEdges := [(0, [1])]
  allLevelModelIds := []

/-- The same with the third model finished, and with two models that read from the reader. -/
def restSystem : ModelSystem where
  models := [⟨0, "writer", [0], [], [], true⟩, ⟨1, "reader", [1], [0], [0], false⟩,
    ⟨2, "other", [2], [], [], true⟩, ⟨3, "judge", [3], [1, 2], [1, 2], false⟩,
    ⟨4, "summary", [4], [0, 1, 3], [0, 1, 3], false⟩]
  outEdges := [(0, [1, 4]), (1, [3, 4]), (2, [3]), (3, [4])]
  allLevelModelIds := []

/-- Inputs with smaller ids make no cycle. -/
theorem acyclic_of_inputs_lt {models : List ModelInfor}
    (hlt : ∀ m ∈ models, ∀ i ∈ m.inputModelIds, i < m.modelId) :
    Acyclic fun a b => a ∈ models ∧ b ∈ models ∧ a.modelId ∈ b.inputModelIds :=
  .of_lt (·.modelId) fun a b hab => hlt b hab.2.1 a.modelId hab.2.2

theorem mixedSystem_graph : LevelGraph mixedSystem.models where
  ids_nodup := by decide
  inputs := by decide
  acyclic := acyclic_of_inputs_lt (by decide)
  finished := by decide

theorem restSystem_graph : LevelGraph restSystem.models where
  ids_nodup := by decide
  inputs := by decide
  acyclic := acyclic_of_inputs_lt (by decide)
  finished := by decide

/-- The reader can start, and is on level 1. -/
theorem getAllLevelModels_mixedSystem :
    LevelGraph mixedSystem.models ∧
      mixedSystem.getAllLevelModels =
        some { mixedSystem with allLevelModelIds := [[2], [1]] } ∧
      (∀ m ∈ mixedSystem.models, m.modelId = 1 → CanStart mixedSystem.models m) ∧
      ¬ ∃ levels, mixedSystem.getAllLevelModels =
          some { mixedSystem with allLevelModelIds := levels } ∧
        LevelsRight mixedSystem levels := by
  have hcan : ∀ m ∈ mixedSystem.models, m.modelId = 1 → CanStart mixedSystem.models m := by
    unfold CanStart
    decide
  have hmixed : MixedStart mixedSystem.models := by
    unfold MixedStart CanStart
    decide
  exact ⟨mixedSystem_graph, rfl, hcan, not_levelsRight_of_mixedStart mixedSystem_graph hmixed⟩

/-- Once the other model has finished too, the reader is on level 0 and the models behind it on the
next ones. -/
theorem getAllLevelModels_restSystem :
    (∃ levels, restSystem.getAllLevelModels = some { restSystem with allLevelModelIds := levels } ∧
      LevelsRight restSystem levels) ∧
    restSystem.getAllLevelModels =
      some { restSystem with allLevelModelIds := [[1], [3], [4]] } := by
  have hnot : ¬ MixedStart restSystem.models := by
    unfold MixedStart CanStart
    decide
  exact ⟨(getAllLevelModels_right_iff restSystem restSystem_graph).mpr hnot, rfl⟩

end ModelSystem

end Mil.Fusion
