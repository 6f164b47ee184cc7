import Mil.Search.Append

/-!
# What is enumerated

The enumeration ends with every combination of at most one good plan per model that fits the GPUs and
all of whose beginnings pass the memory test, each of them once (`appendExecPlan_exact`). A
combination is known by the models and keys of its plans: these are the same for the plan objects
that are used and for the candidates they stand for.
-/

set_option autoImplicit false

namespace Mil.Search

open Mil.Fusion Mil.Lib

/-! ## The search for affected models ends -/

/-- How many edges lead to something that can be reached from the model. -/
noncomputable def reach (outEdges : EdgeDict) (a : Nat) : Nat :=
  open Classical in
  ((outEdges.flatMap Prod.snd).toFinset.filter fun b =>
    Relation.TransGen (Edge outEdges) a b).card

theorem edge_of_mem_outModelIds {outEdges : EdgeDict} {a b : Nat}
    (h : b ∈ outModelIds outEdges a) : Edge outEdges a b := by
  rw [outModelIds] at h
  cases hlookup : outEdges.lookup a with
  | none =>
    rw [hlookup] at h
    cases h
  | some out =>
    rw [hlookup] at h
    exact ⟨(a, out), Dict.mem_of_lookup hlookup, rfl, h⟩

theorem reach_lt {outEdges : EdgeDict} (hacyclic : Acyclic (Edge outEdges)) {a b : Nat}
    (hab : Edge outEdges a b) : reach outEdges b < reach outEdges a := by
  classical
  refine Finset.card_lt_card ((Finset.ssubset_iff_of_subset fun c hc => ?_).mpr ⟨b, ?_, ?_⟩)
  · obtain ⟨hmem, hbc⟩ := Finset.mem_filter.mp hc
    exact Finset.mem_filter.mpr ⟨hmem, .head hab hbc⟩
  · obtain ⟨e, he, rfl, hb⟩ := hab
    exact Finset.mem_filter.mpr
      ⟨List.mem_toFinset.mpr (List.mem_flatMap.mpr ⟨e, he, hb⟩), .single ⟨e, he, rfl, hb⟩⟩
  · exact fun hb => hacyclic b (Finset.mem_filter.mp hb).2

theorem reach_le (outEdges : EdgeDict) (a : Nat) :
    reach outEdges a ≤ (outEdges.flatMap Prod.snd).length := by
  classical
  exact (Finset.card_filter_le _ _).trans (List.toFinset_card_le _)

theorem affectedModelIds_total {outEdges : EdgeDict} (hacyclic : Acyclic (Edge outEdges)) {fuel : Nat}
    {newlyAdd : List Nat} (hne : newlyAdd ≠ []) (hfuel : ∀ a ∈ newlyAdd, reach outEdges a < fuel) :
    ∃ affected, affectedModelIds outEdges fuel newlyAdd = some affected := by
  induction fuel generalizing newlyAdd with
  | zero =>
    obtain ⟨a, ha⟩ := List.exists_mem_of_ne_nil _ hne
    exact absurd (hfuel a ha) (Nat.not_lt_zero _)
  | succ fuel ih =>
    rw [affectedModelIds]
    by_cases hnil : newlyAdd.flatMap (outModelIds outEdges) = []
    · exact ⟨[], if_pos hnil⟩
    · have hnext : ∀ b ∈ newlyAdd.flatMap (outModelIds outEdges), reach outEdges b < fuel := by
        intro b hb
        obtain ⟨a, ha, hab⟩ := List.mem_flatMap.mp hb
        have hless := reach_lt hacyclic (edge_of_mem_outModelIds hab)
        exact lt_of_lt_of_le hless (Nat.le_of_lt_succ (hfuel a ha))
      obtain ⟨affected, haffected⟩ := ih hnil hnext
      exact ⟨_, by rw [if_neg hnil, haffected]; rfl⟩

/-! ## One extension -/

/-- The models and keys of a group. -/
def idents (planGroup : List ExecPlan) : List (Nat × PlanKey) := planGroup.map ExecPlan.ident

theorem idents_append (planGroup planGroup' : List ExecPlan) :
    idents (planGroup ++ planGroup') = idents planGroup ++ idents planGroup' := List.map_append

section

variable {models : ModelTable} {totGpuNum : Nat} {bytePerGpu : ℚ} {goodKeys : List PlanKey}

theorem copyAffected_fst (affected : List Nat) (planGroup plans : List ExecPlan)
    (acc : List ExecPlan × UniqExecPlanMapping) :
    (copyAffected models affected planGroup plans acc).1 = acc.1 ++ plans := by
  induction plans generalizing acc with
  | nil => exact (List.append_nil _).symm
  | cons plan plans ih =>
    rw [copyAffected]
    split
    · refine (ih _).trans ?_
      show acc.1 ++ [plan] ++ plans = acc.1 ++ plan :: plans
      rw [List.append_assoc, List.singleton_append]
    · refine (ih _).trans ?_
      show acc.1 ++ [plan] ++ plans = acc.1 ++ plan :: plans
      rw [List.append_assoc, List.singleton_append]

/-- The group stays the same, up to copies. -/
theorem updatePlanGroup_ok (planGroup : List ExecPlan) (newExecPlan : ExecPlan)
    (mapping : UniqExecPlanMapping) : ∃ mapping',
      updatePlanGroup models planGroup newExecPlan mapping = some (planGroup, mapping') := by
  obtain ⟨affected, haffected⟩ := affectedModelIds_total models.acyclic
    (List.cons_ne_nil newExecPlan.modelId []) fun a _ =>
      Nat.lt_succ_of_le (reach_le models.outEdges a)
  rw [updatePlanGroup, haffected]
  by_cases hnil : affected = []
  · exact ⟨mapping, if_pos hnil⟩
  · refine ⟨(copyAffected models affected planGroup planGroup ([], mapping)).2, ?_⟩
    refine (if_neg hnil).trans (congrArg some (Prod.ext ?_ rfl))
    rw [copyAffected_fst, List.nil_append]

/-- A plan object from the table has the model and the key of the candidate. -/
theorem ident_planToUse (planGroup : List ExecPlan) (execPlan : ExecPlan)
    (mapping : UniqExecPlanMapping) :
    (planToUse models planGroup execPlan mapping).1.ident = execPlan.ident := by
  unfold planToUse
  split
  · rename_i plan pathPlans hlookup
    exact UniqExecPlanMapping.ident_of_lookup hlookup
      (getLast?_getPathKey models planGroup execPlan)
  · rfl

theorem extendPlanGroup_ok (planGroup : List ExecPlan)
    (acc : List (List ExecPlan) × UniqExecPlanMapping) (execPlan : ExecPlan) :
    ∃ new mapping', extendPlanGroup models totGpuNum bytePerGpu goodKeys planGroup acc execPlan =
        some (acc.1 ++ new, mapping') ∧
      new.map idents = if canExtend totGpuNum bytePerGpu goodKeys planGroup execPlan then
        [idents planGroup ++ [execPlan.ident]] else [] := by
  rw [extendPlanGroup]
  by_cases hcan : canExtend totGpuNum bytePerGpu goodKeys planGroup execPlan = true
  · rw [if_pos hcan, if_pos hcan]
    obtain ⟨mapping', hupdate⟩ := updatePlanGroup_ok planGroup
      (planToUse models planGroup execPlan acc.2).1 (planToUse models planGroup execPlan acc.2).2
    refine ⟨[planGroup ++ [(planToUse models planGroup execPlan acc.2).1]], mapping', ?_, ?_⟩
    · show (updatePlanGroup models planGroup (planToUse models planGroup execPlan acc.2).1
        (planToUse models planGroup execPlan acc.2).2).bind _ = _
      rw [hupdate]
      rfl
    · rw [List.map_singleton, idents_append, idents, idents, List.map_singleton, ident_planToUse]
  · rw [if_neg hcan, if_neg hcan]
    exact ⟨[], acc.2, by rw [List.append_nil], rfl⟩

/-- The candidates of one model, for one group. -/
theorem foldlM_extendPlanGroup (planGroup execPlans : List ExecPlan)
    (acc : List (List ExecPlan) × UniqExecPlanMapping) :
    ∃ new mapping', execPlans.foldlM
        (extendPlanGroup models totGpuNum bytePerGpu goodKeys planGroup) acc =
        some (acc.1 ++ new, mapping') ∧
      new.map idents =
        (execPlans.filter (canExtend totGpuNum bytePerGpu goodKeys planGroup)).map
          fun p => idents planGroup ++ [p.ident] := by
  induction execPlans generalizing acc with
  | nil => exact ⟨[], acc.2, by rw [List.append_nil]; rfl, rfl⟩
  | cons p execPlans ih =>
    obtain ⟨new, mapping, hp, hnew⟩ := extendPlanGroup_ok
      planGroup acc p
    obtain ⟨rest, mapping', hrest, hmap⟩ := ih (acc.1 ++ new, mapping)
    refine ⟨new ++ rest, mapping', ?_, ?_⟩
    · rw [List.foldlM_cons, hp]
      exact hrest.trans (by rw [List.append_assoc])
    · rw [List.map_append, hnew, hmap, List.filter_cons]
      split <;> rfl

/-- All groups. -/
theorem foldlM_planGroups (execPlans : List ExecPlan) (planGroups : List (List ExecPlan))
    (acc : List (List ExecPlan) × UniqExecPlanMapping) :
    ∃ new mapping', planGroups.foldlM (fun acc planGroup => execPlans.foldlM
        (extendPlanGroup models totGpuNum bytePerGpu goodKeys planGroup) acc) acc =
        some (acc.1 ++ new, mapping') ∧
      new.map idents = planGroups.flatMap fun planGroup =>
        (execPlans.filter (canExtend totGpuNum bytePerGpu goodKeys planGroup)).map
          fun p => idents planGroup ++ [p.ident] := by
  induction planGroups generalizing acc with
  | nil => exact ⟨[], acc.2, by rw [List.append_nil]; rfl, rfl⟩
  | cons planGroup planGroups ih =>
    obtain ⟨new, mapping, hg, hnew⟩ := foldlM_extendPlanGroup
      planGroup
      execPlans acc
    obtain ⟨rest, mapping', hrest, hmap⟩ := ih (acc.1 ++ new, mapping)
    refine ⟨new ++ rest, mapping', ?_, ?_⟩
    · rw [List.foldlM_cons, hg]
      exact hrest.trans (by rw [List.append_assoc])
    · rw [List.map_append, hnew, hmap, List.flatMap_cons]

end

/-! ## Combinations -/

/-- At most one good plan for each model, in the order of the models. -/
inductive Combination : List (List ExecPlan × List PlanKey) → List ExecPlan → Prop
  | nil : Combination [] []
  | skip {c : List ExecPlan × List PlanKey} {lists : List (List ExecPlan × List PlanKey)}
      {g : List ExecPlan} : Combination lists g → Combination (c :: lists) g
  | take {c : List ExecPlan × List PlanKey} {lists : List (List ExecPlan × List PlanKey)}
      {g : List ExecPlan} {p : ExecPlan} (hp : p ∈ c.1) (hgood : p.getKey ∈ c.2) :
      Combination lists g → Combination (c :: lists) (p :: g)

/-- The group needs no more GPUs than there are, and all its beginnings pass the memory test. -/
structure Fits (totGpuNum : Nat) (bytePerGpu : ℚ) (g : List ExecPlan) : Prop where
  workers : getTotWorkerNum g ≤ totGpuNum
  memory : ∀ g', g' <+: g → hasValidMemory g' bytePerGpu = true

/-- The candidates: for every model its plans, which use no cache GPUs and have distinct keys, and
the keys that are good. -/
structure CandidateLists where
  lists : List (List ExecPlan × List PlanKey)
  oneModel : ∀ c ∈ lists, ∀ p ∈ c.1, ∀ q ∈ c.1, p.modelId = q.modelId
  models : lists.Pairwise fun c d => ∀ p ∈ c.1, ∀ q ∈ d.1, p.modelId ≠ q.modelId
  keys : ∀ c ∈ lists, (c.1.map ExecPlan.getKey).Nodup
  noCache : ∀ c ∈ lists, ∀ p ∈ c.1, p.cacheGpuNum = 0

section

variable {lists : List (List ExecPlan × List PlanKey)} {c : List ExecPlan × List PlanKey}
  {g : List ExecPlan}

theorem Combination.mem (h : Combination lists g) {p : ExecPlan} (hp : p ∈ g) :
    ∃ c ∈ lists, p ∈ c.1 := by
  induction h with
  | nil => cases hp
  | skip _ ih =>
    obtain ⟨c, hc, hpc⟩ := ih hp
    exact ⟨c, .tail _ hc, hpc⟩
  | @take c _ _ _ hpc _ _ ih =>
    rcases List.mem_cons.mp hp with rfl | hp
    · exact ⟨c, .head _, hpc⟩
    · obtain ⟨d, hd, hpd⟩ := ih hp
      exact ⟨d, .tail _ hd, hpd⟩

/-- The last model either gives a plan or not. -/
theorem combination_concat : Combination (lists ++ [c]) g ↔ Combination lists g ∨
    ∃ g₀ p, g = g₀ ++ [p] ∧ Combination lists g₀ ∧ p ∈ c.1 ∧ p.getKey ∈ c.2 := by
  constructor
  · intro h
    induction lists generalizing g with
    | nil =>
      cases h with
      | skip h => exact .inl h
      | take hp hgood h =>
        cases h
        exact .inr ⟨[], _, rfl, .nil, hp, hgood⟩
    | cons d lists ih =>
      cases h with
      | skip h =>
        rcases ih h with h | ⟨g₀, p, rfl, h, hp⟩
        · exact .inl h.skip
        · exact .inr ⟨g₀, p, rfl, h.skip, hp⟩
      | take hq hgood h =>
        rcases ih h with h | ⟨g₀, p, rfl, h, hp⟩
        · exact .inl (h.take hq hgood)
        · exact .inr ⟨_ :: g₀, p, rfl, h.take hq hgood, hp⟩
  · have hskip : ∀ {lists g}, Combination lists g → Combination (lists ++ [c]) g := by
      intro lists g h
      induction h with
      | nil => exact .skip .nil
      | skip _ ih => exact ih.skip
      | take hp hgood _ ih => exact ih.take hp hgood
    rintro (h | ⟨g₀, p, rfl, h, hp, hgood⟩)
    · exact hskip h
    · induction h with
      | nil => exact .take hp hgood .nil
      | skip _ ih => exact ih.skip
      | take hq hgood' _ ih => exact ih.take hq hgood'

/-! ## Groups with equal idents -/

variable {totGpuNum : Nat} {bytePerGpu : ℚ} {g₀ : List ExecPlan}

theorem noCache_of_idents (h : idents g = idents g₀) (hcache : ∀ p ∈ g₀, p.cacheGpuNum = 0) :
    ∀ p ∈ g, p.cacheGpuNum = 0 := by
  intro p hp
  have hmem : p.ident ∈ idents g₀ := h ▸ List.mem_map_of_mem hp
  obtain ⟨q, hq, heq⟩ := List.mem_map.mp hmem
  have hkey : q.cacheGpuNum = p.cacheGpuNum := congrArg (fun i => i.2.cacheGpuNum) heq
  rw [← hkey, hcache q hq]

theorem Fits.of_append {g' : List ExecPlan} (h : Fits totGpuNum bytePerGpu (g ++ g')) :
    Fits totGpuNum bytePerGpu g where
  workers := (Nat.le_add_right _ _).trans (getTotWorkerNum_append g g' ▸ h.workers)
  memory g'' hg'' := h.memory g'' (hg''.trans (List.prefix_append g g'))

/-- For a group that fits, the test of an extension is whether the extension fits. -/
theorem canExtend_iff (hcache : ∀ p ∈ g₀, p.cacheGpuNum = 0) (hident : idents g = idents g₀)
    (hfits : Fits totGpuNum bytePerGpu g₀) {p : ExecPlan} (hp : p.cacheGpuNum = 0) :
    canExtend totGpuNum bytePerGpu c.2 g p = true ↔
      p.getKey ∈ c.2 ∧ Fits totGpuNum bytePerGpu (g₀ ++ [p]) := by
  have hident' : (g ++ [p]).map ExecPlan.ident = (g₀ ++ [p]).map ExecPlan.ident := by
    show idents (g ++ [p]) = idents (g₀ ++ [p])
    rw [idents_append, idents_append, hident]
  have hcache' : ∀ q ∈ g ++ [p], q.cacheGpuNum = 0 := fun q hq => by
    rcases List.mem_append.mp hq with hq | hq
    · exact noCache_of_idents hident hcache q hq
    · rw [List.mem_singleton.mp hq, hp]
  have hpos := getTotWorkerNum_singleton_pos p
  simp only [canExtend, Bool.and_eq_true, decide_eq_true_eq, isValidExecPlanCombination,
    getTotWorkerNum_congr hident, getTotWorkerNum_congr hident', hasValidMemory_congr hident' hcache',
    getTotWorkerNum_append]
  constructor
  · rintro ⟨⟨-, hgood⟩, hvalid⟩
    have hle : getTotWorkerNum g₀ + getTotWorkerNum [p] ≤ totGpuNum := by
      by_contra hlt
      rw [if_pos (Nat.lt_of_not_le hlt)] at hvalid
      cases hvalid
    rw [if_neg (Nat.not_lt.mpr hle)] at hvalid
    refine ⟨hgood, by rw [getTotWorkerNum_append]; exact hle, fun g' hg' => ?_⟩
    rcases List.prefix_concat_iff.mp hg' with rfl | hg'
    · exact hvalid
    · exact hfits.memory g' hg'
  · rintro ⟨hgood, hworkers, hmemory⟩
    rw [getTotWorkerNum_append] at hworkers
    refine ⟨⟨by simp; omega, hgood⟩, ?_⟩
    rw [if_neg (Nat.not_lt.mpr hworkers)]
    exact hmemory _ List.prefix_rfl

/-! ## One depth -/

/-- The groups after some models: the combinations of these that fit, each once. -/
structure Enumerated (totGpuNum : Nat) (bytePerGpu : ℚ)
    (lists : List (List ExecPlan × List PlanKey)) (planGroups : List (List ExecPlan)) : Prop where
  nodup : (planGroups.map idents).Nodup
  mem_iff : ∀ i, i ∈ planGroups.map idents ↔
    ∃ g, Combination lists g ∧ idents g = i ∧ Fits totGpuNum bytePerGpu g

variable {planGroups : List (List ExecPlan)}

theorem Enumerated.exists_combination (h : Enumerated totGpuNum bytePerGpu lists planGroups)
    (hg : g ∈ planGroups) :
    ∃ g₀, Combination lists g₀ ∧ idents g = idents g₀ ∧ Fits totGpuNum bytePerGpu g₀ := by
  obtain ⟨g₀, hcomb, hident, hfits⟩ := (h.mem_iff _).mp (List.mem_map_of_mem hg)
  exact ⟨g₀, hcomb, hident.symm, hfits⟩

/-- Of the extensions of the groups, none is there twice. -/
theorem Enumerated.nodup_extensions (h : Enumerated totGpuNum bytePerGpu lists planGroups)
    (hkeys : (c.1.map ExecPlan.getKey).Nodup) (p : List ExecPlan → ExecPlan → Bool) :
    (planGroups.flatMap fun g => (c.1.filter (p g)).map fun q => idents g ++ [q.ident]).Nodup := by
  refine List.nodup_flatMap.mpr ⟨fun g _ => ?_, ?_⟩
  · have hidents : ((c.1.filter (p g)).map ExecPlan.ident).Nodup := by
      have hsub := hkeys.sublist ((List.filter_sublist (p := p g)).map ExecPlan.getKey)
      have hsnd : ((c.1.filter (p g)).map ExecPlan.ident).map Prod.snd =
          (c.1.filter (p g)).map ExecPlan.getKey := by
        rw [List.map_map]
        rfl
      exact List.Nodup.of_map Prod.snd (hsnd ▸ hsub)
    have hmap : (c.1.filter (p g)).map (fun q => idents g ++ [q.ident]) =
        ((c.1.filter (p g)).map ExecPlan.ident).map fun i => idents g ++ [i] := by
      rw [List.map_map]
      rfl
    rw [hmap]
    exact hidents.map fun i j hij => List.singleton_injective (List.append_cancel_left hij)
  · refine (List.pairwise_map.mp h.nodup).imp fun {g g'} hne i hi hi' => ?_
    obtain ⟨q, -, rfl⟩ := List.mem_map.mp hi
    obtain ⟨q', -, heq⟩ := List.mem_map.mp hi'
    exact hne (List.append_inj_left' heq rfl).symm

/-- The next model: its plans extend the groups, and these stay. -/
theorem Enumerated.append (h : Enumerated totGpuNum bytePerGpu lists planGroups)
    (hcache : ∀ d ∈ lists ++ [c], ∀ p ∈ d.1, p.cacheGpuNum = 0)
    (hmodels : ∀ d ∈ lists, ∀ p ∈ d.1, ∀ q ∈ c.1, p.modelId ≠ q.modelId)
    (hkeys : (c.1.map ExecPlan.getKey).Nodup) {new : List (List ExecPlan)}
    (hnew : new.map idents = planGroups.flatMap fun g =>
      (c.1.filter (canExtend totGpuNum bytePerGpu c.2 g)).map fun p => idents g ++ [p.ident]) :
    Enumerated totGpuNum bytePerGpu (lists ++ [c]) (planGroups ++ new) := by
  have hcomb : ∀ {g₀}, Combination lists g₀ → ∀ p ∈ g₀, p.cacheGpuNum = 0 := fun hg₀ p hp => by
    obtain ⟨d, hd, hpd⟩ := hg₀.mem hp
    exact hcache d (List.mem_append_left _ hd) p hpd
  have hlast : ∀ p ∈ c.1, p.cacheGpuNum = 0 :=
    hcache c (List.mem_append_right _ (List.mem_singleton_self c))
  constructor
  · rw [List.map_append, hnew]
    refine List.nodup_append.mpr ⟨h.nodup, h.nodup_extensions hkeys _, ?_⟩
    -- A new group ends with a plan of the new model, an old one has none.
    rintro i hi j hj rfl
    obtain ⟨g, hg, hj⟩ := List.mem_flatMap.mp hj
    obtain ⟨q, hq, rfl⟩ := List.mem_map.mp hj
    obtain ⟨g₁, hg₁, hident⟩ := List.mem_map.mp hi
    obtain ⟨g₀, hg₀, hident₀, -⟩ := h.exists_combination hg₁
    have hmem : q.ident ∈ idents g₀ := by
      rw [← hident₀, hident]
      exact List.mem_append_right _ (List.mem_singleton_self _)
    obtain ⟨p, hp, heq⟩ := List.mem_map.mp hmem
    obtain ⟨d, hd, hpd⟩ := hg₀.mem hp
    exact hmodels d hd p hpd q (List.mem_filter.mp hq).1 (congrArg Prod.fst heq)
  · intro i
    rw [List.map_append, List.mem_append, hnew]
    constructor
    · rintro (hi | hi)
      · obtain ⟨g₀, hg₀, hident, hfits⟩ := (h.mem_iff i).mp hi
        exact ⟨g₀, combination_concat.mpr (.inl hg₀), hident, hfits⟩
      · obtain ⟨g, hg, hi⟩ := List.mem_flatMap.mp hi
        obtain ⟨p, hp, rfl⟩ := List.mem_map.mp hi
        obtain ⟨hpc, hcan⟩ := List.mem_filter.mp hp
        obtain ⟨g₀, hg₀, hident, hfits⟩ := h.exists_combination hg
        obtain ⟨hgood, hfits'⟩ :=
          (canExtend_iff (hcomb hg₀) hident hfits (hlast p hpc)).mp hcan
        refine ⟨g₀ ++ [p], combination_concat.mpr (.inr ⟨g₀, p, rfl, hg₀, hpc, hgood⟩), ?_, hfits'⟩
        rw [idents_append, hident]
        rfl
    · rintro ⟨g', hg', rfl, hfits'⟩
      rcases combination_concat.mp hg' with hg' | ⟨g₀, p, rfl, hg₀, hpc, hgood⟩
      · exact .inl ((h.mem_iff _).mpr ⟨g', hg', rfl, hfits'⟩)
      · have hfits := hfits'.of_append
        obtain ⟨g, hg, hident⟩ :=
          List.mem_map.mp ((h.mem_iff (idents g₀)).mpr ⟨g₀, hg₀, rfl, hfits⟩)
        have hcan := (canExtend_iff (hcomb hg₀) hident hfits (hlast p hpc)).mpr ⟨hgood, hfits'⟩
        refine .inr (List.mem_flatMap.mpr ⟨g, hg, List.mem_map.mpr ⟨p, ?_, ?_⟩⟩)
        · exact List.mem_filter.mpr ⟨hpc, hcan⟩
        · rw [hident, idents_append]
          rfl

end

/-! ## All depths -/

theorem appendExecPlan_enumerated {models : ModelTable} {totGpuNum : Nat} {bytePerGpu : ℚ}
    (rest : List (List ExecPlan × List PlanKey)) :
    ∀ (lists : List (List ExecPlan × List PlanKey)) (planGroups : List (List ExecPlan))
      (mapping : UniqExecPlanMapping),
    (∀ d ∈ lists ++ rest, ∀ p ∈ d.1, p.cacheGpuNum = 0) →
    (lists ++ rest).Pairwise (fun c d => ∀ p ∈ c.1, ∀ q ∈ d.1, p.modelId ≠ q.modelId) →
    (∀ c ∈ rest, (c.1.map ExecPlan.getKey).Nodup) →
    Enumerated totGpuNum bytePerGpu lists planGroups →
    ∃ planGroups' mapping', appendExecPlan models totGpuNum bytePerGpu rest planGroups mapping =
        some (planGroups', mapping') ∧
      Enumerated totGpuNum bytePerGpu (lists ++ rest) planGroups' := by
  induction rest with
  | nil =>
    intro lists planGroups mapping _ _ _ h
    exact ⟨planGroups, mapping, rfl, by rwa [List.append_nil]⟩
  | cons c rest ih =>
    intro lists planGroups mapping hcache hmodels hkeys h
    obtain ⟨new, mapping', hfold, hnew⟩ := foldlM_planGroups
      c.1 planGroups
      ([], mapping)
    have hsplit : lists ++ c :: rest = lists ++ [c] ++ rest := by
      rw [List.append_assoc, List.singleton_append]
    have hnext : Enumerated totGpuNum bytePerGpu (lists ++ [c]) (planGroups ++ new) := by
      refine h.append (fun d hd => hcache d ?_) (fun d hd p hp q hq => ?_)
        (hkeys c List.mem_cons_self) hnew
      · rw [hsplit]
        exact List.mem_append_left _ hd
      · exact (List.pairwise_append.mp hmodels).2.2 d hd c List.mem_cons_self p hp q hq
    rw [hsplit] at hcache hmodels ⊢
    obtain ⟨planGroups', mapping'', hrest, henum⟩ := ih (lists ++ [c]) (planGroups ++ new) mapping'
      hcache hmodels (fun d hd => hkeys d (List.mem_cons_of_mem _ hd)) hnext
    refine ⟨planGroups', mapping'', ?_, henum⟩
    rw [appendExecPlan, hfold]
    exact hrest

/-- From the empty group the enumeration reaches every combination that fits, once, in the order of
the models, and nothing else; the plan objects in the groups, and every one that is looked up for a
candidate, have the models and keys of the candidates. -/
theorem appendExecPlan_exact (models : ModelTable) (totGpuNum : Nat) (bytePerGpu : ℚ)
    (cands : CandidateLists) (mapping : UniqExecPlanMapping) :
    (∃ planGroups mapping', appendExecPlan models totGpuNum bytePerGpu cands.lists [[]] mapping =
        some (planGroups, mapping') ∧
      (planGroups.map idents).Nodup ∧
      ∀ i, i ∈ planGroups.map idents ↔
        ∃ g, Combination cands.lists g ∧ idents g = i ∧ Fits totGpuNum bytePerGpu g) ∧
    ∀ planGroup execPlan mapping,
      (planToUse models planGroup execPlan mapping).1.modelId = execPlan.modelId ∧
      (planToUse models planGroup execPlan mapping).1.getKey = execPlan.getKey := by
  have hempty : Enumerated totGpuNum bytePerGpu [] [[]] := by
    refine ⟨List.nodup_singleton _, fun i => ?_⟩
    rw [List.map_singleton, List.mem_singleton]
    constructor
    · rintro rfl
      refine ⟨[], .nil, rfl, Nat.zero_le _, fun g' hg' => ?_⟩
      rw [List.prefix_nil.mp hg']
      rfl
    · rintro ⟨g, hg, rfl, -⟩
      cases hg
      rfl
  obtain ⟨planGroups, mapping', hrun, henum⟩ := appendExecPlan_enumerated
    cands.lists [] [[]] mapping cands.noCache cands.models cands.keys hempty
  refine ⟨⟨planGroups, mapping', hrun, henum.nodup, henum.mem_iff⟩,
    fun planGroup execPlan mapping => ?_⟩
  have hident : (planToUse models planGroup execPlan mapping).1.ident = execPlan.ident :=
    ident_planToUse planGroup execPlan mapping
  exact ⟨congrArg Prod.fst hident, congrArg Prod.snd hident⟩

/-- Model 0 reads from model 1, which comes after it in the enumeration. -/
def lateInputModels : ModelTable where
  inputModelIds := fun modelId => if modelId = 0 then [1] else []
  baseModelIds := fun modelId => [modelId]
  outEdges := [(1, [0])]
  acyclic := .of_lt (1 - ·) fun a b ⟨e, he, ha, hb⟩ => by
    rw [List.mem_singleton.mp he] at ha hb
    rw [← ha, List.mem_singleton.mp hb]
    decide

/-- A plan that takes nine tenths of the memory of its GPUs. -/
def candidatePlan (modelId numWorker : Nat) (hw : 0 < numWorker) : ExecPlan :=
  ⟨modelId, numWorker, 2, 0, 9 / 10, 1, 0, hw, Nat.one_pos⟩

theorem three_pos : 0 < 3 := Nat.succ_pos 2

theorem four_pos : 0 < 4 := Nat.succ_pos 3

/-- Three candidates for model 0, of which one is not good, and two for model 1. -/
def lateInputCandidates : CandidateLists where
  lists :=
    [([candidatePlan 0 1 Nat.one_pos, candidatePlan 0 2 Nat.two_pos, candidatePlan 0 3 three_pos],
      [(candidatePlan 0 1 Nat.one_pos).getKey, (candidatePlan 0 2 Nat.two_pos).getKey]),
    ([candidatePlan 1 2 Nat.two_pos, candidatePlan 1 4 four_pos],
      [(candidatePlan 1 2 Nat.two_pos).getKey, (candidatePlan 1 4 four_pos).getKey])]
  oneModel := by decide
  models := by decide
  keys := by decide
  noCache := by decide

/-- On four GPUs all good plans of model 0 fit beside the smaller plan of model 1, and none beside
the larger one. -/
theorem appendExecPlan_exact_lateInput : ∃ planGroups mapping',
    appendExecPlan lateInputModels 4 100 lateInputCandidates.lists [[]] .empty =
        some (planGroups, mapping') ∧
      (planGroups.map idents).Nodup ∧
      (planGroups.map fun g => g.map fun p => (p.modelId, p.numWorker)) =
        [[], [(0, 1)], [(0, 2)], [(1, 2)], [(1, 4)], [(0, 1), (1, 2)], [(0, 2), (1, 2)]] ∧
      ∀ i, i ∈ planGroups.map idents ↔
        ∃ g, Combination lateInputCandidates.lists g ∧ idents g = i ∧ Fits 4 100 g := by
  obtain ⟨⟨planGroups, mapping', hrun, hnodup, hmem⟩, -⟩ :=
    appendExecPlan_exact lateInputModels 4 100 lateInputCandidates .empty
  refine ⟨planGroups, mapping', hrun, hnodup, ?_, hmem⟩
  have hgroups : (appendExecPlan lateInputModels 4 100 lateInputCandidates.lists [[]] .empty).map
      (fun out => out.1.map fun g => g.map fun p => (p.modelId, p.numWorker)) =
      some [[], [(0, 1)], [(0, 2)], [(1, 2)], [(1, 4)], [(0, 1), (1, 2)], [(0, 2), (1, 2)]] := by
    decide +kernel
  rw [hrun, Option.map_some] at hgroups
  exact Option.some.inj hgroups

end Mil.Search
