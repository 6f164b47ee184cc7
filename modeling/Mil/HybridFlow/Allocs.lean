import Mathlib.Algebra.GroupWithZero.Nat
import Mathlib.Data.List.Forall2
import Mathlib.Order.Bounds.Basic
import Mathlib.Order.Lattice.Nat
import Mil.HybridFlow.Partitions

/-!
# The allocations are the vectors of multiples

`_get_min_alloc` looks for the least power of two for every set of a placement, and its answer does
not depend on what the cache holds already. `enum_allocs` then goes through the multiples of these
numbers, entry by entry, and a vector of them is met once.
-/

set_option autoImplicit false

namespace Mil.HybridFlow

section

variable {test : MemTest} {fullyConnectedGpuUnit totGpuNum : Nat}

/-! ## The least power of two -/

/-- A number of GPUs the models fit on: a power of two up to the unit and up to all GPUs. -/
def Fits (test : MemTest) (fullyConnectedGpuUnit totGpuNum : Nat) (modelIds : List Nat)
    (numWorker : Nat) : Prop :=
  (∃ i, numWorker = 2 ^ i) ∧ numWorker ≤ fullyConnectedGpuUnit ∧ numWorker ≤ totGpuNum ∧
    test.isEnough modelIds numWorker = true

theorem Fits.pos {modelIds : List Nat} {numWorker : Nat}
    (h : Fits test fullyConnectedGpuUnit totGpuNum modelIds numWorker) : 0 < numWorker := by
  obtain ⟨⟨i, rfl⟩, -⟩ := h
  exact Nat.pow_pos Nat.two_pos

theorem takeWhile_le_eq_filter {l : List Nat} (hsorted : l.Pairwise (· < ·)) (bound : Nat) :
    l.takeWhile (· ≤ bound) = l.filter (· ≤ bound) := by
  induction hsorted with
  | nil => rfl
  | @cons x l hx _ ih =>
    rw [List.takeWhile_cons, List.filter_cons]
    by_cases hle : x ≤ bound
    · simp [hle, ih]
    · have hnone : l.filter (· ≤ bound) = [] := List.filter_eq_nil_iff.mpr fun y hy => by
        have hlt := hx y hy
        simp only [decide_eq_true_eq]
        omega
      simp [hle, hnone]

/-- The first hit in a sorted list is the least one. -/
theorem find?_eq_some_iff_isLeast {l : List Nat} (hsorted : l.Pairwise (· < ·)) (p : Nat → Bool)
    (w : Nat) : l.find? p = some w ↔ IsLeast {x | x ∈ l ∧ p x = true} w := by
  induction hsorted with
  | nil => simp [IsLeast]
  | @cons x l hx _ ih =>
    rw [List.find?_cons]
    cases hp : p x with
    | true =>
      have hleast : IsLeast {y | y ∈ x :: l ∧ p y = true} x := by
        refine ⟨⟨List.mem_cons_self, hp⟩, ?_⟩
        rintro y ⟨hy, -⟩
        rcases List.mem_cons.mp hy with rfl | hy
        · exact le_refl y
        · exact (hx y hy).le
      show some x = some w ↔ _
      rw [Option.some_inj]
      exact ⟨fun heq => heq ▸ hleast, fun h => hleast.unique h⟩
    | false =>
      have hsame : {y | y ∈ x :: l ∧ p y = true} = {y | y ∈ l ∧ p y = true} := by
        ext y
        constructor
        · rintro ⟨hy, hpy⟩
          rcases List.mem_cons.mp hy with rfl | hy
          · exact absurd (hp.symm.trans hpy) Bool.false_ne_true
          · exact ⟨hy, hpy⟩
        · exact fun ⟨hy, hpy⟩ => ⟨List.mem_cons_of_mem x hy, hpy⟩
      rw [hsame]
      exact ih

theorem minAllocOf_eq_some_iff (htot : 0 < totGpuNum) (modelIds : List Nat) (w : Nat) :
    minAllocOf test fullyConnectedGpuUnit totGpuNum modelIds = some w ↔
      IsLeast {x | Fits test fullyConnectedGpuUnit totGpuNum modelIds x} w := by
  have hsorted : ((List.range (Nat.log 2 totGpuNum + 1)).map (2 ^ ·)).Pairwise (· < ·) :=
    List.pairwise_map.mpr (List.pairwise_lt_range.imp fun hlt =>
      Nat.pow_lt_pow_right Nat.one_lt_two hlt)
  rw [minAllocOf, takeWhile_le_eq_filter hsorted, find?_eq_some_iff_isLeast (hsorted.filter _)]
  have hsame : ∀ x, (x ∈ ((List.range (Nat.log 2 totGpuNum + 1)).map (2 ^ ·)).filter
      (· ≤ fullyConnectedGpuUnit) ∧ test.isEnough modelIds x = true) ↔
      Fits test fullyConnectedGpuUnit totGpuNum modelIds x := by
    intro x
    rw [List.mem_filter, List.mem_map, decide_eq_true_eq]
    constructor
    · rintro ⟨⟨⟨i, hi, rfl⟩, hunit⟩, henough⟩
      have hi := Nat.lt_succ_iff.mp (List.mem_range.mp hi)
      exact ⟨⟨i, rfl⟩, hunit, (Nat.le_log_iff_pow_le Nat.one_lt_two htot.ne').mp hi, henough⟩
    · rintro ⟨⟨i, rfl⟩, hunit, hle, henough⟩
      have hi := (Nat.le_log_iff_pow_le Nat.one_lt_two htot.ne').mpr hle
      exact ⟨⟨⟨i, List.mem_range.mpr (Nat.lt_succ_of_le hi), rfl⟩, hunit⟩, henough⟩
  simp only [hsame]

theorem minAllocOf_eq_none_iff (htot : 0 < totGpuNum) (modelIds : List Nat) :
    minAllocOf test fullyConnectedGpuUnit totGpuNum modelIds = none ↔
      ∀ w, ¬ Fits test fullyConnectedGpuUnit totGpuNum modelIds w := by
  constructor
  · intro hnone w hw
    -- Of the numbers that fit one is the least.
    have hleast : IsLeast {x | Fits test fullyConnectedGpuUnit totGpuNum modelIds x}
        (sInf {x | Fits test fullyConnectedGpuUnit totGpuNum modelIds x}) :=
      ⟨Nat.sInf_mem ⟨w, hw⟩, fun x hx => Nat.sInf_le hx⟩
    have hsome := (minAllocOf_eq_some_iff htot modelIds _).mpr hleast
    exact absurd (hnone.symm.trans hsome) (by simp)
  · intro hno
    cases hval : minAllocOf test fullyConnectedGpuUnit totGpuNum modelIds with
    | none => rfl
    | some w => exact absurd ((minAllocOf_eq_some_iff htot modelIds w).mp hval).1 (hno w)

/-! ## The least allocation of a placement -/

variable (cache : MinAllocCache test fullyConnectedGpuUnit totGpuNum)

theorem MinAllocCache.get_fst (modelIds : List Nat) :
    (cache.get modelIds).1 = minAllocOf test fullyConnectedGpuUnit totGpuNum modelIds := by
  unfold MinAllocCache.get
  cases hl : @List.lookup _ _ instBEqOfDecidableEq modelIds cache.entries with
  | none => rfl
  | some minAlloc => exact cache.own _ (Lib.Dict.mem_of_lookup hl)

theorem minAllocLoop_eq_some_iff (placement : List (List Nat)) (minAllocs ws : List Nat) :
    (minAllocLoop placement minAllocs cache).1 = some ws ↔ ∃ vs, ws = minAllocs ++ vs ∧
      List.Forall₂ (fun modelIds w =>
        minAllocOf test fullyConnectedGpuUnit totGpuNum modelIds = some w) placement vs ∧
      ws.sum ≤ totGpuNum := by
  induction placement generalizing minAllocs cache with
  | nil =>
    rw [minAllocLoop]
    constructor
    · intro h
      split at h
      · exact absurd h (by simp)
      · next hle =>
        cases h
        exact ⟨[], (List.append_nil _).symm, .nil, Nat.not_lt.mp hle⟩
    · rintro ⟨vs, rfl, hall, hle⟩
      cases hall
      rw [List.append_nil] at hle ⊢
      rw [if_neg (Nat.not_lt.mpr hle)]
  | cons modelIds placement ih =>
    rw [minAllocLoop]
    have hget := cache.get_fst modelIds
    rcases hcache : cache.get modelIds with ⟨val, cache'⟩
    rw [hcache] at hget
    cases val with
    | none =>
      constructor
      · exact fun h => absurd h (by simp)
      · rintro ⟨vs, -, hall, -⟩
        cases hall with
        | cons hval _ => exact absurd (hget.trans hval) (by simp)
    | some w =>
      refine (ih cache' (minAllocs ++ [w])).trans ⟨?_, ?_⟩
      · rintro ⟨vs, rfl, hall, hle⟩
        refine ⟨w :: vs, ?_, .cons hget.symm hall, hle⟩
        rw [List.append_assoc, List.singleton_append]
      · rintro ⟨vs, rfl, hall, hle⟩
        cases hall with
        | @cons _ w' _ vs hval hall =>
          cases hget.trans hval
          refine ⟨vs, ?_, hall, hle⟩
          rw [List.append_assoc, List.singleton_append]

/-- Every entry is the least number of GPUs its set fits on. -/
def Least (test : MemTest) (fullyConnectedGpuUnit totGpuNum : Nat) (placement : List (List Nat))
    (minAllocs : List Nat) : Prop :=
  List.Forall₂ (fun modelIds w =>
    IsLeast {x | Fits test fullyConnectedGpuUnit totGpuNum modelIds x} w) placement minAllocs

theorem Least.length_le_sum {placement : List (List Nat)} {ws : List Nat}
    (h : Least test fullyConnectedGpuUnit totGpuNum placement ws) :
    placement.length ≤ ws.sum := by
  induction h with
  | nil => exact Nat.le_refl 0
  | cons hw _ ih =>
    have hpos := Fits.pos hw.1
    rw [List.length_cons, List.sum_cons]
    omega

theorem getMinAlloc_eq_some_iff (htot : 0 < totGpuNum) (placement : List (List Nat))
    (ws : List Nat) : (getMinAlloc placement cache).1 = some ws ↔
      Least test fullyConnectedGpuUnit totGpuNum placement ws ∧ ws.sum ≤ totGpuNum := by
  have hloop : (minAllocLoop placement [] cache).1 = some ws ↔
      Least test fullyConnectedGpuUnit totGpuNum placement ws ∧ ws.sum ≤ totGpuNum := by
    simp only [minAllocLoop_eq_some_iff, List.nil_append, minAllocOf_eq_some_iff htot]
    exact ⟨fun ⟨_, heq, h⟩ => heq ▸ h, fun h => ⟨ws, rfl, h⟩⟩
  rw [getMinAlloc]
  split
  · next hlt =>
    -- More sets than GPUs: every set needs one at least.
    refine ⟨fun h => absurd h (by simp), fun ⟨hleast, hle⟩ => ?_⟩
    exact absurd (hleast.length_le_sum.trans hle) (Nat.not_le.mpr hlt)
  · exact hloop

theorem exists_least (htot : 0 < totGpuNum) {placement : List (List Nat)}
    (hall : ∀ modelIds ∈ placement, ∃ w, Fits test fullyConnectedGpuUnit totGpuNum modelIds w) :
    ∃ ws, Least test fullyConnectedGpuUnit totGpuNum placement ws := by
  induction placement with
  | nil => exact ⟨[], .nil⟩
  | cons modelIds placement ih =>
    obtain ⟨ws, hws⟩ := ih fun m hm => hall m (List.mem_cons_of_mem _ hm)
    obtain ⟨w, hw⟩ := hall modelIds List.mem_cons_self
    cases hval : minAllocOf test fullyConnectedGpuUnit totGpuNum modelIds with
    | none => exact absurd hw ((minAllocOf_eq_none_iff htot modelIds).mp hval w)
    | some w' => exact ⟨w' :: ws, .cons ((minAllocOf_eq_some_iff htot modelIds w').mp hval) hws⟩

theorem Least.unique {placement : List (List Nat)} {ws ws' : List Nat}
    (h : Least test fullyConnectedGpuUnit totGpuNum placement ws)
    (h' : Least test fullyConnectedGpuUnit totGpuNum placement ws') : ws = ws' := by
  induction h generalizing ws' with
  | nil => cases h'; rfl
  | cons hw _ ih =>
    cases h' with
    | cons hw' hrest => rw [hw.unique hw', ih hrest]

theorem Least.exists_fits {placement : List (List Nat)} {ws : List Nat}
    (h : Least test fullyConnectedGpuUnit totGpuNum placement ws) :
    ∀ modelIds ∈ placement, ∃ w, Fits test fullyConnectedGpuUnit totGpuNum modelIds w := by
  induction h with
  | nil => exact fun m hm => absurd hm List.not_mem_nil
  | cons hw _ ih =>
    intro m hm
    rcases List.mem_cons.mp hm with rfl | hm
    · exact ⟨_, hw.1⟩
    · exact ih m hm

theorem getMinAlloc_eq_none_iff (htot : 0 < totGpuNum) (placement : List (List Nat)) :
    (getMinAlloc placement cache).1 = none ↔
      (∃ modelIds ∈ placement, ∀ w, ¬ Fits test fullyConnectedGpuUnit totGpuNum modelIds w) ∨
        ∃ ws, Least test fullyConnectedGpuUnit totGpuNum placement ws ∧ totGpuNum < ws.sum := by
  constructor
  · intro hnone
    by_cases hall : ∀ modelIds ∈ placement,
        ∃ w, Fits test fullyConnectedGpuUnit totGpuNum modelIds w
    · obtain ⟨ws, hws⟩ := exists_least htot hall
      refine .inr ⟨ws, hws, Nat.not_le.mp fun hle => ?_⟩
      have hsome := (getMinAlloc_eq_some_iff cache htot placement ws).mpr ⟨hws, hle⟩
      exact absurd (hnone.symm.trans hsome) (by simp)
    · left
      push Not at hall
      exact hall
  · intro h
    cases hval : (getMinAlloc placement cache).1 with
    | none => rfl
    | some ws =>
      obtain ⟨hws, hle⟩ := (getMinAlloc_eq_some_iff cache htot placement ws).mp hval
      rcases h with ⟨m, hm, hno⟩ | ⟨ws', hws', hlt⟩
      · obtain ⟨w, hw⟩ := hws.exists_fits m hm
        exact absurd hw (hno w)
      · rw [hws.unique hws'] at hle
        exact absurd hle (Nat.not_le.mpr hlt)

end

/-! ## The additional allocations -/

theorem sub_sum_append (total : Int) (assigned : List Nat) (machines : Nat) :
    total - (assigned.sum : Int) - (machines : Int) =
      total - ((assigned ++ [machines]).sum : Int) := by
  rw [List.sum_append, List.sum_singleton, Nat.cast_add, Int.sub_sub]

theorem mem_backtrack_iff (total : Int) (minAllocs currentAssignment v : List Nat) :
    v ∈ backtrack total minAllocs currentAssignment (total - (currentAssignment.sum : Int)) ↔
      ∃ more, v = currentAssignment ++ more ∧ List.Forall₂ (· ∣ ·) minAllocs more ∧
        (v.sum : Int) ≤ total := by
  induction minAllocs generalizing currentAssignment with
  | nil =>
    rw [backtrack]
    constructor
    · intro h
      split at h
      · next hle =>
        rw [List.mem_singleton.mp h]
        exact ⟨[], (List.append_nil _).symm, .nil, hle⟩
      · exact absurd h List.not_mem_nil
    · rintro ⟨more, rfl, hall, hle⟩
      cases hall
      rw [List.append_nil] at hle ⊢
      rw [if_pos hle]
      exact List.mem_singleton_self _
  | cons minAlloc minAllocs ih =>
    rw [backtrack, List.mem_flatMap]
    simp only [sub_sum_append, ih, List.append_assoc, List.singleton_append]
    constructor
    · rintro ⟨machines, hmachines, more, rfl, hall, hle⟩
      have hdvd := of_decide_eq_true (List.mem_filter.mp hmachines).2
      exact ⟨machines :: more, rfl, .cons (Nat.dvd_of_mod_eq_zero hdvd) hall, hle⟩
    · rintro ⟨more, rfl, hall, hle⟩
      cases hall with
      | @cons _ machines _ more hdvd hall =>
        refine ⟨machines, List.mem_filter.mpr ⟨List.mem_range.mpr ?_, ?_⟩, more, rfl, hall, hle⟩
        · rw [List.sum_append, List.sum_cons] at hle
          omega
        · exact decide_eq_true (Nat.mod_eq_zero_of_dvd hdvd)

theorem nodup_backtrack (total : Int) (minAllocs currentAssignment : List Nat) :
    (backtrack total minAllocs currentAssignment
      (total - (currentAssignment.sum : Int))).Nodup := by
  induction minAllocs generalizing currentAssignment with
  | nil =>
    rw [backtrack]
    split
    · exact List.nodup_singleton _
    · exact List.nodup_nil
  | cons minAlloc minAllocs ih =>
    rw [backtrack, List.nodup_flatMap]
    refine ⟨fun machines _ => sub_sum_append total _ machines ▸ ih _, ?_⟩
    refine (List.nodup_range.filter _).imp fun {x y} hne v hx hy => hne ?_
    -- The entry after the current assignment tells the branches apart.
    simp only [sub_sum_append, mem_backtrack_iff] at hx hy
    obtain ⟨more, rfl, -⟩ := hx
    obtain ⟨more', heq, -⟩ := hy
    rw [List.append_assoc, List.append_assoc, List.append_cancel_left_eq] at heq
    exact (List.cons.inj heq).1

theorem mem_enumAllocs_iff (totGpuNum : Nat) (minAllocs v : List Nat) :
    v ∈ enumAllocs totGpuNum minAllocs ↔
      List.Forall₂ (· ∣ ·) minAllocs v ∧ (v.sum : Int) ≤ totGpuNum - (minAllocs.sum : Int) := by
  have h := mem_backtrack_iff (totGpuNum - (minAllocs.sum : Int)) minAllocs [] v
  rw [List.sum_nil, Nat.cast_zero, Int.sub_zero] at h
  rw [enumAllocs, h]
  exact ⟨fun ⟨_, heq, h⟩ => by rw [heq] at h ⊢; exact h, fun h => ⟨v, rfl, h⟩⟩

theorem nodup_enumAllocs (totGpuNum : Nat) (minAllocs : List Nat) :
    (enumAllocs totGpuNum minAllocs).Nodup := by
  have h := nodup_backtrack (totGpuNum - (minAllocs.sum : Int)) minAllocs []
  rwa [List.sum_nil, Nat.cast_zero, Int.sub_zero] at h

/-! ## All three -/

/-- Over at least one GPU: the placements are the partitions that pass the tests, the allocation of
every set of a placement is the least one, and the additional allocations are the vectors of
multiples; every one comes once. -/
theorem candidates_enumerated_once (test : MemTest) (fullyConnectedGpuUnit totGpuNum : Nat)
    (htot : 0 < totGpuNum) :
    (∀ collection : List Nat, collection ≠ [] → collection.Nodup →
      (∀ p ∈ getPlacements test fullyConnectedGpuUnit totGpuNum collection,
        p.flatten.Perm collection ∧ Represents collection.toFinset p) ∧
      ((getPlacements test fullyConnectedGpuUnit totGpuNum collection).map partsOf).Nodup ∧
      ∀ parts,
        parts ∈ (getPlacements test fullyConnectedGpuUnit totGpuNum collection).map partsOf ↔
          Lib.IsPartition collection.toFinset parts ∧ parts.card ≤ totGpuNum ∧
            Feasible test fullyConnectedGpuUnit parts) ∧
    (∀ (placement : List (List Nat)) (cache : MinAllocCache test fullyConnectedGpuUnit totGpuNum),
      (∀ ws, (getMinAlloc placement cache).1 = some ws ↔
        Least test fullyConnectedGpuUnit totGpuNum placement ws ∧ ws.sum ≤ totGpuNum) ∧
      ((getMinAlloc placement cache).1 = none ↔
        (∃ modelIds ∈ placement, ∀ w, ¬ Fits test fullyConnectedGpuUnit totGpuNum modelIds w) ∨
          ∃ ws, Least test fullyConnectedGpuUnit totGpuNum placement ws ∧ totGpuNum < ws.sum)) ∧
    ∀ minAllocs : List Nat, (∀ m ∈ minAllocs, 0 < m) →
      (enumAllocs totGpuNum minAllocs).Nodup ∧
        ∀ v, v ∈ enumAllocs totGpuNum minAllocs ↔
          List.Forall₂ (· ∣ ·) minAllocs v ∧
            (v.sum : Int) ≤ totGpuNum - (minAllocs.sum : Int) := by
  refine ⟨fun collection hne hnd => ⟨fun p hp => ?_, nodup_getPlacements hnd, fun parts => ?_⟩,
    fun placement cache => ⟨fun ws => ?_, ?_⟩, fun minAllocs _ => ⟨?_, fun v => ?_⟩⟩
  · exact ⟨perm_flatten_getPlacements p hp, getPlacements_represents hnd p hp⟩
  · exact mem_getPlacements hnd hne htot parts
  · exact getMinAlloc_eq_some_iff cache htot placement ws
  · exact getMinAlloc_eq_none_iff cache htot placement
  · exact nodup_enumAllocs totGpuNum minAllocs
  · exact mem_enumAllocs_iff totGpuNum minAllocs v

/-- Four GPUs in units of two, and models that need half of a GPU each. -/
theorem candidates_enumerated_once_four :
    0 < 4 ∧
      (getPlacements (gpuMemTest (fun _ numWorker => some (1 / (2 * numWorker))) 1) 2 4
        [0, 1, 2]).length = 5 ∧
      ((getPlacements (gpuMemTest (fun _ numWorker => some (1 / (2 * numWorker))) 1) 2 4
        [0, 1, 2]).map partsOf).Nodup ∧ (enumAllocs 4 [1, 2]).Nodup := by
  have h := candidates_enumerated_once
    (gpuMemTest (fun _ numWorker => some (1 / (2 * numWorker))) 1) 2 4 (by decide)
  exact ⟨by decide, by decide +kernel, (h.1 [0, 1, 2] (by decide) (by decide)).2.1,
    (h.2.2 [1, 2] (by decide)).1⟩

end Mil.HybridFlow
