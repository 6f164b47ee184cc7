import Mathlib.Algebra.GroupWithZero.Nat
import Mathlib.Algebra.Order.BigOperators.Group.List
import Mathlib.Algebra.Order.Ring.Nat
import Mathlib.Data.List.Flatten
import Mathlib.Data.List.Lattice
import Mathlib.Data.List.Nodup
import Mathlib.Data.List.Pairwise
import Mathlib.Data.List.Perm.Basic
import Mathlib.Logic.Function.Basic

/-!
# Sharing out a pool

A pool is a list of items, users hold some of them, and some are free. The sharing is *exclusive*
when the items held and the free items together are part of the pool: then no item is held twice,
none is both held and free, and the users hold no more than there is.

Granting free items to a new user, admitting a user whose items are among the free ones, and
dropping users keep a sharing exclusive.
-/

set_option autoImplicit false

namespace Mil.Lib

variable {α ι : Type}

/-- Of different elements of a list, the weights add up to no more than those of the list. -/
theorem sum_map_le_of_subset (f : α → Nat) {xs ys : List α} (hxs : xs.Nodup) (hsub : xs ⊆ ys) :
    (xs.map f).sum ≤ (ys.map f).sum := by
  obtain ⟨mid, hperm, hsublist⟩ := List.subperm_of_subset hxs hsub
  rw [← (hperm.map f).sum_nat]
  exact (hsublist.map f).sum_le_sum fun _ _ => Nat.zero_le _

/-- What the users hold and what is free is part of the pool. -/
def Exclusive (pool : List α) (holds : ι → List α) (users : List ι) (free : List α) : Prop :=
  (users.flatMap holds ++ free).Subperm pool

section

variable {pool : List α} {holds : ι → List α} {users : List ι} {free : List α}

theorem Exclusive.start : Exclusive pool holds [] pool :=
  List.Subperm.refl _

theorem Exclusive.congr {holds' : ι → List α} (h : Exclusive pool holds users free)
    (heq : ∀ u ∈ users, holds' u = holds u) : Exclusive pool holds' users free := by
  rw [Exclusive, List.flatMap_congr heq]
  exact h

/-- Users may be dropped and free items forgotten. -/
theorem Exclusive.mono {users' : List ι} {free' : List α} (h : Exclusive pool holds users free)
    (hu : users'.Subperm users) (hf : free'.Subperm free) : Exclusive pool holds users' free' := by
  obtain ⟨mid, hperm, hsub⟩ := hu
  have hholds : (users'.flatMap holds).Subperm (users.flatMap holds) :=
    (hperm.flatMap_right holds).symm.subperm.trans (hsub.flatMap holds).subperm
  exact (((List.subperm_append_right _).mpr hholds).trans
    ((List.subperm_append_left _).mpr hf)).trans h

theorem Exclusive.nodup (h : Exclusive pool holds users free) (hpool : pool.Nodup) :
    (users.flatMap holds ++ free).Nodup := by
  obtain ⟨mid, hperm, hsub⟩ := h
  exact hperm.nodup_iff.mp (hpool.sublist hsub)

theorem Exclusive.held_subset (h : Exclusive pool holds users free) {u : ι} (hu : u ∈ users) :
    holds u ⊆ pool := fun _ hx =>
  h.subset (List.mem_append_left _ (List.mem_flatMap_of_mem hu hx))

theorem Exclusive.held_nodup (h : Exclusive pool holds users free) (hpool : pool.Nodup) {u : ι}
    (hu : u ∈ users) : (holds u).Nodup :=
  (List.nodup_flatMap.mp (List.nodup_append.mp (h.nodup hpool)).1).1 u hu

theorem Exclusive.free_nodup (h : Exclusive pool holds users free) (hpool : pool.Nodup) :
    free.Nodup :=
  (List.nodup_append.mp (h.nodup hpool)).2.1

theorem Exclusive.pairwise_disjoint (h : Exclusive pool holds users free) (hpool : pool.Nodup) :
    users.Pairwise fun u v => (holds u).Disjoint (holds v) :=
  (List.nodup_flatMap.mp (List.nodup_append.mp (h.nodup hpool)).1).2

theorem Exclusive.disjoint_of_ne (h : Exclusive pool holds users free) (hpool : pool.Nodup)
    {u v : ι} (hu : u ∈ users) (hv : v ∈ users) (hne : u ≠ v) :
    (holds u).Disjoint (holds v) := by
  have : Std.Symm fun u v => (holds u).Disjoint (holds v) := ⟨fun _ _ hd => List.Disjoint.symm hd⟩
  exact (h.pairwise_disjoint hpool).forall hu hv hne

theorem Exclusive.sum_length_le (h : Exclusive pool holds users free) :
    (users.map fun u => (holds u).length).sum + free.length ≤ pool.length := by
  have := h.length_le
  rwa [List.length_append, List.length_flatMap] at this

/-- A new user is given free items. -/
theorem Exclusive.grant [DecidableEq ι] {given : List α} {u : ι}
    (h : Exclusive pool holds users (given ++ free))
    (hu : u ∉ users) : Exclusive pool (Function.update holds u given) (users ++ [u]) free := by
  have hsame : users.flatMap (Function.update holds u given) = users.flatMap holds :=
    List.flatMap_congr fun v hv => Function.update_of_ne (ne_of_mem_of_not_mem hv hu) _ _
  rw [Exclusive, List.flatMap_append, hsame, List.flatMap_singleton, Function.update_self,
    List.append_assoc]
  exact h

variable [DecidableEq α]

theorem perm_append_filter_notMem {xs ys : List α} (hxs : xs.Nodup) (hys : ys.Nodup)
    (hsub : xs ⊆ ys) : (xs ++ ys.filter (· ∉ xs)).Perm ys := by
  refine (List.perm_ext_iff_of_nodup ?_ hys).mpr fun a => ?_
  · exact List.nodup_append'.mpr ⟨hxs, hys.filter _, fun a ha hb => by simp_all⟩
  · by_cases ha : a ∈ xs
    · simp [ha, hsub ha]
    · simp [ha]

theorem length_le_length_filter_notMem (xs : List α) {ys : List α} (hys : ys.Nodup) :
    ys.length ≤ xs.length + (ys.filter (· ∉ xs)).length := by
  have hsub : ys ⊆ xs ++ ys.filter (· ∉ xs) := fun a ha => by
    by_cases hx : a ∈ xs <;> simp [hx, ha]
  simpa using (List.subperm_of_subset hys hsub).length_le

/-- A user whose items are free keeps them. -/
theorem Exclusive.admit_held {u : ι} (h : Exclusive pool holds users free) (hpool : pool.Nodup)
    (hnodup : (holds u).Nodup) (hsub : holds u ⊆ free) :
    Exclusive pool holds (users ++ [u]) (free.filter (· ∉ holds u)) := by
  have hperm := perm_append_filter_notMem hnodup (h.free_nodup hpool) hsub
  rw [Exclusive, List.flatMap_append, List.flatMap_singleton, List.append_assoc]
  exact (List.Perm.append_left _ hperm).subperm.trans h

/-- The free items may be counted anew: whatever nobody holds. -/
theorem Exclusive.recount (h : Exclusive pool holds users free) (hpool : pool.Nodup) :
    Exclusive pool holds users (pool.filter (· ∉ users.flatMap holds)) := by
  refine List.subperm_of_subset (List.nodup_append'.mpr ⟨?_, hpool.filter _, ?_⟩) ?_
  · exact (List.nodup_append.mp (h.nodup hpool)).1
  · exact fun a ha hb => of_decide_eq_true (List.mem_filter.mp hb).2 ha
  · intro a ha
    rcases List.mem_append.mp ha with ha | ha
    · exact h.subset (List.mem_append_left _ ha)
    · exact List.mem_of_mem_filter ha

end

end Mil.Lib
