import Mathlib.Data.List.Perm.Basic
import Mathlib.Data.List.Range
import Mathlib.Data.List.Nodup
import Mathlib.Data.List.Perm.Subperm
import Mathlib.Data.Nat.ModEq

/-!
# Strided slices

`l[start::step]`, the slice that takes every `step`-th element from `start` on, and the fact a
shared queue with strided readers rests on: when the readers' starts cover every residue once,
what the readers have not taken yet is the queue itself up to order, and it stays so when the
queue grows at its end.

Nothing here knows what the elements are or who reads them.
-/

set_option autoImplicit false

namespace Mil.Lib

variable {β : Type}

/-- `l[start::step]` for a positive `step`. -/
def strided : List β → Nat → Nat → List β
  | [], _, _ => []
  | x :: xs, 0, d => x :: strided xs (d - 1) d
  | _ :: xs, s + 1, d => strided xs s d

/-- What readers standing at `starts` of a queue read with stride `d` still have before them. -/
def pending (l : List β) (starts : List Nat) (d : Nat) : List β :=
  starts.flatMap fun s => strided l s d

/-- Every residue modulo `d` belongs to exactly one reader. -/
def Covers (d : Nat) (starts : List Nat) : Prop :=
  (starts.map (· % d)).Perm (List.range d)

/-! ## One slice -/

/-- Where a reader stands once the head of the queue is dropped. -/
def tick (d s : Nat) : Nat := if s = 0 then d - 1 else s - 1

@[simp] theorem strided_nil (s d : Nat) : strided ([] : List β) s d = [] := by
  cases s <;> rfl

theorem strided_cons (x : β) (xs : List β) (s d : Nat) :
    strided (x :: xs) s d = (if s = 0 then [x] else []) ++ strided xs (tick d s) d := by
  cases s with
  | zero => simp [strided, tick]
  | succ s => simp [strided, tick]

theorem strided_map {γ : Type} (f : β → γ) (d : Nat) :
    ∀ (l : List β) (s : Nat), strided (l.map f) s d = (strided l s d).map f
  | [], s => by rw [List.map_nil, strided_nil, strided_nil, List.map_nil]
  | x :: xs, 0 => by rw [List.map_cons, strided, strided, List.map_cons, strided_map f d xs]
  | x :: xs, s + 1 => by rw [List.map_cons, strided, strided, strided_map f d xs]

theorem strided_of_length_le {d : Nat} :
    ∀ {l : List β} {s : Nat}, l.length ≤ s → strided l s d = []
  | [], _, _ => strided_nil _ _
  | _ :: xs, s + 1, h => by
    rw [strided]
    exact strided_of_length_le (by simpa using h)

theorem strided_sublist (d : Nat) : ∀ (l : List β) (s : Nat), (strided l s d).Sublist l
  | [], s => by simp
  | x :: xs, 0 => by
    rw [strided]
    exact (strided_sublist d xs (d - 1)).cons_cons x
  | x :: xs, s + 1 => by
    rw [strided]
    exact (strided_sublist d xs s).cons x

/-- Reading the slice to its end moves the reader past the end of the list, and by less than
one stride. -/
theorem strided_end_bounds {d : Nat} (hd : 0 < d) :
    ∀ (l : List β) (s : Nat), l.length ≤ s + (strided l s d).length * d ∧
      (s < l.length + d → s + (strided l s d).length * d < l.length + d)
  | [], s => by simp
  | x :: xs, 0 => by
    obtain ⟨h₁, h₂⟩ := strided_end_bounds hd xs (d - 1)
    have h₂ := h₂ (by omega)
    simp only [strided, List.length_cons, Nat.add_mul, Nat.one_mul]
    omega
  | x :: xs, s + 1 => by
    obtain ⟨h₁, h₂⟩ := strided_end_bounds hd xs s
    simp only [strided, List.length_cons]
    refine ⟨by omega, fun h => ?_⟩
    have := h₂ (by omega)
    omega

/-! ## All readers together -/

/-- Dropping the head: whoever stood on it has read it, everyone moves down by one. -/
theorem pending_cons (x : β) (xs : List β) (d : Nat) :
    ∀ starts : List Nat, (pending (x :: xs) starts d).Perm
      (List.replicate (starts.count 0) x ++ pending xs (starts.map (tick d)) d)
  | [] => by simp [pending]
  | s :: rest => by
    have ih := pending_cons x xs d rest
    simp only [pending, List.flatMap_cons, List.map_cons, strided_cons] at ih ⊢
    by_cases hs : s = 0
    · subst hs
      simp only [if_true, List.count_cons_self, List.replicate_succ, List.cons_append,
        List.nil_append]
      refine List.Perm.cons x ?_
      refine (List.Perm.append_left _ ih).trans ?_
      simp only [← List.append_assoc]
      exact List.Perm.append_right _ List.perm_append_comm
    · simp only [if_neg hs, List.nil_append, List.count_cons_of_ne hs]
      refine (List.Perm.append_left _ ih).trans ?_
      simp only [← List.append_assoc]
      exact List.Perm.append_right _ List.perm_append_comm

theorem tick_mod {d : Nat} (hd : 0 < d) (s : Nat) : tick d s % d = (s % d + (d - 1)) % d := by
  unfold tick
  split
  · subst s; simp
  · rename_i hs
    obtain ⟨k, rfl⟩ : ∃ k, s = k + 1 := ⟨s - 1, by omega⟩
    have h : (k + 1) % d + (d - 1) ≡ k [MOD d] := by
      have h1 : (k + 1) % d ≡ k + 1 [MOD d] := Nat.mod_modEq _ _
      have h2 : (k + 1) % d + (d - 1) ≡ k + 1 + (d - 1) [MOD d] := h1.add_right _
      have h3 : k + 1 + (d - 1) = k + d := by omega
      rw [h3] at h2
      exact h2.trans (by simp [Nat.ModEq])
    exact h.symm

/-- Going round by one place permutes the residues. -/
theorem range_rotate_perm (d : Nat) :
    ((List.range d).map fun r => (r + (d - 1)) % d).Perm (List.range d) := by
  rcases Nat.eq_zero_or_pos d with rfl | hd
  · simp
  have hinj : ((List.range d).map fun r => (r + (d - 1)) % d).Nodup := by
    refine List.Nodup.map_on ?_ List.nodup_range
    intro a ha b hb hab
    have ha := List.mem_range.mp ha
    have hb := List.mem_range.mp hb
    have h : a + (d - 1) ≡ b + (d - 1) [MOD d] := hab
    exact Nat.ModEq.eq_of_lt_of_lt (Nat.ModEq.add_right_cancel' _ h) ha hb
  refine (List.subperm_of_subset hinj ?_).perm_of_length_le (by simp)
  intro r hr
  obtain ⟨a, -, rfl⟩ := List.mem_map.mp hr
  exact List.mem_range.mpr (Nat.mod_lt _ hd)

theorem Covers.tick {d : Nat} (hd : 0 < d) {starts : List Nat} (h : Covers d starts) :
    Covers d (starts.map (tick d)) := by
  have heq : (starts.map (Lib.tick d)).map (· % d) =
      (starts.map (· % d)).map fun r => (r + (d - 1)) % d := by
    simp only [List.map_map]
    exact List.map_congr_left fun s _ => tick_mod hd s
  unfold Covers
  rw [heq]
  exact (h.map _).trans (range_rotate_perm d)

theorem covers_range (d : Nat) : Covers d (List.range d) := by
  have heq : (List.range d).map (· % d) = List.range d := by
    refine (List.map_congr_left fun r hr => ?_).trans (List.map_id _)
    exact Nat.mod_eq_of_lt (List.mem_range.mp hr)
  unfold Covers
  rw [heq]

/-- Readers that all stand below `d` and cover the residues stand at `0, …, d - 1`. -/
theorem Covers.perm_range {d : Nat} {starts : List Nat} (h : Covers d starts)
    (hlt : ∀ s ∈ starts, s < d) : starts.Perm (List.range d) := by
  have heq : starts.map (· % d) = starts :=
    (List.map_congr_left fun s hs => Nat.mod_eq_of_lt (hlt s hs)).trans (List.map_id _)
  unfold Covers at h
  rwa [heq] at h

/-- Fresh readers see the whole queue. -/
theorem pending_of_perm_range {d : Nat} (hd : 0 < d) :
    ∀ (l : List β) {starts : List Nat}, starts.Perm (List.range d) → (pending l starts d).Perm l
  | [], starts, _ => by
    have : pending ([] : List β) starts d = [] := by simp [pending]
    rw [this]
  | x :: xs, starts, h => by
    have hcount : starts.count 0 = 1 := by
      rw [h.count_eq]
      exact List.count_eq_one_of_mem List.nodup_range (List.mem_range.mpr hd)
    have hcov : Covers d starts :=
      ((h.map _).trans (covers_range d))
    have hnext : (starts.map (tick d)).Perm (List.range d) := by
      refine (hcov.tick hd).perm_range fun s hs => ?_
      obtain ⟨a, ha, rfl⟩ := List.mem_map.mp hs
      have := List.mem_range.mp (h.subset ha)
      unfold tick
      split <;> omega
    refine (pending_cons x xs d starts).trans ?_
    rw [hcount]
    exact (pending_of_perm_range hd xs hnext).cons x

theorem pending_range {d : Nat} (hd : 0 < d) (l : List β) :
    (pending l (List.range d) d).Perm l :=
  pending_of_perm_range hd l (List.Perm.refl _)

/-- **Growth at the end reaches exactly one reader each.** The bound says that no reader has
run ahead of the queue by a whole stride. -/
theorem pending_append {d : Nat} (hd : 0 < d) (e : List β) :
    ∀ (l : List β) {starts : List Nat}, Covers d starts → (∀ s ∈ starts, s < l.length + d) →
      (pending (l ++ e) starts d).Perm (pending l starts d ++ e)
  | [], starts, hcov, hlt => by
    have hnil : pending ([] : List β) starts d = [] := by simp [pending]
    rw [hnil, List.nil_append]
    exact pending_of_perm_range hd e (hcov.perm_range fun s hs => by simpa using hlt s hs)
  | x :: xs, starts, hcov, hlt => by
    have hlt' : ∀ s ∈ starts.map (tick d), s < xs.length + d := by
      intro s hs
      obtain ⟨a, ha, rfl⟩ := List.mem_map.mp hs
      have := hlt a ha
      simp only [List.length_cons] at this
      unfold tick
      split <;> omega
    have ih := pending_append hd e xs (hcov.tick hd) hlt'
    rw [List.cons_append]
    refine (pending_cons x (xs ++ e) d starts).trans ?_
    refine (List.Perm.append_left _ ih).trans ?_
    rw [← List.append_assoc]
    exact List.Perm.append_right _ (pending_cons x xs d starts).symm

/-- One reader takes its whole slice and stands past the end: what was pending is what it took
and what is pending now. -/
theorem pending_take {l : List β} {d e : Nat} (he : l.length ≤ e) :
    ∀ {starts : List Nat} {i : Nat} (hi : i < starts.length),
      (pending l starts d).Perm (strided l starts[i] d ++ pending l (starts.set i e) d)
  | s :: rest, 0, _ => by
    simp [pending, strided_of_length_le he]
  | s :: rest, i + 1, hi => by
    have ih := @pending_take l d e he rest i (by simpa using hi)
    simp only [pending, List.flatMap_cons, List.set_cons_succ, List.getElem_cons_succ] at ih ⊢
    refine (List.Perm.append_left _ ih).trans ?_
    simp only [← List.append_assoc]
    exact List.Perm.append_right _ List.perm_append_comm

theorem Covers.set {d : Nat} {starts : List Nat} (h : Covers d starts) {i e : Nat}
    (hi : i < starts.length) (he : e % d = starts[i] % d) : Covers d (starts.set i e) := by
  have heq : (starts.set i e).map (· % d) = starts.map (· % d) := by
    rw [List.map_set, he, ← List.getElem_map (fun s => s % d) (h := by simpa using hi),
      List.set_getElem_self]
  unfold Covers
  rw [heq]
  exact h

end Mil.Lib
