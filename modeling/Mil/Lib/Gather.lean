import Mathlib.Data.List.Nodup
import Mathlib.Logic.Function.Basic

/-!
# Gathering parts by counting them

A table gathers, for each key, a fixed number of parts that arrive one at a time and in any
order. It keeps a counter beside the slots and calls a key complete at the arrival that brings
the counter up. The counter is only a count: that it means *every slot is filled* rests on no
part arriving twice, and this file is the induction that carries that through a run.

`arr i k` is the specification: the part of `k` that has arrived for slot `i`, if any.
-/

set_option autoImplicit false

namespace Mil.Lib

variable {κ α : Type}

/-- `[count, [None] * n]`: how many parts have arrived, and the slots they arrive in. -/
structure Slots (α : Type) where
  count : Nat
  parts : List (Option α)
deriving DecidableEq, Repr

namespace Slots

def empty (n : Nat) : Slots α := ⟨0, List.replicate n none⟩

/-- A part arrives in slot `i`. -/
def put (s : Slots α) (i : Nat) (x : α) : Slots α := ⟨s.count + 1, s.parts.set i (some x)⟩

/-- The slots hold exactly the parts `f` says have arrived, and the counter counts them. -/
structure Holds (n : Nat) (f : Nat → Option α) (s : Slots α) : Prop where
  parts_eq : s.parts = (List.range n).map f
  count_eq : s.count = (List.range n).countP fun i => (f i).isSome

theorem holds_empty (n : Nat) : Holds n (fun _ => none) (empty n : Slots α) where
  parts_eq := by simp [empty]
  count_eq := by simp [empty]

theorem Holds.congr {n : Nat} {f g : Nat → Option α} {s : Slots α} (h : Holds n f s)
    (hfg : ∀ i, i < n → f i = g i) : Holds n g s where
  parts_eq := by
    rw [h.parts_eq]
    exact List.map_congr_left fun i hi => hfg i (List.mem_range.mp hi)
  count_eq := by
    rw [h.count_eq]
    exact List.countP_congr fun i hi => by rw [hfg i (List.mem_range.mp hi)]

theorem Holds.length {n : Nat} {f : Nat → Option α} {s : Slots α} (h : Holds n f s) :
    s.parts.length = n := by simp [h.parts_eq]

theorem countP_update {n i : Nat} {f : Nat → Option α} (hi : i < n) (hf : f i = none) (x : α) :
    (List.range n).countP (fun j => (Function.update f i (some x) j).isSome) =
      (List.range n).countP (fun j => (f j).isSome) + 1 := by
  induction n with
  | zero => omega
  | succ n ih =>
    rw [List.range_succ, List.countP_append, List.countP_append]
    rcases Nat.lt_or_ge i n with hlt | hge
    · rw [ih hlt]
      have hne : n ≠ i := by omega
      simp [Function.update_of_ne hne]
      omega
    · obtain rfl : i = n := by omega
      have hsame : (List.range i).countP (fun j => (Function.update f i (some x) j).isSome) =
          (List.range i).countP (fun j => (f j).isSome) := by
        refine List.countP_congr fun j hj => ?_
        have hne : j ≠ i := Nat.ne_of_lt (List.mem_range.mp hj)
        rw [Function.update_of_ne hne]
      rw [hsame]
      simp [hf]

/-- An arrival in an empty slot keeps the slots and the counter in step. -/
theorem Holds.put {n i : Nat} {f : Nat → Option α} {s : Slots α} (h : Holds n f s)
    (hi : i < n) (hf : f i = none) (x : α) :
    Holds n (Function.update f i (some x)) (s.put i x) where
  parts_eq := by
    refine List.ext_getElem (by simp [Slots.put, h.parts_eq]) fun j h₁ h₂ => ?_
    simp only [Slots.put, h.parts_eq, List.getElem_set, List.getElem_map, List.getElem_range]
    by_cases hj : i = j
    · subst hj; simp
    · rw [if_neg hj, Function.update_of_ne (Ne.symm hj)]
  count_eq := by rw [countP_update hi hf, ← h.count_eq]; rfl

/-- The counter is up exactly when every slot is filled. -/
theorem Holds.count_eq_iff {n : Nat} {f : Nat → Option α} {s : Slots α} (h : Holds n f s) :
    s.count = n ↔ ∀ i, i < n → (f i).isSome := by
  have hlen : (List.range n).countP (fun i => (f i).isSome) = (List.range n).length ↔
      ∀ i ∈ List.range n, (f i).isSome := List.countP_eq_length
  rw [List.length_range] at hlen
  rw [h.count_eq, hlen]
  simp only [List.mem_range]

end Slots

/-! ## A table of slots -/

/-- The slots of each key with parts, and the keys completed so far. `n k` is the number of
parts key `k` has; a key without a row has empty slots. -/
structure TableOk (n : κ → Nat) (arr : Nat → κ → Option α)
    (row : κ → Slots α) (complete : List κ) : Prop where
  holds : ∀ k, Slots.Holds (n k) (fun i => arr i k) (row k)
  nodup : complete.Nodup
  mem_iff : ∀ k, k ∈ complete ↔ 0 < n k ∧ ∀ i, i < n k → (arr i k).isSome

theorem TableOk.init (n : κ → Nat) :
    TableOk n (fun _ _ => none) (fun k => (Slots.empty (n k) : Slots α)) [] where
  holds k := Slots.holds_empty (n k)
  nodup := List.nodup_nil
  mem_iff k := by
    simp only [List.not_mem_nil, Option.isSome_none, Bool.false_eq_true, imp_false, false_iff,
      not_and, not_forall]
    exact fun h => ⟨0, by omega⟩

theorem TableOk.perm {n : κ → Nat} {arr : Nat → κ → Option α} {row : κ → Slots α}
    {c c' : List κ} (h : TableOk n arr row c) (hc : c.Perm c') : TableOk n arr row c' where
  holds := h.holds
  nodup := hc.nodup h.nodup
  mem_iff k := by rw [← hc.mem_iff]; exact h.mem_iff k

theorem TableOk.congr {n : κ → Nat} {arr arr' : Nat → κ → Option α} {row : κ → Slots α}
    {c : List κ} (h : TableOk n arr row c) (ha : ∀ k i, i < n k → arr i k = arr' i k) :
    TableOk n arr' row c where
  holds k := (h.holds k).congr (ha k)
  nodup := h.nodup
  mem_iff k := by
    rw [h.mem_iff k]
    refine and_congr_right fun _ => forall_congr' fun i => ?_
    exact ⟨fun hs hi => ha k i hi ▸ hs hi, fun hs hi => (ha k i hi).symm ▸ hs hi⟩

/-- The specification after `x` arrives for slot `i` of key `k`. -/
def arrived [DecidableEq κ] (arr : Nat → κ → Option α) (i : Nat) (k : κ) (x : α) :
    Nat → κ → Option α :=
  fun j l => if j = i ∧ l = k then some x else arr j l

/-- **One arrival.** A part for an empty slot of `k` updates the row of `k`, and completes `k`
exactly when the counter comes up. No other key is touched. -/
theorem TableOk.arrive [DecidableEq κ] {n : κ → Nat} {arr : Nat → κ → Option α}
    {row : κ → Slots α} {complete : List κ} (h : TableOk n arr row complete)
    (row' : κ → Slots α) {i : Nat} {k : κ} (hi : i < n k) (hnone : arr i k = none) (x : α)
    (hrow : row' = Function.update row k ((row k).put i x)) :
    TableOk n (arrived arr i k x) row'
      (if ((row k).put i x).count = n k then complete ++ [k] else complete) := by
  have hk : Slots.Holds (n k) (fun j => arrived arr i k x j k) ((row k).put i x) := by
    refine ((h.holds k).put hi hnone x).congr fun j _ => ?_
    by_cases hj : j = i
    · subst hj; simp [arrived]
    · simp [arrived, hj]
  have hother : ∀ l, l ≠ k → (fun j => arrived arr i k x j l) = fun j => arr j l := by
    intro l hl
    funext j
    simp [arrived, hl]
  have hcount := hk.count_eq_iff
  have hnot : k ∉ complete := by
    intro hmem
    have hsome := ((h.mem_iff k).mp hmem).2 i hi
    rw [hnone] at hsome
    exact absurd hsome (by simp)
  have hmem : ∀ l, l ∈ (if ((row k).put i x).count = n k then complete ++ [k] else complete) ↔
      0 < n l ∧ ∀ j, j < n l → (arrived arr i k x j l).isSome := by
    intro l
    by_cases hl : l = k
    · subst hl
      split
      · rename_i hc
        simp only [List.mem_append, List.mem_singleton, or_true, true_iff]
        exact ⟨by omega, hcount.mp hc⟩
      · rename_i hc
        exact ⟨fun hm => absurd hm hnot, fun hm => absurd (hcount.mpr hm.2) hc⟩
    · have hsame : ∀ j, arrived arr i k x j l = arr j l := fun j => congrFun (hother l hl) j
      simp only [hsame]
      rw [← h.mem_iff l]
      split <;> simp [hl]
  refine ⟨fun l => ?_, ?_, hmem⟩
  · rw [hrow]
    by_cases hl : l = k
    · subst hl; rw [Function.update_self]; exact hk
    · rw [Function.update_of_ne hl, hother l hl]; exact h.holds l
  · split
    · exact List.nodup_append'.mpr ⟨h.nodup, List.nodup_singleton k, by simpa using hnot⟩
    · exact h.nodup

/-- Nothing arrives for a complete key any more. -/
theorem TableOk.some_of_complete {n : κ → Nat} {arr : Nat → κ → Option α} {row : κ → Slots α}
    {complete : List κ} (h : TableOk n arr row complete) {k : κ} (hk : k ∈ complete) {i : Nat}
    (hi : i < n k) : (arr i k).isSome := ((h.mem_iff k).mp hk).2 i hi

/-- The slots of a key hold its parts in slot order. -/
theorem TableOk.parts_eq {n : κ → Nat} {arr : Nat → κ → Option α} {row : κ → Slots α}
    {complete : List κ} (h : TableOk n arr row complete) (k : κ) :
    (row k).parts = (List.range (n k)).map fun i => arr i k := (h.holds k).parts_eq

end Mil.Lib
