import Mathlib.Data.List.Basic
import Mathlib.Data.List.Count
import Mathlib.Data.List.GetD
import Mathlib.Data.List.Range
import Mathlib.Tactic.Ring

/-!
# Bins

Counting with `scatter_add`: one is added to the bin of each index (`scatterAdd`). The bins of several
rows can stand in one list, when the indices of each row are moved to where its bins start
(`flattened`); seen as rows again (`view`), they hold the counts of each row (`view_flattened`).
-/

set_option autoImplicit false

namespace Mil.Lib

variable {α : Type}

/-- An index without a bin is an exception. -/
def scatterAdd (bins index : List Nat) : Option (List Nat) :=
  index.foldlM (fun bins i => if i < bins.length then some (bins.modify i (· + 1)) else none) bins

/-- `l.view(rows, cols)` -/
def view (rows cols : Nat) (l : List α) : List (List α) :=
  (List.range rows).map fun r => (l.drop (r * cols)).take cols

/-- `torch.repeat_interleave` -/
def repeatInterleave (xs : List α) (repeats : List Nat) : List α :=
  (List.zipWith (fun x n => List.replicate n x) xs repeats).flatten

/-- The indices of all rows, each moved by `cols` for every row before its own. -/
def flattened (cols : Nat) (rows : List (List Nat)) : List Nat :=
  List.zipWith (· + ·) rows.flatten
    (repeatInterleave ((List.range rows.length).map (cols * ·)) (rows.map List.length))

/-! ## Counting -/

theorem modify_map_range (f : Nat → Nat) (g : Nat → Nat) (n i : Nat) :
    ((List.range n).map f).modify i g =
      (List.range n).map fun j => if j = i then g (f j) else f j := by
  apply List.ext_getElem
  · simp
  · intro j hj hj'
    simp only [List.getElem_modify, List.getElem_map, List.getElem_range]
    by_cases h : i = j
    · rw [if_pos h, if_pos h.symm]
    · rw [if_neg h, if_neg (Ne.symm h)]

theorem scatterAdd_map_range {n : Nat} {index : List Nat} (h : ∀ i ∈ index, i < n)
    (f : Nat → Nat) :
    scatterAdd ((List.range n).map f) index =
      some ((List.range n).map fun i => f i + index.count i) := by
  induction index generalizing f with
  | nil => rfl
  | cons i index ih =>
    have hi : i < ((List.range n).map f).length := by
      rw [List.length_map, List.length_range]
      exact h i (.head _)
    unfold scatterAdd at ih ⊢
    rw [List.foldlM_cons, if_pos hi, modify_map_range]
    show (List.foldlM _ _ index : Option (List Nat)) = _
    rw [ih fun j hj => h j (.tail _ hj)]
    congr 1
    apply List.map_congr_left
    intro j _
    rw [List.count_cons]
    by_cases hj : j = i
    · subst hj
      simp only [if_pos, beq_self_eq_true]
      exact Nat.add_right_comm _ _ _
    · have hne : (i == j) = false := beq_eq_false_iff_ne.mpr (Ne.symm hj)
      rw [if_neg hj, hne]
      rfl

/-- From empty bins come the counts. -/
theorem scatterAdd_replicate {n : Nat} {index : List Nat} (h : ∀ i ∈ index, i < n) :
    scatterAdd (List.replicate n 0) index = some ((List.range n).map index.count) := by
  have hzero : List.replicate n 0 = (List.range n).map fun _ => 0 := by
    rw [List.map_const', List.length_range]
  rw [hzero, scatterAdd_map_range h]
  simp only [Nat.zero_add]

/-! ## Rows in one list -/

theorem view_map_range (rows cols : Nat) (f : Nat → α) :
    view rows cols ((List.range (rows * cols)).map f) =
      (List.range rows).map fun r => (List.range cols).map fun k => f (r * cols + k) := by
  apply List.map_congr_left
  intro r hr
  have hle : r * cols + cols ≤ rows * cols := by
    have hsucc := Nat.mul_le_mul_right cols (Nat.succ_le_of_lt (List.mem_range.mp hr))
    rwa [Nat.succ_mul] at hsucc
  have hslice : ((List.range (rows * cols)).drop (r * cols)).take cols =
      (List.range cols).map (r * cols + ·) := by
    have hge : cols ≤ rows * cols - r * cols := by omega
    rw [List.range_eq_range', List.drop_range', List.take_range'_of_length_ge hge,
      ← List.range'_eq_map_range]
    congr 1
    omega
  rw [← List.map_drop, ← List.map_take, hslice, List.map_map]
  rfl

/-- The indices row by row. -/
theorem flattened_eq (cols : Nat) (rows : List (List Nat)) :
    flattened cols rows = (rows.zipIdx 0).flatMap fun p => p.1.map (· + cols * p.2) := by
  have hall : ∀ start, List.zipWith (· + ·) rows.flatten
      (repeatInterleave ((List.range' start rows.length).map (cols * ·)) (rows.map List.length)) =
        (rows.zipIdx start).flatMap fun p => p.1.map (· + cols * p.2) := by
    induction rows with
    | nil => exact fun _ => rfl
    | cons row rows ih =>
      intro start
      have hrow : List.zipWith (· + ·) row (List.replicate row.length (cols * start)) =
          row.map (· + cols * start) := by
        have hgen : ∀ c : Nat, List.zipWith (· + ·) row (List.replicate row.length c) =
            row.map (· + c) := by
          intro c
          induction row with
          | nil => rfl
          | cons t row ih => exact congrArg (_ :: ·) ih
        exact hgen _
      have hlen : row.length = (List.replicate row.length (cols * start)).length :=
        List.length_replicate.symm
      rw [List.zipIdx_cons, List.flatMap_cons, ← ih (start + 1), ← hrow]
      exact List.zipWith_append hlen
  rw [flattened, List.range_eq_range']
  exact hall 0

theorem lt_of_mem_flattened {cols : Nat} {rows : List (List Nat)}
    (h : ∀ row ∈ rows, ∀ t ∈ row, t < cols) : ∀ i ∈ flattened cols rows, i < rows.length * cols := by
  intro i hi
  rw [flattened_eq] at hi
  obtain ⟨⟨row, r⟩, hrow, hi⟩ := List.mem_flatMap.mp hi
  obtain ⟨t, ht, rfl⟩ := List.mem_map.mp hi
  obtain ⟨hr, hmem⟩ := List.mem_zipIdx' hrow
  have hsucc := Nat.mul_le_mul_right cols (Nat.succ_le_of_lt hr)
  have hlt := h row (hmem ▸ List.getElem_mem hr) t ht
  rw [Nat.succ_mul, Nat.mul_comm r] at hsucc
  show t + cols * r < _
  omega

/-- The index of a row and a column is counted as often as the column in the row. -/
theorem count_flattened {cols r k : Nat} {rows : List (List Nat)}
    (h : ∀ row ∈ rows, ∀ t ∈ row, t < cols) (hk : k < cols) :
    (flattened cols rows).count (r * cols + k) = (rows.getD r []).count k := by
  have hall : ∀ start r, ((rows.zipIdx start).flatMap fun p => p.1.map (· + cols * p.2)).count
      (k + cols * (start + r)) = (rows.getD r []).count k := by
    induction rows with
    | nil => exact fun _ _ => rfl
    | cons row rows ih =>
      intro start r
      have hrest := ih fun row' hrow' => h row' (.tail _ hrow')
      rw [List.zipIdx_cons, List.flatMap_cons, List.count_append]
      cases r with
      | zero =>
        -- later rows have larger indices
        have hnone : ((rows.zipIdx (start + 1)).flatMap fun p => p.1.map (· + cols * p.2)).count
            (k + cols * start) = 0 := by
          apply List.count_eq_zero_of_not_mem
          intro hmem
          obtain ⟨⟨row', r⟩, hrow', hmem⟩ := List.mem_flatMap.mp hmem
          obtain ⟨t, -, ht⟩ := List.mem_map.mp hmem
          have hle := Nat.mul_le_mul_left cols (List.le_snd_of_mem_zipIdx hrow')
          rw [Nat.mul_succ] at hle
          simp only at ht hle
          omega
        rw [Nat.add_zero, hnone, Nat.add_zero,
          List.count_map_of_injective row _ fun a b hab => Nat.add_right_cancel hab]
        rfl
      | succ r =>
        have hnone : (row.map (· + cols * start)).count (k + cols * (start + (r + 1))) = 0 := by
          apply List.count_eq_zero_of_not_mem
          intro hmem
          obtain ⟨t, ht, heq⟩ := List.mem_map.mp hmem
          have hlt := h row (.head _) t ht
          have hsplit : cols * (start + (r + 1)) = cols * start + cols * r + cols := by ring
          rw [hsplit] at heq
          omega
        have hnext : start + (r + 1) = start + 1 + r := by omega
        rw [hnone, Nat.zero_add, hnext, hrest]
        rfl
  rw [flattened_eq]
  have hindex : r * cols + k = k + cols * (0 + r) := by ring
  rw [hindex]
  exact hall 0 r

/-- The bins of all rows in one list are the bins of each row. -/
theorem view_flattened {cols : Nat} {rows : List (List Nat)}
    (h : ∀ row ∈ rows, ∀ t ∈ row, t < cols) :
    (scatterAdd (List.replicate (rows.length * cols) 0) (flattened cols rows)).map
        (view rows.length cols) =
      some (rows.map fun row => (List.range cols).map row.count) := by
  rw [scatterAdd_replicate (lt_of_mem_flattened h), Option.map_some, view_map_range]
  congr 1
  apply List.ext_getElem
  · simp
  · intro r hr hr'
    rw [List.length_map] at hr'
    simp only [List.getElem_map, List.getElem_range]
    apply List.map_congr_left
    intro k hk
    rw [count_flattened h (List.mem_range.mp hk), List.getD_eq_getElem _ _ hr']

end Mil.Lib
