import Mathlib.Algebra.GroupWithZero.Nat
import Mathlib.Algebra.BigOperators.Group.List.Lemmas
import Mathlib.Data.List.Sort
import Mathlib.Data.List.Dedup

/-!
# Rows kept in one array

A list of rows is stored as the rows one after the other, with the array of cumulated row lengths:
row `i` is between positions `i` and `i + 1` of it. This file has the array operations on this
layout (running sums, boolean masks, sums over each row, slices) and what each of them is on the
rows themselves.
-/

set_option autoImplicit false

namespace Mil.Lib

variable {α β : Type}

/-- The running sums of `l`, from 0. -/
def cumsum0 (l : List Nat) : List Nat := l.scanl (· + ·) 0

/-- The running sums of `l`. -/
def cumsum (l : List Nat) : List Nat := (cumsum0 l).tail

/-- The elements of `l` at which `m` is true. -/
def mask (l : List α) (m : List Bool) : List α := ((l.zip m).filter Prod.snd).map Prod.fst

/-- The differences between the values of `sums` at successive positions of `idx`. -/
def segDiff (sums idx : List Nat) : List Nat :=
  List.zipWith (fun hi lo => sums.getD hi 0 - sums.getD lo 0) idx.tail idx.dropLast

/-- `l[start:stop]`. -/
def slice (l : List α) (start stop : Nat) : List α := (l.drop start).take (stop - start)

/-- `l[start:stop] = vals`, with as many values as places. -/
def writeSlice (l : List α) (start stop : Nat) (vals : List α) : List α :=
  l.take start ++ vals ++ l.drop stop

/-- The values of `l`, sorted. -/
def unique (l : List Nat) : List Nat := (l.insertionSort (· ≤ ·)).dedup

/-- The cumulated row lengths. -/
def cumLens (rows : List (List α)) : List Nat := cumsum0 (rows.map List.length)

/-! ## Running sums -/

@[simp] theorem cumsum0_length (l : List Nat) : (cumsum0 l).length = l.length + 1 :=
  List.length_scanl

theorem getElem?_cumsum0 {l : List Nat} {i : Nat} (h : i ≤ l.length) :
    (cumsum0 l)[i]? = some (l.take i).sum := by
  rw [cumsum0, List.getElem?_scanl, if_pos h, List.sum_eq_foldl]

@[simp] theorem getD_cumsum0 {l : List Nat} {i : Nat} (h : i ≤ l.length) :
    (cumsum0 l).getD i 0 = (l.take i).sum := by
  rw [List.getD_eq_getElem?_getD, getElem?_cumsum0 h, Option.getD_some]

theorem cumsum0_eq_cons (l : List Nat) : cumsum0 l = 0 :: cumsum l := by
  cases l <;> simp [cumsum, cumsum0]

@[simp] theorem cumsum_length (l : List Nat) : (cumsum l).length = l.length := by
  simp [cumsum]

theorem getElem_cumsum {l : List Nat} {i : Nat} (h : i < (cumsum l).length) :
    (cumsum l)[i] = (l.take (i + 1)).sum := by
  have hi : i + 1 ≤ l.length := (cumsum_length l) ▸ h
  have hsome := getElem?_cumsum0 hi
  rw [cumsum0_eq_cons, List.getElem?_cons_succ, List.getElem?_eq_getElem h] at hsome
  exact Option.some.inj hsome

theorem sum_take_map_add (l : List α) (f g : α → Nat) (n : Nat) :
    ((l.map fun x => f x + g x).take n).sum = ((l.map f).take n).sum + ((l.map g).take n).sum := by
  simp only [← List.map_take]
  exact List.sum_map_add

/-- Running sums add up. -/
theorem zipWith_add_cumsum (l : List α) (f g : α → Nat) :
    List.zipWith (· + ·) (cumsum (l.map f)) (cumsum (l.map g)) =
      cumsum (l.map fun x => f x + g x) := by
  refine List.ext_getElem (by simp) fun i _ _ => ?_
  simp only [List.getElem_zipWith, getElem_cumsum, sum_take_map_add]

theorem zipWith_sub_cumsum (l : List α) (f g : α → Nat) :
    List.zipWith (· - ·) (cumsum (l.map fun x => f x + g x)) (cumsum (l.map g)) =
      cumsum (l.map f) := by
  refine List.ext_getElem (by simp) fun i _ _ => ?_
  simp only [List.getElem_zipWith, getElem_cumsum, sum_take_map_add, Nat.add_sub_cancel]

/-! ## Rows -/

theorem cumLens_length (rows : List (List α)) : (cumLens rows).length = rows.length + 1 := by
  simp [cumLens]

theorem getD_cumLens {rows : List (List α)} {i : Nat} (h : i ≤ rows.length) :
    (cumLens rows).getD i 0 = (rows.take i).flatten.length := by
  rw [cumLens, getD_cumsum0 (by simpa using h), List.length_flatten, List.map_take]

theorem getLast?_cumLens (rows : List (List α)) :
    (cumLens rows).getLast? = some rows.flatten.length := by
  rw [List.getLast?_eq_getElem?, cumLens_length, Nat.add_sub_cancel, cumLens,
    getElem?_cumsum0 (by simp), List.length_flatten, List.take_of_length_le (by simp)]

theorem flatten_split {rows : List (List α)} {i : Nat} {row : List α} (h : rows[i]? = some row) :
    rows.flatten = (rows.take i).flatten ++ (row ++ (rows.drop (i + 1)).flatten) := by
  obtain ⟨hi, rfl⟩ := List.getElem?_eq_some_iff.mp h
  rw [← List.flatten_cons, ← List.drop_eq_getElem_cons hi, ← List.flatten_append,
    List.take_append_drop]

theorem lt_length_of_getElem? {l : List α} {i : Nat} {x : α} (h : l[i]? = some x) :
    i < l.length := (List.getElem?_eq_some_iff.mp h).1

/-- The first element of a row, at the row's cumulated length. -/
theorem getElem?_flatten_cumLens {rows : List (List α)} {i : Nat} {x : α} {row : List α}
    (h : rows[i]? = some (x :: row)) : rows.flatten[(cumLens rows).getD i 0]? = some x := by
  rw [getD_cumLens (lt_length_of_getElem? h).le, flatten_split h,
    List.getElem?_append_right le_rfl, Nat.sub_self]
  rfl

theorem getD_cumLens_succ {rows : List (List α)} {i : Nat} {row : List α}
    (h : rows[i]? = some row) :
    (cumLens rows).getD (i + 1) 0 = (cumLens rows).getD i 0 + row.length := by
  have hi := lt_length_of_getElem? h
  rw [getD_cumLens hi, getD_cumLens hi.le, List.take_add_one, h]
  simp

theorem slice_flatten {rows : List (List α)} {i : Nat} {row : List α} (h : rows[i]? = some row) :
    slice rows.flatten ((cumLens rows).getD i 0) ((cumLens rows).getD (i + 1) 0) = row := by
  rw [slice, getD_cumLens_succ h, Nat.add_sub_cancel_left,
    getD_cumLens (lt_length_of_getElem? h).le, flatten_split h, List.drop_left, List.take_left]

/-- Sums over each row. -/
theorem segDiff_cumLens (rows : List (List α)) (f : α → Nat) :
    segDiff (cumsum0 (rows.flatten.map f)) (cumLens rows) =
      rows.map fun row => (row.map f).sum := by
  have hsum : ∀ i ≤ rows.length, (cumsum0 (rows.flatten.map f)).getD ((cumLens rows).getD i 0) 0 =
      ((rows.take i).flatten.map f).sum := by
    intro i hi
    have hsplit : rows.flatten = (rows.take i).flatten ++ (rows.drop i).flatten := by
      rw [← List.flatten_append, List.take_append_drop]
    have hle : (rows.take i).flatten.length ≤ rows.flatten.length := by
      rw [hsplit, List.length_append]
      exact Nat.le_add_right _ _
    rw [getD_cumLens hi, getD_cumsum0 (by rwa [List.length_map]), ← List.map_take, hsplit,
      List.take_left]
  refine List.ext_getElem (by simp [segDiff, cumLens_length]) fun i h₁ h₂ => ?_
  have hi : i < rows.length := by simpa using h₂
  have hcum : ∀ (j : Nat) (hj : j < (cumLens rows).length),
      (cumLens rows)[j] = (cumLens rows).getD j 0 := fun j hj => by
    simp [List.getD_eq_getElem?_getD, hj]
  simp only [segDiff, List.getElem_zipWith, List.getElem_tail, List.getElem_dropLast,
    List.getElem_map, hcum]
  rw [hsum _ hi, hsum _ hi.le, List.take_add_one, List.getElem?_eq_getElem hi, Option.toList_some,
    List.flatten_append, List.map_append, List.sum_append, Nat.add_sub_cancel_left,
    List.flatten_singleton]

/-! ## Masks -/

theorem mask_map_map (l : List α) (f : α → β) (p : α → Bool) :
    mask (l.map f) (l.map p) = (l.filter p).map f := by
  rw [mask, List.zip_map', List.filter_map, List.map_map]
  rfl

theorem mask_map (l : List α) (p : α → Bool) : mask l (l.map p) = l.filter p := by
  have := mask_map_map l id p
  rwa [List.map_id, List.map_id] at this

theorem map_eq_map_range (l : List α) (f : α → β) (d : α) :
    l.map f = (List.range l.length).map fun i => f (l.getD i d) := by
  refine List.ext_getElem (by simp) fun i h₁ h₂ => ?_
  have hi : i < l.length := by simpa using h₁
  simp [List.getD_eq_getElem?_getD, hi]

theorem dropLast_cumLens (rows : List (List α)) :
    (cumLens rows).dropLast = (List.range rows.length).map fun i => (cumLens rows).getD i 0 := by
  refine List.ext_getElem (by simp [cumLens_length]) fun i h₁ h₂ => ?_
  have hi : i < (cumLens rows).length := by
    rw [List.length_dropLast] at h₁
    omega
  simp [List.getD_eq_getElem?_getD, hi]

/-! ## The first elements of rows -/

theorem cumLens_congr {rows : List (List α)} {rows' : List (List β)}
    (h : rows.map List.length = rows'.map List.length) : cumLens rows = cumLens rows' := by
  rw [cumLens, h, cumLens]

theorem modify_append_length (l : List α) (x : α) (l' : List α) (f : α → α) :
    (l ++ x :: l').modify l.length f = l ++ f x :: l' := by
  induction l with
  | nil => rfl
  | cons y l ih => simp [ih]

/-- Changing an element at a cumulated length changes the head of the row. -/
theorem modify_flatten {rows : List (List α)} {i : Nat} {x : α} {row : List α} (f : α → α)
    (h : rows[i]? = some (x :: row)) : rows.flatten.modify ((cumLens rows).getD i 0) f =
      (rows.modify i fun row => row.modifyHead f).flatten := by
  obtain ⟨hi, hrow⟩ := List.getElem?_eq_some_iff.mp h
  rw [getD_cumLens hi.le, flatten_split h, List.cons_append, modify_append_length,
    List.modify_eq_take_cons_drop hi, hrow]
  simp

theorem map_length_modifyHead (rows : List (List α)) (i : Nat) (f : α → α) :
    (rows.modify i fun row => row.modifyHead f).map List.length = rows.map List.length := by
  refine List.ext_getElem? fun j => ?_
  simp only [List.getElem?_map, List.getElem?_modify]
  split <;> cases rows[j]? <;> simp

/-! ## Slices -/

theorem zip_writeSlice {l : List α} {l' : List β} (start stop : Nat) {vals : List α}
    {vals' : List β} (hl : l.length = l'.length) (hvals : vals.length = vals'.length) :
    (writeSlice l start stop vals).zip (writeSlice l' start stop vals') =
      writeSlice (l.zip l') start stop (vals.zip vals') := by
  rw [writeSlice, writeSlice, writeSlice, List.zip_append (by simp [hl, hvals]),
    List.zip_append (by simp [hl])]
  simp only [List.zip, List.take_zipWith, List.drop_zipWith]

theorem map_writeSlice (f : α → β) (l : List α) (start stop : Nat) (vals : List α) :
    (writeSlice l start stop vals).map f = writeSlice (l.map f) start stop (vals.map f) := by
  simp [writeSlice]

theorem writeSlice_length {l : List α} {start stop : Nat} {vals : List α}
    (hstop : stop ≤ l.length) (hvals : start + vals.length = stop) :
    (writeSlice l start stop vals).length = l.length := by
  simp only [writeSlice, List.length_append, List.length_take, List.length_drop]
  omega

theorem writeSlice_append_replicate (l vals : List α) (n : Nat) (d : α) :
    writeSlice (l ++ List.replicate n d) l.length (l.length + vals.length) vals =
      l ++ vals ++ List.replicate (n - vals.length) d := by
  rw [writeSlice, List.take_left, List.drop_append, Nat.add_sub_cancel_left,
    List.drop_eq_nil_of_le (Nat.le_add_right _ _), List.nil_append, List.drop_replicate]

/-- The first place is left out, and written afterwards. -/
theorem set_writeSlice (l vals : List α) (n : Nat) (d x : α) :
    (writeSlice (l ++ List.replicate (n + 1) d) (l.length + 1) (l.length + 1 + vals.length) vals).set
      l.length x = l ++ x :: vals ++ List.replicate (n - vals.length) d := by
  have hsplit : l ++ List.replicate (n + 1) d = (l ++ [d]) ++ List.replicate n d := by
    rw [List.replicate_succ, List.append_assoc, List.singleton_append]
  have hlength : l.length + 1 = (l ++ [d]).length := by simp
  rw [hsplit, hlength, writeSlice_append_replicate, List.append_assoc, List.append_assoc,
    List.set_append_right _ _ le_rfl]
  simp

/-! ## Values -/

theorem unique_pairwise (l : List Nat) : (unique l).Pairwise (· < ·) := by
  have hsorted : (l.insertionSort (· ≤ ·)).Pairwise (· ≤ ·) := l.pairwise_insertionSort _
  have hle : (unique l).Pairwise (· ≤ ·) := hsorted.sublist (List.dedup_sublist _)
  exact hle.imp₂ (fun _ _ hab hne => Nat.lt_of_le_of_ne hab hne) (List.nodup_dedup _)

theorem mem_unique {l : List Nat} {v : Nat} : v ∈ unique l ↔ v ∈ l := by
  simp [unique, (l.perm_insertionSort (· ≤ ·)).mem_iff]

theorem sum_count_unique (l : List Nat) : ((unique l).map l.count).sum = l.length := by
  have hperm := l.perm_insertionSort (· ≤ ·)
  have hcount : (fun v => l.count v) = fun v => (l.insertionSort (· ≤ ·)).count v :=
    funext fun v => (hperm.count_eq v).symm
  rw [unique, hcount, List.sum_map_count_dedup_eq_length, hperm.length_eq]

/-! ## The rows that are not empty -/

theorem le_of_mem_scanl {acc v : Nat} {l : List Nat} (h : v ∈ l.scanl (· + ·) acc) : acc ≤ v := by
  induction l generalizing acc with
  | nil => simpa using (List.mem_singleton.mp (by simpa using h)).ge
  | cons n l ih =>
    rw [List.scanl_cons, List.mem_cons] at h
    rcases h with rfl | h
    · exact le_rfl
    · exact (Nat.le_add_right _ _).trans (ih h)

theorem mem_scanl_self (acc : Nat) (l : List Nat) : acc ∈ l.scanl (· + ·) acc := by
  cases l <;> simp

theorem scanl_pairwise (acc : Nat) (l : List Nat) : (l.scanl (· + ·) acc).Pairwise (· ≤ ·) := by
  induction l generalizing acc with
  | nil => simp
  | cons n l ih =>
    rw [List.scanl_cons, List.pairwise_cons]
    exact ⟨fun v hv => (Nat.le_add_right _ _).trans (le_of_mem_scanl hv), ih _⟩

theorem unique_of_pairwise {l : List Nat} (h : l.Pairwise (· ≤ ·)) : unique l = l.dedup := by
  rw [unique, h.insertionSort_eq]

theorem dedup_scanl (acc : Nat) (l : List Nat) : (l.scanl (· + ·) acc).dedup =
    (l.filter (· ≠ 0)).scanl (· + ·) acc := by
  induction l generalizing acc with
  | nil => simp
  | cons n l ih =>
    rw [List.scanl_cons]
    by_cases hn : n = 0
    · subst hn
      rw [List.dedup_cons_of_mem (by simpa using mem_scanl_self acc l), ih]
      simp
    · rw [List.dedup_cons_of_notMem fun h => by have := le_of_mem_scanl h; omega, ih]
      simp [hn]

theorem lt_of_mem_tail_scanl {acc v : Nat} {l : List Nat} (hl : ∀ n ∈ l, n ≠ 0)
    (h : v ∈ (l.scanl (· + ·) acc).tail) : acc < v := by
  cases l with
  | nil => simp at h
  | cons n l =>
    rw [List.scanl_cons, List.tail_cons] at h
    have := le_of_mem_scanl h
    have := hl n (.head _)
    omega

theorem scanl_eq_cons (acc : Nat) (l : List Nat) :
    l.scanl (· + ·) acc = acc :: (l.scanl (· + ·) acc).tail := by
  cases l <;> simp

/-- The first occurrences of the running sums, but the first one, are right behind the entries
that are not 0. -/
theorem idxOf_scanl (acc : Nat) (l : List Nat) :
    ((l.filter (· ≠ 0)).scanl (· + ·) acc).tail.map
        (fun v => (l.scanl (· + ·) acc).idxOf v - 1) =
      (List.range l.length).filter fun i => l.getD i 0 ≠ 0 := by
  induction l generalizing acc with
  | nil => simp
  | cons n l ih =>
    have hrest : ∀ v ∈ ((l.filter (· ≠ 0)).scanl (· + ·) (acc + n)).tail,
        ((n :: l).scanl (· + ·) acc).idxOf v - 1 =
          ((l.scanl (· + ·) (acc + n)).idxOf v - 1) + 1 := by
      intro v hv
      have hlt := lt_of_mem_tail_scanl (fun n hn => by simpa using (List.mem_filter.mp hn).2) hv
      rw [List.scanl_cons, scanl_eq_cons (acc + n) l, List.idxOf_cons_ne _ (by omega),
        List.idxOf_cons_ne _ (by omega)]
      rfl
    have htail : ((List.range l.length).map Nat.succ).filter
        (fun i => decide ((n :: l).getD i 0 ≠ 0)) =
        ((l.filter (· ≠ 0)).scanl (· + ·) (acc + n)).tail.map
          (fun v => ((n :: l).scanl (· + ·) acc).idxOf v - 1) := by
      have hsucc := congrArg (List.map Nat.succ) (ih (acc + n))
      rw [List.map_map] at hsucc
      rw [List.map_congr_left hrest, List.filter_map]
      exact hsucc.symm
    rw [List.length_cons, List.range_succ_eq_map]
    by_cases hn : n = 0
    · rw [List.filter_cons_of_neg (by simp [hn]), List.filter_cons_of_neg (by simp [hn]), htail, hn]
      rfl
    · have hhead : ((n :: l.filter (· ≠ 0)).scanl (· + ·) acc).tail =
          (acc + n) :: ((l.filter (· ≠ 0)).scanl (· + ·) (acc + n)).tail := by
        rw [List.scanl_cons, List.tail_cons]
        exact scanl_eq_cons _ _
      rw [List.filter_cons_of_pos (by simp [hn]), List.filter_cons_of_pos (by simp [hn]), htail,
        hhead, List.map_cons]
      congr 1
      rw [List.scanl_cons, scanl_eq_cons (acc + n) l, List.idxOf_cons_ne _ (by omega),
        List.idxOf_cons_self]

theorem map_length_filter (rows : List (List α)) :
    (rows.filter fun row => row.length ≠ 0).map List.length =
      (rows.map List.length).filter (· ≠ 0) := by
  rw [List.filter_map]
  rfl

/-- The cumulated lengths without repetitions are those of the rows that are not empty, -/
theorem unique_cumLens (rows : List (List α)) :
    unique (cumLens rows) = cumLens (rows.filter fun row => row.length ≠ 0) := by
  rw [cumLens, cumsum0, unique_of_pairwise (scanl_pairwise _ _), dedup_scanl, cumLens, cumsum0,
    map_length_filter]

/-- and their first positions give the indices of these rows. -/
theorem idxOf_cumLens (rows : List (List α)) :
    (unique (cumLens rows)).tail.map (fun v => (cumLens rows).idxOf v - 1) =
      (List.range rows.length).filter fun i => (rows.getD i []).length ≠ 0 := by
  rw [unique_cumLens]
  simp only [cumLens, cumsum0, map_length_filter]
  rw [idxOf_scanl, List.length_map]
  refine List.filter_congr fun i hi => ?_
  have hi' : i < rows.length := List.mem_range.mp hi
  simp [List.getD_eq_getElem?_getD, hi']

end Mil.Lib
