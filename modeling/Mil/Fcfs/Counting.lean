import Mathlib.Data.Set.Card
import Mathlib.Order.Interval.Finset.Nat
import Mil.Fcfs.RestartRows

/-!
# Counting progress in closed form

`get_info_at_stop_time` counts the iterations a request has attended as a difference of prefix sums
over the clipped ranges of all requests. Request by request that is the sum over its ranges
(`getInfoAtStopTime_ofRows`), and this is a count because ranges do not overlap: `doneBy_eq_card` by
induction on the ranges, where the first one, cut at the stop, is an interval of its own.
-/

set_option autoImplicit false

namespace Mil.Fcfs

open Mil.Lib

/-! ## The arrays -/

/-- A request's ranges as `infer_progress` has them: starts and ends in one list. -/
def flatRngs (row : List Rng) : List Nat := row.flatMap fun r => [r.1, r.2]

/-- `reshape((-1, 2))`. -/
def reshapePairs : List Nat → Option (List Rng)
  | [] => some []
  | [_] => none
  | start :: last :: rest => (reshapePairs rest).map ((start, last) :: ·)

/-- `_get_inferRng_info`; `np.concatenate` needs a list to start with. -/
def getInferRngInfo (inferProgress : List (List Nat)) : Option RngArrays := do
  let rngNums := inferProgress.map fun rngs => rngs.length / 2
  if inferProgress = [] then none
  else
    let concatInferProgress ← reshapePairs inferProgress.flatten
    return ⟨cumsum0 rngNums, concatInferProgress.map Prod.fst, concatInferProgress.map Prod.snd⟩

theorem length_flatRngs (row : List Rng) : (flatRngs row).length = 2 * row.length := by
  induction row with
  | nil => rfl
  | cons r row ih =>
    show (flatRngs row).length + 1 + 1 = 2 * (row.length + 1)
    rw [ih, Nat.mul_succ]

theorem reshapePairs_flatRngs (row : List Rng) : reshapePairs (flatRngs row) = some row := by
  induction row with
  | nil => rfl
  | cons r row ih =>
    show (reshapePairs (flatRngs row)).map _ = _
    rw [ih]
    rfl

theorem flatten_map_flatRngs (rows : List (List Rng)) :
    (rows.map flatRngs).flatten = flatRngs rows.flatten := by
  induction rows with
  | nil => rfl
  | cons row rows ih =>
    rw [List.map_cons, List.flatten_cons, List.flatten_cons, ih, flatRngs, flatRngs, flatRngs,
      List.flatMap_append]

theorem getInferRngInfo_flatRngs {rows : List (List Rng)} (hne : rows ≠ []) :
    getInferRngInfo (rows.map flatRngs) = some (RngArrays.ofRows rows) := by
  have hnums : (rows.map flatRngs).map (fun rngs => rngs.length / 2) = rows.map List.length := by
    rw [List.map_map]
    refine List.map_congr_left fun row _ => ?_
    show (flatRngs row).length / 2 = row.length
    rw [length_flatRngs, Nat.mul_div_cancel_left _ Nat.two_pos]
  have hne' : rows.map flatRngs ≠ [] := fun h => hne (List.map_eq_nil_iff.mp h)
  simp only [getInferRngInfo, if_neg hne', flatten_map_flatRngs, reshapePairs_flatRngs, hnums]
  rfl

/-! ## Attended iterations -/

/-- The iterations up to `n` that are attended. -/
def attendedUpTo (l : List Rng) (n : Nat) : Finset Nat := (Finset.range (n + 1)).filter (Attends l)

theorem mem_attendedUpTo {l : List Rng} {n i : Nat} :
    i ∈ attendedUpTo l n ↔ i ≤ n ∧ Attends l i := by
  rw [attendedUpTo, Finset.mem_filter, Finset.mem_range, Nat.lt_succ_iff]

theorem attendedUpTo_cons (r : Rng) (l : List Rng) (n : Nat) :
    attendedUpTo (r :: l) n = Finset.Icc r.1 (min n r.2) ∪ attendedUpTo l n := by
  ext i
  simp only [mem_attendedUpTo, Finset.mem_union, Finset.mem_Icc, attends_cons, Nat.le_min]
  constructor
  · rintro ⟨hn, h | h⟩
    · exact .inl ⟨h.1, hn, h.2⟩
    · exact .inr ⟨hn, h⟩
  · rintro (⟨hle, hn, h⟩ | ⟨hn, h⟩)
    · exact ⟨hn, .inl ⟨hle, h⟩⟩
    · exact ⟨hn, .inr h⟩

theorem attendedUpTo_mono (l : List Rng) {n n' : Nat} (h : n ≤ n') :
    attendedUpTo l n ⊆ attendedUpTo l n' := by
  intro i hi
  rw [mem_attendedUpTo] at hi ⊢
  exact ⟨hi.1.trans h, hi.2⟩

/-- The clipped sizes of the ranges add up to the number of iterations. -/
theorem doneBy_eq_card {gap : Nat} {l : List Rng} (h : Increasing gap l) (n : Nat) :
    doneBy n l = (attendedUpTo l n).card := by
  induction l with
  | nil =>
    have hempty : attendedUpTo [] n = ∅ :=
      Finset.eq_empty_of_forall_notMem fun i hi => attends_nil i (mem_attendedUpTo.mp hi).2
    rw [hempty]
    rfl
  | cons r l ih =>
    have hrest : Increasing gap l := ⟨fun q hq => h.le q (.tail _ hq), h.lt.of_cons⟩
    have hle := h.le r (.head _)
    -- What comes after the first range starts after its end.
    have hdisjoint : Disjoint (Finset.Icc r.1 (min n r.2)) (attendedUpTo l n) := by
      rw [Finset.disjoint_left]
      intro i hi hmem
      obtain ⟨q, hq, hqi, -⟩ := (mem_attendedUpTo.mp hmem).2
      have hlt := (List.pairwise_cons.mp h.lt).1 q hq
      have hir := (Nat.le_min.mp (Finset.mem_Icc.mp hi).2).2
      omega
    rw [attendedUpTo_cons, Finset.card_union_of_disjoint hdisjoint, ← ih hrest, Nat.card_Icc]
    show (if r.1 ≤ n then min n r.2 - r.1 + 1 else 0) + doneBy n l = _
    congr 1
    split <;> omega

/-- At the last attended iteration all are counted. -/
theorem coe_attendedUpTo {l : List Rng} {n : Nat} (h : EndsBefore l (n + 1)) :
    (attendedUpTo l n : Set Nat) = {i | Attends l i} := by
  ext i
  rw [Finset.mem_coe, mem_attendedUpTo]
  exact and_iff_right_of_imp fun hi => Nat.le_of_lt_succ (hi.lt h)

/-! ## The count -/

/-- Counting in closed form is right: every request gets the number of iterations up to the stop that
it attends. The counts grow with the stop, and when the stop is the last iteration they are the numbers
of all attended iterations. -/
theorem getInfoAtStopTime_counts (rows : List (List Rng)) (hne : rows ≠ [])
    (hrows : ∀ row ∈ rows, Increasing 0 row) :
    ∃ a, getInferRngInfo (rows.map flatRngs) = some a ∧
      (∀ stop, getInfoAtStopTime a stop = rows.map fun row => (attendedUpTo row stop).card) ∧
      (∀ stop stop', stop ≤ stop' →
        List.Forall₂ (· ≤ ·) (getInfoAtStopTime a stop) (getInfoAtStopTime a stop')) ∧
      ∀ stop, (∀ row ∈ rows, EndsBefore row (stop + 1)) →
        getInfoAtStopTime a stop = rows.map fun row => {i | Attends row i}.ncard := by
  have hcount (stop : Nat) : getInfoAtStopTime (RngArrays.ofRows rows) stop =
      rows.map fun row => (attendedUpTo row stop).card := by
    rw [getInfoAtStopTime_ofRows]
    exact List.map_congr_left fun row hrow => doneBy_eq_card (hrows row hrow) stop
  refine ⟨_, getInferRngInfo_flatRngs hne, hcount, fun stop stop' hle => ?_, fun stop hend => ?_⟩
  · rw [hcount, hcount, List.forall₂_map_left_iff, List.forall₂_map_right_iff, List.forall₂_same]
    exact fun row _ => Finset.card_le_card (attendedUpTo_mono row hle)
  · rw [hcount]
    refine List.map_congr_left fun row hrow => ?_
    rw [← Set.ncard_coe_finset, coe_attendedUpTo (hend row hrow)]

theorem getInfoAtStopTime_counts_three :
    ∃ a, getInferRngInfo ([[], [(0, 1), (4, 6)], []].map flatRngs) = some a ∧
      ∀ stop, getInfoAtStopTime a stop =
        [[], [(0, 1), (4, 6)], []].map fun row => (attendedUpTo row stop).card := by
  obtain ⟨a, hinfo, hcount, -, -⟩ := getInfoAtStopTime_counts [[], [(0, 1), (4, 6)], []] (by decide)
    (by
      intro row hrow
      refine ⟨?_, ?_⟩ <;> revert row <;> decide)
  exact ⟨a, hinfo, hcount⟩

end Mil.Fcfs
