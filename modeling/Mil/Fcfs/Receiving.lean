import Mathlib.Data.List.Sort
import Mil.Fcfs.Round

/-!
# Receiving requests

A check permutes the ends of the parallel arrays, all in the same way (`permuteFrom`), and marks a
prefix of the requests that have not been received yet as received.
-/

set_option autoImplicit false

namespace Mil.Fcfs

open Mil.Lib

/-! ## Permuting the end of a list -/

section

variable {α β : Type} {start k : Nat} {order : List Nat} {l : List α}

theorem filterMap_getElem?_range (k : Nat) (l : List α) :
    (List.range k).filterMap (fun i => l[i]?) = l.take k := by
  induction k with
  | zero => rfl
  | succ k ih =>
    rw [List.range_succ, List.filterMap_append, ih, List.take_add_one]
    cases hget : l[k]? <;> simp [hget]

theorem permuteFrom_map (g : α → β) (start : Nat) (order : List Nat) (l : List α) :
    permuteFrom start order (l.map g) = (permuteFrom start order l).map g := by
  have hget : (fun i : Nat => ((l.map g).drop start)[i]?) = fun i => ((l.drop start)[i]?).map g := by
    funext i
    rw [← List.map_drop, List.getElem?_map]
  rw [permuteFrom, permuteFrom, List.map_append, List.map_append, List.map_take, List.map_drop,
    List.map_filterMap, hget]

/-- The order the list is already in. -/
theorem permuteFrom_range (start k : Nat) (l : List α) : permuteFrom start (List.range k) l = l := by
  rw [permuteFrom, filterMap_getElem?_range, List.length_range, List.append_assoc, ← List.drop_drop,
    List.take_append_drop, List.take_append_drop]

theorem permuteFrom_perm (horder : order.Perm (List.range k)) : (permuteFrom start order l).Perm l := by
  have hlen : order.length = k := by rw [horder.length_eq, List.length_range]
  have hperm : (permuteFrom start order l).Perm (permuteFrom start (List.range k) l) := by
    rw [permuteFrom, permuteFrom, hlen, List.length_range]
    exact ((horder.filterMap _).append_left _).append_right _
  rw [permuteFrom_range] at hperm
  exact hperm

theorem drop_permuteFrom (horder : order.Perm (List.range k)) (hk : start + k ≤ l.length) :
    (permuteFrom start order l).drop (start + k) = l.drop (start + k) := by
  have hlen : order.length = k := by rw [horder.length_eq, List.length_range]
  have hmiddle : (order.filterMap fun i => (l.drop start)[i]?).length = k := by
    rw [(horder.filterMap _).length_eq, filterMap_getElem?_range, List.length_take, List.length_drop]
    omega
  have hfront : (l.take start ++ order.filterMap fun i => (l.drop start)[i]?).length = start + k := by
    rw [List.length_append, hmiddle, List.length_take]
    omega
  rw [permuteFrom, hlen, List.drop_append_of_le_length hfront.ge, ← hfront, List.drop_length,
    List.nil_append]

theorem longestFirst_perm (lens : List Nat) :
    (longestFirst lens).Perm (List.range lens.length) :=
  List.perm_insertionSort _ _

/-- Sorting times that are in order changes nothing. -/
theorem earliestFirst_of_sorted {times : List ℚ} (h : times.Pairwise (· ≤ ·)) :
    earliestFirst times = List.range times.length := by
  refine List.Pairwise.insertionSort_eq ?_
  rw [List.pairwise_iff_getElem] at h ⊢
  intro i j hi hj hij
  rw [List.length_range] at hi hj
  have hle := h i j hi hj hij
  rw [List.getElem_range, List.getElem_range, List.getD_eq_getElem?_getD,
    List.getD_eq_getElem?_getD, List.getElem?_eq_getElem hi, List.getElem?_eq_getElem hj]
  exact hle

end

/-! ## A check -/

section

variable {cfg : ArrivalConfig} {n : Nat} {s : Arriving}

theorem reorder_map {α β : Type} (g : α → β) (newInpEnd : Nat) (l : List α) :
    s.reorder cfg newInpEnd (l.map g) = (s.reorder cfg newInpEnd l).map g := by
  rw [Arriving.reorder, Arriving.reorder]
  split
  · exact permuteFrom_map _ _ _ _
  · rfl

theorem reorder_perm {α : Type} (newInpEnd : Nat) (l : List α) :
    (s.reorder cfg newInpEnd l).Perm l := by
  rw [Arriving.reorder]
  split
  · exact permuteFrom_perm (longestFirst_perm _)
  · exact .refl _

/-- The requests that stay unreceived keep their places. -/
theorem drop_reorder {α : Type} {newInpEnd : Nat} {l : List α}
    (hpointer : s.sched.pointer ≤ newInpEnd) (hinp : newInpEnd ≤ s.sched.inpLens.length)
    (hl : newInpEnd ≤ l.length) :
    (s.reorder cfg newInpEnd l).drop newInpEnd = l.drop newInpEnd := by
  rw [Arriving.reorder]
  split
  · have hlen : (slice s.sched.inpLens s.sched.pointer newInpEnd).length =
        newInpEnd - s.sched.pointer := by
      rw [slice, List.length_take, List.length_drop]
      omega
    have hend : s.sched.pointer + (slice s.sched.inpLens s.sched.pointer newInpEnd).length =
        newInpEnd := by
      rw [hlen]
      exact Nat.add_sub_of_le hpointer
    have hdrop := drop_permuteFrom (l := l)
      (longestFirst_perm (slice s.sched.inpLens s.sched.pointer newInpEnd)) (hend.trans_le hl)
    rw [hend] at hdrop
    exact hdrop
  · rfl

theorem newRequests_bounds {time : ℚ} {newInpEnd : Nat} (h : s.sched.Received n)
    (harrive : s.arriveTimes.length = n) (hnew : s.newRequests = some (time, newInpEnd)) :
    s.sched.seqIds.length ≤ newInpEnd ∧ newInpEnd ≤ n := by
  have hseqIds := h.seqIds_le
  rw [Arriving.newRequests] at hnew
  split at hnew
  · cases hnew
  · split at hnew
    · cases hnew
    · obtain ⟨-, rfl⟩ := Prod.mk.inj (Option.some.inj hnew)
      refine ⟨Nat.le_add_right _ _, ?_⟩
      have hfind : ((s.arriveTimes.drop s.sched.seqIds.length).findIdx fun a => decide
        ((if s.totInferenceTime < s.arriveTimes.getD s.sched.seqIds.length 0 then
          s.arriveTimes.getD s.sched.seqIds.length 0 else s.totInferenceTime) < a)) ≤
          (s.arriveTimes.drop s.sched.seqIds.length).length := List.findIdx_le_length
      rw [List.length_drop, harrive] at hfind
      omega

end

end Mil.Fcfs
