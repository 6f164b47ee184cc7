import Mathlib.Order.Monotone.Basic
import Mil.Fcfs.RestartSpec

/-!
# The loop that removes iterations

The loop over the first decode iterations looks at each of them under the index it had before the
loop. After some removals an index stands for a later iteration, or for none at all. `Removing`
says which one, and what the arrays hold: the iterations that are left, under the numbers they had,
and all that have not been removed, as long as they are not cut off at the end.

Without the loop (`forall_mem_removedIters_iff`): given iterations are all removed exactly when they
are on its list, each under its number less that of those before it.
-/

set_option autoImplicit false

namespace Mil.Fcfs

open Mil.Lib

/-! ## Removal at an index -/

/-- Where the element at `t` was before the one at `i` was removed. -/
def skipAt (i t : Nat) : Nat := if t < i then t else t + 1

theorem skipAt_strictMono (i : Nat) : StrictMono (skipAt i) := by
  intro t u htu
  unfold skipAt
  split <;> split <;> omega

theorem exists_skipAt {i t : Nat} (hne : t ≠ i) : ∃ u, skipAt i u = t := by
  rcases Nat.lt_or_gt_of_ne hne with hlt | hgt
  · exact ⟨t, if_pos hlt⟩
  · refine ⟨t - 1, ?_⟩
    rw [skipAt, if_neg (by omega)]
    omega

/-- An index from `n` on removes the last element. -/
theorem removeAt_map_range {β : Type} (f : Nat → β) (i n : Nat) :
    removeAt i ((List.range n).map f) = (List.range (n - 1)).map (f ∘ skipAt i) := by
  refine List.ext_getElem? fun t => ?_
  rw [removeAt, List.getElem?_take, List.length_map, List.length_range]
  by_cases ht : t < n - 1
  · rw [if_pos ht, List.getElem?_append, List.length_take, List.length_map, List.length_range,
      List.getElem?_take, List.getElem?_drop]
    by_cases hti : t < i
    · have htmin : t < min i n := by omega
      have htn : t < n := by omega
      simp [htmin, hti, ht, htn, skipAt]
    · have htmin : ¬ t < min i n := by omega
      have hindex : i + 1 + (t - min i n) = t + 1 := by omega
      have htn : t + 1 < n := by omega
      rw [if_neg htmin, hindex]
      simp [hti, ht, htn, skipAt]
  · rw [if_neg ht]
    simp [ht]

theorem removeAt_append {β : Type} (pre : List β) {l : List β} (hl : l ≠ []) (i : Nat) :
    removeAt (i + pre.length) (pre ++ l) = pre ++ removeAt i l := by
  have hpos := List.length_pos_of_ne_nil hl
  have hlast : (pre ++ l).length - 1 = pre.length + (l.length - 1) := by
    rw [List.length_append]
    omega
  have htake : (pre ++ l).take (i + pre.length) = pre ++ l.take i := by
    rw [List.take_append, List.take_of_length_le (Nat.le_add_left _ i), Nat.add_sub_cancel]
  have hdrop : (pre ++ l).drop (i + pre.length + 1) = l.drop (i + 1) := by
    rw [Nat.add_right_comm, List.drop_append, List.drop_of_length_le (Nat.le_add_left _ _),
      Nat.add_sub_cancel, List.nil_append]
  rw [removeAt, removeAt, hlast, htake, hdrop, List.append_assoc, List.take_length_add_append]

/-! ## The state of the loop -/

/-- The iterations the loop removes: after `c` removals the index `i` stands for the iteration
`i + c`. -/
def removedIters (attended : Nat → Bool) : List Nat → Nat → List Nat
  | [], _ => []
  | i :: iters, c =>
    if attended (i + c) then removedIters attended iters c
    else (i + c) :: removedIters attended iters (c + 1)

section

variable {L : Type} {m : Metadata L} {rows₀ rows : List (List Rng)} {pre : List L}
  {f : Nat → L} {num bound : Nat} {gone : List Nat} {label : Nat → Nat}

/-- The metadata after the iterations `gone` have been removed. The iteration at an index had the
number `label` gives, and from `bound` on that is more by the number of removals. The arrays have
`pre` for the prefill steps and `f` for the others. -/
structure Removing (rows₀ : List (List Rng)) (pre : List L) (f : Nat → L) (num : Nat)
    (m : Metadata L) (gone : List Nat) (bound : Nat) (label : Nat → Nat) (rows : List (List Rng)) :
    Prop where
  rngs_eq : m.rngs = RngArrays.ofRows rows
  rows_length : rows.length = rows₀.length
  increasing : ∀ row ∈ rows, Increasing 0 row
  attends : ∀ t, (∃ row ∈ rows, Attends row t) ↔ ∃ row ∈ rows₀, Attends row (label t)
  strictMono : StrictMono label
  onto : ∀ t, t ∉ gone → ∃ i, label i = t
  unattended : ∀ t ∈ gone, ¬ ∃ row ∈ rows₀, Attends row t
  shift : ∀ t, bound ≤ t → label t = t + gone.length
  cumsum : m.cumsumLatencys = pre ++ (List.range (num - gone.length)).map (f ∘ label)
  flags_length : m.isPrefillSteps.length = pre.length + (num - gone.length)

/-- The iteration at an index that nobody attends is removed. -/
theorem Removing.remove (h : Removing rows₀ pre f num m gone bound label rows) {i : Nat}
    (hi : bound ≤ i) (hc : gone.length < num) (hnot : ∀ row ∈ rows, ¬ Attends row i) :
    Removing rows₀ pre f num
      { cumsumLatencys := removeAt (i + pre.length) m.cumsumLatencys
        rngs := RngArrays.ofRows (rows.map (closeGap i))
        isPrefillSteps := removeAt (i + pre.length) m.isPrefillSteps
        throughput := removeAt (i + pre.length) m.throughput }
      (gone ++ [i + gone.length]) i (label ∘ skipAt i) (rows.map (closeGap i)) where
  rngs_eq := rfl
  rows_length := by rw [List.length_map, h.rows_length]
  increasing row' hrow' := by
    obtain ⟨row, hrow, rfl⟩ := List.mem_map.mp hrow'
    exact (h.increasing row hrow).closeGap (hnot row hrow)
  attends t := by
    rw [Function.comp_apply, ← h.attends]
    constructor
    · rintro ⟨row', hrow', hat⟩
      obtain ⟨row, hrow, rfl⟩ := List.mem_map.mp hrow'
      exact ⟨row, hrow, (attends_closeGap (h.increasing row hrow) (hnot row hrow) t).mp hat⟩
    · rintro ⟨row, hrow, hat⟩
      exact ⟨closeGap i row, List.mem_map_of_mem hrow,
        (attends_closeGap (h.increasing row hrow) (hnot row hrow) t).mpr hat⟩
  strictMono := h.strictMono.comp (skipAt_strictMono i)
  onto t ht := by
    rw [List.mem_append, List.mem_singleton, not_or] at ht
    obtain ⟨j, rfl⟩ := h.onto t ht.1
    have hne : j ≠ i := fun heq => ht.2 (heq ▸ h.shift i hi)
    obtain ⟨u, rfl⟩ := exists_skipAt hne
    exact ⟨u, rfl⟩
  unattended t ht := by
    rcases List.mem_append.mp ht with ht | ht
    · exact h.unattended t ht
    · rw [List.mem_singleton.mp ht, ← h.shift i hi, ← h.attends]
      exact fun ⟨row, hrow, hat⟩ => hnot row hrow hat
  shift t ht := by
    -- from the removed index on, a number is one more than it was
    have hskip : skipAt i t = t + 1 := if_neg (Nat.not_lt.mpr ht)
    rw [Function.comp_apply, hskip, h.shift (t + 1) (by omega), List.length_append,
      List.length_singleton]
    omega
  cumsum := by
    have hpos : (List.range (num - gone.length)).map (f ∘ label) ≠ [] := by
      rw [ne_eq, List.map_eq_nil_iff, List.range_eq_nil]
      omega
    simp only [List.length_append, List.length_singleton]
    rw [h.cumsum, removeAt_append pre hpos, removeAt_map_range, Nat.sub_sub]
    rfl
  flags_length := by
    simp only [removeAt_length, h.flags_length, List.length_append, List.length_singleton]
    omega

/-- One step of the loop. -/
theorem Removing.step (h : Removing rows₀ pre f num m gone bound label rows) {i : Nat}
    (hi : bound ≤ i) (hc : gone.length < num) : ∃ label' rows', Removing rows₀ pre f num
      (removeIfUnattended pre.length m i)
      (if attendedBy (RngArrays.ofRows rows₀) (i + gone.length) then gone
        else gone ++ [i + gone.length]) i label' rows' := by
  have hiff : (∃ row ∈ rows, Attends row i) ↔
      attendedBy (RngArrays.ofRows rows₀) (i + gone.length) = true := by
    rw [h.attends, h.shift i hi, attendedBy_ofRows]
  rcases removeIfUnattended_ofRows pre.length i h.rngs_eq with ⟨hat, hsame⟩ | ⟨hnot, hremove⟩
  · rw [if_pos (hiff.mp hat), hsame]
    exact ⟨label, rows, { h with shift := fun t ht => h.shift t (hi.trans ht) }⟩
  · have hlost : ¬ ∃ row ∈ rows, Attends row i := fun ⟨row, hrow, hat⟩ => hnot row hrow hat
    rw [if_neg (mt hiff.mpr hlost), hremove]
    exact ⟨_, _, h.remove hi hc hnot⟩

/-- The whole loop. -/
theorem Removing.loop (h : Removing rows₀ pre f num m gone bound label rows) {iters : List Nat}
    (hsorted : iters.Pairwise (· < ·)) (hbound : ∀ i ∈ iters, bound ≤ i)
    (hnum : gone.length + iters.length ≤ num) : ∃ bound' label' rows', Removing rows₀ pre f num
      (iters.foldl (removeIfUnattended pre.length) m)
      (gone ++ removedIters (attendedBy (RngArrays.ofRows rows₀)) iters gone.length)
      bound' label' rows' ∧
      (gone ++ removedIters (attendedBy (RngArrays.ofRows rows₀)) iters gone.length).length ≤
        num := by
  induction iters generalizing m gone bound label rows with
  | nil =>
    rw [removedIters, List.append_nil]
    exact ⟨bound, label, rows, h, hnum⟩
  | cons i iters ih =>
    obtain ⟨hlater, hsorted⟩ := List.pairwise_cons.mp hsorted
    rw [List.length_cons] at hnum
    obtain ⟨label', rows', hstep⟩ := h.step (hbound i List.mem_cons_self) (by omega)
    have hnext := ih hstep hsorted (fun j hj => (hlater j hj).le)
    rw [removedIters]
    split at hnext
    · rename_i hat
      rw [if_pos hat]
      exact hnext (by omega)
    · rename_i hat
      rw [List.length_append, List.length_singleton, List.append_assoc] at hnext
      rw [if_neg hat]
      exact hnext (by omega)

end

/-! ## What is removed -/

section

variable {attended : Nat → Bool} {iters : List Nat} {c : Nat}

theorem le_of_mem_removedIters {bound : Nat} (hbound : ∀ i ∈ iters, bound ≤ i) :
    ∀ t ∈ removedIters attended iters c, bound + c ≤ t := by
  induction iters generalizing c with
  | nil => exact fun t ht => absurd ht List.not_mem_nil
  | cons i iters ih =>
    obtain ⟨hi, hrest⟩ := List.forall_mem_cons.mp hbound
    intro t ht
    rw [removedIters] at ht
    split at ht
    · exact ih hrest t ht
    · rcases List.mem_cons.mp ht with rfl | ht
      · exact Nat.add_le_add_right hi c
      · have hle := ih hrest t ht
        omega

/-- Unattended iterations are all removed exactly when each is on the list under its number less that
of those before it. Up to the last of them, `lost` has all unattended iterations the loop can
meet. -/
theorem forall_mem_removedIters_iff (hsorted : iters.Pairwise (· < ·)) {lost : List Nat}
    (hlost : lost.Pairwise (· < ·)) (hc : ∀ t ∈ lost, c ≤ t)
    (hun : ∀ t ∈ lost, attended t = false)
    (hall : ∀ i ∈ iters, ∀ u, i + c ≤ u → attended u = false → (∃ t ∈ lost, u < t) → u ∈ lost) :
    (∀ t ∈ lost, t ∈ removedIters attended iters c) ↔
      ((lost.zipIdx c).map fun p => p.1 - p.2).Sublist iters := by
  induction iters generalizing c lost with
  | nil =>
    rw [List.sublist_nil, List.map_eq_nil_iff, List.zipIdx_eq_nil_iff, List.eq_nil_iff_forall_not_mem]
    exact ⟨fun hfound t ht => List.not_mem_nil (hfound t ht), fun hnil t ht => absurd ht (hnil t)⟩
  | cons i iters ih =>
    obtain ⟨hlater, hsorted⟩ := List.pairwise_cons.mp hsorted
    have hrest := fun j hj => hall j (List.mem_cons_of_mem i hj)
    cases lost with
    | nil => simp
    | cons t lost =>
      obtain ⟨hgap, hlost'⟩ := List.pairwise_cons.mp hlost
      have htc := hc t List.mem_cons_self
      rw [List.zipIdx_cons, List.map_cons, removedIters]
      rcases Nat.lt_trichotomy (i + c) t with hlt | heq | hgt
      · -- The index stands for an iteration that stays.
        have hat : attended (i + c) = true := by
          by_contra hnot
          have hmem := hall i List.mem_cons_self (i + c) le_rfl (by simpa using hnot)
            ⟨t, List.mem_cons_self, hlt⟩
          rcases List.mem_cons.mp hmem with heq | hmem
          · omega
          · have := hgap _ hmem
            omega
        have hne : t - c ≠ i := by omega
        rw [if_pos hat, ih hsorted hlost hc hun hrest, List.zipIdx_cons, List.map_cons,
          List.sublist_cons_iff]
        refine ⟨.inl, fun hsub => hsub.resolve_right ?_⟩
        rintro ⟨r, hr, -⟩
        exact hne (List.cons.inj hr).1
      · -- It stands for the first one that is lost.
        have hun_i : ¬ attended (i + c) = true := by
          rw [heq, hun t List.mem_cons_self]
          exact Bool.false_ne_true
        have hnext := ih (c := c + 1) hsorted hlost' (fun u hu => by have := hgap u hu; omega)
          (fun u hu => hun u (List.mem_cons_of_mem t hu)) fun j hj u hju hu ⟨v, hv, huv⟩ => by
            have hij := hlater j hj
            have hmem := hrest j hj u (by omega) hu ⟨v, List.mem_cons_of_mem t hv, huv⟩
            exact (List.mem_cons.mp hmem).resolve_left (by omega)
        have hi : t - c = i := by omega
        rw [if_neg hun_i, heq, hi, List.cons_sublist_cons, ← hnext, List.forall_mem_cons]
        constructor
        · rintro ⟨-, hfound⟩ u hu
          exact (List.mem_cons.mp (hfound u hu)).resolve_left (hgap u hu).ne'
        · exact fun hfound => ⟨List.mem_cons_self, fun u hu => List.mem_cons_of_mem t (hfound u hu)⟩
      · -- The first one that is lost has been passed.
        have hfirst : ∀ j ∈ i :: iters, i ≤ j := fun j hj => by
          rcases List.mem_cons.mp hj with rfl | hj
          · exact le_rfl
          · exact (hlater j hj).le
        constructor
        · intro hfound
          have hmem : t ∈ removedIters attended (i :: iters) c := by
            rw [removedIters]
            exact hfound t List.mem_cons_self
          have hle := le_of_mem_removedIters hfirst t hmem
          omega
        · intro hsub
          have hle := hfirst _ (hsub.subset List.mem_cons_self)
          omega

/-- Where nothing is attended any more, every index removes something. -/
theorem length_filter_le_removedIters {late : Nat → Bool}
    (hmono : ∀ t u, t ≤ u → late t = true → late u = true)
    (hlate : ∀ t, late t = true → attended t = false) :
    (iters.filter late).length ≤ ((removedIters attended iters c).filter late).length := by
  induction iters generalizing c with
  | nil => exact le_rfl
  | cons i iters ih =>
    rw [removedIters, List.filter_cons]
    by_cases hi : late i = true
    · have hic := hmono i (i + c) (Nat.le_add_right i c) hi
      rw [if_pos hi, hlate _ hic, if_neg Bool.false_ne_true, List.filter_cons_of_pos hic,
        List.length_cons, List.length_cons]
      exact Nat.succ_le_succ ih
    · rw [if_neg hi]
      split
      · exact ih
      · exact ih.trans (((List.sublist_cons_self _ _).filter late).length_le)

end

end Mil.Fcfs
