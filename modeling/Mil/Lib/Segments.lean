import Mathlib.Data.List.Flatten
import Mathlib.Data.List.Nodup
import Mil.Lib.Allocation

/-!
# Lists cut into segments

Items come in units (GPUs by the board they sit on, blocks by their page). A list of items is
*segmented* for a width `w` when it is a sequence of segments, one for every unit that occurs, and
the length of each is a multiple of `w`. Then the first `w` items are of one unit, and so are the
next `w`, and what is left is segmented again: groups of `w` can be handed out from the front.

Groups of `w` items of one unit may also be taken from the middle of the list, because each of them
shortens a single segment. And a list that is segmented for `w` is segmented for every divisor of
`w`. So widths that divide one another can be served in decreasing order.
-/

set_option autoImplicit false

namespace Mil.Lib

variable {α ι : Type}

/-- All items are of one unit. -/
def InUnit (unit : α → ι) (xs : List α) : Prop :=
  ∀ a ∈ xs, ∀ b ∈ xs, unit a = unit b

instance [DecidableEq ι] (unit : α → ι) (xs : List α) : Decidable (InUnit unit xs) :=
  inferInstanceAs (Decidable (∀ a ∈ xs, ∀ b ∈ xs, unit a = unit b))

/-- One segment for every unit that occurs, each with a length that is a multiple of `w`. -/
inductive Segmented (unit : α → ι) (w : Nat) : List α → Prop
  | nil : Segmented unit w []
  | cons {i : ι} {seg rest : List α} (hlength : w ∣ seg.length) (hseg : ∀ a ∈ seg, unit a = i)
      (hother : ∀ a ∈ rest, unit a ≠ i) (hrest : Segmented unit w rest) :
      Segmented unit w (seg ++ rest)

section

variable {unit : α → ι} {w : Nat} {l : List α}

theorem InUnit.mono {xs ys : List α} (h : InUnit unit ys) (hsub : xs ⊆ ys) : InUnit unit xs :=
  fun a ha b hb => h a (hsub ha) b (hsub hb)

theorem Segmented.of_dvd {v : Nat} (h : Segmented unit w l) (hdvd : v ∣ w) :
    Segmented unit v l := by
  induction h with
  | nil => exact .nil
  | cons hlength hseg hother _ ih => exact .cons (Nat.dvd_trans hdvd hlength) hseg hother ih

/-- Whole units one after the other. -/
theorem Segmented.flatMap {ids : List ι} {f : ι → List α} (hids : ids.Nodup)
    (hlength : ∀ i ∈ ids, w ∣ (f i).length) (hunit : ∀ i ∈ ids, ∀ a ∈ f i, unit a = i) :
    Segmented unit w (ids.flatMap f) := by
  induction ids with
  | nil => exact .nil
  | cons i ids ih =>
    obtain ⟨hi, hids⟩ := List.nodup_cons.mp hids
    rw [List.flatMap_cons]
    refine .cons (hlength i (.head _)) (hunit i (.head _)) (fun a ha heq => ?_)
      (ih hids (fun j hj => hlength j (.tail _ hj)) fun j hj => hunit j (.tail _ hj))
    obtain ⟨j, hj, haj⟩ := List.mem_flatMap.mp ha
    rw [hunit j (.tail _ hj) a haj] at heq
    exact hi (heq ▸ hj)

/-! ## From the front -/

/-- The first `w` items are of one unit. -/
theorem Segmented.front (h : Segmented unit w l) (hw : w ≤ l.length) :
    InUnit unit (l.take w) ∧ Segmented unit w (l.drop w) := by
  induction h with
  | nil =>
    rw [List.take_nil, List.drop_nil]
    exact ⟨fun a ha => absurd ha List.not_mem_nil, .nil⟩
  | @cons i seg rest hlength hseg hother hrest ih =>
    rcases Nat.eq_zero_or_pos seg.length with hzero | hpos
    · obtain rfl := List.eq_nil_of_length_eq_zero hzero
      exact ih hw
    · have hle : w ≤ seg.length := Nat.le_of_dvd hpos hlength
      rw [List.take_append_of_le_length hle, List.drop_append_of_le_length hle]
      refine ⟨fun a ha b hb => ?_, .cons ?_ (fun a ha => hseg a (List.mem_of_mem_drop ha))
        hother hrest⟩
      · rw [hseg a (List.mem_of_mem_take ha), hseg b (List.mem_of_mem_take hb)]
      · rw [List.length_drop]
        exact Nat.dvd_sub hlength (Nat.dvd_refl w)

/-- The list cut into `d` pieces of `w` items. -/
def chunks (w d : Nat) (l : List α) : List (List α) :=
  (List.range d).map fun i => (l.drop (i * w)).take w

theorem chunks_succ (w d : Nat) (l : List α) :
    chunks w (d + 1) l = l.take w :: chunks w d (l.drop w) := by
  rw [chunks, List.range_succ_eq_map, List.map_cons, List.map_map, chunks, Nat.zero_mul,
    List.drop_zero]
  refine congrArg _ (List.map_congr_left fun i _ => ?_)
  rw [Function.comp, List.drop_drop, Nat.succ_mul, Nat.add_comm]

theorem chunks_take (w d : Nat) (l : List α) : chunks w d (l.take (d * w)) = chunks w d l := by
  refine List.map_congr_left fun i hi => ?_
  have hle : (i + 1) * w ≤ d * w := Nat.mul_le_mul_right w (List.mem_range.mp hi)
  rw [Nat.succ_mul] at hle
  rw [List.drop_take, List.take_take, Nat.min_eq_left (by omega)]

theorem flatten_chunks {d : Nat} (h : l.length = d * w) : (chunks w d l).flatten = l := by
  induction d generalizing l with
  | zero =>
    rw [Nat.zero_mul] at h
    rw [List.eq_nil_of_length_eq_zero h]
    rfl
  | succ d ih =>
    rw [Nat.succ_mul] at h
    rw [chunks_succ, List.flatten_cons, ih (by rw [List.length_drop]; omega),
      List.take_append_drop]

theorem length_of_mem_chunks {d : Nat} (h : d * w ≤ l.length) {xs : List α}
    (hxs : xs ∈ chunks w d l) : xs.length = w := by
  obtain ⟨i, hi, rfl⟩ := List.mem_map.mp hxs
  have hle : (i + 1) * w ≤ d * w := Nat.mul_le_mul_right w (List.mem_range.mp hi)
  rw [Nat.succ_mul] at hle
  rw [List.length_take, List.length_drop]
  omega

theorem subset_of_mem_chunks {d : Nat} {xs : List α} (hxs : xs ∈ chunks w d l) : xs ⊆ l := by
  obtain ⟨i, -, rfl⟩ := List.mem_map.mp hxs
  exact fun a ha => List.mem_of_mem_drop (List.mem_of_mem_take ha)

theorem nodup_of_mem_chunks {d : Nat} (hnodup : l.Nodup) {xs : List α}
    (hxs : xs ∈ chunks w d l) : xs.Nodup := by
  obtain ⟨i, -, rfl⟩ := List.mem_map.mp hxs
  exact hnodup.sublist ((List.take_sublist _ _).trans (List.drop_sublist _ _))

/-- The first `d` groups of `w` items are each of one unit, and the rest is segmented. -/
theorem Segmented.serve {d : Nat} (h : Segmented unit w l) (hd : d * w ≤ l.length) :
    (∀ xs ∈ chunks w d l, InUnit unit xs) ∧ Segmented unit w (l.drop (d * w)) := by
  induction d generalizing l with
  | zero =>
    rw [Nat.zero_mul, List.drop_zero]
    exact ⟨fun xs hxs => absurd hxs List.not_mem_nil, h⟩
  | succ d ih =>
    rw [Nat.succ_mul] at hd
    obtain ⟨hfirst, hrest⟩ := h.front (by omega)
    obtain ⟨hchunks, hdrop⟩ := ih hrest (by rw [List.length_drop]; omega)
    rw [chunks_succ]
    refine ⟨fun xs hxs => ?_, ?_⟩
    · rcases List.mem_cons.mp hxs with rfl | hxs
      · exact hfirst
      · exact hchunks xs hxs
    · rwa [List.drop_drop, Nat.add_comm, ← Nat.succ_mul] at hdrop

/-! ## From the middle -/

variable [DecidableEq α]

theorem filter_notMem_eq_self {xs : List α} (h : l.Disjoint xs) : l.filter (· ∉ xs) = l :=
  List.filter_eq_self.mpr fun _ ha => decide_eq_true fun hx => h ha hx

/-- Items of one unit are taken out. -/
theorem Segmented.filter_notMem (h : Segmented unit w l) (hl : l.Nodup) {xs : List α}
    (hxs : xs.Nodup) (hunit : InUnit unit xs) (hlength : w ∣ xs.length) (hsub : xs ⊆ l) :
    Segmented unit w (l.filter (· ∉ xs)) := by
  induction h with
  | nil => exact .nil
  | @cons i seg rest hseglen hseg hother hrest ih =>
    obtain ⟨hl₁, hl₂, -⟩ := List.nodup_append'.mp hl
    rw [List.filter_append]
    by_cases hin : ∃ a ∈ xs, unit a = i
    · -- The items are of the unit of the first segment, which gets shorter.
      obtain ⟨a, ha, hai⟩ := hin
      have hall : ∀ b ∈ xs, unit b = i := fun b hb => (hunit b hb a ha).trans hai
      have hsub' : xs ⊆ seg := fun b hb =>
        (List.mem_append.mp (hsub hb)).resolve_right fun hr => hother b hr (hall b hb)
      rw [filter_notMem_eq_self (l := rest) fun b hr hx => hother b hr (hall b hx)]
      refine .cons ?_ (fun b hb => hseg b (List.mem_of_mem_filter hb)) hother hrest
      have hcount := (perm_append_filter_notMem hxs hl₁ hsub').length_eq
      rw [List.length_append] at hcount
      exact (Nat.dvd_add_right hlength).mp (hcount ▸ hseglen)
    · have hsub' : xs ⊆ rest := fun b hb =>
        (List.mem_append.mp (hsub hb)).resolve_left fun hs => hin ⟨b, hb, hseg b hs⟩
      rw [filter_notMem_eq_self (l := seg) fun b hs hx => hin ⟨b, hx, hseg b hs⟩]
      exact .cons hseglen hseg (fun b hb => hother b (List.mem_of_mem_filter hb))
        (ih hl₂ hsub')

/-- Several groups of items, each of one unit, are taken out. -/
theorem Segmented.filter_flatten (groups : List (List α)) (h : Segmented unit w l) (hl : l.Nodup)
    (hnodup : groups.flatten.Nodup) (hunit : ∀ xs ∈ groups, InUnit unit xs)
    (hlength : ∀ xs ∈ groups, w ∣ xs.length) (hsub : groups.flatten ⊆ l) :
    Segmented unit w (l.filter (· ∉ groups.flatten)) := by
  induction groups generalizing l with
  | nil =>
    rw [List.flatten_nil, filter_notMem_eq_self (List.disjoint_nil_right _)]
    exact h
  | cons xs groups ih =>
    rw [List.flatten_cons] at hnodup hsub ⊢
    obtain ⟨hxs, hgroups, hdisjoint⟩ := List.nodup_append'.mp hnodup
    have hsplit : l.filter (· ∉ xs ++ groups.flatten) =
        (l.filter (· ∉ xs)).filter (· ∉ groups.flatten) := by
      rw [List.filter_filter]
      refine List.filter_congr fun a _ => ?_
      by_cases hx : a ∈ xs <;> simp [hx]
    rw [hsplit]
    refine ih (h.filter_notMem hl hxs (hunit xs (.head _)) (hlength xs (.head _))
      (List.append_subset.mp hsub).1) (hl.filter _) hgroups
      (fun ys hys => hunit ys (.tail _ hys)) (fun ys hys => hlength ys (.tail _ hys)) fun a ha => ?_
    exact List.mem_filter.mpr
      ⟨(List.append_subset.mp hsub).2 ha, decide_eq_true fun hx => hdisjoint hx ha⟩

end

end Mil.Lib
