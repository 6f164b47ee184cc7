import Mathlib.Algebra.Ring.Int.Defs
import Mathlib.Algebra.GroupWithZero.Nat
import Mathlib.Data.List.Pairwise
import Mathlib.Data.List.Basic
import Mathlib.Algebra.BigOperators.Group.List.Basic

/-!
# Lists of ranges

A set of iterations kept as a list of ranges, both ends included, in increasing order. `addRange`
puts a range at the end and joins it to the last one if they touch, so a list built by it stays
as short as it can be: no two of its ranges overlap or touch.
-/

set_option autoImplicit false

namespace Mil.Lib

/-- `(first, last)`. -/
abbrev Rng := Nat × Nat

def Rng.size (r : Rng) : Nat := r.2 + 1 - r.1

/-- The number of iterations in `l`, if its ranges are disjoint. -/
def iterNum (l : List Rng) : Nat := (l.map Rng.size).sum

def Attends (l : List Rng) (i : Nat) : Prop := ∃ r ∈ l, r.1 ≤ i ∧ i ≤ r.2

instance (l : List Rng) (i : Nat) : Decidable (Attends l i) :=
  inferInstanceAs (Decidable (∃ r ∈ l, r.1 ≤ i ∧ i ≤ r.2))

/-- The ranges are not empty and in increasing order, with more than `gap - 1` iterations between
one and the next: disjoint for `gap = 0`, not even touching for `gap = 1`. -/
structure Increasing (gap : Nat) (l : List Rng) : Prop where
  le : ∀ r ∈ l, r.1 ≤ r.2
  lt : l.Pairwise fun a b => a.2 + gap < b.1

/-- Every range ends before `n`. -/
def EndsBefore (l : List Rng) (n : Nat) : Prop := ∀ r ∈ l, r.2 < n

/-- Append the range from `start` to `last`, or extend the last range up to `last`. -/
def addRange (l : List Rng) (start last : Nat) : List Rng :=
  match l.getLast? with
  | none => [(start, last)]
  | some r => if r.2 + 1 = start then l.dropLast ++ [(r.1, last)] else l ++ [(start, last)]

@[simp] theorem iterNum_nil : iterNum [] = 0 := rfl

@[simp] theorem iterNum_cons (r : Rng) (l : List Rng) : iterNum (r :: l) = r.size + iterNum l := by
  simp [iterNum]

@[simp] theorem iterNum_append (l l' : List Rng) :
    iterNum (l ++ l') = iterNum l + iterNum l' := by
  simp [iterNum]

@[simp] theorem attends_nil (i : Nat) : ¬ Attends [] i := by simp [Attends]

@[simp] theorem attends_cons (r : Rng) (l : List Rng) (i : Nat) :
    Attends (r :: l) i ↔ (r.1 ≤ i ∧ i ≤ r.2) ∨ Attends l i := by simp [Attends]

@[simp] theorem attends_append (l l' : List Rng) (i : Nat) :
    Attends (l ++ l') i ↔ Attends l i ∨ Attends l' i := by
  simp only [Attends, List.mem_append, or_and_right, exists_or]

theorem Attends.lt {l : List Rng} {i n : Nat} (h : Attends l i) (hn : EndsBefore l n) : i < n := by
  obtain ⟨r, hr, -, hi⟩ := h
  exact Nat.lt_of_le_of_lt hi (hn r hr)

theorem EndsBefore.mono {l : List Rng} {n n' : Nat} (h : EndsBefore l n) (hn : n ≤ n') :
    EndsBefore l n' := fun r hr => Nat.lt_of_lt_of_le (h r hr) hn

theorem Increasing.nil {gap : Nat} : Increasing gap [] :=
  ⟨fun _ h => absurd h List.not_mem_nil, List.Pairwise.nil⟩

theorem Increasing.weaken {gap : Nat} {l : List Rng} (h : Increasing gap l) : Increasing 0 l :=
  ⟨h.le, h.lt.imp fun hab => by omega⟩

/-- A list is empty, or `addRange` looks at its last range. -/
theorem addRange_cases (l : List Rng) (start last : Nat) :
    (l = [] ∧ addRange l start last = [(start, last)]) ∨
    (∃ init a b, l = init ++ [(a, b)] ∧ b + 1 = start ∧
      addRange l start last = init ++ [(a, last)]) ∨
    (∃ init a b, l = init ++ [(a, b)] ∧ b + 1 ≠ start ∧
      addRange l start last = l ++ [(start, last)]) := by
  rcases List.eq_nil_or_concat l with rfl | ⟨init, ⟨a, b⟩, rfl⟩
  · exact .inl ⟨rfl, rfl⟩
  · by_cases h : b + 1 = start
    · exact .inr (.inl ⟨init, a, b, by simp, h, by simp [addRange, h]⟩)
    · exact .inr (.inr ⟨init, a, b, by simp, h, by simp [addRange, h]⟩)

variable {l : List Rng} {start last : Nat}

theorem attends_addRange (h : ∀ r ∈ l, r.1 ≤ r.2) (hle : start ≤ last) (i : Nat) :
    Attends (addRange l start last) i ↔ Attends l i ∨ (start ≤ i ∧ i ≤ last) := by
  rcases addRange_cases l start last with ⟨rfl, heq⟩ | ⟨init, a, b, rfl, hb, heq⟩ |
    ⟨init, a, b, rfl, -, heq⟩
  · simp [heq]
  · have hab : a ≤ b := h (a, b) (by simp)
    simp only [heq, attends_append, attends_cons, attends_nil, or_false, or_assoc]
    refine or_congr_right ?_
    omega
  · simp [heq, or_assoc]

theorem iterNum_addRange (h : ∀ r ∈ l, r.1 ≤ r.2) (hle : start ≤ last) :
    iterNum (addRange l start last) = iterNum l + (last + 1 - start) := by
  rcases addRange_cases l start last with ⟨rfl, heq⟩ | ⟨init, a, b, rfl, hb, heq⟩ |
    ⟨init, a, b, rfl, -, heq⟩
  · simp [heq, Rng.size]
  · have hab : a ≤ b := h (a, b) (by simp)
    simp only [heq, iterNum_append, iterNum_cons, iterNum_nil, Rng.size]
    omega
  · simp [heq, Rng.size, Nat.add_assoc]

theorem Increasing.addRange (h : Increasing 1 l) (hend : EndsBefore l start) (hle : start ≤ last) :
    Increasing 1 (addRange l start last) := by
  rcases addRange_cases l start last with ⟨rfl, heq⟩ | ⟨init, a, b, rfl, hb, heq⟩ |
    ⟨init, a, b, rfl, hb, heq⟩
  · rw [heq]
    exact ⟨by simpa using hle, List.pairwise_singleton _ _⟩
  · rw [heq]
    have hab : a ≤ b := h.le (a, b) (by simp)
    have hlt := List.pairwise_append.mp h.lt
    refine ⟨fun r hr => ?_, List.pairwise_append.mpr
      ⟨hlt.1, List.pairwise_singleton _ _, fun r hr q hq => ?_⟩⟩
    · rcases List.mem_append.mp hr with hr | hr
      · exact h.le r (List.mem_append_left _ hr)
      · obtain rfl := List.mem_singleton.mp hr
        simp only
        omega
    · obtain rfl := List.mem_singleton.mp hq
      exact hlt.2.2 r hr (a, b) (by simp)
  · rw [heq]
    refine ⟨fun r hr => ?_, List.pairwise_append.mpr
      ⟨h.lt, List.pairwise_singleton _ _, fun r hr q hq => ?_⟩⟩
    · rcases List.mem_append.mp hr with hr | hr
      · exact h.le r hr
      · obtain rfl := List.mem_singleton.mp hr
        exact hle
    · obtain rfl := List.mem_singleton.mp hq
      have hr' := hend (a, b) (by simp)
      rcases List.mem_append.mp hr with hinit | hlast
      · have hbefore := (List.pairwise_append.mp h.lt).2.2 r hinit (a, b) (by simp)
        have hab := h.le (a, b) (by simp)
        simp only at hbefore hab hr' ⊢
        omega
      · obtain rfl := List.mem_singleton.mp hlast
        simp only at hr' ⊢
        omega

theorem EndsBefore.addRange {n : Nat} (h : EndsBefore l n) (hlast : last < n) :
    EndsBefore (addRange l start last) n := by
  rcases addRange_cases l start last with ⟨rfl, heq⟩ | ⟨init, a, b, rfl, -, heq⟩ |
    ⟨init, a, b, rfl, -, heq⟩ <;> rw [heq] <;> intro r hr
  · obtain rfl := List.mem_singleton.mp hr
    exact hlast
  · rcases List.mem_append.mp hr with hr | hr
    · exact h r (List.mem_append_left _ hr)
    · obtain rfl := List.mem_singleton.mp hr
      exact hlast
  · rcases List.mem_append.mp hr with hr | hr
    · exact h r hr
    · obtain rfl := List.mem_singleton.mp hr
      exact hlast

/-- The last iteration is the end of the last range. -/
theorem exists_getLast?_of_attends {gap i : Nat} (hinc : Increasing gap l) (h : Attends l i)
    (hend : EndsBefore l (i + 1)) : ∃ r, l.getLast? = some r ∧ r.2 = i := by
  rcases List.eq_nil_or_concat l with rfl | ⟨init, r, rfl⟩
  · exact absurd h (attends_nil i)
  · rw [List.concat_eq_append] at *
    refine ⟨r, by simp, ?_⟩
    have hlast := hend r (by simp)
    obtain ⟨q, hq, -, hi⟩ := h
    rcases List.mem_append.mp hq with hinit | hsingle
    · have hbefore := (List.pairwise_append.mp hinc.lt).2.2 q hinit r (by simp)
      have hle := hinc.le r (by simp)
      omega
    · obtain rfl := List.mem_singleton.mp hsingle
      omega

theorem eq_nil_of_iterNum_eq_zero {gap : Nat} (hinc : Increasing gap l) (h : iterNum l = 0) :
    l = [] := by
  cases l with
  | nil => rfl
  | cons r l =>
    have := hinc.le r (.head _)
    rw [iterNum_cons, Rng.size] at h
    omega

theorem eq_singleton_of_iterNum_eq_one {gap : Nat} (hinc : Increasing gap l) (h : iterNum l = 1) :
    ∃ i, l = [(i, i)] := by
  cases l with
  | nil => simp at h
  | cons r l =>
    have hr := hinc.le r (.head _)
    rw [iterNum_cons, Rng.size] at h
    have hl : l = [] := eq_nil_of_iterNum_eq_zero
      ⟨fun q hq => hinc.le q (.tail _ hq), hinc.lt.of_cons⟩ (by omega)
    subst hl
    rw [iterNum_nil] at h
    exact ⟨r.1, by rw [show r = (r.1, r.1) from Prod.ext rfl (by simp only; omega)]⟩

/-! ## What is left from an iteration on -/

/-- The iterations from `n` on, counted from there. -/
def restFrom (n : Nat) (l : List Rng) : List Rng :=
  (l.filter fun r => n ≤ r.2).map fun r => (r.1 - n, r.2 - n)

/-- The number of iterations up to `n`. -/
def doneBy (n : Nat) (l : List Rng) : Nat :=
  (l.map fun r => if r.1 ≤ n then min n r.2 - r.1 + 1 else 0).sum

theorem mem_restFrom {n : Nat} {r : Rng} :
    r ∈ restFrom n l ↔ ∃ q ∈ l, n ≤ q.2 ∧ (q.1 - n, q.2 - n) = r := by
  simp [restFrom, and_assoc]

theorem attends_restFrom (n i : Nat) : Attends (restFrom n l) i ↔ Attends l (i + n) := by
  constructor
  · rintro ⟨r, hr, h⟩
    obtain ⟨q, hq, hn, rfl⟩ := mem_restFrom.mp hr
    exact ⟨q, hq, by simp only at h; omega⟩
  · rintro ⟨q, hq, h⟩
    exact ⟨_, mem_restFrom.mpr ⟨q, hq, by omega, rfl⟩, by simp only; omega⟩

theorem Increasing.restFrom {gap : Nat} (h : Increasing gap l) (n : Nat) :
    Increasing gap (restFrom n l) where
  le r hr := by
    obtain ⟨q, hq, -, rfl⟩ := mem_restFrom.mp hr
    exact Nat.sub_le_sub_right (h.le q hq) n
  lt := by
    rw [Mil.Lib.restFrom, List.pairwise_map, List.pairwise_filter]
    refine h.lt.imp fun hab ha _ => ?_
    simp only [decide_eq_true_eq] at ha
    omega

theorem EndsBefore.restFrom {m : Nat} (h : EndsBefore l m) (n : Nat) :
    EndsBefore (restFrom n l) (m - n) := by
  intro r hr
  obtain ⟨q, hq, hn, rfl⟩ := mem_restFrom.mp hr
  have := h q hq
  simp only
  omega

theorem iterNum_restFrom {gap : Nat} (h : Increasing gap l) (n : Nat) :
    iterNum (restFrom (n + 1) l) + doneBy n l = iterNum l := by
  have hle := h.le
  clear h
  induction l with
  | nil => rfl
  | cons r l ih =>
    have hrest := ih fun q hq => hle q (.tail _ hq)
    have hr := hle r (.head _)
    have hdone : doneBy n (r :: l) = (if r.1 ≤ n then min n r.2 - r.1 + 1 else 0) + doneBy n l := by
      simp [doneBy]
    rw [hdone, iterNum_cons, Rng.size]
    by_cases hend : n + 1 ≤ r.2
    · have hcons : restFrom (n + 1) (r :: l) =
          (r.1 - (n + 1), r.2 - (n + 1)) :: restFrom (n + 1) l := by
        simp only [restFrom, List.filter_cons, hend, decide_true, if_true, List.map_cons]
      rw [hcons, iterNum_cons, Rng.size]
      simp only
      split <;> omega
    · have hcons : restFrom (n + 1) (r :: l) = restFrom (n + 1) l := by
        simp only [restFrom, List.filter_cons, hend, decide_false, Bool.false_eq_true, if_false]
      rw [hcons]
      split <;> omega

/-! ## Without the first iteration -/

def dropFirst : List Rng → List Rng
  | [] => []
  | r :: l => if r.1 + 1 ≤ r.2 then (r.1 + 1, r.2) :: l else l

theorem Increasing.of_cons {gap : Nat} {r : Rng} (h : Increasing gap (r :: l)) :
    Increasing gap l := ⟨fun q hq => h.le q (.tail _ hq), h.lt.of_cons⟩

theorem Increasing.lt_of_cons {gap : Nat} {r q : Rng} (h : Increasing gap (r :: l)) (hq : q ∈ l) :
    r.2 + gap < q.1 := List.rel_of_pairwise_cons h.lt hq

theorem Increasing.cons {gap : Nat} {r : Rng} (h : Increasing gap l) (hr : r.1 ≤ r.2)
    (hlt : ∀ q ∈ l, r.2 + gap < q.1) : Increasing gap (r :: l) :=
  ⟨fun q hq => by
    rcases List.mem_cons.mp hq with rfl | hq
    · exact hr
    · exact h.le q hq, List.pairwise_cons.mpr ⟨hlt, h.lt⟩⟩

theorem Increasing.le_of_attends {gap i : Nat} {r : Rng} (h : Increasing gap (r :: l))
    (hi : Attends (r :: l) i) : r.1 ≤ i := by
  have hr := h.le r (.head _)
  rw [attends_cons] at hi
  rcases hi with hi | ⟨q, hq, hi⟩
  · exact hi.1
  · have := h.lt_of_cons hq
    omega

theorem Increasing.dropFirst {gap : Nat} (h : Increasing gap l) : Increasing gap (dropFirst l) := by
  cases l with
  | nil => exact h
  | cons r l =>
    rw [Mil.Lib.dropFirst]
    split
    · exact h.of_cons.cons (by assumption) fun q hq => h.lt_of_cons hq
    · exact h.of_cons

theorem EndsBefore.dropFirst {n : Nat} (h : EndsBefore l n) : EndsBefore (dropFirst l) n := by
  cases l with
  | nil => exact h
  | cons r l =>
    have htail : EndsBefore l n := fun q hq => h q (.tail _ hq)
    rw [Mil.Lib.dropFirst]
    split
    · intro q hq
      rcases List.mem_cons.mp hq with rfl | hq
      · exact h r (.head _)
      · exact htail q hq
    · exact htail

theorem iterNum_dropFirst {gap : Nat} {r : Rng} (h : Increasing gap (r :: l)) :
    iterNum (dropFirst (r :: l)) + 1 = iterNum (r :: l) := by
  have hr := h.le r (.head _)
  rw [dropFirst, iterNum_cons, Rng.size]
  split
  · rw [iterNum_cons, Rng.size]
    omega
  · omega

theorem attends_dropFirst {gap : Nat} {r : Rng} (h : Increasing gap (r :: l)) (i : Nat) :
    Attends (dropFirst (r :: l)) i ↔ Attends (r :: l) i ∧ i ≠ r.1 := by
  have hr := h.le r (.head _)
  have hlater : Attends l i → i ≠ r.1 := by
    rintro ⟨q, hq, hi⟩
    have := h.lt_of_cons hq
    omega
  rw [dropFirst, attends_cons]
  split
  · rw [attends_cons]
    refine ⟨fun hi => ?_, fun ⟨hi, hne⟩ => hi.imp_left fun hi => ?_⟩
    · rcases hi with hi | hi
      · exact ⟨.inl ⟨by omega, hi.2⟩, by simp only at hi; omega⟩
      · exact ⟨.inr hi, hlater hi⟩
    · simp only
      omega
  · refine ⟨fun hi => ⟨.inr hi, hlater hi⟩, fun ⟨hi, hne⟩ => hi.resolve_left fun hi => ?_⟩
    omega

/-! ## Without an iteration that is not there -/

/-- Iterations after `i` are counted one lower. -/
def closeGap (i : Nat) (l : List Rng) : List Rng :=
  l.map fun r => (if i ≤ r.1 then r.1 - 1 else r.1, if i ≤ r.2 then r.2 - 1 else r.2)

theorem mem_closeGap {i : Nat} {r : Rng} : r ∈ closeGap i l ↔ ∃ q ∈ l,
    (if i ≤ q.1 then q.1 - 1 else q.1, if i ≤ q.2 then q.2 - 1 else q.2) = r := by
  simp [closeGap]

/-- A range of iterations that leaves out `i` is before or after it. -/
theorem before_or_after_of_not_attends {i : Nat} (h : ¬ Attends l i) {r : Rng} (hr : r ∈ l) :
    r.2 < i ∨ i < r.1 := by
  by_contra hboth
  exact h ⟨r, hr, by omega, by omega⟩

theorem attends_closeGap {gap i : Nat} (hinc : Increasing gap l) (h : ¬ Attends l i) (t : Nat) :
    Attends (closeGap i l) t ↔ Attends l (if t < i then t else t + 1) := by
  constructor
  · rintro ⟨r, hr, ht⟩
    obtain ⟨q, hq, rfl⟩ := mem_closeGap.mp hr
    have hle := hinc.le q hq
    refine ⟨q, hq, ?_⟩
    rcases before_or_after_of_not_attends h hq with hi | hi <;> simp only at ht <;> grind
  · rintro ⟨q, hq, ht⟩
    have hle := hinc.le q hq
    refine ⟨_, mem_closeGap.mpr ⟨q, hq, rfl⟩, ?_⟩
    rcases before_or_after_of_not_attends h hq with hi | hi <;> simp only <;> grind

theorem Increasing.closeGap {i : Nat} (hinc : Increasing 0 l) (h : ¬ Attends l i) :
    Increasing 0 (closeGap i l) where
  le r hr := by
    obtain ⟨q, hq, rfl⟩ := mem_closeGap.mp hr
    have hle := hinc.le q hq
    simp only
    split <;> split <;> omega
  lt := by
    rw [Mil.Lib.closeGap, List.pairwise_map]
    refine hinc.lt.imp_of_mem fun {a b} ha hb hab => ?_
    have hle := hinc.le a ha
    have hle' := hinc.le b hb
    rcases before_or_after_of_not_attends h ha with hi | hi <;>
      rcases before_or_after_of_not_attends h hb with hi' | hi' <;>
      simp only <;> split <;> split <;> omega

theorem iterNum_closeGap {gap i : Nat} (hinc : Increasing gap l) (h : ¬ Attends l i) :
    iterNum (closeGap i l) = iterNum l := by
  rw [iterNum, iterNum, closeGap, List.map_map]
  refine congrArg _ (List.map_congr_left fun r hr => ?_)
  have hle := hinc.le r hr
  simp only [Function.comp_apply, Rng.size]
  rcases before_or_after_of_not_attends h hr with hi | hi <;> split <;> split <;> omega

theorem EndsBefore.closeGap {gap i n : Nat} (hend : EndsBefore l (n + 1)) (hi : i ≤ n)
    (hinc : Increasing gap l) (h : ¬ Attends l i) : EndsBefore (closeGap i l) n := by
  intro r hr
  obtain ⟨q, hq, rfl⟩ := mem_closeGap.mp hr
  have hle := hinc.le q hq
  have hq' := hend q hq
  rcases before_or_after_of_not_attends h hq with hi' | hi' <;> simp only <;> split <;> omega

/-! ## Counted from an earlier start -/

def shiftBy (n : Nat) (l : List Rng) : List Rng := l.map fun r => (r.1 + n, r.2 + n)

theorem mem_shiftBy {n : Nat} {r : Rng} :
    r ∈ shiftBy n l ↔ ∃ q ∈ l, (q.1 + n, q.2 + n) = r := by
  simp [shiftBy]

theorem attends_shiftBy (n i : Nat) : Attends (shiftBy n l) i ↔ n ≤ i ∧ Attends l (i - n) := by
  constructor
  · rintro ⟨r, hr, h⟩
    obtain ⟨q, hq, rfl⟩ := mem_shiftBy.mp hr
    simp only at h
    exact ⟨by omega, q, hq, by omega⟩
  · rintro ⟨hn, q, hq, h⟩
    exact ⟨_, mem_shiftBy.mpr ⟨q, hq, rfl⟩, by simp only; omega⟩

theorem Increasing.shiftBy {gap : Nat} (h : Increasing gap l) (n : Nat) :
    Increasing gap (shiftBy n l) where
  le r hr := by
    obtain ⟨q, hq, rfl⟩ := mem_shiftBy.mp hr
    exact Nat.add_le_add_right (h.le q hq) n
  lt := by
    rw [Mil.Lib.shiftBy, List.pairwise_map]
    exact h.lt.imp fun hab => by simp only; omega

theorem iterNum_shiftBy (n : Nat) : iterNum (shiftBy n l) = iterNum l := by
  rw [iterNum, iterNum, shiftBy, List.map_map]
  refine congrArg _ (List.map_congr_left fun r _ => ?_)
  simp only [Function.comp_apply, Rng.size]
  omega

theorem EndsBefore.shiftBy {m : Nat} (h : EndsBefore l m) (n : Nat) :
    EndsBefore (shiftBy n l) (n + m) := by
  intro r hr
  obtain ⟨q, hq, rfl⟩ := mem_shiftBy.mp hr
  have := h q hq
  simp only
  omega

/-! ## With a range in front -/

/-- The range `r` before the others, joined to the first one if it touches it. -/
def prependRng (r : Rng) : List Rng → List Rng
  | [] => [r]
  | q :: l => if r.2 + 1 < q.1 then r :: q :: l else (r.1, q.2) :: l

variable {r : Rng}

theorem attends_prependRng (hr : r.1 ≤ r.2) (hinc : Increasing 0 l) (h : ∀ q ∈ l, r.2 < q.1)
    (i : Nat) : Attends (prependRng r l) i ↔ (r.1 ≤ i ∧ i ≤ r.2) ∨ Attends l i := by
  cases l with
  | nil => simp [prependRng]
  | cons q l =>
    have hq := h q (.head _)
    have hle := hinc.le q (.head _)
    rw [prependRng]
    split
    · simp
    · simp only [attends_cons, ← or_assoc]
      refine or_congr_left ?_
      omega

theorem iterNum_prependRng (hr : r.1 ≤ r.2) (hinc : Increasing 0 l) (h : ∀ q ∈ l, r.2 < q.1) :
    iterNum (prependRng r l) = r.size + iterNum l := by
  cases l with
  | nil => simp [prependRng]
  | cons q l =>
    have hq := h q (.head _)
    have hle := hinc.le q (.head _)
    rw [prependRng]
    split
    · rw [iterNum_cons]
    · simp only [iterNum_cons, Rng.size]
      omega

theorem Increasing.prependRng (hr : r.1 ≤ r.2) (hinc : Increasing 0 l) (h : ∀ q ∈ l, r.2 < q.1) :
    Increasing 0 (prependRng r l) := by
  cases l with
  | nil => exact hinc.cons hr fun q hq => absurd hq List.not_mem_nil
  | cons q l =>
    have hq := h q (.head _)
    have hle := hinc.le q (.head _)
    rw [Mil.Lib.prependRng]
    split
    · exact hinc.cons hr h
    · exact hinc.of_cons.cons (by simp only; omega) fun p hp => hinc.lt_of_cons hp

theorem EndsBefore.prependRng {n : Nat} (hend : EndsBefore l n) (hr : r.2 < n) :
    EndsBefore (prependRng r l) n := by
  cases l with
  | nil =>
    intro q hq
    obtain rfl := List.mem_singleton.mp hq
    exact hr
  | cons q l =>
    have htail : EndsBefore l n := fun p hp => hend p (.tail _ hp)
    rw [Mil.Lib.prependRng]
    split <;> intro p hp
    · rcases List.mem_cons.mp hp with rfl | hp
      · exact hr
      · exact hend p hp
    · rcases List.mem_cons.mp hp with rfl | hp
      · exact hend q (.head _)
      · exact htail p hp

end Mil.Lib
