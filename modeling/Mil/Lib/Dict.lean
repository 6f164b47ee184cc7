import Mathlib.Algebra.GroupWithZero.Nat
import Mathlib.Data.List.Nodup
import Mathlib.Data.List.Perm.Basic

/-!
# Insertion-ordered dictionaries

A dictionary that remembers the order in which its keys came is a list of pairs with distinct keys.
Setting a key that is there keeps its position, a new one goes to the end, and deletion leaves the
order of the others. `lookup` is `List.lookup`.

A sum over the values, such as the number of times something occurs in them, changes with one
operation by what the value at its key contributes (`sum_set_of_mem`, `sum_set_of_not_mem`,
`sum_erase`).
-/

set_option autoImplicit false

namespace Mil.Lib.Dict

variable {κ α : Type} [DecidableEq κ]

def keys (d : List (κ × α)) : List κ := d.map Prod.fst

/-- `d[k] = a`. -/
def set (k : κ) (a : α) : List (κ × α) → List (κ × α)
  | [] => [(k, a)]
  | p :: d => if p.1 = k then (k, a) :: d else p :: set k a d

/-- `d.update(items)`. -/
def update (d items : List (κ × α)) : List (κ × α) :=
  items.foldl (fun d p => set p.1 p.2 d) d

/-- `del d[k]`. -/
def erase (k : κ) : List (κ × α) → List (κ × α)
  | [] => []
  | p :: d => if p.1 = k then d else p :: erase k d

/-! ## Lookups -/

omit [DecidableEq κ] in
@[simp] theorem keys_cons (p : κ × α) (d : List (κ × α)) : keys (p :: d) = p.1 :: keys d := rfl

omit [DecidableEq κ] in
theorem keys_append (d d' : List (κ × α)) : keys (d ++ d') = keys d ++ keys d' := List.map_append

omit [DecidableEq κ] in
/-- A dictionary of items by one of their fields. -/
theorem keys_map_pair (f : α → κ) (l : List α) : keys (l.map fun a => (f a, a)) = l.map f := by
  rw [keys, List.map_map]
  rfl

omit [DecidableEq κ] in
theorem mem_keys_of_mem {d : List (κ × α)} {k : κ} {a : α} (h : (k, a) ∈ d) : k ∈ keys d :=
  List.mem_map_of_mem (f := Prod.fst) h

theorem lookup_eq_none {d : List (κ × α)} {k : κ} : d.lookup k = none ↔ k ∉ keys d := by
  simp only [keys, List.lookup_eq_none_iff, List.mem_map, not_exists, not_and, bne_iff_ne]
  exact ⟨fun h p hp heq => h p hp heq.symm, fun h p hp heq => h p hp heq.symm⟩

theorem lookup_cons_self {d : List (κ × α)} {k : κ} {a : α} : ((k, a) :: d).lookup k = some a := by
  rw [List.lookup_cons, beq_self_eq_true]

theorem lookup_cons_ne {d : List (κ × α)} {k : κ} {p : κ × α} (h : p.1 ≠ k) :
    (p :: d).lookup k = d.lookup k := by
  rw [List.lookup_cons, beq_eq_false_iff_ne.mpr h.symm]

theorem mem_of_lookup {d : List (κ × α)} {k : κ} {a : α} (h : d.lookup k = some a) :
    (k, a) ∈ d := by
  obtain ⟨l₁, l₂, rfl, -⟩ := List.lookup_eq_some_iff.mp h
  exact List.mem_append_right _ List.mem_cons_self

theorem mem_keys_of_lookup {d : List (κ × α)} {k : κ} {a : α} (h : d.lookup k = some a) :
    k ∈ keys d := mem_keys_of_mem (mem_of_lookup h)

theorem lookup_of_mem {d : List (κ × α)} (hnodup : (keys d).Nodup) {k : κ} {a : α}
    (h : (k, a) ∈ d) : d.lookup k = some a := by
  induction d with
  | nil => cases h
  | cons p d ih =>
    obtain ⟨hp, hnodup⟩ := List.nodup_cons.mp hnodup
    rcases List.mem_cons.mp h with rfl | h
    · exact lookup_cons_self
    · have hne : p.1 ≠ k := fun heq => hp (heq ▸ mem_keys_of_mem h)
      rw [lookup_cons_ne hne]
      exact ih hnodup h

/-- Mapping the values of a dictionary. -/
theorem lookup_map {β : Type} (f : α → β) (d : List (κ × α)) (k : κ) :
    (d.map fun p => (p.1, f p.2)).lookup k = (d.lookup k).map f := by
  induction d with
  | nil => rfl
  | cons p d ih =>
    by_cases hk : p.1 = k
    · subst hk
      exact lookup_cons_self.trans (congrArg (Option.map f) lookup_cons_self).symm
    · rw [lookup_cons_ne hk, ← ih]
      exact lookup_cons_ne (p := (p.1, f p.2)) hk

/-! ## Setting a key -/

theorem set_of_not_mem {d : List (κ × α)} {k : κ} {a : α} (h : k ∉ keys d) :
    set k a d = d ++ [(k, a)] := by
  induction d with
  | nil => rfl
  | cons p d ih =>
    rw [keys_cons, List.mem_cons, not_or] at h
    rw [set, if_neg (Ne.symm h.1), ih h.2, List.cons_append]

theorem keys_set_of_mem {d : List (κ × α)} {k : κ} {a : α} (h : k ∈ keys d) :
    keys (set k a d) = keys d := by
  induction d with
  | nil => cases h
  | cons p d ih =>
    by_cases heq : p.1 = k
    · rw [set, if_pos heq, keys_cons, keys_cons, heq]
    · rcases List.mem_cons.mp h with h | h
      · exact absurd h.symm heq
      · rw [set, if_neg heq, keys_cons, keys_cons, ih h]

theorem keys_set_of_not_mem {d : List (κ × α)} {k : κ} {a : α} (h : k ∉ keys d) :
    keys (set k a d) = keys d ++ [k] := by
  rw [set_of_not_mem h, keys_append]
  rfl

theorem nodup_keys_set {d : List (κ × α)} (hnodup : (keys d).Nodup) (k : κ) (a : α) :
    (keys (set k a d)).Nodup := by
  by_cases h : k ∈ keys d
  · rwa [keys_set_of_mem h]
  · rw [keys_set_of_not_mem h]
    exact List.nodup_append.mpr ⟨hnodup, List.nodup_singleton k,
      fun _ hx _ hy heq => h (List.mem_singleton.mp hy ▸ heq ▸ hx)⟩

theorem lookup_set (d : List (κ × α)) (k : κ) (a : α) (k' : κ) :
    (set k a d).lookup k' = if k' = k then some a else d.lookup k' := by
  induction d with
  | nil =>
    by_cases h : k' = k
    · rw [if_pos h, h, set, lookup_cons_self]
    · rw [if_neg h, set, lookup_cons_ne fun heq => h heq.symm]
  | cons p d ih =>
    by_cases hp : p.1 = k
    · rw [set, if_pos hp]
      by_cases h : k' = k
      · rw [if_pos h, h, lookup_cons_self]
      · rw [if_neg h, lookup_cons_ne fun heq => h heq.symm,
          lookup_cons_ne fun heq => h (heq.symm.trans hp)]
    · rw [set, if_neg hp]
      by_cases h : p.1 = k'
      · rw [if_neg fun heq => hp (h.trans heq), ← h]
        exact lookup_cons_self.trans lookup_cons_self.symm
      · rw [lookup_cons_ne h, lookup_cons_ne h, ih]

theorem eq_or_mem_of_mem_set {d : List (κ × α)} {k : κ} {a : α} {q : κ × α} (h : q ∈ set k a d) :
    q = (k, a) ∨ q ∈ d := by
  induction d with
  | nil => exact .inl (List.mem_singleton.mp h)
  | cons p d ih =>
    by_cases hp : p.1 = k
    · rw [set, if_pos hp] at h
      rcases List.mem_cons.mp h with heq | h
      · exact .inl heq
      · exact .inr (.tail _ h)
    · rw [set, if_neg hp] at h
      rcases List.mem_cons.mp h with rfl | h
      · exact .inr (.head _)
      · exact (ih h).imp id (.tail _)

/-- Setting a key to what it is. -/
theorem set_of_lookup {d : List (κ × α)} {k : κ} {a : α} (h : d.lookup k = some a) :
    set k a d = d := by
  induction d with
  | nil => cases h
  | cons p d ih =>
    by_cases hp : p.1 = k
    · obtain ⟨k', b⟩ := p
      obtain rfl : k' = k := hp
      rw [lookup_cons_self] at h
      rw [set, if_pos rfl, Option.some.inj h]
    · rw [lookup_cons_ne hp] at h
      rw [set, if_neg hp, ih h]

theorem lookup_update {items : List (κ × α)} (hnodup : (keys items).Nodup) (d : List (κ × α))
    (k : κ) : (update d items).lookup k = (items.lookup k).or (d.lookup k) := by
  induction items generalizing d with
  | nil => rfl
  | cons p items ih =>
    obtain ⟨hp, hnodup⟩ := List.nodup_cons.mp hnodup
    show (update (set p.1 p.2 d) items).lookup k = _
    rw [ih hnodup, lookup_set]
    by_cases hk : k = p.1
    · subst hk
      rw [if_pos rfl, lookup_eq_none.mpr hp, Option.none_or]
      exact (congrArg (Option.or · _) lookup_cons_self).symm
    · rw [if_neg hk, lookup_cons_ne fun heq => hk heq.symm]

/-- Mapping the values of a dictionary with a key set. -/
theorem set_map {β : Type} (f : α → β) (d : List (κ × α)) (k : κ) (a : α) :
    (set k a d).map (fun p => (p.1, f p.2)) = set k (f a) (d.map fun p => (p.1, f p.2)) := by
  induction d with
  | nil => rfl
  | cons p d ih =>
    by_cases hp : p.1 = k
    · rw [set, if_pos hp]
      exact (if_pos hp).symm
    · rw [set, if_neg hp, List.map_cons, ih]
      exact (if_neg hp).symm

/-- Items whose keys are new go to the end. -/
theorem update_eq_append {d items : List (κ × α)} (hnodup : (keys items).Nodup)
    (hdisjoint : List.Disjoint (keys d) (keys items)) : update d items = d ++ items := by
  induction items generalizing d with
  | nil => exact (List.append_nil d).symm
  | cons p items ih =>
    obtain ⟨hp, hnodup⟩ := List.nodup_cons.mp hnodup
    have hnew : p.1 ∉ keys d := fun hmem => hdisjoint hmem List.mem_cons_self
    have hrest : List.Disjoint (keys (d ++ [p])) (keys items) := by
      intro k hk hk'
      rw [keys_append] at hk
      rcases List.mem_append.mp hk with hk | hk
      · exact hdisjoint hk (List.mem_cons_of_mem _ hk')
      · exact hp (List.mem_singleton.mp hk ▸ hk')
    calc update (set p.1 p.2 d) items = update (d ++ [p]) items := by rw [set_of_not_mem hnew]
      _ = d ++ [p] ++ items := ih hnodup hrest
      _ = d ++ p :: items := List.append_assoc ..

theorem update_nil {items : List (κ × α)} (hnodup : (keys items).Nodup) :
    update [] items = items :=
  update_eq_append hnodup (List.disjoint_nil_left _)

/-- An item whose key does not come up stays where it is. -/
theorem update_cons_of_not_mem {d items : List (κ × α)} {p : κ × α} (h : p.1 ∉ keys items) :
    update (p :: d) items = p :: update d items := by
  induction items generalizing d with
  | nil => rfl
  | cons q items ih =>
    rw [keys_cons, List.mem_cons, not_or] at h
    show update (set q.1 q.2 (p :: d)) items = p :: update (set q.1 q.2 d) items
    rw [set, if_neg h.1, ih h.2]

theorem update_append_of_disjoint {d d' items : List (κ × α)}
    (h : List.Disjoint (keys d) (keys items)) : update (d ++ d') items = d ++ update d' items := by
  induction d with
  | nil => rfl
  | cons p d ih =>
    rw [keys_cons, List.disjoint_cons_left] at h
    rw [List.cons_append, update_cons_of_not_mem h.1, ih h.2, List.cons_append]

/-- Items with the same keys in the same order take the place of what was there. -/
theorem update_of_keys_eq {d items : List (κ × α)} (hnodup : (keys items).Nodup)
    (hkeys : keys d = keys items) : update d items = items := by
  induction items generalizing d with
  | nil => exact List.map_eq_nil_iff.mp hkeys
  | cons q items ih =>
    cases d with
    | nil => exact absurd hkeys (by simp [keys])
    | cons p d =>
      rw [keys_cons, keys_cons, List.cons.injEq] at hkeys
      rw [keys_cons, List.nodup_cons] at hnodup
      show update (set q.1 q.2 (p :: d)) items = q :: items
      rw [set, if_pos hkeys.1, update_cons_of_not_mem hnodup.1, ih hnodup.2 hkeys.2]

/-! ## Sums over the values -/

section Sum

variable (f : α → ℕ)

/-- The sum of `f` over the values. -/
def sum (d : List (κ × α)) : ℕ := (d.map fun p => f p.2).sum

omit [DecidableEq κ] in
@[simp] theorem sum_nil : sum f ([] : List (κ × α)) = 0 := rfl

omit [DecidableEq κ] in
@[simp] theorem sum_cons (p : κ × α) (d : List (κ × α)) : sum f (p :: d) = f p.2 + sum f d := by
  rw [sum, List.map_cons, List.sum_cons, sum]

omit [DecidableEq κ] in
theorem sum_append (d d' : List (κ × α)) : sum f (d ++ d') = sum f d + sum f d' := by
  rw [sum, List.map_append, List.sum_append, sum, sum]

theorem sum_set_of_not_mem {d : List (κ × α)} {k : κ} (a : α) (h : k ∉ keys d) :
    sum f (set k a d) = sum f d + f a := by
  rw [set_of_not_mem h, sum_append, sum_cons, sum_nil, Nat.add_zero]

theorem sum_set_of_mem {d : List (κ × α)} {k : κ} {a : α} (b : α) (h : d.lookup k = some a) :
    sum f (set k b d) + f a = sum f d + f b := by
  induction d with
  | nil => cases h
  | cons p d ih =>
    obtain ⟨k', c⟩ := p
    by_cases hk : k' = k
    · subst hk
      rw [lookup_cons_self] at h
      obtain rfl := Option.some.inj h
      rw [set, if_pos rfl, sum_cons, sum_cons, Nat.add_right_comm, Nat.add_comm (f b)]
      exact Nat.add_right_comm ..
    · rw [lookup_cons_ne hk] at h
      rw [set, if_neg hk, sum_cons, sum_cons]
      have := ih h
      omega

theorem sum_erase {d : List (κ × α)} {k : κ} {a : α} (h : d.lookup k = some a) :
    sum f (erase k d) + f a = sum f d := by
  induction d with
  | nil => cases h
  | cons p d ih =>
    obtain ⟨k', c⟩ := p
    by_cases hk : k' = k
    · subst hk
      rw [lookup_cons_self] at h
      obtain rfl := Option.some.inj h
      rw [erase, if_pos rfl, sum_cons, Nat.add_comm]
    · rw [lookup_cons_ne hk] at h
      rw [erase, if_neg hk, sum_cons, sum_cons]
      have := ih h
      omega

omit [DecidableEq κ] in
theorem le_sum_of_mem {d : List (κ × α)} {p : κ × α} (h : p ∈ d) : f p.2 ≤ sum f d := by
  induction d with
  | nil => cases h
  | cons q d ih =>
    rw [sum_cons]
    rcases List.mem_cons.mp h with rfl | h
    · exact Nat.le_add_right _ _
    · exact Nat.le_add_left_of_le (ih h)

omit [DecidableEq κ] in
theorem exists_of_sum_pos {d : List (κ × α)} (h : 0 < sum f d) : ∃ p ∈ d, 0 < f p.2 := by
  induction d with
  | nil => cases h
  | cons q d ih =>
    rw [sum_cons] at h
    rcases Nat.eq_zero_or_pos (f q.2) with hq | hq
    · obtain ⟨p, hp, hpos⟩ := ih (by rwa [hq, Nat.zero_add] at h)
      exact ⟨p, List.mem_cons_of_mem _ hp, hpos⟩
    · exact ⟨q, List.mem_cons_self, hq⟩

end Sum

/-! ## Deleting a key -/

theorem erase_sublist (k : κ) (d : List (κ × α)) : (erase k d).Sublist d := by
  induction d with
  | nil => exact List.Sublist.slnil
  | cons p d ih =>
    by_cases hk : p.1 = k
    · rw [erase, if_pos hk]
      exact List.sublist_cons_self p d
    · rw [erase, if_neg hk]
      exact ih.cons_cons p

theorem erase_of_not_mem {d : List (κ × α)} {k : κ} (h : k ∉ keys d) : erase k d = d := by
  induction d with
  | nil => rfl
  | cons p d ih =>
    rw [keys_cons, List.mem_cons, not_or] at h
    rw [erase, if_neg (Ne.symm h.1), ih h.2]

theorem nodup_keys_erase {d : List (κ × α)} (hnodup : (keys d).Nodup) (k : κ) :
    (keys (erase k d)).Nodup := hnodup.sublist ((erase_sublist k d).map _)

theorem lookup_erase {d : List (κ × α)} (hnodup : (keys d).Nodup) (k k' : κ) :
    (erase k d).lookup k' = if k' = k then none else d.lookup k' := by
  induction d with
  | nil => split <;> rfl
  | cons p d ih =>
    rw [keys_cons, List.nodup_cons] at hnodup
    rw [erase]
    by_cases hk : p.1 = k
    · rw [if_pos hk]
      by_cases hk' : k' = k
      · rw [if_pos hk', hk', ← hk]
        exact lookup_eq_none.mpr hnodup.1
      · rw [if_neg hk', lookup_cons_ne fun heq => hk' (heq.symm.trans hk)]
    · rw [if_neg hk]
      by_cases hp : p.1 = k'
      · obtain ⟨k₀, a⟩ := p
        subst hp
        rw [lookup_cons_self, lookup_cons_self, if_neg hk]
      · rw [lookup_cons_ne hp, lookup_cons_ne hp]
        exact ih hnodup.2

end Mil.Lib.Dict
