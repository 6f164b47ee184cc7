import Mathlib.Data.Finset.Dedup
import Mathlib.Data.List.Perm.Basic
import Mathlib.Data.Set.Finite.List
import Mathlib.Order.WellFoundedSet

/-!
# Acyclic relations and sorting by sweeps

A relation is *acyclic* when no element reaches itself. Every non-empty list then has an element
none of the others points to (`Acyclic.exists_source`).

When the elements are grouped into classes, the classes inherit a relation. It stays acyclic if each
class has a representative such that every step from one class to another is a path between their
representatives (`Acyclic.of_paths`).

A list is sorted by *sweeps*: every sweep goes through the list and appends what has all its inputs
in front of it already. With acyclic inputs a sweep over an unsorted rest always finds something, so
as many sweeps as there are elements suffice (`sweeps_spec`).
-/

set_option autoImplicit false

namespace Mil.Lib

open Relation

variable {α β κ : Type}

/-! ## Acyclic relations -/

/-- No element reaches itself. -/
def Acyclic (r : α → α → Prop) : Prop := ∀ a, ¬ TransGen r a a

section

variable {r : α → α → Prop}

theorem Acyclic.irrefl (h : Acyclic r) (a : α) : ¬ r a a := fun hr => h a (.single hr)

theorem Acyclic.exists_source (h : Acyclic r) {l : List α} (hne : l ≠ []) :
    ∃ a ∈ l, ∀ b ∈ l, ¬ r b a := by
  have : IsStrictOrder α (TransGen r) := { irrefl := h, trans := fun _ _ _ => TransGen.trans }
  have hwf : {a | a ∈ l}.WellFoundedOn (TransGen r) := (List.finite_toSet l).wellFoundedOn
  obtain ⟨a, ha⟩ := List.exists_mem_of_ne_nil l hne
  obtain ⟨⟨m, hm⟩, -, hmin⟩ := hwf.has_min Set.univ ⟨⟨a, ha⟩, trivial⟩
  exact ⟨m, hm, fun b hb hr => hmin ⟨b, hb⟩ trivial (.single hr)⟩

/-- A relation all of whose steps are paths of an acyclic one, seen through `f`. -/
theorem Acyclic.of_paths {q : β → β → Prop} (h : Acyclic r) (f : β → α)
    (hpath : ∀ x y, q x y → TransGen r (f x) (f y)) : Acyclic q :=
  fun x hx => h (f x) (TransGen.lift' f hpath x x hx)

/-- A relation all of whose steps lead up. -/
theorem Acyclic.of_lt {q : β → β → Prop} (f : β → Nat) (hlt : ∀ x y, q x y → f x < f y) :
    Acyclic q := by
  refine Acyclic.of_paths (r := (· < ·)) (fun n hn => ?_) f fun x y hxy => .single (hlt x y hxy)
  rw [transGen_eq_self] at hn
  exact Nat.lt_irrefl n hn

end

/-! ## Sweeps -/

section

variable [DecidableEq κ] (key : α → κ) (inputs : α → List κ)

/-- One sweep: what has all its inputs in `sorted` is appended, in the order of the list. -/
def sweep (l sorted : List α) : List α :=
  l.foldl (fun sorted a =>
    if key a ∈ sorted.map key then sorted
    else if inputs a ⊆ sorted.map key then sorted ++ [a] else sorted) sorted

/-- Sweeps until `n` elements are sorted; `none` if `fuel` of them do not suffice. -/
def sweeps (n : Nat) (l : List α) : Nat → List α → Option (List α)
  | 0, sorted => if n ≤ sorted.length then some sorted else none
  | fuel + 1, sorted =>
    if n ≤ sorted.length then some sorted else sweeps n l fuel (sweep key inputs l sorted)

/-- Everything comes after its inputs. -/
def InputsFirst (sorted : List α) : Prop :=
  ∀ before a after, sorted = before ++ a :: after → inputs a ⊆ before.map key

/-- Part of the list, without repetition, with inputs first. -/
structure SortedPart (l sorted : List α) : Prop where
  nodup : (sorted.map key).Nodup
  subset : sorted ⊆ l
  inputsFirst : InputsFirst key inputs sorted

end

section

variable [DecidableEq κ] {key : α → κ} {inputs : α → List κ} {l sorted : List α}

omit [DecidableEq κ] in
theorem SortedPart.nil : SortedPart key inputs l [] :=
  ⟨List.nodup_nil, List.nil_subset l, fun before a after h => by simp at h⟩

omit [DecidableEq κ] in
theorem SortedPart.concat (h : SortedPart key inputs l sorted) {a : α} (ha : a ∈ l)
    (hnew : key a ∉ sorted.map key) (hin : inputs a ⊆ sorted.map key) :
    SortedPart key inputs l (sorted ++ [a]) := by
  refine ⟨?_, ?_, ?_⟩
  · rw [List.map_append, List.map_singleton]
    exact List.nodup_append.mpr ⟨h.nodup, List.nodup_singleton _,
      fun _ hx _ hy heq => hnew (List.mem_singleton.mp hy ▸ heq ▸ hx)⟩
  · exact List.append_subset.mpr ⟨h.subset, List.cons_subset.mpr ⟨ha, List.nil_subset l⟩⟩
  · intro before b after heq
    rcases List.eq_nil_or_concat after with rfl | ⟨after', c, rfl⟩
    · obtain ⟨rfl, hb⟩ := List.append_inj' heq rfl
      obtain rfl : a = b := (List.cons.inj hb).1
      exact hin
    · rw [List.concat_eq_append, ← List.cons_append, ← List.append_assoc] at heq
      exact h.inputsFirst before b after' (List.append_inj' heq rfl).1

/-- What a part of a sweep does: the sorted part grows, and what could be appended at the start is
in it at the end. -/
theorem sweep_spec {rest : List α} (h : SortedPart key inputs l sorted) (hsub : rest ⊆ l) :
    SortedPart key inputs l (sweep key inputs rest sorted) ∧
      sorted <+: sweep key inputs rest sorted ∧
      ∀ a ∈ rest, inputs a ⊆ sorted.map key → key a ∈ (sweep key inputs rest sorted).map key := by
  induction rest generalizing sorted with
  | nil => exact ⟨h, List.prefix_rfl, fun a ha => absurd ha List.not_mem_nil⟩
  | cons a rest ih =>
    have hrest := List.subset_of_cons_subset hsub
    -- Whatever happens to `a`, the list after it is `sorted` or longer.
    have hnext : ∃ next, sweep key inputs (a :: rest) sorted = sweep key inputs rest next ∧
        SortedPart key inputs l next ∧ sorted <+: next ∧
        (inputs a ⊆ sorted.map key → key a ∈ next.map key) := by
      by_cases hmem : key a ∈ sorted.map key
      · exact ⟨sorted, by simp only [sweep, List.foldl_cons, if_pos hmem], h, List.prefix_rfl,
          fun _ => hmem⟩
      · by_cases hin : inputs a ⊆ sorted.map key
        · refine ⟨sorted ++ [a], by simp only [sweep, List.foldl_cons, if_neg hmem, if_pos hin],
            h.concat (hsub (.head _)) hmem hin, List.prefix_append _ _, fun _ => ?_⟩
          exact List.mem_map_of_mem (List.mem_append_right _ (List.mem_singleton_self a))
        · exact ⟨sorted, by simp only [sweep, List.foldl_cons, if_neg hmem, if_neg hin], h,
            List.prefix_rfl, fun hin' => absurd hin' hin⟩
    obtain ⟨next, heq, hpart, hpre, ha⟩ := hnext
    obtain ⟨hpart', hpre', hready⟩ := ih hpart hrest
    rw [heq]
    refine ⟨hpart', hpre.trans hpre', fun b hb hin => ?_⟩
    rcases List.mem_cons.mp hb with rfl | hb
    · exact List.map_subset key hpre'.subset (ha hin)
    · exact hready b hb fun k hk => List.map_subset key hpre.subset (hin hk)

/-- The sweeps end, with the whole list sorted. -/
theorem sweeps_spec (hkeys : (l.map key).Nodup) (hinputs : ∀ a ∈ l, inputs a ⊆ l.map key)
    (hacyclic : Acyclic fun a b => a ∈ l ∧ b ∈ l ∧ key a ∈ inputs b) {fuel : Nat}
    (h : SortedPart key inputs l sorted) (hfuel : l.length ≤ sorted.length + fuel) :
    ∃ sorted', sweeps key inputs l.length l fuel sorted = some sorted' ∧ sorted'.Perm l ∧
      InputsFirst key inputs sorted' := by
  have hsubperm : sorted.Subperm l := List.subperm_of_subset (h.nodup.of_map _) h.subset
  induction fuel generalizing sorted with
  | zero =>
    rw [Nat.add_zero] at hfuel
    rw [sweeps, if_pos hfuel]
    exact ⟨sorted, rfl, hsubperm.perm_of_length_le hfuel, h.inputsFirst⟩
  | succ fuel ih =>
    rw [sweeps]
    by_cases hdone : l.length ≤ sorted.length
    · rw [if_pos hdone]
      exact ⟨sorted, rfl, hsubperm.perm_of_length_le hdone, h.inputsFirst⟩
    · rw [if_neg hdone]
      obtain ⟨hpart, hpre, hready⟩ := sweep_spec h (List.Subset.refl l)
      -- Of what is not sorted yet, something has no unsorted input.
      have hlonger : sorted.length < (sweep key inputs l sorted).length := by
        have hrest : l.filter (fun a => key a ∉ sorted.map key) ≠ [] := by
          intro hnil
          refine hdone (List.subperm_of_subset (hkeys.of_map _) fun a ha => ?_).length_le
          have hmem : key a ∈ sorted.map key := by
            by_contra hnot
            have := List.filter_eq_nil_iff.mp hnil a ha
            exact this (decide_eq_true hnot)
          obtain ⟨b, hb, heq⟩ := List.mem_map.mp hmem
          exact List.inj_on_of_nodup_map hkeys (h.subset hb) ha heq ▸ hb
        obtain ⟨a, ha, hmin⟩ := hacyclic.exists_source hrest
        obtain ⟨hal, hnew⟩ := List.mem_filter.mp ha
        have hin : inputs a ⊆ sorted.map key := by
          intro k hk
          obtain ⟨b, hb, rfl⟩ := List.mem_map.mp (hinputs a hal hk)
          by_contra hnot
          exact hmin b (List.mem_filter.mpr ⟨hb, decide_eq_true hnot⟩) ⟨hb, hal, hk⟩
        refine lt_of_le_of_ne hpre.length_le fun heq => ?_
        rw [← hpre.eq_of_length heq] at hready
        exact of_decide_eq_true hnew (hready a hal hin)
      exact ih hpart (by omega) (List.subperm_of_subset (hpart.nodup.of_map _) hpart.subset)

end

end Mil.Lib
