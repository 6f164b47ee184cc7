import Mathlib.Data.List.Basic
import Mathlib.Data.List.Forall2

/-!
# Loops that can fail

`List.foldlM` in `Option` is a loop over a list whose body may raise. What every body keeps holds
when the loop returns (`foldlM_inv`), and a loop whose bodies all return, as long as the invariant
holds, returns as well (`foldlM_total`, `foldlM_range_total`). `mapM_of_forall` and
`exists_mapM_forall₂` are about the loop that collects results.
-/

set_option autoImplicit false

namespace Mil.Lib

variable {α σ : Type} {f : σ → α → Option σ} {P : σ → Prop}

theorem foldlM_inv {l : List α} {s s' : σ}
    (hstep : ∀ a ∈ l, ∀ t t', P t → f t a = some t' → P t') (h : P s)
    (hrun : l.foldlM f s = some s') : P s' := by
  induction l generalizing s with
  | nil =>
    obtain rfl := Option.some.inj hrun
    exact h
  | cons a l ih =>
    rw [List.foldlM_cons] at hrun
    obtain ⟨t, ht, hrest⟩ := Option.bind_eq_some_iff.mp hrun
    exact ih (fun b hb => hstep b (.tail _ hb)) (hstep a (.head _) s t h ht) hrest

theorem foldlM_total {l : List α} {s : σ}
    (hstep : ∀ a ∈ l, ∀ t, P t → ∃ t', f t a = some t' ∧ P t') (h : P s) :
    ∃ s', l.foldlM f s = some s' ∧ P s' := by
  induction l generalizing s with
  | nil => exact ⟨s, rfl, h⟩
  | cons a l ih =>
    obtain ⟨t, ht, hP⟩ := hstep a (.head _) s h
    rw [List.foldlM_cons, ht]
    exact ih (fun b hb => hstep b (.tail _ hb)) hP

/-- As long as the invariant holds every body returns, and this is what the loop returns. -/
theorem foldlM_eq_foldl {g : σ → α → σ} {l : List α} {s : σ}
    (hstep : ∀ a ∈ l, ∀ t, P t → f t a = some (g t a) ∧ P (g t a)) (h : P s) :
    l.foldlM f s = some (l.foldl g s) := by
  induction l generalizing s with
  | nil => rfl
  | cons a l ih =>
    obtain ⟨hrun, hP⟩ := hstep a (.head _) s h
    rw [List.foldlM_cons, hrun, List.foldl_cons]
    exact ih (fun b hb => hstep b (.tail _ hb)) hP

/-- A loop over the numbers below `n`, with an invariant that counts the rounds. -/
theorem foldlM_range_total {σ : Type} {f : σ → Nat → Option σ} {P : Nat → σ → Prop} {n : Nat}
    {s : σ} (hstep : ∀ k < n, ∀ t, P k t → ∃ t', f t k = some t' ∧ P (k + 1) t') (h : P 0 s) :
    ∃ s', (List.range n).foldlM f s = some s' ∧ P n s' := by
  induction n with
  | zero => exact ⟨s, rfl, h⟩
  | succ n ih =>
    obtain ⟨t, ht, hP⟩ := ih fun k hk => hstep k (Nat.lt_succ_of_lt hk)
    obtain ⟨t', ht', hP'⟩ := hstep n (Nat.lt_succ_self n) t hP
    refine ⟨t', ?_, hP'⟩
    rw [List.range_succ, List.foldlM_append, ht]
    show List.foldlM f t [n] = some t'
    rw [List.foldlM_cons, ht']
    rfl

/-- A fold is seen through a map of its states if every step is. -/
theorem foldlM_map {β τ : Type} {g : τ → β → Option τ} {F : σ → τ} {p : α → β}
    (hstep : ∀ s a, g (F s) (p a) = (f s a).map F) (l : List α) (s : σ) :
    (l.map p).foldlM g (F s) = (l.foldlM f s).map F := by
  induction l generalizing s with
  | nil => rfl
  | cons a l ih =>
    rw [List.map_cons, List.foldlM_cons, List.foldlM_cons, hstep]
    cases f s a with
    | none => rfl
    | some s' => exact ih s'

theorem mapM_congr {α β : Type} {f g : α → Option β} {l : List α} (h : ∀ a ∈ l, f a = g a) :
    l.mapM f = l.mapM g := by
  induction l with
  | nil => rfl
  | cons a l ih =>
    obtain ⟨ha, hl⟩ := List.forall_mem_cons.mp h
    rw [List.mapM_cons, List.mapM_cons, ha, ih hl]

/-- Every call returns, and this is what they return. -/
theorem mapM_of_forall {α β : Type} {f : α → Option β} {h : α → β} {l : List α}
    (hf : ∀ a ∈ l, f a = some (h a)) : l.mapM f = some (l.map h) := by
  induction l with
  | nil => rfl
  | cons a l ih =>
    obtain ⟨ha, hl⟩ := List.forall_mem_cons.mp hf
    rw [List.mapM_cons, ha, ih hl]
    rfl

theorem forall₂_of_mapM {α β : Type} {f : α → Option β} {l : List α} {l' : List β}
    (h : l.mapM f = some l') : List.Forall₂ (fun a b => f a = some b) l l' := by
  induction l generalizing l' with
  | nil =>
    obtain rfl := Option.some.inj h
    exact .nil
  | cons a l ih =>
    rw [List.mapM_cons] at h
    obtain ⟨b, hb, h⟩ := Option.bind_eq_some_iff.mp h
    obtain ⟨bs, hbs, h⟩ := Option.bind_eq_some_iff.mp h
    obtain rfl := Option.some.inj h
    exact .cons hb (ih hbs)

theorem length_of_mapM {α β : Type} {f : α → Option β} {l : List α} {l' : List β}
    (h : l.mapM f = some l') : l'.length = l.length :=
  (forall₂_of_mapM h).length_eq.symm

/-- Every call returns what is related to its argument. -/
theorem exists_mapM_forall₂ {α β γ : Type} {f : β → Option γ} {R : α → β → Prop}
    {S : α → γ → Prop} {as : List α} {bs : List β} (h : List.Forall₂ R as bs)
    (hf : ∀ a ∈ as, ∀ b, R a b → ∃ c, f b = some c ∧ S a c) :
    ∃ cs, bs.mapM f = some cs ∧ List.Forall₂ S as cs := by
  induction h with
  | nil => exact ⟨[], rfl, .nil⟩
  | cons hab _ ih =>
    obtain ⟨c, hc, hS⟩ := hf _ (.head _) _ hab
    obtain ⟨cs, hcs, hrest⟩ := ih fun a ha => hf a (.tail _ ha)
    refine ⟨c :: cs, ?_, .cons hS hrest⟩
    rw [List.mapM_cons, hc, hcs]
    rfl

theorem mapM_forall₂ {α β γ : Type} {f : β → Option γ} {g : α → γ} {R : α → β → Prop}
    {as : List α} {bs : List β} (h : List.Forall₂ R as bs)
    (hf : ∀ a ∈ as, ∀ b, R a b → f b = some (g a)) : bs.mapM f = some (as.map g) := by
  induction h with
  | nil => rfl
  | cons hab _ ih =>
    rw [List.mapM_cons, hf _ (.head _) _ hab, ih fun a ha => hf a (.tail _ ha)]
    rfl

end Mil.Lib
