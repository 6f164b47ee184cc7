import Mathlib.Data.List.Basic

/-!
# Computations that return a known value

A computation over a state that may only fill caches returns the same value from every state in
which the caches are right, and leaves such a state. `Returns P m a` says this for the states `P`;
the rules put it together for a sequence of steps (`bind`), for a loop that collects results
(`mapM`) and for a loop that updates a value (`foldlM`).
-/

set_option autoImplicit false

namespace Mil.Lib

variable {σ α β : Type} {P : σ → Prop}

/-- From every state with `P`, `m` returns `a` and a state with `P`. -/
def Returns (P : σ → Prop) (m : StateT σ Option α) (a : α) : Prop :=
  ∀ s, P s → ∃ s', m s = some (a, s') ∧ P s'

namespace Returns

theorem pure (a : α) : Returns P (Pure.pure a) a := fun s hs => ⟨s, rfl, hs⟩

theorem bind {m : StateT σ Option α} {f : α → StateT σ Option β} {a : α} {b : β}
    (hm : Returns P m a) (hf : Returns P (f a) b) : Returns P (m >>= f) b := by
  intro s hs
  obtain ⟨t, ht, hP⟩ := hm s hs
  obtain ⟨u, hu, hP⟩ := hf t hP
  refine ⟨u, ?_, hP⟩
  show (m s).bind _ = _
  rw [ht]
  exact hu

/-- A step without state. -/
theorem lift {o : Option α} {a : α} (h : o = some a) : Returns P (StateT.lift o) a := by
  intro s hs
  refine ⟨s, ?_, hs⟩
  rw [h]
  rfl

theorem mapM {f : α → StateT σ Option β} {h : α → β} {l : List α}
    (hf : ∀ a ∈ l, Returns P (f a) (h a)) : Returns P (l.mapM f) (l.map h) := by
  induction l with
  | nil => exact pure []
  | cons a l ih =>
    obtain ⟨ha, hl⟩ := List.forall_mem_cons.mp hf
    rw [List.mapM_cons]
    exact ha.bind ((ih hl).bind (pure _))

/-- A loop of which it is only known what its results are like. -/
theorem exists_mapM {f : α → StateT σ Option β} {R : α → β → Prop} {l : List α}
    (hf : ∀ a ∈ l, ∀ s, P s → ∃ b s', f a s = some (b, s') ∧ P s' ∧ R a b) {s : σ} (hs : P s) :
    ∃ bs s', l.mapM f s = some (bs, s') ∧ P s' ∧ List.Forall₂ R l bs := by
  induction l generalizing s with
  | nil => exact ⟨[], s, rfl, hs, .nil⟩
  | cons a l ih =>
    obtain ⟨ha, hl⟩ := List.forall_mem_cons.mp hf
    obtain ⟨b, t, hb, ht, hR⟩ := ha s hs
    obtain ⟨bs, u, hbs, hu, hRs⟩ := ih hl ht
    refine ⟨b :: bs, u, ?_, hu, .cons hR hRs⟩
    rw [List.mapM_cons]
    show (f a s).bind _ = _
    rw [hb]
    show (l.mapM f t).bind _ = _
    rw [hbs]
    rfl

theorem foldlM {f : β → α → StateT σ Option β} {h : β → α → β} {l : List α} {b : β}
    (hf : ∀ a ∈ l, ∀ b, Returns P (f b a) (h b a)) : Returns P (l.foldlM f b) (l.foldl h b) := by
  induction l generalizing b with
  | nil => exact pure b
  | cons a l ih =>
    obtain ⟨ha, hl⟩ := List.forall_mem_cons.mp hf
    rw [List.foldlM_cons]
    exact (ha b).bind (ih hl)

end Returns

end Mil.Lib
