import Mathlib.Data.List.Nodup
import Mathlib.Logic.Function.Basic
import Mathlib.Logic.Relation
import Mathlib.Order.Basic

/-!
# Moves in place

A move copies the content of one place to another. A chain `a, b, c, ..` stands for the moves from
each place to the next; running it from its end to its start lets every content go one place on,
though each place is read after the one behind it in the chain and overwritten before the one in
front (`run_chainMoves`).

Several lists of moves may run at once, one move after the other in any interleaving. When no list
touches a place that another touches, each does to its own places what it does alone
(`Interleaved.run_of_mem`), and the other places stay as they are.

Moves that write no place twice and no place that is read may be run in any order (`run_perm`).

The chains of a partial map start where nothing is mapped to and go on until the map names no place
(`Walk`). When no two places are mapped to one, chains with different starts are disjoint
(`Walk.disjoint`).
-/

set_option autoImplicit false

namespace Mil.Lib.Moves

variable {π β : Type} [DecidableEq π]

/-- The content of the first place is copied to the second. -/
def copy (mem : π → β) (m : π × π) : π → β := Function.update mem m.2 (mem m.1)

def run (ms : List (π × π)) (mem : π → β) : π → β := ms.foldl copy mem

/-- The places that a list of moves reads or writes. -/
def touched (ms : List (π × π)) : List π := ms.flatMap fun m => [m.1, m.2]

@[simp] theorem run_nil (mem : π → β) : run [] mem = mem := rfl

@[simp] theorem run_cons (m : π × π) (ms : List (π × π)) (mem : π → β) :
    run (m :: ms) mem = run ms (copy mem m) := rfl

theorem run_append (ms ms' : List (π × π)) (mem : π → β) :
    run (ms ++ ms') mem = run ms' (run ms mem) := List.foldl_append

theorem copy_of_ne {mem : π → β} {m : π × π} {p : π} (h : p ≠ m.2) : copy mem m p = mem p :=
  Function.update_of_ne h ..

theorem copy_self {mem : π → β} {m : π × π} : copy mem m m.2 = mem m.1 := Function.update_self ..

omit [DecidableEq π] in
theorem mem_touched_cons {m : π × π} {ms : List (π × π)} {p : π} :
    p ∈ touched (m :: ms) ↔ p = m.1 ∨ p = m.2 ∨ p ∈ touched ms := by
  simp only [touched, List.flatMap_cons, List.cons_append, List.nil_append, List.mem_cons]

/-- A place that is not written keeps its content. -/
theorem run_of_not_mem {ms : List (π × π)} {mem : π → β} {p : π}
    (h : ∀ m ∈ ms, p ≠ m.2) : run ms mem p = mem p := by
  induction ms generalizing mem with
  | nil => rfl
  | cons m ms ih =>
    rw [run_cons, ih fun m' hm' => h m' (List.mem_cons_of_mem _ hm')]
    exact copy_of_ne (h m List.mem_cons_self)

/-- What moves do to the places they touch depends on these places only. -/
theorem run_congr {ms : List (π × π)} {mem mem' : π → β} (places : π → Prop)
    (hplaces : ∀ p ∈ touched ms, places p) (h : ∀ p, places p → mem p = mem' p) :
    ∀ p, places p → run ms mem p = run ms mem' p := by
  induction ms generalizing mem mem' with
  | nil => exact h
  | cons m ms ih =>
    rw [run_cons, run_cons]
    refine ih (fun p hp => hplaces p (mem_touched_cons.mpr (.inr (.inr hp)))) fun p hp => ?_
    by_cases heq : p = m.2
    · rw [heq, copy_self, copy_self]
      exact h m.1 (hplaces m.1 (mem_touched_cons.mpr (.inl rfl)))
    · rw [copy_of_ne heq, copy_of_ne heq]
      exact h p hp

/-! ## A chain -/

/-- The moves of a chain, from its end to its start. -/
def chainMoves : List π → List (π × π)
  | a :: b :: rest => chainMoves (b :: rest) ++ [(a, b)]
  | _ => []

omit [DecidableEq π] in
theorem mem_chainMoves {chain : List π} {m : π × π} (h : m ∈ chainMoves chain) :
    m.1 ∈ chain ∧ m.2 ∈ chain.tail := by
  induction chain with
  | nil => cases h
  | cons a chain ih =>
    cases chain with
    | nil => cases h
    | cons b rest =>
      rw [chainMoves] at h
      rcases List.mem_append.mp h with h | h
      · exact ⟨List.mem_cons_of_mem _ (ih h).1, List.mem_cons_of_mem _ (ih h).2⟩
      · obtain rfl := List.mem_singleton.mp h
        exact ⟨List.mem_cons_self, List.mem_cons_self⟩

omit [DecidableEq π] in
/-- A place of the chain that is not its end is the source of one move, to the place behind it. -/
theorem chainMoves_sources (chain : List π) :
    ((chainMoves chain).map Prod.fst).reverse = chain.dropLast := by
  induction chain with
  | nil => rfl
  | cons a chain ih =>
    cases chain with
    | nil => rfl
    | cons b rest =>
      rw [chainMoves, List.map_append, List.reverse_append, ih]
      rfl

omit [DecidableEq π] in
theorem touched_chainMoves {chain : List π} {p : π} (h : p ∈ touched (chainMoves chain)) :
    p ∈ chain := by
  obtain ⟨m, hm, hp⟩ := List.mem_flatMap.mp h
  have hmem := mem_chainMoves hm
  rcases List.mem_cons.mp hp with rfl | hp
  · exact hmem.1
  · obtain rfl := List.mem_singleton.mp hp
    exact List.mem_of_mem_tail hmem.2

/-- Running a chain moves every content one place on. -/
theorem run_chainMoves {chain : List π} (hnodup : chain.Nodup) {mem : π → β} {m : π × π}
    (hm : m ∈ chainMoves chain) : run (chainMoves chain) mem m.2 = mem m.1 := by
  induction chain with
  | nil => cases hm
  | cons a chain ih =>
    cases chain with
    | nil => cases hm
    | cons b rest =>
      obtain ⟨ha, hrest⟩ := List.nodup_cons.mp hnodup
      obtain ⟨hb, -⟩ := List.nodup_cons.mp hrest
      rw [chainMoves] at hm ⊢
      rw [run_append, run_cons, run_nil]
      rcases List.mem_append.mp hm with hm | hm
      · have hne : m.2 ≠ b := fun heq => hb (heq ▸ (mem_chainMoves hm).2)
        exact (copy_of_ne hne).trans (ih hrest hm)
      · obtain rfl := List.mem_singleton.mp hm
        refine copy_self.trans (run_of_not_mem fun m' hm' heq => ha ?_)
        have heq' : a = m'.2 := heq
        rw [heq']
        exact List.mem_of_mem_tail (mem_chainMoves hm').2

/-! ## Interleavings -/

/-- `out` runs the moves of all lists, those of one list in their order. -/
inductive Interleaved : List (List (π × π)) → List (π × π) → Prop
  | done {lists : List (List (π × π))} (h : ∀ ms ∈ lists, ms = []) : Interleaved lists []
  | step {before after : List (List (π × π))} {m : π × π} {ms out : List (π × π)}
      (h : Interleaved (before ++ ms :: after) out) :
      Interleaved (before ++ (m :: ms) :: after) (m :: out)

/-- No list touches a place that another one touches. -/
def Disjoint (lists : List (List (π × π))) : Prop :=
  lists.Pairwise fun ms ms' => List.Disjoint (touched ms) (touched ms')

omit [DecidableEq π] in
theorem Disjoint.tail {before after : List (List (π × π))} {m : π × π} {ms : List (π × π)}
    (h : Disjoint (before ++ (m :: ms) :: after)) : Disjoint (before ++ ms :: after) := by
  have hsub : ∀ {p : π}, p ∈ touched ms → p ∈ touched (m :: ms) :=
    fun hp => mem_touched_cons.mpr (.inr (.inr hp))
  rw [Disjoint, List.pairwise_append, List.pairwise_cons] at h ⊢
  obtain ⟨hbefore, ⟨hhead, hafter⟩, hcross⟩ := h
  refine ⟨hbefore, ⟨fun ms' hms' p hp => hhead ms' hms' (hsub hp), hafter⟩,
    fun ms₁ h₁ ms₂ h₂ p hp hp' => ?_⟩
  rcases List.mem_cons.mp h₂ with rfl | h₂
  · exact hcross ms₁ h₁ _ List.mem_cons_self hp (hsub hp')
  · exact hcross ms₁ h₁ ms₂ (List.mem_cons_of_mem _ h₂) hp hp'

omit [DecidableEq π] in
theorem Disjoint.of_mem {before after : List (List (π × π))} {ms ms' : List (π × π)}
    (h : Disjoint (before ++ ms :: after)) (hmem : ms' ∈ before ∨ ms' ∈ after) :
    List.Disjoint (touched ms) (touched ms') := by
  rw [Disjoint, List.pairwise_append, List.pairwise_cons] at h
  obtain ⟨-, ⟨hhead, -⟩, hcross⟩ := h
  rcases hmem with hmem | hmem
  · exact fun p hp hp' => hcross ms' hmem ms List.mem_cons_self hp' hp
  · exact hhead ms' hmem

/-- A place that no list touches keeps its content. -/
theorem Interleaved.run_of_not_mem {lists : List (List (π × π))} {out : List (π × π)}
    (h : Interleaved lists out) {mem : π → β} {p : π} (hp : ∀ ms ∈ lists, p ∉ touched ms) :
    run out mem p = mem p := by
  induction h generalizing mem with
  | done _ => rfl
  | @step before after m ms out _ ih =>
    have hhead := hp (m :: ms) (List.mem_append_right _ List.mem_cons_self)
    rw [mem_touched_cons, not_or, not_or] at hhead
    rw [run_cons, ih fun ms' hms' => ?_]
    · exact copy_of_ne hhead.2.1
    · rcases List.mem_append.mp hms' with hms' | hms'
      · exact hp ms' (List.mem_append_left _ hms')
      · rcases List.mem_cons.mp hms' with rfl | hms'
        · exact hhead.2.2
        · exact hp ms' (List.mem_append_right _ (List.mem_cons_of_mem _ hms'))

/-- Each list does to the places it touches what it does alone. -/
theorem Interleaved.run_of_mem {lists : List (List (π × π))} {out : List (π × π)}
    (h : Interleaved lists out) (hdisjoint : Disjoint lists) {mem : π → β}
    {ms : List (π × π)} (hms : ms ∈ lists) {p : π} (hp : p ∈ touched ms) :
    run out mem p = run ms mem p := by
  induction h generalizing mem ms with
  | done hnil =>
    rw [hnil ms hms] at hp
    cases hp
  | @step before after m ms₀ out hstep ih =>
    have htail := hdisjoint.tail
    rw [run_cons]
    have hother : ∀ ms' : List (π × π), ms' ∈ before ∨ ms' ∈ after → ms' ∈ before ++ ms₀ :: after :=
      fun ms' hms' => List.mem_append.mpr (hms'.imp id (List.mem_cons_of_mem _))
    have hcases : ms = m :: ms₀ ∨ ms ∈ before ∨ ms ∈ after := by
      rcases List.mem_append.mp hms with hms | hms
      · exact .inr (.inl hms)
      · exact (List.mem_cons.mp hms).imp id Or.inr
    rcases hcases with rfl | hms
    · rw [run_cons]
      by_cases hp' : p ∈ touched ms₀
      · exact ih htail (List.mem_append_right _ List.mem_cons_self) hp'
      · -- the first move of the list is the only one to touch the place
        rw [hstep.run_of_not_mem, Moves.run_of_not_mem]
        · intro m' hm' heq
          exact hp' (List.mem_flatMap.mpr ⟨m', hm', by rw [heq]; simp⟩)
        · intro ms' hms' hin
          rcases List.mem_append.mp hms' with hms' | hms'
          · exact hdisjoint.of_mem (.inl hms') hp hin
          · rcases List.mem_cons.mp hms' with rfl | hms'
            · exact hp' hin
            · exact hdisjoint.of_mem (.inr hms') hp hin
    · rw [ih htail (hother ms hms) hp]
      refine run_congr (fun q => q ∈ touched ms) (fun _ h => h) (fun q hq => ?_) p hp
      refine copy_of_ne fun heq => hdisjoint.of_mem hms ?_ hq
      exact mem_touched_cons.mpr (.inr (.inl heq))

omit [DecidableEq π] in
/-- One list after the other is an interleaving. -/
theorem interleaved_flatten (lists : List (List (π × π))) :
    Interleaved lists lists.flatten := by
  suffices h : ∀ before : List (List (π × π)), (∀ ms ∈ before, ms = []) →
      Interleaved (before ++ lists) lists.flatten from h [] fun _ h => nomatch h
  induction lists with
  | nil =>
    intro before hbefore
    rw [List.append_nil]
    exact .done hbefore
  | cons ms lists ih =>
    intro before hbefore
    rw [List.flatten_cons]
    induction ms with
    | nil =>
      rw [List.append_cons]
      refine ih _ fun ms hms => ?_
      rcases List.mem_append.mp hms with hms | hms
      · exact hbefore ms hms
      · exact List.mem_singleton.mp hms
    | cons m ms ih' => exact .step ih'

/-! ## Moves in any order -/

omit [DecidableEq π] in
/-- No place is written twice, and none that is read is written. -/
def Independent (ms : List (π × π)) : Prop :=
  (ms.map Prod.snd).Nodup ∧ ∀ m ∈ ms, ∀ m' ∈ ms, m.1 ≠ m'.2

omit [DecidableEq π] in
theorem Independent.nil : Independent ([] : List (π × π)) :=
  ⟨List.nodup_nil, fun _ hm => nomatch hm⟩

omit [DecidableEq π] in
theorem Independent.perm {ms ms' : List (π × π)} (h : Independent ms) (hperm : ms.Perm ms') :
    Independent ms' :=
  ⟨(hperm.map _).nodup_iff.mp h.1, fun m hm m' hm' =>
    h.2 m (hperm.mem_iff.mpr hm) m' (hperm.mem_iff.mpr hm')⟩

omit [DecidableEq π] in
theorem Independent.of_cons {m : π × π} {ms : List (π × π)} (h : Independent (m :: ms)) :
    Independent ms :=
  ⟨(List.nodup_cons.mp h.1).2, fun m' hm' m'' hm'' => h.2 m' (.tail _ hm') m'' (.tail _ hm'')⟩

omit [DecidableEq π] in
/-- Further moves from places not written to places not touched. -/
theorem Independent.append {ms ms' : List (π × π)} (h : Independent ms) (h' : Independent ms')
    (hnew : ∀ m ∈ ms, ∀ m' ∈ ms', m.1 ≠ m'.2 ∧ m.2 ≠ m'.2)
    (hold : ∀ m ∈ ms, ∀ m' ∈ ms', m'.1 ≠ m.2) : Independent (ms ++ ms') := by
  refine ⟨?_, fun m hm m' hm' => ?_⟩
  · rw [List.map_append]
    refine List.nodup_append.mpr ⟨h.1, h'.1, fun p hp q hq => ?_⟩
    obtain ⟨m, hm, rfl⟩ := List.mem_map.mp hp
    obtain ⟨m', hm', rfl⟩ := List.mem_map.mp hq
    exact (hnew m hm m' hm').2
  · rcases List.mem_append.mp hm with hm | hm
    · rcases List.mem_append.mp hm' with hm' | hm'
      · exact h.2 m hm m' hm'
      · exact (hnew m hm m' hm').1
    · rcases List.mem_append.mp hm' with hm' | hm'
      · exact hold m' hm' m hm
      · exact h'.2 m hm m' hm'

/-- Each place that is written gets what was there to be read. -/
theorem run_of_mem {ms : List (π × π)} (h : Independent ms) {mem : π → β} {m : π × π}
    (hm : m ∈ ms) : run ms mem m.2 = mem m.1 := by
  induction ms generalizing mem with
  | nil => cases hm
  | cons m₀ ms ih =>
    rw [run_cons]
    rcases List.mem_cons.mp hm with rfl | hm'
    · rw [run_of_not_mem, copy_self]
      intro m' hm' heq
      exact (List.nodup_cons.mp h.1).1 (heq ▸ List.mem_map_of_mem hm')
    · rw [ih h.of_cons hm']
      exact copy_of_ne (h.2 m hm m₀ (.head _))

/-- The order does not matter. -/
theorem run_perm {ms ms' : List (π × π)} (h : Independent ms) (hperm : ms.Perm ms')
    (mem : π → β) : run ms mem = run ms' mem := by
  funext p
  by_cases hp : ∃ m ∈ ms, m.2 = p
  · obtain ⟨m, hm, rfl⟩ := hp
    rw [run_of_mem h hm, run_of_mem (h.perm hperm) (hperm.mem_iff.mp hm)]
  · rw [run_of_not_mem fun m hm heq => hp ⟨m, hm, heq.symm⟩,
      run_of_not_mem fun m hm heq => hp ⟨m, hperm.mem_iff.mpr hm, heq.symm⟩]

/-- Moves read a memory only through the places that its contents come from. -/
theorem run_eq_comp (ms : List (π × π)) (mem : π → β) (p : π) :
    run ms mem p = mem (run ms id p) := by
  have hcomp : ∀ (ms : List (π × π)) (origin : π → π),
      run ms (fun p => mem (origin p)) = fun p => mem (run ms origin p) := by
    intro ms
    induction ms with
    | nil => exact fun _ => rfl
    | cons m ms ih =>
      intro origin
      rw [run_cons, run_cons, ← ih]
      congr 1
      funext p
      by_cases hp : p = m.2
      · rw [hp, copy_self, copy_self]
      · rw [copy_of_ne hp, copy_of_ne hp]
  exact congrFun (hcomp ms id) p

/-- Moves that come in before others and write nothing that these touch: the places they write get
what would be in the places they read after the others. -/
theorem run_insert_of_mem {new post : List (π × π)} (hnew : Independent new) {mem : π → β}
    (hdst : ∀ m ∈ new, ∀ m' ∈ post, m.2 ≠ m'.2) (hsrc : ∀ m ∈ new, ∀ m' ∈ post, m.1 ≠ m'.2)
    {m : π × π} (hm : m ∈ new) : run post (run new mem) m.2 = run post mem m.1 := by
  rw [run_of_not_mem (hdst m hm), run_of_mem hnew hm, run_of_not_mem (hsrc m hm)]

/-- The other places are as without them. -/
theorem run_insert_of_not_mem {new post : List (π × π)} {mem : π → β}
    (htouched : ∀ m ∈ new, m.2 ∉ touched post) {p : π} (hp : ∀ m ∈ new, p ≠ m.2) :
    run post (run new mem) p = run post mem p := by
  refine run_congr (fun p => ∀ m ∈ new, p ≠ m.2) (fun q hq m hm heq => ?_) (fun q hq => ?_) p hp
  · exact htouched m hm (heq ▸ hq)
  · exact run_of_not_mem hq

/-! ## The chains of a partial map -/

section Walk

variable {f : π → Option π}

/-- The way from a place along the map until it names no place; no step of it stays in place. -/
inductive Walk (f : π → Option π) : π → List π → Prop
  | last {x : π} (h : f x = none) : Walk f x []
  | step {x y : π} {rest : List π} (h : f x = some y) (hne : y ≠ x) (hw : Walk f y rest) :
      Walk f x (y :: rest)

/-- The map goes from the one place to the other, which is another. -/
def Step (f : π → Option π) (x y : π) : Prop := f x = some y ∧ y ≠ x

namespace Walk

variable {x : π} {rest : List π}

omit [DecidableEq π] in
theorem not_fixed (h : Walk f x rest) : ∀ z ∈ x :: rest, f z ≠ some z := by
  induction h with
  | last h =>
    intro z hz heq
    obtain rfl := List.mem_singleton.mp hz
    cases h.symm.trans heq
  | step h hne _ ih =>
    intro z hz heq
    rcases List.mem_cons.mp hz with rfl | hz
    · exact hne (Option.some.inj (h.symm.trans heq))
    · exact ih z hz heq

omit [DecidableEq π] in
omit [DecidableEq π] in
/-- Every place of the chain that the map sends on is sent on by a move. -/
theorem mem_moves (h : Walk f x rest) {z y : π} (hz : z ∈ x :: rest) (hy : f z = some y) :
    (z, y) ∈ chainMoves (x :: rest) := by
  induction h with
  | last hnone =>
    obtain rfl := List.mem_singleton.mp hz
    cases hnone.symm.trans hy
  | step h _ _ ih =>
    rw [chainMoves]
    rcases List.mem_cons.mp hz with rfl | hz
    · obtain rfl := Option.some.inj (h.symm.trans hy)
      exact List.mem_append_right _ List.mem_cons_self
    · exact List.mem_append_left _ (ih hz)

omit [DecidableEq π] in
theorem reach (h : Walk f x rest) : ∀ z ∈ x :: rest, Relation.ReflTransGen (Step f) x z := by
  induction h with
  | last _ =>
    intro z hz
    obtain rfl := List.mem_singleton.mp hz
    exact .refl
  | step h hne _ ih =>
    intro z hz
    rcases List.mem_cons.mp hz with rfl | hz
    · exact .refl
    · exact .head ⟨h, hne⟩ (ih z hz)

omit [DecidableEq π] in
/-- Chains whose starts are mapped to by no other place meet only when they start together. -/
theorem disjoint {x' : π} {rest' : List π} (h : Walk f x rest) (h' : Walk f x' rest')
    (hinj : ∀ a b c, Step f a c → Step f b c → a = b) (hstart : ∀ a, ¬ Step f a x)
    (hstart' : ∀ a, ¬ Step f a x') (hne : x ≠ x') : List.Disjoint (x :: rest) (x' :: rest') := by
  -- two ways back from a common place follow each other to the start of one of them
  have hback : ∀ {a b : π}, (∀ c, ¬ Step f c b) → Relation.ReflTransGen (Step f) a b → a = b := by
    intro a b hb hab
    rcases Relation.ReflTransGen.cases_tail hab with heq | ⟨c, -, hc⟩
    · exact heq.symm
    · exact absurd hc (hb c)
  intro z hz hz'
  have htotal := Relation.ReflTransGen.total_of_right_unique
    (r := Function.swap (Step f)) (fun _ _ _ ha hb => hinj _ _ _ ha hb)
    (Relation.reflTransGen_swap.mpr (h.reach z hz))
    (Relation.reflTransGen_swap.mpr (h'.reach z hz'))
  rcases htotal with hreach | hreach
  · exact hne (hback hstart (Relation.reflTransGen_swap.mp hreach)).symm
  · exact hne (hback hstart' (Relation.reflTransGen_swap.mp hreach))

omit [DecidableEq π] in
/-- Along a map that goes down the places of a chain are distinct. -/
theorem lt_and_nodup [PartialOrder π] (h : Walk f x rest) (hle : ∀ a b, f a = some b → b ≤ a) :
    (∀ z ∈ rest, z < x) ∧ (x :: rest).Nodup := by
  induction h with
  | last _ => exact ⟨fun _ hz => (List.not_mem_nil hz).elim, List.nodup_singleton _⟩
  | step h hne _ ih =>
    have hlt := lt_of_le_of_ne (hle _ _ h) hne
    have hall : ∀ z ∈ _ :: _, z < _ := fun z hz =>
      (List.mem_cons.mp hz).elim (fun heq => heq ▸ hlt) fun hz => (ih.1 z hz).trans hlt
    exact ⟨hall, List.nodup_cons.mpr ⟨fun hmem => lt_irrefl _ (hall _ hmem), ih.2⟩⟩

end Walk

end Walk

end Mil.Lib.Moves
