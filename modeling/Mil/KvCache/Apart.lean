import Mil.Blocks.Exclusive
import Mil.Requests.Runs

/-!
# Tables of different groups

Sequences share blocks with sequences of their own group only: a fork is in the group of its parent,
and every other block that comes into a table was in none. `Apart` says so of a state and of the
groups that ids belong to; here are the calls of the manager that keep it.
-/

set_option autoImplicit false

namespace Mil.Requests

open Mil.Lib Mil.Blocks Mil.Blocks.BlockManager

variable {cfg : Config} {m m' : BlockManager} {g : SequenceGroup} {gs : List SequenceGroup}

/-! ## Groups -/

/-- The ids are in the same groups. -/
def Together (gs : List SequenceGroup) (id id' : Nat) : Prop :=
  ∀ g ∈ gs, id ∈ g.seqs.map Sequence.seqId ↔ id' ∈ g.seqs.map Sequence.seqId

/-- Every group of a list is, as far as ids go, one of the groups that tell ids apart. -/
def GroupsOf (gs gs' : List SequenceGroup) : Prop :=
  ∀ g' ∈ gs', ∃ g ∈ gs, g.seqs.map Sequence.seqId = g'.seqs.map Sequence.seqId

theorem GroupsOf.trans {gs₁ gs₂ : List SequenceGroup} (h : GroupsOf gs gs₁)
    (h' : GroupsOf gs₁ gs₂) : GroupsOf gs gs₂ := by
  intro g₂ hg₂
  obtain ⟨g₁, hg₁, heq₁⟩ := h' g₂ hg₂
  obtain ⟨g, hg, heq⟩ := h g₁ hg₁
  exact ⟨g, hg, heq.trans heq₁⟩

theorem GroupsOf.of_subset {gs' : List SequenceGroup} (h : ∀ g ∈ gs', g ∈ gs) : GroupsOf gs gs' :=
  fun g hg => ⟨g, h g hg, rfl⟩

namespace Together

variable {id id' id'' : Nat}

theorem refl (gs : List SequenceGroup) (id : Nat) : Together gs id id := fun _ _ => Iff.rfl

theorem symm (h : Together gs id id') : Together gs id' id := fun g hg => (h g hg).symm

theorem trans (h : Together gs id id') (h' : Together gs id' id'') : Together gs id id'' :=
  fun g hg => (h g hg).trans (h' g hg)

/-- Groups with the ids of other ones tell no more ids apart. -/
theorem of_ids {gs' : List SequenceGroup} (h : Together gs id id')
    (hids : GroupsOf gs gs') : Together gs' id id' := by
  intro g' hg'
  obtain ⟨g, hg, heq⟩ := hids g' hg'
  rw [← heq]
  exact h g hg

end Together

/-- Tables have no block twice, and a block is in tables of one group only. -/
structure Apart (gs : List SequenceGroup) (m : BlockManager) : Prop where
  nodup : ∀ (id : Nat) (table : BlockTable), m.blockTables.lookup id = some table → table.Nodup
  together : ∀ (id id' : Nat) (table table' : BlockTable) (b : Block),
    m.blockTables.lookup id = some table → m.blockTables.lookup id' = some table' →
    b ∈ table → b ∈ table' → Together gs id id'

namespace Apart

theorem of_ids {gs' : List SequenceGroup} (h : Apart gs m) (hids : GroupsOf gs gs') :
    Apart gs' m :=
  ⟨h.nodup, fun id id' table table' b htable htable' hb hb' =>
    (h.together id id' table table' b htable htable' hb hb').of_ids hids⟩

/-- Tables that go do no harm. -/
theorem of_lookup (h : Apart gs m) (hlookup : ∀ (id : Nat) (table : BlockTable),
    m'.blockTables.lookup id = some table → m.blockTables.lookup id = some table) : Apart gs m' :=
  ⟨fun id table htable => h.nodup id table (hlookup id table htable),
    fun id id' table table' b htable htable' =>
      h.together id id' table table' b (hlookup id table htable) (hlookup id' table' htable')⟩

/-- Where the blocks of a changed table come from: from tables together with it, or they are new
and shared with such tables only. -/
theorem of_blocks (h : Apart gs m)
    (hnodup : ∀ (id : Nat) (table : BlockTable), m'.blockTables.lookup id = some table →
      table.Nodup)
    (hblocks : ∀ (id : Nat) (table : BlockTable), m'.blockTables.lookup id = some table →
      ∀ b ∈ table, (∃ id₀ old, m.blockTables.lookup id₀ = some old ∧ b ∈ old ∧ Together gs id₀ id) ∨
        m.Unused b ∧ ∀ (id' : Nat) (table' : BlockTable), m'.blockTables.lookup id' = some table' →
          b ∈ table' → Together gs id id') : Apart gs m' := by
  refine ⟨hnodup, fun id id' table table' b htable htable' hb hb' => ?_⟩
  rcases hblocks id table htable b hb with ⟨id₀, old, hold, hb₀, htogether⟩ | ⟨-, hnew⟩
  · rcases hblocks id' table' htable' b hb' with ⟨id₁, old', hold', hb₁, htogether'⟩ | ⟨hunused, -⟩
    · exact htogether.symm.trans ((h.together _ _ _ _ b hold hold' hb₀ hb₁).trans htogether')
    · exact absurd hb₀ (hunused id₀ old hold)
  · exact hnew id' table' htable' hb'

/-! ## The calls -/

/-- The table of one sequence is changed; the blocks that are new in it were unused. -/
theorem setTable (h : Apart gs m) {id₀ : Nat} {new : BlockTable} (hnodup : new.Nodup)
    (hlookup : ∀ id, m'.blockTables.lookup id =
      if id = id₀ then some new else m.blockTables.lookup id)
    (hnew : ∀ b ∈ new, m.Unused b ∨ ∃ old, m.blockTables.lookup id₀ = some old ∧ b ∈ old) :
    Apart gs m' := by
  refine h.of_blocks (fun id table htable => ?_) fun id table htable b hb => ?_
  · rw [hlookup] at htable
    split at htable
    · exact Option.some.inj htable ▸ hnodup
    · exact h.nodup id table htable
  · rw [hlookup] at htable
    split at htable
    case isTrue hid =>
      subst hid
      obtain rfl := Option.some.inj htable
      rcases hnew b hb with hunused | ⟨old, hold, hb'⟩
      · refine .inr ⟨hunused, fun id' table' htable' hb' => ?_⟩
        rw [hlookup] at htable'
        split at htable'
        case isTrue hid' => exact hid' ▸ .refl _ _
        case isFalse => exact absurd hb' (hunused id' table' htable')
      · exact .inl ⟨id, old, hold, hb', .refl _ _⟩
    case isFalse => exact .inl ⟨id, table, htable, hb, .refl _ _⟩

theorem appended (h : Apart gs m) {q : Sequence} {old new : BlockTable} {ret : Option (Nat × Nat)}
    (hold : m.blockTables.lookup q.seqId = some old)
    (happended : Appended cfg.blocks m q old new ret)
    (hlookup : ∀ id, m'.blockTables.lookup id =
      if id = q.seqId then some new else m.blockTables.lookup id) : Apart gs m' := by
  have hnodup := h.nodup _ _ hold
  have hfresh : ∀ {b : Block}, m.Unused b → b ∉ old := fun hunused => hunused _ _ hold
  cases happended with
  | @grown b _ _ hunused =>
    refine h.setTable ?_ hlookup fun b' hb' => ?_
    · exact List.nodup_append.mpr ⟨hnodup, List.nodup_singleton b, fun x hx y hy heq =>
        hfresh hunused (List.mem_singleton.mp hy ▸ heq ▸ hx)⟩
    · rcases List.mem_append.mp hb' with hb' | hb'
      · exact .inr ⟨old, hold, hb'⟩
      · exact .inl (List.mem_singleton.mp hb' ▸ hunused)
  | own _ _ _ => exact h.setTable hnodup hlookup fun b hb => .inr ⟨old, hold, hb⟩
  | @copied front last b _ htable _ _ hunused _ =>
    have hsub : ∀ x ∈ front, x ∈ old := fun x hx => htable ▸ List.mem_append_left _ hx
    refine h.setTable ?_ hlookup fun b' hb' => ?_
    · rw [htable] at hnodup
      exact List.nodup_append.mpr ⟨(List.nodup_append.mp hnodup).1, List.nodup_singleton b,
        fun x hx y hy heq => hfresh hunused (hsub _ (List.mem_singleton.mp hy ▸ heq ▸ hx))⟩
    · rcases List.mem_append.mp hb' with hb' | hb'
      · exact .inr ⟨old, hold, hsub b' hb'⟩
      · exact .inl (List.mem_singleton.mp hb' ▸ hunused)

end Apart

/-! ## Moves of blocks -/

theorem Apart.relocated {src dst : Device} {seqs : List Sequence} {moves : List (Block × Block)}
    (h : Apart gs m) (hr : Relocated src dst m m' seqs moves) : Apart gs m' := by
  refine h.of_blocks (fun id table htable => ?_) fun id table htable b hb => ?_
  · rcases hr.cases htable with ⟨hold, -⟩ | ⟨s, -, -, old, hold, hmoves⟩
    · exact h.nodup id table hold
    · exact hr.nodup_new hmoves (h.nodup id old hold)
  · rcases hr.cases htable with ⟨hold, -⟩ | ⟨s, -, -, old, hold, hmoves⟩
    · exact .inl ⟨id, table, hold, hb, .refl _ _⟩
    · obtain ⟨a, ha, hmove⟩ := Relocated.exists_source hmoves hb
      have hunused := (hr.target _ hmove).2
      refine .inr ⟨hunused, fun id' table' htable' hb' => ?_⟩
      rcases hr.cases htable' with ⟨hold', -⟩ | ⟨s', -, -, old', hold', hmoves'⟩
      · exact absurd hb' (hunused id' table' hold')
      · obtain ⟨a', ha', hmove'⟩ := Relocated.exists_source hmoves' hb'
        exact h.together id id' old old' a hold hold' ha (hr.eq_source hmove hmove' ▸ ha')

end Mil.Requests
