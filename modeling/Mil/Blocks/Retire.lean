import Mil.Blocks.Invariant
import Mil.Blocks.Reorganize

/-!
# Retiring blocks keeps the representation

After a reorganization the tables point to the new blocks, the free list holds what is left below
the new end, and the reference counts are the numbers of entries, exactly when every entry whose
number is a used retired one is a GPU block and the only entry for it (`Movable`). For a block with
more entries the second one copies the reference count that the first one has set to 1, and a CPU
block with such a number is replaced by a GPU block.
-/

set_option autoImplicit false

namespace Mil.Blocks

open Mil.Lib

namespace BlockManager

variable {cfg : Config} {m m' : BlockManager} {n : Nat} {mapping : List (Int × Int)} {b x : Block}

/-! ## The entries -/

/-- Where an entry points to afterwards. -/
def moved (removeMapping : List (Int × Block)) (b : Block) : Block :=
  (removeMapping.lookup (b.number : Int)).getD b

theorem moved_of_none {rm : List (Int × Block)} (h : rm.lookup (b.number : Int) = none) :
    moved rm b = b := by
  rw [moved, h]
  rfl

theorem moved_of_some {rm : List (Int × Block)} (h : rm.lookup (b.number : Int) = some x) :
    moved rm b = x := by
  rw [moved, h]
  rfl

/-- All entries of all tables, in order. -/
def allEntries (tables : List (Nat × BlockTable)) : List Block := tables.flatMap Prod.snd

theorem tally_allEntries (tables : List (Nat × BlockTable)) (b : Block) :
    tally (allEntries tables) b = Dict.sum (fun table => tally table b) tables := by
  induction tables with
  | nil => rfl
  | cons p tables ih =>
    rw [allEntries, List.flatMap_cons, tally_append, Pi.add_apply, Dict.sum_cons, ← ih]
    rfl

theorem entries_eq_tally (m : BlockManager) : m.entries = tally (allEntries m.blockTables) :=
  funext fun b => (tally_allEntries m.blockTables b).symm

theorem mem_allEntries : b ∈ allEntries m.blockTables ↔ 0 < m.entries b := by
  rw [entries_eq_tally]
  exact tally_pos.symm

theorem moveEntry_fst (rm : List (Int × Block)) (r : Block → Nat) (b : Block) :
    (moveEntry rm r b).1 = moved rm b := by
  rw [moveEntry, moved]
  cases rm.lookup (b.number : Int) <;> rfl

/-- The reference counts after an entry has been handled. -/
def movedCount (rm : List (Int × Block)) (r : Block → Nat) (b : Block) : Block → Nat :=
  (moveEntry rm r b).2

theorem moveTable_eq (rm : List (Int × Block)) (table : BlockTable) (r : Block → Nat) :
    moveTable rm table r = (table.map (moved rm), table.foldl (movedCount rm) r) := by
  induction table generalizing r with
  | nil => rfl
  | cons b table ih =>
    simp only [moveTable, ih, moveEntry_fst]
    rfl

theorem moveTables_eq (rm : List (Int × Block)) (tables : List (Nat × BlockTable))
    (r : Block → Nat) : moveTables rm tables r =
      (tables.map fun p => (p.1, p.2.map (moved rm)), (allEntries tables).foldl (movedCount rm) r) := by
  induction tables generalizing r with
  | nil => rfl
  | cons p tables ih =>
    simp only [moveTables, moveTable_eq, ih, allEntries, List.flatMap_cons, List.foldl_append]
    rfl

/-- The count of a block that is neither handled nor put in the place of another one. -/
theorem foldl_movedCount_of_ne {rm : List (Int × Block)} {bs : List Block} {r : Block → Nat}
    (htarget : ∀ k, rm.lookup k ≠ some x) (hmem : x ∈ bs → rm.lookup (x.number : Int) = none) :
    bs.foldl (movedCount rm) r x = r x := by
  induction bs generalizing r with
  | nil => rfl
  | cons b bs ih =>
    rw [List.foldl_cons, ih fun hx => hmem (List.mem_cons_of_mem _ hx), movedCount, moveEntry]
    cases hlook : rm.lookup (b.number : Int) with
    | none => rfl
    | some y =>
      have hxb : x ≠ b := fun heq => by
        rw [← heq, hmem (heq ▸ List.mem_cons_self)] at hlook
        cases hlook
      have hxy : x ≠ y := fun heq => htarget _ (heq ▸ hlook)
      exact (Function.update_of_ne hxb _ _).trans (Function.update_of_ne hxy _ _)

/-- The count of the block that takes the place of `b`: 1 after the second entry, and the count of
`b` after a single one. -/
theorem foldl_movedCount_target {rm : List (Int × Block)} {bs : List Block} {r : Block → Nat}
    (hlook : rm.lookup (b.number : Int) = some x) (hx : x ∉ bs)
    (hinj : ∀ y ∈ bs, rm.lookup (y.number : Int) = some x → y = b)
    (hb : ∀ k, rm.lookup k ≠ some b) :
    (b ∈ bs → bs.foldl (movedCount rm) r x = 1 ∨
      (tally bs b = 1 ∧ bs.foldl (movedCount rm) r x = r b)) ∧
    (b ∉ bs → bs.foldl (movedCount rm) r x = r x) := by
  induction bs generalizing r with
  | nil => exact ⟨fun hmem => (List.not_mem_nil hmem).elim, fun _ => rfl⟩
  | cons y bs ih =>
    have hxy : x ≠ y := fun heq => hx (heq ▸ List.mem_cons_self)
    obtain ⟨hin, hout⟩ := ih (r := movedCount rm r y) (fun hmem => hx (List.mem_cons_of_mem _ hmem))
      fun z hz => hinj z (List.mem_cons_of_mem _ hz)
    by_cases hyb : y = b
    · subst hyb
      have hcount : movedCount rm r y =
          Function.update (Function.update r x (r y)) y 1 := by
        rw [movedCount, moveEntry, hlook]
      have hself : movedCount rm r y y = 1 := by
        rw [hcount, Function.update_self]
      have hother : movedCount rm r y x = r y := by
        rw [hcount, Function.update_of_ne hxy, Function.update_self]
      refine ⟨fun _ => ?_, fun hnot => absurd List.mem_cons_self hnot⟩
      rw [List.foldl_cons]
      by_cases hmem : y ∈ bs
      · rcases hin hmem with hone | ⟨-, hone⟩
        · exact .inl hone
        · exact .inl (hone.trans hself)
      · refine .inr ⟨?_, (hout hmem).trans hother⟩
        rw [tally_cons, Pi.add_apply, tally_singleton_self, tally_eq_zero.mpr hmem]
    · have hcount : movedCount rm r y x = r x ∧ movedCount rm r y b = r b := by
        rw [movedCount, moveEntry]
        cases hlook' : rm.lookup (y.number : Int) with
        | none => exact ⟨rfl, rfl⟩
        | some z =>
          have hxz : x ≠ z := fun heq => hyb (hinj y List.mem_cons_self (heq ▸ hlook'))
          have hbz : b ≠ z := fun heq => hb _ (heq ▸ hlook')
          exact ⟨(Function.update_of_ne hxy _ _).trans (Function.update_of_ne hxz _ _),
            (Function.update_of_ne (Ne.symm hyb) _ _).trans (Function.update_of_ne hbz _ _)⟩
      rw [List.foldl_cons, tally_cons, Pi.add_apply, tally_singleton_of_ne (Ne.symm hyb),
        Nat.zero_add, ← hcount.1, ← hcount.2]
      exact ⟨fun hmem => hin ((List.mem_cons.mp hmem).resolve_left (Ne.symm hyb)),
        fun hnot => hout fun hmem => hnot (List.mem_cons_of_mem _ hmem)⟩

/-- When exactly the entries for `b` are moved to `x`, there are as many afterwards. -/
theorem tally_map_moved {rm : List (Int × Block)} {bs : List Block}
    (h : ∀ y ∈ bs, moved rm y = x ↔ y = b) : tally (bs.map (moved rm)) x = tally bs b := by
  rw [tally, tally, List.count, List.count, List.countP_map]
  refine List.countP_congr fun y hy => ?_
  rw [Function.comp_apply, beq_iff_eq, beq_iff_eq]
  exact h y hy

/-! ## The mapping of retired blocks -/

/-- Every entry whose number is a used retired one is a GPU block and the only entry for it. -/
def Movable (cfg : Config) (m : BlockManager) (n : Nat) : Prop :=
  ∀ b, (b.number : Int) ∈ m.toRemove cfg n → 0 < m.entries b → b.device = .gpu ∧ m.entries b = 1

/-- No CPU block of a table has a used retired number. -/
def CpuApart (cfg : Config) (m : BlockManager) (n : Nat) : Prop :=
  ∀ b, (b.number : Int) ∈ m.toRemove cfg n → 0 < m.entries b → b.device = .gpu

theorem targets_sublist (cfg : Config) (m : BlockManager) (n : Nat) :
    (m.targets cfg n).Sublist (m.freeBlocks .gpu) :=
  (List.take_sublist _ _).trans List.filter_sublist

theorem mem_of_lookup_removeMapping {k : Int} (h : (m.removeMapping cfg n).lookup k = some x) :
    k ∈ m.toRemove cfg n ∧ x ∈ m.targets cfg n := List.of_mem_zip (Dict.mem_of_lookup h)

namespace Reorganized

variable (h : Reorganized cfg m n mapping m')

include h

theorem keys_removeMapping : Dict.keys (m.removeMapping cfg n) = m.toRemove cfg n :=
  List.map_fst_zip (Nat.le_of_eq h.length_targets.symm)

theorem lookup_removeMapping_eq_none {k : Int} :
    (m.removeMapping cfg n).lookup k = none ↔ k ∉ m.toRemove cfg n := by
  rw [Dict.lookup_eq_none, h.keys_removeMapping]

/-- Every target takes the place of a retired number. -/
theorem exists_lookup_of_mem_targets (hx : x ∈ m.targets cfg n) :
    ∃ k, (m.removeMapping cfg n).lookup k = some x := by
  obtain ⟨i, hi, rfl⟩ := List.mem_iff_getElem.mp hx
  have hi' : i < (m.toRemove cfg n).length := h.length_targets ▸ hi
  refine ⟨(m.toRemove cfg n)[i], Dict.lookup_of_mem ?_ ?_⟩
  · rw [h.keys_removeMapping]
    exact nodup_usedIn _ _
  · exact List.mem_of_getElem? (List.getElem?_zip_eq_some.mpr
      ⟨List.getElem?_eq_getElem hi', List.getElem?_eq_getElem hi⟩)

end Reorganized

namespace Inv

variable (h : m.Inv cfg)

include h

theorem targets_nodup : (m.targets cfg n).Nodup :=
  (h.counted.free_nodup .gpu).sublist (targets_sublist cfg m n)

/-- A target is a free GPU block that nothing refers to. -/
theorem target_free (hx : x ∈ m.targets cfg n) :
    x ∈ m.freeBlocks .gpu ∧ x.device = .gpu ∧ m.entries x = 0 ∧
      (x.number : Int) < m.releaseRngStart cfg n := by
  have hfree := (targets_sublist cfg m n).subset hx
  exact ⟨hfree, h.counted.free_device .gpu x hfree, (h.counted.free_unused .gpu x hfree).1,
    (mem_lowFree.mp (mem_lowFree_of_mem_targets hx)).2⟩

theorem lookup_ne_of_pos (hb : 0 < m.entries b) (k : Int) :
    (m.removeMapping cfg n).lookup k ≠ some b := fun hlook =>
  hb.ne' (h.target_free (mem_of_lookup_removeMapping hlook).2).2.2.1

/-- Different numbers have different targets. -/
theorem lookup_inj {k l : Int} (hk : (m.removeMapping cfg n).lookup k = some x)
    (hl : (m.removeMapping cfg n).lookup l = some x) : k = l := by
  obtain ⟨i, hi⟩ := List.mem_iff_getElem?.mp (Dict.mem_of_lookup hk)
  obtain ⟨j, hj⟩ := List.mem_iff_getElem?.mp (Dict.mem_of_lookup hl)
  obtain ⟨hki, hxi⟩ := List.getElem?_zip_eq_some.mp hi
  obtain ⟨hlj, hxj⟩ := List.getElem?_zip_eq_some.mp hj
  have hij : i = j := (List.getElem?_inj (List.getElem?_eq_some_iff.mp hxi).1
    h.targets_nodup).mp (hxi.trans hxj.symm)
  rw [hij] at hki
  exact Option.some.inj (hki.symm.trans hlj)

/-- A free block with the number of a GPU block is that block. -/
theorem eq_of_free {y : Block} (hb : b ∈ m.freeBlocks .gpu) (hy : y.device = .gpu)
    (hnumber : b.number = y.number) : b = y := by
  have hd := (h.counted.free_device .gpu b hb).trans hy.symm
  cases b
  cases y
  exact Block.mk.injEq .. ▸ ⟨hd, hnumber⟩

/-- A number of the retired range is used exactly when a table has a GPU entry for it. -/
theorem mem_toRemove_iff (hgpu : b.device = .gpu)
    (hb : m.releaseRngStart cfg n ≤ b.number ∧ (b.number : Int) < m.actualGpuBlkRngEnd) :
    (b.number : Int) ∈ m.toRemove cfg n ↔ 0 < m.entries b := by
  have hlt : (b.number : Int) < cfg.numTotalGpuBlocks := lt_of_lt_of_le hb.2 h.end_mem.2
  have hblock : (⟨.gpu, b.number⟩ : Block) = b := by rw [← hgpu]
  constructor
  · intro hmem
    have hnot := not_free_of_blkIsFree (Int.natCast_nonneg _) (mem_usedIn.mp hmem).2
    rcases h.counted.gpu_cover b.number hb.2 with hfree | hpos
    · exact absurd rfl (hnot b (hblock ▸ hfree))
    · exact hblock ▸ hpos
  · intro hpos
    refine mem_usedIn.mpr ⟨hb, ?_⟩
    rw [blkIsFree, if_neg (Int.not_lt.mpr (Int.natCast_nonneg _)),
      if_pos ⟨Int.natCast_nonneg _, hlt⟩]
    refine congrArg some (List.any_eq_false.mpr fun y hy => ?_)
    rw [decide_eq_true_eq]
    intro hnumber
    exact h.counted.not_mem_free hpos .gpu (h.eq_of_free hy hgpu (Int.ofNat_inj.mp hnumber) ▸ hy)

/-- Where the entries for a retired block are afterwards. -/
theorem moved_eq_target_iff (hcpu : CpuApart cfg m n) {y : Block} (hb : 0 < m.entries b)
    (hlook : (m.removeMapping cfg n).lookup (b.number : Int) = some x) (hy : 0 < m.entries y) :
    moved (m.removeMapping cfg n) y = x ↔ y = b := by
  constructor
  · intro hmoved
    cases hlook' : (m.removeMapping cfg n).lookup (y.number : Int) with
    | none =>
      rw [moved_of_none hlook'] at hmoved
      exact absurd hlook (h.lookup_ne_of_pos (hmoved ▸ hy) _)
    | some z =>
      rw [moved_of_some hlook'] at hmoved
      have hnumber := Int.ofNat_inj.mp (h.lookup_inj hlook' (hmoved ▸ hlook))
      have hyd := hcpu y (mem_of_lookup_removeMapping hlook').1 hy
      have hbd := hcpu b (mem_of_lookup_removeMapping hlook).1 hb
      cases y
      cases b
      exact Block.mk.injEq .. ▸ ⟨hyd.trans hbd.symm, hnumber⟩
  · rintro rfl
    exact moved_of_some hlook

end Inv

/-! ## The new state -/

namespace Reorganized

variable (h : Reorganized cfg m n mapping m')

include h

theorem blockTables_eq : m'.blockTables =
    m.blockTables.map fun p => (p.1, p.2.map (moved (m.removeMapping cfg n))) := by
  rw [h.state_eq, allocateGivenBlkIdxsInFreeList_eq]
  change (m.movedTables cfg n).1 = _
  rw [movedTables, moveTables_eq]

theorem lookup_eq (id : Nat) : m'.blockTables.lookup id =
    (m.blockTables.lookup id).map fun table => table.map (moved (m.removeMapping cfg n)) := by
  rw [h.blockTables_eq]
  exact Dict.lookup_map (fun table : BlockTable => table.map (moved (m.removeMapping cfg n))) _ _

theorem entries_eq (x : Block) : m'.entries x =
    tally ((allEntries m.blockTables).map (moved (m.removeMapping cfg n))) x := by
  rw [entries_eq_tally, h.blockTables_eq, allEntries, List.flatMap_map, allEntries,
    List.map_flatMap]

/-- The moved entries for a block are those of the block it takes the place of. -/
theorem entries_target (hinv : m.Inv cfg) (hcpu : CpuApart cfg m n) (hb : 0 < m.entries b)
    (hlook : (m.removeMapping cfg n).lookup (b.number : Int) = some x) :
    m'.entries x = m.entries b := by
  rw [h.entries_eq, tally_map_moved fun y hy =>
    hinv.moved_eq_target_iff hcpu hb hlook (mem_allEntries.mp hy), entries_eq_tally]

/-- A block that is no target has the entries that are not moved. -/
theorem entries_of_not_target (hx : ∀ k, (m.removeMapping cfg n).lookup k ≠ some x) :
    m'.entries x =
      if (m.removeMapping cfg n).lookup (x.number : Int) = none then m.entries x else 0 := by
  have hmoved : ∀ y, moved (m.removeMapping cfg n) y = x →
      y = x ∧ (m.removeMapping cfg n).lookup (x.number : Int) = none := by
    intro y hy
    cases hlook : (m.removeMapping cfg n).lookup (y.number : Int) with
    | none =>
      rw [moved_of_none hlook] at hy
      exact ⟨hy, hy ▸ hlook⟩
    | some z =>
      rw [moved_of_some hlook] at hy
      exact absurd (hy ▸ hlook) (hx _)
  split
  case isTrue hnone =>
    rw [h.entries_eq, tally_map_moved fun y _ => ⟨fun hy => (hmoved y hy).1, ?_⟩, entries_eq_tally]
    rintro rfl
    exact moved_of_none hnone
  case isFalse hsome =>
    rw [h.entries_eq, tally_eq_zero]
    intro hmem
    obtain ⟨y, -, hy⟩ := List.mem_map.mp hmem
    exact hsome (hmoved y hy).2

theorem freeBlocks_eq : m'.freeBlocks = Function.update m.freeBlocks .gpu
    (((m.freeBlocks .gpu).zipIdx.filter fun p => p.2 ∉ m.consumed cfg n).map Prod.fst) := by
  rw [h.state_eq, allocateGivenBlkIdxsInFreeList_eq]
  rfl

theorem freeBlocks_cpu : m'.freeBlocks .cpu = m.freeBlocks .cpu := by
  rw [h.freeBlocks_eq, Function.update_of_ne (by decide)]

theorem freeBlocks_gpu : m'.freeBlocks .gpu =
    ((m.freeBlocks .gpu).zipIdx.filter fun p => p.2 ∉ m.consumed cfg n).map Prod.fst := by
  rw [h.freeBlocks_eq, Function.update_self]

omit h in
/-- A position of the free list is consumed when its block is retired or is a target. -/
theorem mem_consumed_iff (hnodup : (m.freeBlocks .gpu).Nodup) {i : Nat}
    (hi : (m.freeBlocks .gpu)[i]? = some b) :
    i ∈ m.consumed cfg n ↔ b ∉ m.lowFree cfg n ∨ b ∈ m.targets cfg n := by
  have hlow : b ∈ m.lowFree cfg n ↔ (b.number : Int) < m.releaseRngStart cfg n := by
    rw [mem_lowFree, and_iff_right (List.mem_of_getElem? hi)]
  have htargets : m.targets cfg n = ((m.blksToMoveTo (m.releaseRngStart cfg n)).take
      (m.toRemove cfg n).length).map Prod.snd := by
    rw [targets, ← map_snd_blksToMoveTo, List.map_take]
  have hmove : ∀ j y, (j, y) ∈ (m.blksToMoveTo (m.releaseRngStart cfg n)).take
      (m.toRemove cfg n).length → (m.freeBlocks .gpu)[j]? = some y := by
    intro j y hmem
    obtain ⟨⟨z, k⟩, hz, heq⟩ := List.mem_map.mp (List.mem_of_mem_take hmem)
    obtain ⟨rfl, rfl⟩ := Prod.mk.inj heq
    exact List.mem_zipIdx_iff_getElem?.mp (List.mem_filter.mp hz).1
  rw [consumed, List.mem_append, hlow]
  refine or_congr ⟨fun hmem => ?_, fun hnot => ?_⟩ ⟨fun hmem => ?_, fun hmem => ?_⟩
  · obtain ⟨⟨y, j⟩, hy, rfl⟩ := List.mem_map.mp hmem
    obtain ⟨hin, hnot⟩ := List.mem_filter.mp hy
    obtain rfl := Option.some.inj (hi.symm.trans (List.mem_zipIdx_iff_getElem?.mp hin))
    simpa using hnot
  · exact List.mem_map.mpr ⟨(b, i), List.mem_filter.mpr
      ⟨List.mem_zipIdx_iff_getElem?.mpr hi, by simpa using hnot⟩, rfl⟩
  · obtain ⟨⟨j, y⟩, hy, rfl⟩ := List.mem_map.mp hmem
    obtain rfl := Option.some.inj (hi.symm.trans (hmove _ _ hy))
    rw [htargets]
    exact List.mem_map_of_mem (f := Prod.snd) hy
  · rw [htargets] at hmem
    obtain ⟨⟨j, y⟩, hy, rfl⟩ := List.mem_map.mp hmem
    have hj := hmove j y hy
    have hij : j = i := (List.getElem?_inj (List.getElem?_eq_some_iff.mp hj).1 hnodup).mp
      (hj.trans hi.symm)
    exact hij ▸ List.mem_map_of_mem (f := Prod.fst) hy

/-- The free list afterwards: what is below the new end and is no target. -/
theorem mem_freeBlocks_gpu (hnodup : (m.freeBlocks .gpu).Nodup) :
    b ∈ m'.freeBlocks .gpu ↔ b ∈ m.lowFree cfg n ∧ b ∉ m.targets cfg n := by
  rw [h.freeBlocks_gpu, List.mem_map]
  constructor
  · rintro ⟨⟨y, i⟩, hy, rfl⟩
    obtain ⟨hin, hnot⟩ := List.mem_filter.mp hy
    rw [decide_eq_true_eq, mem_consumed_iff hnodup (List.mem_zipIdx_iff_getElem?.mp hin), not_or,
      not_not] at hnot
    exact hnot
  · intro hb
    obtain ⟨i, hi⟩ := List.mem_iff_getElem?.mp (mem_lowFree.mp hb.1).1
    refine ⟨(b, i), List.mem_filter.mpr ⟨List.mem_zipIdx_iff_getElem?.mpr hi, ?_⟩, rfl⟩
    rw [decide_eq_true_eq, mem_consumed_iff hnodup hi, not_or, not_not]
    exact hb

theorem nodup_freeBlocks_gpu (hnodup : (m.freeBlocks .gpu).Nodup) :
    (m'.freeBlocks .gpu).Nodup := by
  rw [h.freeBlocks_gpu]
  refine hnodup.sublist ?_
  have hsub := (List.filter_sublist (l := (m.freeBlocks .gpu).zipIdx)
    (p := fun p => decide (p.2 ∉ m.consumed cfg n))).map Prod.fst
  rwa [List.zipIdx_map_fst] at hsub

/-- The reference count afterwards of a block that is not taken from the free list, or whose count
is not zero. -/
theorem refCount_eq (hb : b ∈ m.freeBlocks .gpu → b ∈ m'.freeBlocks .gpu ∨
    (allEntries m.blockTables).foldl (movedCount (m.removeMapping cfg n)) m.refCount b ≠ 0)
    (hnodup : (m.freeBlocks .gpu).Nodup) : m'.refCount b =
      (allEntries m.blockTables).foldl (movedCount (m.removeMapping cfg n)) m.refCount b := by
  have hmoved : (m.movedTables cfg n).2 =
      (allEntries m.blockTables).foldl (movedCount (m.removeMapping cfg n)) m.refCount := by
    rw [movedTables, moveTables_eq]
  have hstate : m'.refCount b = if b ∈ ((m.freeBlocks .gpu).zipIdx.filter
      fun p => p.2 ∈ m.consumed cfg n).map Prod.fst ∧ (m.movedTables cfg n).2 b = 0 then 1
      else (m.movedTables cfg n).2 b := by
    rw [h.state_eq, allocateGivenBlkIdxsInFreeList_eq]
    rfl
  rw [hstate, ← hmoved]
  refine if_neg ?_
  rintro ⟨hmem, hzero⟩
  obtain ⟨⟨y, i⟩, hy, rfl⟩ := List.mem_map.mp hmem
  obtain ⟨hin, hconsumed⟩ := List.mem_filter.mp hy
  have hi := List.mem_zipIdx_iff_getElem?.mp hin
  rcases hb (List.mem_of_getElem? hi) with hfree | hne
  · rw [decide_eq_true_eq, mem_consumed_iff hnodup hi] at hconsumed
    obtain ⟨hlow, hnot⟩ := (h.mem_freeBlocks_gpu hnodup).mp hfree
    exact hconsumed.elim (absurd hlow) fun htarget => hnot htarget
  · exact hne (hmoved ▸ hzero)

end Reorganized

/-! ## The invariant -/

section

variable (h : Reorganized cfg m n mapping m') (hinv : m.Inv cfg)

include h hinv

/-- The count of a block that is neither retired nor a target. -/
theorem Reorganized.refCount_of_ne (htarget : b ∉ m.targets cfg n)
    (hmem : 0 < m.entries b → (b.number : Int) ∉ m.toRemove cfg n)
    (hfree : b ∈ m.freeBlocks .gpu → b ∈ m'.freeBlocks .gpu) : m'.refCount b = m.refCount b := by
  rw [h.refCount_eq (fun hb => .inl (hfree hb)) (hinv.counted.free_nodup .gpu)]
  refine foldl_movedCount_of_ne (fun k hlook => htarget (mem_of_lookup_removeMapping hlook).2)
    fun hin => ?_
  exact h.lookup_removeMapping_eq_none.mpr (hmem (mem_allEntries.mp hin))

/-- The count of a target is 1, however many entries the retired block had. -/
theorem Reorganized.refCount_target (hcpu : CpuApart cfg m n) (hb : 0 < m.entries b)
    (hlook : (m.removeMapping cfg n).lookup (b.number : Int) = some x) : m'.refCount x = 1 := by
  have hx := hinv.target_free (mem_of_lookup_removeMapping hlook).2
  have hnot : x ∉ allEntries m.blockTables := fun hin => (mem_allEntries.mp hin).ne' hx.2.2.1
  have hcount := (foldl_movedCount_target (r := m.refCount) hlook hnot
    (fun y hy hlook' => (hinv.moved_eq_target_iff hcpu hb hlook (mem_allEntries.mp hy)).mp
      (moved_of_some hlook')) (hinv.lookup_ne_of_pos hb)).1 (mem_allEntries.mpr hb)
  have hone : (allEntries m.blockTables).foldl (movedCount (m.removeMapping cfg n)) m.refCount x
      = 1 := by
    rcases hcount with hone | ⟨htally, hone⟩
    · exact hone
    · rw [hone, hinv.counted.refCount_eq b hb, entries_eq_tally, htally]
  rw [h.refCount_eq (fun _ => .inr (by rw [hone]; exact Nat.one_ne_zero))
    (hinv.counted.free_nodup .gpu), hone]

/-- Every target has the entries of the block it takes the place of. -/
theorem Reorganized.exists_of_target (hx : x ∈ m.targets cfg n) :
    ∃ b, (m.removeMapping cfg n).lookup (b.number : Int) = some x ∧ 0 < m.entries b := by
  obtain ⟨k, hk⟩ := h.exists_lookup_of_mem_targets hx
  have hmem := (mem_of_lookup_removeMapping hk).1
  have hrange := (mem_usedIn.mp hmem).1
  have hpos := releaseRngStart_pos (Dict.mem_of_lookup hk)
  obtain ⟨j, rfl⟩ := Int.eq_ofNat_of_zero_le (hpos.le.trans hrange.1)
  exact ⟨⟨.gpu, j⟩, hk, (hinv.mem_toRemove_iff rfl hrange).mp hmem⟩

/-- A GPU block that is referred to and is not retired is below the new end. -/
theorem Reorganized.lt_of_not_retired (hgpu : b.device = .gpu) (hb : 0 < m.entries b)
    (hnot : (b.number : Int) ∉ m.toRemove cfg n) : (b.number : Int) < m'.actualGpuBlkRngEnd := by
  rw [h.actualGpuBlkRngEnd_eq]
  by_contra hge
  exact hnot ((hinv.mem_toRemove_iff hgpu
    ⟨not_lt.mp hge, hinv.counted.gpu_lt b hgpu (.inr hb)⟩).mpr hb)

/-- The three kinds of blocks that are referred to afterwards: targets, and blocks that were
referred to and are not retired. -/
theorem Reorganized.entries_cases (hcpu : CpuApart cfg m n) (hx : 0 < m'.entries x) :
    (∃ b, (m.removeMapping cfg n).lookup (b.number : Int) = some x ∧ 0 < m.entries b ∧
        m'.entries x = m.entries b) ∨
      (x ∉ m.targets cfg n ∧ (x.number : Int) ∉ m.toRemove cfg n ∧ m'.entries x = m.entries x) := by
  by_cases htarget : x ∈ m.targets cfg n
  · obtain ⟨b, hlook, hb⟩ := h.exists_of_target hinv htarget
    exact .inl ⟨b, hlook, hb, h.entries_target hinv hcpu hb hlook⟩
  · have heq := h.entries_of_not_target (x := x) fun k hlook =>
      htarget (mem_of_lookup_removeMapping hlook).2
    split at heq
    case isTrue hnone => exact .inr ⟨htarget, h.lookup_removeMapping_eq_none.mp hnone, heq⟩
    case isFalse => exact absurd heq hx.ne'

theorem Reorganized.inv (hstart : 0 ≤ m.releaseRngStart cfg n) (hmovable : Movable cfg m n) :
    m'.Inv cfg := by
  have hcpu : CpuApart cfg m n := fun b hmem hb => (hmovable b hmem hb).1
  have hnodup := hinv.counted.free_nodup .gpu
  have hfree : ∀ b ∈ m'.freeBlocks .gpu, b ∈ m.freeBlocks .gpu ∧
      (b.number : Int) < m.releaseRngStart cfg n ∧ b ∉ m.targets cfg n := fun b hb =>
    ⟨(mem_lowFree.mp ((h.mem_freeBlocks_gpu hnodup).mp hb).1).1,
      (mem_lowFree.mp ((h.mem_freeBlocks_gpu hnodup).mp hb).1).2,
      ((h.mem_freeBlocks_gpu hnodup).mp hb).2⟩
  have hsub : ∀ d, ∀ b ∈ m'.freeBlocks d, b ∈ m.freeBlocks d := by
    intro d b hb
    cases d with
    | gpu => exact (hfree b hb).1
    | cpu => exact h.freeBlocks_cpu ▸ hb
  -- the blocks that retired contents are moved to have left the free lists
  have hnotTarget : ∀ d, ∀ b ∈ m'.freeBlocks d, b ∉ m.targets cfg n := by
    intro d b hb
    cases d with
    | gpu => exact (hfree b hb).2.2
    | cpu =>
      intro htarget
      have hdev := (hinv.target_free htarget).2.1
      rw [hinv.counted.free_device .cpu b (hsub .cpu b hb)] at hdev
      cases hdev
  refine ⟨?_, ⟨fun d b hb => hinv.counted.free_device d b (hsub d b hb), fun d => ?_,
    fun d b hb => ?_, fun x hx => ?_, fun x hgpu hx => ?_, fun k hk => ?_⟩, ?_⟩
  · rw [h.blockTables_eq, Dict.keys, List.map_map]
    exact hinv.keys_nodup
  · cases d with
    | gpu => exact h.nodup_freeBlocks_gpu hnodup
    | cpu => exact h.freeBlocks_cpu ▸ hinv.counted.free_nodup .cpu
  · have hunused := hinv.counted.free_unused d b (hsub d b hb)
    constructor
    · rw [h.entries_of_not_target fun k hlook =>
        hnotTarget d b hb (mem_of_lookup_removeMapping hlook).2, hunused.1, ite_self]
    · rw [h.refCount_of_ne hinv (hnotTarget d b hb) (fun hpos => absurd hunused.1 hpos.ne')
        fun hin => ?_]
      · exact hunused.2
      · cases d with
        | gpu => exact hb
        | cpu =>
          have hdev := hinv.counted.free_device .gpu b hin
          rw [hinv.counted.free_device .cpu b (hsub .cpu b hb)] at hdev
          cases hdev
  · rcases h.entries_cases hinv hcpu hx with ⟨b, hlook, hb, heq⟩ | ⟨htarget, hnot, heq⟩
    · rw [h.refCount_target hinv hcpu hb hlook, heq,
        (hmovable b (mem_of_lookup_removeMapping hlook).1 hb).2]
    · rw [heq] at hx ⊢
      rw [h.refCount_of_ne hinv htarget (fun _ => hnot) fun hin =>
        absurd hin (hinv.counted.not_mem_free hx .gpu)]
      exact hinv.counted.refCount_eq x hx
  · rw [h.actualGpuBlkRngEnd_eq]
    rcases hx with hin | hx
    · exact (hfree x hin).2.1
    · rcases h.entries_cases hinv hcpu hx with ⟨b, hlook, -, -⟩ | ⟨-, hnot, heq⟩
      · exact (hinv.target_free (mem_of_lookup_removeMapping hlook).2).2.2.2
      · rw [← h.actualGpuBlkRngEnd_eq]
        exact h.lt_of_not_retired hinv hgpu (heq ▸ hx) hnot
  · rw [h.actualGpuBlkRngEnd_eq] at hk
    -- a block below the new end is a target, or it is as free or as used as before
    by_cases htarget : (⟨.gpu, k⟩ : Block) ∈ m.targets cfg n
    · obtain ⟨b, hlook, hb⟩ := h.exists_of_target hinv htarget
      exact .inr (by rwa [h.entries_target hinv hcpu hb hlook])
    · refine (hinv.counted.gpu_cover k (hk.trans_le (releaseRngStart_le cfg m n))).imp
        (fun hin => (h.mem_freeBlocks_gpu hnodup).mpr ⟨mem_lowFree.mpr ⟨hin, hk⟩, htarget⟩)
        fun hpos => ?_
      have hnot : (k : Int) ∉ m.toRemove cfg n := fun hmem =>
        absurd (mem_usedIn.mp hmem).1.1 (not_le.mpr hk)
      rwa [h.entries_of_not_target fun j hlook =>
        htarget (mem_of_lookup_removeMapping hlook).2, if_pos (h.lookup_removeMapping_eq_none.mpr hnot)]
  · rw [h.actualGpuBlkRngEnd_eq]
    exact ⟨hstart, (releaseRngStart_le cfg m n).trans hinv.end_mem.2⟩

end

/-! ## The reorganization returns -/

theorem length_range (start stop : Int) : (range start stop).length = (stop - start).toNat := by
  rw [range, List.length_map, List.length_range]

theorem Inv.free_lt (hinv : m.Inv cfg) : ∀ b ∈ m.freeBlocks .gpu,
    (b.number : Int) < m.actualGpuBlkRngEnd := fun b hb =>
  hinv.counted.gpu_lt b (hinv.counted.free_device .gpu b hb) (.inl hb)

theorem Inv.nodup_numbers (hinv : m.Inv cfg) {bs : List Block} (hbs : bs.Sublist (m.freeBlocks .gpu)) :
    (bs.map fun b => (b.number : Int)).Nodup := by
  refine ((hinv.counted.free_nodup .gpu).sublist hbs).map_on fun a ha b hb heq => ?_
  exact hinv.eq_of_free (hbs.subset ha) (hinv.counted.free_device .gpu b (hbs.subset hb))
    (Int.ofNat_inj.mp heq)

/-- With as many free blocks as there are numbers to retire, the new end is not below zero. -/
theorem Inv.releaseRngStart_nonneg (hinv : m.Inv cfg)
    (hfree : cfg.blkNumPerLayer * n ≤ m.getNumFreeBlocks .gpu) : 0 ≤ m.releaseRngStart cfg n := by
  -- the free blocks are different numbers below the end
  have hlen : (m.freeBlocks .gpu).length ≤ (m.actualGpuBlkRngEnd - 0).toNat := by
    rw [← length_range, ← List.length_map (fun b : Block => (b.number : Int))]
    refine ((hinv.nodup_numbers (List.Sublist.refl _)).subperm fun i hi => ?_).length_le
    obtain ⟨b, hb, rfl⟩ := List.mem_map.mp hi
    exact mem_range.mpr ⟨Int.natCast_nonneg _, hinv.free_lt b hb⟩
  have hend := hinv.end_mem.1
  rw [getNumFreeBlocks] at hfree
  rw [releaseRngStart]
  omega

/-- Then the used ones of these numbers have room below the new end. -/
theorem Inv.length_toRemove_le (hinv : m.Inv cfg)
    (hfree : cfg.blkNumPerLayer * n ≤ m.getNumFreeBlocks .gpu) :
    (m.toRemove cfg n).length ≤ (m.lowFree cfg n).length := by
  have hstart := hinv.releaseRngStart_nonneg hfree
  let high := (m.freeBlocks .gpu).filter fun b => !decide ((b.number : Int) < m.releaseRngStart cfg n)
  have hhigh : ∀ b ∈ high, b ∈ m.freeBlocks .gpu ∧ m.releaseRngStart cfg n ≤ b.number := by
    intro b hb
    obtain ⟨hin, hge⟩ := List.mem_filter.mp hb
    exact ⟨hin, by simpa using hge⟩
  have hsplit : (m.freeBlocks .gpu).length = (m.lowFree cfg n).length + high.length :=
    List.length_eq_length_filter_add _
  have hrange : (m.toRemove cfg n).length + high.length ≤ cfg.blkNumPerLayer * n := by
    have hcount : (range (m.releaseRngStart cfg n) m.actualGpuBlkRngEnd).length =
        cfg.blkNumPerLayer * n := by
      rw [length_range, releaseRngStart]
      omega
    rw [← hcount, ← List.length_map (fun b : Block => (b.number : Int)), ← List.length_append]
    refine (List.Nodup.subperm (List.nodup_append.mpr ⟨nodup_usedIn _ _,
      hinv.nodup_numbers List.filter_sublist, fun i hi j hj heq => ?_⟩) fun i hi => ?_).length_le
    · obtain ⟨b, hb, rfl⟩ := List.mem_map.mp hj
      have hused := mem_usedIn.mp hi
      exact not_free_of_blkIsFree (hstart.trans hused.1.1) hused.2 b (hhigh b hb).1 heq.symm
    · rcases List.mem_append.mp hi with hi | hi
      · exact mem_range.mpr (mem_usedIn.mp hi).1
      · obtain ⟨b, hb, rfl⟩ := List.mem_map.mp hi
        exact mem_range.mpr ⟨(hhigh b hb).2, hinv.free_lt b (hhigh b hb).1⟩
  rw [getNumFreeBlocks] at hfree
  omega

theorem Inv.reorganize_returns (hinv : m.Inv cfg)
    (hfree : cfg.blkNumPerLayer * n ≤ m.getNumFreeBlocks .gpu) :
    ∃ mapping m', m.reorganizeGpuBlocks cfg n = some (mapping, m') := by
  have hstart := hinv.releaseRngStart_nonneg hfree
  have hmarked : ∀ i, 0 ≤ i → i < m.actualGpuBlkRngEnd → (m.blkIsFree cfg i).isSome := by
    intro i hi hi'
    rw [blkIsFree, if_neg (not_lt.mpr hi), if_pos ⟨hi, hi'.trans_le hinv.end_mem.2⟩]
    rfl
  have hnumbers : ¬ (!m.freeNumbersInRange cfg) = true := by
    rw [Bool.not_eq_true', Bool.not_eq_false, freeNumbersInRange, List.all_eq_true]
    exact fun b hb => decide_eq_true (Int.ofNat_lt.mp ((hinv.free_lt b hb).trans_le hinv.end_mem.2))
  have hstay : m.collectUsed cfg 0 (m.releaseRngStart cfg n) = some (m.staying cfg n) :=
    if_pos <| List.all_eq_true.mpr fun i hi => hmarked i (mem_range.mp hi).1
      ((mem_range.mp hi).2.trans_le (releaseRngStart_le cfg m n))
  have hretire : m.collectUsed cfg (m.releaseRngStart cfg n) m.actualGpuBlkRngEnd =
      some (m.toRemove cfg n) :=
    if_pos <| List.all_eq_true.mpr fun i hi =>
      hmarked i (hstart.trans (mem_range.mp hi).1) (mem_range.mp hi).2
  have hroom : ¬ (m.blksToMoveTo (m.releaseRngStart cfg n)).length < (m.toRemove cfg n).length := by
    rw [← List.length_map Prod.snd, map_snd_blksToMoveTo]
    exact not_lt.mpr (hinv.length_toRemove_le hfree)
  rw [releaseRngStart] at hstay hretire hroom
  simp only [reorganizeGpuBlocks]
  rw [if_neg hnumbers, hstay, Option.bind_eq_bind, Option.bind_some, hretire, Option.bind_some,
    if_neg hroom]
  exact ⟨_, _, rfl⟩

end BlockManager

end Mil.Blocks
