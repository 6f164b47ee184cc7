import Mil.Blocks.Manager

/-!
# What a reorganization returns

`reorganizeGpuBlocks` in terms of the state before it: the used numbers of the retired range
(`toRemove`), the free blocks below the new end that take their place (`targets`), and what becomes
of the tables, the reference counts and the free list.
-/

set_option autoImplicit false

namespace Mil.Blocks

open Mil.Lib

namespace BlockManager

variable {cfg : Config} {m m' : BlockManager} {n : Nat} {mapping : List (Int × Int)}

/-- The end of the blocks after the reorganization. -/
def releaseRngStart (cfg : Config) (m : BlockManager) (n : Nat) : Int :=
  m.actualGpuBlkRngEnd - (cfg.blkNumPerLayer * n : Nat)

/-- The used numbers that are retired. -/
def toRemove (cfg : Config) (m : BlockManager) (n : Nat) : List Int :=
  m.usedIn cfg (m.releaseRngStart cfg n) m.actualGpuBlkRngEnd

/-- The used numbers that stay. -/
def staying (cfg : Config) (m : BlockManager) (n : Nat) : List Int :=
  m.usedIn cfg 0 (m.releaseRngStart cfg n)

/-- The free blocks below the new end, in the order of the free list. -/
def lowFree (cfg : Config) (m : BlockManager) (n : Nat) : List Block :=
  (m.freeBlocks .gpu).filter fun b => (b.number : Int) < m.releaseRngStart cfg n

/-- The blocks that take the place of the retired ones. -/
def targets (cfg : Config) (m : BlockManager) (n : Nat) : List Block :=
  (m.lowFree cfg n).take (m.toRemove cfg n).length

def removeMapping (cfg : Config) (m : BlockManager) (n : Nat) : List (Int × Block) :=
  (m.toRemove cfg n).zip (m.targets cfg n)

/-- The tables and the reference counts with every retired block replaced. -/
def movedTables (cfg : Config) (m : BlockManager) (n : Nat) :
    List (Nat × BlockTable) × (Block → Nat) :=
  moveTables (m.removeMapping cfg n) m.blockTables m.refCount

theorem map_snd_blksToMoveTo (cfg : Config) (m : BlockManager) (n : Nat) :
    (m.blksToMoveTo (m.releaseRngStart cfg n)).map Prod.snd = m.lowFree cfg n := by
  have hfilter : ∀ (bs : List Block) (i : Nat), ((bs.zipIdx i).filter
      fun p => (p.1.number : Int) < m.releaseRngStart cfg n).map Prod.fst =
      bs.filter fun b => (b.number : Int) < m.releaseRngStart cfg n := by
    intro bs
    induction bs with
    | nil => exact fun _ => rfl
    | cons b bs ih =>
      intro i
      by_cases hb : (b.number : Int) < m.releaseRngStart cfg n
      · rw [List.zipIdx_cons, List.filter_cons_of_pos (by simpa using hb),
          List.filter_cons_of_pos (by simpa using hb), List.map_cons, ih]
      · rw [List.zipIdx_cons, List.filter_cons_of_neg (by simpa using hb),
          List.filter_cons_of_neg (by simpa using hb), ih]
  rw [blksToMoveTo, List.map_map]
  exact hfilter _ 0

/-- The positions in the free list that are consumed. -/
def consumed (cfg : Config) (m : BlockManager) (n : Nat) : List Nat :=
  m.blkToAllocateIndexInFreelist (m.releaseRngStart cfg n) ++
    ((m.blksToMoveTo (m.releaseRngStart cfg n)).take (m.toRemove cfg n).length).map Prod.fst

/-- The state with the retired range taken out of the count, before the free list is consumed. -/
def retired (cfg : Config) (m : BlockManager) (n : Nat) : BlockManager :=
  { m with
    refCount := (m.movedTables cfg n).2
    blockTables := (m.movedTables cfg n).1
    actualGpuBlkRngEnd := m.releaseRngStart cfg n
    cachedLayerNum := m.cachedLayerNum - n
    loadMoreLayerOnCardNum := n }

/-- A reorganization that returns. -/
structure Reorganized (cfg : Config) (m : BlockManager) (n : Nat) (mapping : List (Int × Int))
    (m' : BlockManager) : Prop where
  free_lt : ∀ b ∈ m.freeBlocks .gpu, b.number < cfg.numTotalGpuBlocks
  marked : ∀ i ∈ range (m.releaseRngStart cfg n) m.actualGpuBlkRngEnd,
    (m.blkIsFree cfg i).isSome
  enough : (m.toRemove cfg n).length ≤ (m.lowFree cfg n).length
  mapping_eq : mapping = Dict.update ((m.removeMapping cfg n).map fun p => (p.1, (p.2.number : Int)))
    ((m.staying cfg n).map fun i => (i, i))
  state_eq : m' = (m.retired cfg n).allocateGivenBlkIdxsInFreeList .gpu (m.consumed cfg n)

theorem reorganized_of_eq_some (h : m.reorganizeGpuBlocks cfg n = some (mapping, m')) :
    Reorganized cfg m n mapping m' := by
  have hsnd := map_snd_blksToMoveTo cfg m n
  have hlength := congrArg List.length hsnd
  rw [List.length_map] at hlength
  simp only [reorganizeGpuBlocks, collectUsed] at h
  change (if _ then _ else _) = _ at h
  split at h
  · cases h
  case isFalse hfree =>
    have hfree : ∀ b ∈ m.freeBlocks .gpu, b.number < cfg.numTotalGpuBlocks := by
      intro b hb
      by_contra hlt
      refine hfree ?_
      rw [Bool.not_eq_true', freeNumbersInRange, List.all_eq_false]
      exact ⟨b, hb, by simpa using hlt⟩
    split at h
    case isFalse => cases h
    case isTrue hstay =>
      rw [Option.bind_eq_bind, Option.bind_some] at h
      split at h
      case isFalse => cases h
      case isTrue hmarked =>
        rw [Option.bind_some] at h
        split at h
        · cases h
        case isFalse henough =>
          obtain ⟨rfl, rfl⟩ := Prod.mk.inj (Option.some.inj h)
          have htargets : (List.take (m.toRemove cfg n).length
              (m.blksToMoveTo (m.releaseRngStart cfg n))).map Prod.snd = m.targets cfg n := by
            rw [List.map_take, hsnd]
            rfl
          refine ⟨hfree, ?_, ?_, ?_, ?_⟩
          · exact fun i hi => List.all_eq_true.mp hmarked i hi
          · rw [← hlength]
            exact Nat.not_lt.mp henough
          · rw [removeMapping, ← htargets]
            rfl
          · rw [retired, movedTables, removeMapping, ← htargets]
            rfl

/-! ## The state -/

/-- Consuming blocks of the free list sets reference counts of these blocks that are zero. -/
theorem foldl_takeBlock (bs : List Block) (m : BlockManager) :
    bs.foldl takeBlock m = { m with
      refCount := fun b => if b ∈ bs ∧ m.refCount b = 0 then 1 else m.refCount b } := by
  induction bs generalizing m with
  | nil => simp
  | cons b bs ih =>
    rw [List.foldl_cons, ih]
    by_cases hb : m.refCount b = 0
    · rw [takeBlock, if_pos hb, setRefCount]
      congr 1
      funext c
      by_cases hc : c = b
      · simp [hc, hb]
      · simp [hc]
    · rw [takeBlock, if_neg hb]
      congr 1
      funext c
      by_cases hc : c = b
      · simp [hc, hb]
      · simp [hc]

theorem allocateGivenBlkIdxsInFreeList_eq (m : BlockManager) (d : Device) (blkIdxs : List Nat) :
    m.allocateGivenBlkIdxsInFreeList d blkIdxs = { m with
      refCount := fun b =>
        if b ∈ ((m.freeBlocks d).zipIdx.filter fun p => p.2 ∈ blkIdxs).map Prod.fst ∧
          m.refCount b = 0 then 1 else m.refCount b
      freeBlocks := Function.update m.freeBlocks d
        (((m.freeBlocks d).zipIdx.filter fun p => p.2 ∉ blkIdxs).map Prod.fst) } := by
  rw [allocateGivenBlkIdxsInFreeList, foldl_takeBlock]
  rfl

theorem Reorganized.actualGpuBlkRngEnd_eq (h : Reorganized cfg m n mapping m') :
    m'.actualGpuBlkRngEnd = m.releaseRngStart cfg n := by
  rw [h.state_eq, allocateGivenBlkIdxsInFreeList_eq]
  rfl

theorem Reorganized.loadMoreLayerOnCardNum_eq (h : Reorganized cfg m n mapping m') :
    m'.loadMoreLayerOnCardNum = n := by
  rw [h.state_eq, allocateGivenBlkIdxsInFreeList_eq]
  rfl

/-! ## The mapping -/

theorem mem_range {start stop i : Int} : i ∈ range start stop ↔ start ≤ i ∧ i < stop := by
  rw [range, List.mem_map]
  constructor
  · rintro ⟨k, hk, rfl⟩
    have := List.mem_range.mp hk
    omega
  · intro hi
    exact ⟨(i - start).toNat, List.mem_range.mpr (by omega), by omega⟩

theorem nodup_range (start stop : Int) : (range start stop).Nodup :=
  List.Nodup.map (fun _ _ heq => Int.ofNat_inj.mp (Int.add_left_cancel heq)) List.nodup_range

theorem mem_usedIn {start stop i : Int} :
    i ∈ m.usedIn cfg start stop ↔ (start ≤ i ∧ i < stop) ∧ m.blkIsFree cfg i = some false := by
  rw [usedIn, List.mem_filter, mem_range, decide_eq_true_eq]

theorem nodup_usedIn (start stop : Int) : (m.usedIn cfg start stop).Nodup :=
  (nodup_range start stop).filter _

theorem not_free_of_blkIsFree {i : Int} (hi : 0 ≤ i) (h : m.blkIsFree cfg i = some false) :
    ∀ b ∈ m.freeBlocks .gpu, (b.number : Int) ≠ i := by
  intro b hb heq
  simp only [blkIsFree, if_neg (Int.not_lt.mpr hi)] at h
  split at h
  · have hfalse := Option.some.inj h
    rw [List.any_eq_false] at hfalse
    exact hfalse b hb (by simpa using heq)
  · cases h

theorem mem_lowFree {b : Block} :
    b ∈ m.lowFree cfg n ↔ b ∈ m.freeBlocks .gpu ∧ (b.number : Int) < m.releaseRngStart cfg n := by
  rw [lowFree, List.mem_filter, decide_eq_true_eq]

theorem mem_lowFree_of_mem_targets {b : Block} (h : b ∈ m.targets cfg n) :
    b ∈ m.lowFree cfg n := List.mem_of_mem_take h

theorem releaseRngStart_le (cfg : Config) (m : BlockManager) (n : Nat) :
    m.releaseRngStart cfg n ≤ m.actualGpuBlkRngEnd :=
  Int.sub_le_self _ (Int.natCast_nonneg _)

/-- A mapping of numbers below `old` to numbers below `new` that moves nothing up; what stays where
it is is no target. -/
structure Shrinks (mapping : List (Int × Int)) (old new : Int) : Prop where
  keys_nodup : (Dict.keys mapping).Nodup
  key_mem : ∀ p ∈ mapping, 0 ≤ p.1 ∧ p.1 < old
  value_mem : ∀ p ∈ mapping, 0 ≤ p.2 ∧ p.2 < new
  value_le : ∀ p ∈ mapping, p.2 ≤ p.1
  fixed : ∀ p ∈ mapping, ∀ q ∈ mapping, q.2 = q.1 → p.2 = q.2 → p = q
  new_le : new ≤ old

namespace Reorganized

variable (h : Reorganized cfg m n mapping m')

/-- When something is moved, the new end is not below zero. -/
theorem releaseRngStart_pos {p : Int × Block} (hp : p ∈ m.removeMapping cfg n) :
    0 < m.releaseRngStart cfg n := by
  have hlow := (mem_lowFree.mp (mem_lowFree_of_mem_targets (List.of_mem_zip hp).2)).2
  omega

include h

theorem length_targets : (m.targets cfg n).length = (m.toRemove cfg n).length := by
  rw [targets, List.length_take]
  exact Nat.min_eq_left h.enough

theorem mapping_eq_append : mapping =
    (m.removeMapping cfg n).map (fun p => (p.1, (p.2.number : Int))) ++
      (m.staying cfg n).map fun i => (i, i) := by
  have hstay : Dict.keys ((m.staying cfg n).map fun i => (i, i)) = m.staying cfg n := by
    rw [Dict.keys, List.map_map]
    exact List.map_id' _
  rw [h.mapping_eq, Dict.update_eq_append]
  · rw [hstay]
    exact nodup_usedIn _ _
  · rw [hstay]
    intro i hi hi'
    obtain ⟨q, hq, rfl⟩ := List.mem_map.mp hi
    obtain ⟨p, hp, rfl⟩ := List.mem_map.mp hq
    have hge := (mem_usedIn.mp (List.of_mem_zip hp).1).1.1
    exact absurd (mem_usedIn.mp hi').1.2 (Int.not_lt.mpr hge)

/-- Where a block goes: a retired one to the target at its position, the others stay. -/
theorem mem_mapping {p : Int × Int} : p ∈ mapping ↔
    (∃ b, (p.1, b) ∈ m.removeMapping cfg n ∧ p.2 = b.number) ∨
      (p.1 ∈ m.staying cfg n ∧ p.2 = p.1) := by
  rw [h.mapping_eq_append, List.mem_append, List.mem_map, List.mem_map]
  constructor
  · rintro (⟨q, hq, rfl⟩ | ⟨i, hi, rfl⟩)
    · exact .inl ⟨q.2, hq, rfl⟩
    · exact .inr ⟨hi, rfl⟩
  · rintro (⟨b, hb, hp⟩ | ⟨hi, hp⟩)
    · exact .inl ⟨(p.1, b), hb, Prod.ext rfl hp.symm⟩
    · exact .inr ⟨p.1, hi, Prod.ext rfl hp.symm⟩

theorem shrinks : Shrinks mapping m.actualGpuBlkRngEnd (m.releaseRngStart cfg n) := by
  have hle := releaseRngStart_le cfg m n
  have hremove : ∀ p ∈ m.removeMapping cfg n,
      (0 < m.releaseRngStart cfg n ∧ m.releaseRngStart cfg n ≤ p.1 ∧ p.1 < m.actualGpuBlkRngEnd) ∧
        (p.2 ∈ m.freeBlocks .gpu ∧ (p.2.number : Int) < m.releaseRngStart cfg n) := by
    intro p hp
    have hkey := mem_usedIn.mp (List.of_mem_zip hp).1
    exact ⟨⟨releaseRngStart_pos hp, hkey.1⟩,
      mem_lowFree.mp (mem_lowFree_of_mem_targets (List.of_mem_zip hp).2)⟩
  refine ⟨?_, fun p hp => ?_, fun p hp => ?_, fun p hp => ?_, fun p hp q hq hfix heq => ?_, hle⟩
  · have hkeys : Dict.keys mapping = m.toRemove cfg n ++ m.staying cfg n := by
      rw [h.mapping_eq_append, Dict.keys_append, Dict.keys, Dict.keys, List.map_map, List.map_map]
      refine congrArg₂ _ ?_ (List.map_id' _)
      exact List.map_fst_zip (Nat.le_of_eq h.length_targets.symm)
    rw [hkeys]
    refine List.nodup_append.mpr ⟨nodup_usedIn _ _, nodup_usedIn _ _, fun a ha b hb => ?_⟩
    have ha := (mem_usedIn.mp ha).1
    have hb := (mem_usedIn.mp hb).1
    omega
  · rcases h.mem_mapping.mp hp with ⟨b, hb, -⟩ | ⟨hi, -⟩
    · have := (hremove _ hb).1
      omega
    · have := (mem_usedIn.mp hi).1
      omega
  · rcases h.mem_mapping.mp hp with ⟨b, hb, heq⟩ | ⟨hi, heq⟩
    · have hlt : (b.number : Int) < _ := (hremove _ hb).2.2
      omega
    · have := (mem_usedIn.mp hi).1
      omega
  · rcases h.mem_mapping.mp hp with ⟨b, hb, heq⟩ | ⟨-, heq⟩
    · have := (hremove _ hb).1
      have hlt : (b.number : Int) < _ := (hremove _ hb).2.2
      omega
    · exact Int.le_of_eq heq
  · -- a block that stays is not free, a target is
    have hq' : q.1 ∈ m.staying cfg n := by
      rcases h.mem_mapping.mp hq with ⟨b, hb, hqb⟩ | ⟨hi, -⟩
      · have := (hremove _ hb).1
        have hlt : (b.number : Int) < _ := (hremove _ hb).2.2
        omega
      · exact hi
    rcases h.mem_mapping.mp hp with ⟨b, hb, hpb⟩ | ⟨-, hpp⟩
    · have hused := mem_usedIn.mp hq'
      exact absurd (hpb.symm.trans (heq.trans hfix))
        (not_free_of_blkIsFree hused.1.1 hused.2 b (hremove _ hb).2.1)
    · exact Prod.ext (hpp.symm.trans (heq.trans hfix)) heq

end Reorganized

end BlockManager

end Mil.Blocks
