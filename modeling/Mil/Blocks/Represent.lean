import Mil.Blocks.Retire

/-!
# The representation over whole runs

In a run whose calls all keep the counts (`Sound`), every state has the invariant. From such a state
a reorganization with enough free blocks returns, and what it leaves is well represented exactly
when every entry with a used retired number is a GPU block and the only entry for it.
-/

set_option autoImplicit false

namespace Mil.Blocks

open Mil.Lib BlockManager

variable {cfg : Config} {m m' : BlockManager} {n : Nat}

/-- The calls after which every count is the number of entries again: prompts of new groups without
a prefix, windows that do not wrap, forks to new ids, swaps of groups whose tables are all on the
device they leave, and reorganizations with enough free blocks that move no shared block and no
block with the number of a CPU block. -/
def Sound (cfg : Config) (m : BlockManager) : Op → Prop
  | .allocate g => NewPrompt cfg m g
  | .appendSlot s => NoWrap cfg m s
  | .fork _ child => m.blockTables.lookup child = none
  | .swapIn g => Swappable m g .swapped .cpu
  | .swapOut g => Swappable m g .running .gpu
  | .free _ => True
  | .reset => True
  | .reorganizeGpuBlocks n =>
    cfg.blkNumPerLayer * n ≤ m.getNumFreeBlocks .gpu ∧ Movable cfg m n

theorem mem_initialFreeBlocks {d : Device} {k : Nat} {b : Block} :
    b ∈ initialFreeBlocks d k ↔ b.device = d ∧ b.number < k := by
  rw [initialFreeBlocks, List.mem_map]
  constructor
  · rintro ⟨i, hi, rfl⟩
    exact ⟨rfl, List.mem_range.mp (List.mem_reverse.mp hi)⟩
  · rintro ⟨rfl, hlt⟩
    exact ⟨b.number, List.mem_reverse.mpr (List.mem_range.mpr hlt), rfl⟩

theorem inv_init (cfg : Config) (cachedLayerNum : Int) : (BlockManager.init cfg cachedLayerNum).Inv cfg
    := by
  have hfree : ∀ d, ∃ k, (BlockManager.init cfg cachedLayerNum).freeBlocks d =
      initialFreeBlocks d k := by
    intro d
    cases d with
    | gpu => exact ⟨_, rfl⟩
    | cpu => exact ⟨_, rfl⟩
  have hentries : ∀ b, (BlockManager.init cfg cachedLayerNum).entries b = 0 := fun _ => rfl
  refine ⟨.nil, ⟨fun d b hb => ?_, fun d => ?_, fun _ _ _ => ⟨rfl, rfl⟩, fun b hb => ?_,
    fun b _ hb => ?_, fun k hk => ?_⟩, Int.natCast_nonneg _, le_refl _⟩
  · obtain ⟨k, hk⟩ := hfree d
    rw [hk] at hb
    exact (mem_initialFreeBlocks.mp hb).1
  · obtain ⟨k, hk⟩ := hfree d
    rw [hk]
    exact (List.nodup_reverse.mpr List.nodup_range).map fun i j heq => (Block.mk.inj heq).2
  · exact absurd (hentries b) hb.ne'
  · rcases hb with hb | hb
    · exact Int.ofNat_lt.mpr (mem_initialFreeBlocks.mp hb).2
    · exact absurd (hentries b) hb.ne'
  · exact .inl (mem_initialFreeBlocks.mpr ⟨rfl, Int.ofNat_lt.mp hk⟩)

/-- One call. -/
theorem BlockManager.Inv.call {op : Op} (h : m.Inv cfg) (hop : Sound cfg m op)
    (hcall : op.call cfg m = some m') : m'.Inv cfg := by
  cases op with
  | allocate g => exact h.allocate hop hcall
  | appendSlot s =>
    obtain ⟨⟨ret, m₁⟩, hcall', rfl⟩ := Option.map_eq_some_iff.mp hcall
    exact h.appendSlot hop hcall'
  | fork parent child => exact h.fork hop hcall
  | swapIn g =>
    obtain ⟨⟨ret, m₁⟩, hcall', rfl⟩ := Option.map_eq_some_iff.mp hcall
    obtain ⟨-, -, hinv, -⟩ := h.swapIn hop hcall'
    exact hinv
  | swapOut g =>
    obtain ⟨⟨ret, m₁⟩, hcall', rfl⟩ := Option.map_eq_some_iff.mp hcall
    obtain ⟨-, -, hinv, -⟩ := h.swapOut hop hcall'
    exact hinv
  | free seqId =>
    obtain ⟨m₁, hfree, hinv, -⟩ := h.free seqId
    exact Option.some.inj (hfree.symm.trans hcall) ▸ hinv
  | reset =>
    obtain ⟨m₁, hreset, hinv⟩ := h.reset
    exact Option.some.inj (hreset.symm.trans hcall) ▸ hinv
  | reorganizeGpuBlocks n =>
    obtain ⟨⟨ret, m₁⟩, hcall', rfl⟩ := Option.map_eq_some_iff.mp hcall
    exact (reorganized_of_eq_some hcall').inv h (h.releaseRngStart_nonneg hop.1) hop.2

/-- Every state of a run whose calls are sound. -/
theorem Reach.inv (h : Reach cfg (Sound cfg) m) : m.Inv cfg := by
  induction h with
  | init cachedLayerNum => exact inv_init cfg cachedLayerNum
  | step _ hop hcall ih => exact ih.call hop hcall

/-- What is asked of the state after a reorganization: the GPU blocks of the tables are below the
new end, counted once for each entry and not free, the free list has no block twice and none at or
above the new end, and the CPU blocks of the tables are still there. -/
structure Represented (m m' : BlockManager) : Prop where
  gpu_lt : ∀ b : Block, b.device = .gpu → 0 < m'.entries b →
    (b.number : Int) < m'.actualGpuBlkRngEnd
  refCount_eq : ∀ b : Block, b.device = .gpu → 0 < m'.entries b → m'.refCount b = m'.entries b
  not_free : ∀ b : Block, b.device = .gpu → 0 < m'.entries b → b ∉ m'.freeBlocks .gpu
  free_nodup : (m'.freeBlocks .gpu).Nodup
  free_lt : ∀ b ∈ m'.freeBlocks .gpu, (b.number : Int) < m'.actualGpuBlkRngEnd
  cpu : ∀ (id : Nat) (table : BlockTable), m.blockTables.lookup id = some table →
    ∃ table', m'.blockTables.lookup id = some table' ∧
      ∀ (i : Nat) (b : Block), table[i]? = some b → b.device = .cpu → table'[i]? = some b

theorem represented_of_movable {mapping : List (Int × Int)} (hinv : m.Inv cfg)
    (h : Reorganized cfg m n mapping m') (hstart : 0 ≤ m.releaseRngStart cfg n)
    (hmovable : Movable cfg m n) : Represented m m' := by
  have hinv' := h.inv hinv hstart hmovable
  refine ⟨fun b hgpu hb => hinv'.counted.gpu_lt b hgpu (.inr hb),
    fun b _ hb => hinv'.counted.refCount_eq b hb,
    fun b _ hb => hinv'.counted.not_mem_free hb .gpu, hinv'.counted.free_nodup .gpu,
    hinv'.free_lt, fun id table htable => ?_⟩
  refine ⟨table.map (moved (m.removeMapping cfg n)), ?_, fun i b hb hcpu => ?_⟩
  · rw [h.lookup_eq, htable]
    rfl
  · -- a CPU entry has no used retired number
    have hnot : (b.number : Int) ∉ m.toRemove cfg n := by
      intro hmem
      have hgpu := (hmovable b hmem (entries_pos htable (List.mem_of_getElem? hb))).1
      rw [hcpu] at hgpu
      cases hgpu
    rw [List.getElem?_map, hb, Option.map_some,
      moved_of_none (h.lookup_removeMapping_eq_none.mpr hnot)]

theorem movable_of_represented {mapping : List (Int × Int)} (hinv : m.Inv cfg)
    (h : Reorganized cfg m n mapping m') (hrep : Represented m m') : Movable cfg m n := by
  have hlook : ∀ k ∈ m.toRemove cfg n, ∃ x, (m.removeMapping cfg n).lookup k = some x :=
    fun k hk => Option.ne_none_iff_exists'.mp fun hnone =>
      h.lookup_removeMapping_eq_none.mp hnone hk
  -- a CPU entry with such a number would have become a GPU block
  have hcpu : CpuApart cfg m n := by
    intro b hmem hb
    obtain ⟨x, hx⟩ := hlook _ hmem
    cases hdev : b.device with
    | gpu => rfl
    | cpu =>
      obtain ⟨p, hp, hin⟩ := Dict.exists_of_sum_pos _ hb
      have htable := Dict.lookup_of_mem hinv.keys_nodup hp
      obtain ⟨i, hi⟩ := List.mem_iff_getElem?.mp (tally_pos.mp hin)
      obtain ⟨table', htable', hsame⟩ := hrep.cpu p.1 p.2 htable
      have hkept := hsame i b hi hdev
      rw [h.lookup_eq, htable, Option.map_some] at htable'
      obtain rfl := Option.some.inj htable'
      rw [List.getElem?_map, hi, Option.map_some, moved_of_some hx] at hkept
      have hxdev := (hinv.target_free (mem_of_lookup_removeMapping hx).2).2.1
      rw [Option.some.inj hkept, hdev] at hxdev
      cases hxdev
  intro b hmem hb
  obtain ⟨x, hx⟩ := hlook _ hmem
  have hentries := h.entries_target hinv hcpu hb hx
  have hcount := hrep.refCount_eq x (hinv.target_free (mem_of_lookup_removeMapping hx).2).2.1
    (hentries ▸ hb)
  rw [h.refCount_target hinv hcpu hb hx, hentries] at hcount
  exact ⟨hcpu b hmem hb, hcount.symm⟩

/-- From every state of a sound run, a reorganization for which there are enough free blocks
returns; what it leaves is well represented exactly when every table entry whose number is a used
retired one is a GPU block and the only entry for it. -/
theorem reorganize_represented_iff (h : Reach cfg (Sound cfg) m)
    (hfree : cfg.blkNumPerLayer * n ≤ m.getNumFreeBlocks .gpu) :
    ∃ mapping m', m.reorganizeGpuBlocks cfg n = some (mapping, m') ∧
      (Represented m m' ↔ Movable cfg m n) := by
  obtain ⟨mapping, m', hcall⟩ := h.inv.reorganize_returns hfree
  have hr := reorganized_of_eq_some hcall
  exact ⟨mapping, m', hcall, movable_of_represented h.inv hr,
    represented_of_movable h.inv hr (h.inv.releaseRngStart_nonneg hfree)⟩

/-! ## A shared block -/

section Forked

def forkedConfig : Config := ⟨16, 4, 2, 0, none, 2⟩

/-- Three prompts of one block; the first two are freed and the third one is forked. -/
def forkedCalls : List Op :=
  [.allocate ⟨0, [⟨0, .waiting, 16⟩], 1, false, none⟩,
    .allocate ⟨1, [⟨1, .waiting, 16⟩], 1, false, none⟩,
    .allocate ⟨2, [⟨2, .waiting, 16⟩], 2, false, none⟩, .free 0, .free 1, .fork 2 3]

def forkedState : BlockManager :=
  (Op.calls forkedConfig (BlockManager.init forkedConfig 5) forkedCalls).get (by decide +kernel)

/-- Block 2 is retired for block 0, to which two tables point with a reference count of 1. -/
theorem not_represented_forked :
    ¬ ∀ (cfg : Config) (cachedLayerNum : Int) (ops : List Op) (m m' : BlockManager) (n : Nat)
      (mapping : List (Int × Int)),
      Op.calls cfg (BlockManager.init cfg cachedLayerNum) ops = some m →
      cfg.blkNumPerLayer * n ≤ m.getNumFreeBlocks .gpu →
      m.reorganizeGpuBlocks cfg n = some (mapping, m') → Represented m m' := by
  intro hall
  have hcounts : (forkedState.reorganizeGpuBlocks forkedConfig 1).map
      (fun p => (p.2.entries ⟨.gpu, 0⟩, p.2.refCount ⟨.gpu, 0⟩)) = some (2, 1) := by
    decide
  obtain ⟨⟨mapping, m'⟩, hreorganize, hboth⟩ := Option.map_eq_some_iff.mp hcounts
  obtain ⟨hentries, hrefs⟩ := Prod.mk.inj hboth
  have hrep := hall forkedConfig 5 forkedCalls forkedState m' 1 mapping
    (Option.some_get _).symm (by decide) hreorganize
  have heq := hrep.refCount_eq ⟨.gpu, 0⟩ rfl (hentries ▸ Nat.two_pos)
  rw [hentries, hrefs] at heq
  cases heq

/-- A prompt of one sequence is new when its id has no table. -/
theorem newPrompt_single {m : BlockManager} {seqId len : Nat}
    (hnew : m.blockTables.lookup seqId = none) :
    NewPrompt forkedConfig m ⟨seqId, [⟨seqId, .waiting, len⟩], 1, false, none⟩ := by
  refine ⟨rfl, fun s hs => ?_, List.nodup_singleton _, fun s hs => ?_, fun _ _ _ hw => nomatch hw⟩
  · rw [List.mem_singleton.mp hs]
  · rw [List.mem_singleton.mp hs]
    exact hnew

/-- Two prompts, of which the first one is freed. -/
def freedCalls : List Op :=
  [.allocate ⟨0, [⟨0, .waiting, 32⟩], 1, false, none⟩,
    .allocate ⟨1, [⟨1, .waiting, 16⟩], 1, false, none⟩, .free 0]

theorem reach_freedCalls {m : BlockManager}
    (h : Op.calls forkedConfig (BlockManager.init forkedConfig 5) freedCalls = some m) :
    Reach forkedConfig (Sound forkedConfig) m := by
  refine Reach.of_calls (.init 5) (fun i op m₁ hop hpre => ?_) h
  match i, hop with
  | 0, hop =>
    obtain rfl := Option.some.inj hop
    obtain rfl := Option.some.inj hpre
    exact newPrompt_single rfl
  | 1, hop =>
    obtain rfl := Option.some.inj hop
    refine newPrompt_single ?_
    have hlookup : (Op.calls forkedConfig (BlockManager.init forkedConfig 5)
        (freedCalls.take 1)).map (fun m => m.blockTables.lookup 1) = some none := by
      decide
    rw [hpre] at hlookup
    exact Option.some.inj hlookup
  | 2, hop =>
    obtain rfl := Option.some.inj hop
    trivial
  | i + 3, hop => cases hop

/-- Block 2 is retired for block 0 again, now without a fork. -/
theorem reorganize_represented_freed :
    ∃ m, Op.calls forkedConfig (BlockManager.init forkedConfig 5) freedCalls = some m ∧
      ∃ mapping m', m.reorganizeGpuBlocks forkedConfig 1 = some (mapping, m') ∧
        (Represented m m' ↔ Movable forkedConfig m 1) := by
  have hfree : (Op.calls forkedConfig (BlockManager.init forkedConfig 5) freedCalls).map
      (fun m => m.getNumFreeBlocks .gpu) = some 3 := by decide
  obtain ⟨m, hm, hcount⟩ := Option.map_eq_some_iff.mp hfree
  exact ⟨m, hm, reorganize_represented_iff (reach_freedCalls hm) (hcount ▸ by decide)⟩

end Forked

end Mil.Blocks
