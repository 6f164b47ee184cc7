import Mathlib.Algebra.Group.Action.Defs
import Mathlib.Algebra.Group.Pi.Basic
import Mathlib.Algebra.Order.Ring.Nat
import Mil.Blocks.Manager

/-!
# Reference counts and free lists

`Counted m c` says that the reference counts and the free lists of a state belong to `c b`
references to each block `b`. While a call is under way it holds references that are in no table
yet, or no longer; between two calls `c` is the number of table entries (`Inv`). Each operation of
the allocators is one lemma about `Counted`.
-/

set_option autoImplicit false

namespace Mil.Blocks

open Mil.Lib

/-! ## Counting references -/

/-- How often a block occurs in a list. -/
def tally (bs : List Block) (b : Block) : Nat := bs.count b

@[simp] theorem tally_nil : tally [] = 0 := by
  funext b
  exact List.count_nil

theorem tally_append (bs bs' : List Block) : tally (bs ++ bs') = tally bs + tally bs' := by
  funext b
  exact List.count_append

theorem tally_cons (b : Block) (bs : List Block) : tally (b :: bs) = tally [b] + tally bs :=
  tally_append [b] bs

theorem tally_pos {bs : List Block} {b : Block} : 0 < tally bs b ↔ b ∈ bs := List.count_pos_iff

theorem tally_eq_zero {bs : List Block} {b : Block} : tally bs b = 0 ↔ b ∉ bs :=
  List.count_eq_zero

theorem tally_singleton_self (b : Block) : tally [b] b = 1 := List.count_singleton_self

theorem tally_singleton_of_ne {b b' : Block} (h : b' ≠ b) : tally [b] b' = 0 :=
  tally_eq_zero.mpr fun hmem => h (List.mem_singleton.mp hmem)

namespace BlockManager

/-- The number of table entries that point to a block. -/
def entries (m : BlockManager) (b : Block) : Nat := Dict.sum (fun table => tally table b) m.blockTables

/-- Reference counts and free lists for `c b` references to each block `b`. -/
structure Counted (m : BlockManager) (c : Block → Nat) : Prop where
  free_device : ∀ d, ∀ b ∈ m.freeBlocks d, b.device = d
  free_nodup : ∀ d, (m.freeBlocks d).Nodup
  free_unused : ∀ d, ∀ b ∈ m.freeBlocks d, c b = 0 ∧ m.refCount b = 0
  refCount_eq : ∀ b, 0 < c b → m.refCount b = c b
  gpu_lt : ∀ b, b.device = .gpu → b ∈ m.freeBlocks .gpu ∨ 0 < c b →
    (b.number : Int) < m.actualGpuBlkRngEnd
  gpu_cover : ∀ k : Nat, (k : Int) < m.actualGpuBlkRngEnd →
    ⟨.gpu, k⟩ ∈ m.freeBlocks .gpu ∨ 0 < c ⟨.gpu, k⟩

/-- The invariant between two calls. -/
structure Inv (cfg : Config) (m : BlockManager) : Prop where
  keys_nodup : (Dict.keys m.blockTables).Nodup
  counted : m.Counted m.entries
  end_mem : 0 ≤ m.actualGpuBlkRngEnd ∧ m.actualGpuBlkRngEnd ≤ cfg.numTotalGpuBlocks

/-- The second state differs from the first in reference counts and free lists only. -/
def SameTables (m m' : BlockManager) : Prop :=
  ∃ r f, m' = { m with refCount := r, freeBlocks := f }

theorem SameTables.refl (m : BlockManager) : m.SameTables m := ⟨m.refCount, m.freeBlocks, rfl⟩

theorem SameTables.trans {m m' m'' : BlockManager} (h : m.SameTables m') (h' : m'.SameTables m'') :
    m.SameTables m'' := by
  obtain ⟨r, f, rfl⟩ := h
  obtain ⟨r', f', rfl⟩ := h'
  exact ⟨r', f', rfl⟩

theorem SameTables.blockTables_eq {m m' : BlockManager} (h : m.SameTables m') :
    m'.blockTables = m.blockTables := by
  obtain ⟨r, f, rfl⟩ := h
  rfl

theorem SameTables.actualGpuBlkRngEnd_eq {m m' : BlockManager} (h : m.SameTables m') :
    m'.actualGpuBlkRngEnd = m.actualGpuBlkRngEnd := by
  obtain ⟨r, f, rfl⟩ := h
  rfl

theorem SameTables.entries_eq {m m' : BlockManager} (h : m.SameTables m') :
    m'.entries = m.entries := by
  obtain ⟨r, f, rfl⟩ := h
  rfl

variable {cfg : Config} {m m' : BlockManager} {c : Block → Nat} {b : Block} {d : Device}

/-! ## The allocators -/

namespace Counted

theorem not_mem_free (h : m.Counted c) (hb : 0 < c b) (d : Device) : b ∉ m.freeBlocks d :=
  fun hmem => absurd (h.free_unused d b hmem).1 hb.ne'

/-- Only the reference counts, the free lists and the end matter. -/
theorem of_same (h : m.Counted c) (hr : m'.refCount = m.refCount)
    (hf : m'.freeBlocks = m.freeBlocks) (he : m'.actualGpuBlkRngEnd = m.actualGpuBlkRngEnd) :
    m'.Counted c where
  free_device := hf ▸ h.free_device
  free_nodup := hf ▸ h.free_nodup
  free_unused := hf ▸ hr ▸ h.free_unused
  refCount_eq := hr ▸ h.refCount_eq
  gpu_lt := hf ▸ he ▸ h.gpu_lt
  gpu_cover := hf ▸ he ▸ h.gpu_cover

theorem setTable (h : m.Counted c) (seqId : Nat) (table : BlockTable) :
    (m.setTable seqId table).Counted c := h.of_same rfl rfl rfl

/-- A block that is referred to gets another number of references. -/
theorem setRefCount (h : m.Counted c) (hb : 0 < c b) {n : Nat} (hn : 0 < n) :
    (m.setRefCount b n).Counted (Function.update c b n) := by
  have hne : ∀ d, ∀ b' ∈ m.freeBlocks d, b' ≠ b := fun d b' hmem heq =>
    h.not_mem_free hb d (heq ▸ hmem)
  have hpos : ∀ b', 0 < Function.update c b n b' ↔ 0 < c b' := by
    intro b'
    by_cases heq : b' = b
    · rw [heq, Function.update_self]
      exact iff_of_true hn hb
    · rw [Function.update_of_ne heq]
  refine ⟨h.free_device, h.free_nodup, fun d b' hmem => ?_, fun b' hb' => ?_,
    fun b' hd hb' => h.gpu_lt b' hd (hb'.imp id (hpos b').mp),
    fun k hk => (h.gpu_cover k hk).imp id (hpos _).mpr⟩
  · rw [Function.update_of_ne (hne d b' hmem)]
    refine ⟨(h.free_unused d b' hmem).1, ?_⟩
    exact (Function.update_of_ne (hne d b' hmem) _ _).trans (h.free_unused d b' hmem).2
  · by_cases heq : b' = b
    · rw [heq, Function.update_self]
      exact Function.update_self ..
    · rw [Function.update_of_ne heq] at hb' ⊢
      exact (Function.update_of_ne heq _ _).trans (h.refCount_eq b' hb')

theorem addRefCount (h : m.Counted c) (hb : 0 < c b) (n : Nat) :
    (m.addRefCount b n).Counted (c + n • tally [b]) := by
  have hset := h.setRefCount hb (n := m.refCount b + n) (by rw [h.refCount_eq b hb]; omega)
  have heq : Function.update c b (m.refCount b + n) = c + n • tally [b] := by
    funext b'
    by_cases hb' : b' = b
    · rw [hb', Function.update_self, h.refCount_eq b hb, Pi.add_apply, Pi.smul_apply,
        tally_singleton_self, smul_eq_mul, Nat.mul_one]
    · rw [Function.update_of_ne hb', Pi.add_apply, Pi.smul_apply, tally_singleton_of_ne hb',
        nsmul_zero, Nat.add_zero]
  exact heq ▸ hset

theorem addRefCounts {bs : List Block} (h : m.Counted c) (hbs : ∀ b ∈ bs, 0 < c b) (n : Nat) :
    (m.addRefCounts bs n).Counted (c + n • tally bs) := by
  induction bs generalizing m c with
  | nil =>
    rw [tally_nil, nsmul_zero, add_zero]
    exact h
  | cons b bs ih =>
    have hrest := ih (h.addRefCount (hbs b List.mem_cons_self) n) fun b' hb' =>
      Nat.add_pos_left (hbs b' (List.mem_cons_of_mem _ hb')) _
    rwa [add_assoc, ← nsmul_add, ← tally_cons] at hrest

/-- `allocate` takes a block to which nothing refers. -/
theorem allocateBlock (h : m.Counted c) (hcall : m.allocateBlock d = some (b, m')) :
    b.device = d ∧ b ∈ m.freeBlocks d ∧ m'.Counted (c + tally [b]) ∧ m.SameTables m' := by
  rw [BlockManager.allocateBlock] at hcall
  cases hlast : (m.freeBlocks d).getLast? with
  | none => simp [hlast] at hcall
  | some b' =>
    rw [hlast] at hcall
    obtain ⟨rfl, rfl⟩ := Prod.mk.inj (Option.some.inj hcall)
    have hsplit : m.freeBlocks d = (m.freeBlocks d).dropLast ++ [b'] :=
      (List.dropLast_append_getLast? b' hlast).symm
    have hmem : b' ∈ m.freeBlocks d := List.mem_of_getLast? hlast
    have hnodup := h.free_nodup d
    rw [hsplit] at hnodup
    obtain ⟨hrest, -, hdisjoint⟩ := List.nodup_append.mp hnodup
    have hdevice := h.free_device d b' hmem
    -- the free lists afterwards, and which blocks are in them
    have hfree : ∀ d' b, b ∈ Function.update m.freeBlocks d (m.freeBlocks d).dropLast d' →
        b ∈ m.freeBlocks d' ∧ b ≠ b' := by
      intro d' b hb
      by_cases hd : d' = d
      · subst hd
        rw [Function.update_self] at hb
        exact ⟨List.dropLast_subset _ hb, fun heq => hdisjoint b hb b' List.mem_cons_self heq⟩
      · rw [Function.update_of_ne hd] at hb
        refine ⟨hb, fun heq => hd ?_⟩
        rw [← h.free_device d' b hb, heq, hdevice]
    have hfree' : ∀ d' b, b ∈ m.freeBlocks d' → b ≠ b' →
        b ∈ Function.update m.freeBlocks d (m.freeBlocks d).dropLast d' := by
      intro d' b hb hne
      by_cases hd : d' = d
      · subst hd
        rw [Function.update_self]
        rw [hsplit] at hb
        exact (List.mem_append.mp hb).resolve_right fun hb => hne (List.mem_singleton.mp hb)
      · rwa [Function.update_of_ne hd]
    refine ⟨hdevice, hmem, ⟨fun d' b hb => h.free_device d' b (hfree d' b hb).1, fun d' => ?_,
      fun d' b hb => ?_, fun b hb => ?_, fun b hgpu hb => ?_, fun k hk => ?_⟩,
      ⟨_, _, rfl⟩⟩
    · change (Function.update m.freeBlocks d (m.freeBlocks d).dropLast d').Nodup
      by_cases hd : d' = d
      · rw [hd, Function.update_self]
        exact hrest
      · rw [Function.update_of_ne hd]
        exact h.free_nodup d'
    · obtain ⟨hin, hne⟩ := hfree d' b hb
      rw [Pi.add_apply, tally_singleton_of_ne hne, (h.free_unused d' b hin).1]
      exact ⟨rfl, (Function.update_of_ne hne _ _).trans (h.free_unused d' b hin).2⟩
    · by_cases hne : b = b'
      · rw [hne, Pi.add_apply, tally_singleton_self, (h.free_unused d b' hmem).1]
        exact Function.update_self ..
      · rw [Pi.add_apply, tally_singleton_of_ne hne, Nat.add_zero] at hb ⊢
        exact (Function.update_of_ne hne _ _).trans (h.refCount_eq b hb)
    · refine h.gpu_lt b hgpu ?_
      by_cases hne : b = b'
      · refine .inl ?_
        rw [hne, show Device.gpu = d from hgpu.symm.trans (hne ▸ hdevice)]
        exact hmem
      · rw [Pi.add_apply, tally_singleton_of_ne hne, Nat.add_zero] at hb
        exact hb.imp (fun hb => (hfree _ b hb).1) id
    · by_cases hne : (⟨.gpu, k⟩ : Block) = b'
      · exact .inr (Nat.add_pos_right _ (by rw [hne, tally_singleton_self]; exact Nat.one_pos))
      · exact (h.gpu_cover k hk).imp (fun hin => hfree' _ _ hin hne) fun hpos =>
          Nat.add_pos_left hpos _

/-- `free` drops one reference and never raises when there is one. -/
theorem freeBlock (h : m.Counted (c + tally [b])) (hd : b.device = d) :
    ∃ m', m.freeBlock d b = some m' ∧ m'.Counted c ∧ m.SameTables m' := by
  have hcount : (c + tally [b]) b = c b + 1 := by
    rw [Pi.add_apply, tally_singleton_self]
  have href : m.refCount b = c b + 1 := (h.refCount_eq b (by omega)).trans hcount
  have hother : ∀ b', b' ≠ b → (c + tally [b]) b' = c b' := fun b' hne => by
    rw [Pi.add_apply, tally_singleton_of_ne hne, Nat.add_zero]
  have hnotfree := h.not_mem_free (b := b) (by omega)
  have href' : (m.setRefCount b (m.refCount b - 1)).refCount b = c b := by
    rw [href, Nat.add_sub_cancel]
    exact Function.update_self ..
  rw [BlockManager.freeBlock, if_neg (by omega)]
  simp only [href']
  by_cases hzero : c b = 0
  · -- the last reference: the block goes to the free list
    rw [if_pos hzero]
    refine ⟨_, rfl, ⟨?_, ?_, ?_, ?_, ?_, ?_⟩, ⟨_, _, rfl⟩⟩
    · intro d' b' hb'
      change b' ∈ Function.update m.freeBlocks d (m.freeBlocks d ++ [b]) d' at hb'
      by_cases hd' : d' = d
      · rw [hd', Function.update_self] at hb'
        rcases List.mem_append.mp hb' with hb' | hb'
        · exact hd' ▸ h.free_device d b' hb'
        · rw [List.mem_singleton.mp hb', hd, hd']
      · rw [Function.update_of_ne hd'] at hb'
        exact h.free_device d' b' hb'
    · intro d'
      change (Function.update m.freeBlocks d (m.freeBlocks d ++ [b]) d').Nodup
      by_cases hd' : d' = d
      · rw [hd', Function.update_self]
        exact List.nodup_append.mpr ⟨h.free_nodup d, List.nodup_singleton b,
          fun x hx y hy heq => hnotfree d (List.mem_singleton.mp hy ▸ heq ▸ hx)⟩
      · rw [Function.update_of_ne hd']
        exact h.free_nodup d'
    · intro d' b' hb'
      change b' ∈ Function.update m.freeBlocks d (m.freeBlocks d ++ [b]) d' at hb'
      change c b' = 0 ∧ Function.update m.refCount b (m.refCount b - 1) b' = 0
      by_cases hne : b' = b
      · rw [hne, Function.update_self, href, hzero]
        exact ⟨rfl, rfl⟩
      · have hin : b' ∈ m.freeBlocks d' := by
          by_cases hd' : d' = d
          · rw [hd', Function.update_self] at hb'
            exact hd' ▸ (List.mem_append.mp hb').resolve_right fun hb' =>
              hne (List.mem_singleton.mp hb')
          · rwa [Function.update_of_ne hd'] at hb'
        rw [Function.update_of_ne hne, ← hother b' hne]
        exact h.free_unused d' b' hin
    · intro b' hb'
      have hne : b' ≠ b := fun heq => absurd (heq ▸ hzero) hb'.ne'
      rw [← hother b' hne] at hb' ⊢
      exact (Function.update_of_ne hne _ _).trans (h.refCount_eq b' hb')
    · intro b' hgpu hb'
      refine h.gpu_lt b' hgpu ?_
      by_cases hne : b' = b
      · exact .inr (by rw [hne, hcount]; exact Nat.succ_pos _)
      · rw [hother b' hne]
        refine hb'.imp (fun hin => ?_) id
        change b' ∈ Function.update m.freeBlocks d (m.freeBlocks d ++ [b]) .gpu at hin
        by_cases hd' : Device.gpu = d
        · rw [hd', Function.update_self] at hin
          exact hd' ▸ (List.mem_append.mp hin).resolve_right fun hin =>
            hne (List.mem_singleton.mp hin)
        · rwa [Function.update_of_ne hd'] at hin
    · intro k hk
      change _ ∈ Function.update m.freeBlocks d (m.freeBlocks d ++ [b]) .gpu ∨ _
      by_cases hne : (⟨.gpu, k⟩ : Block) = b
      · refine .inl ?_
        have hd' : Device.gpu = d := (congrArg Block.device hne).trans hd
        rw [hd', Function.update_self, ← hd', hne]
        exact List.mem_append_right _ List.mem_cons_self
      · refine (h.gpu_cover k hk).imp (fun hin => ?_) fun hpos => by rwa [hother _ hne] at hpos
        by_cases hd' : Device.gpu = d
        · rw [hd', Function.update_self, ← hd']
          exact List.mem_append_left _ hin
        · rwa [Function.update_of_ne hd']
  · rw [if_neg hzero]
    have hset := h.setRefCount (b := b) (by omega) (Nat.pos_of_ne_zero hzero)
    have heq : Function.update (c + tally [b]) b (c b) = c := by
      funext b'
      by_cases hne : b' = b
      · rw [hne, Function.update_self]
      · rw [Function.update_of_ne hne, hother b' hne]
    refine ⟨_, rfl, ?_, ⟨_, _, rfl⟩⟩
    rw [heq] at hset
    rwa [href, Nat.add_sub_cancel]

end Counted

end BlockManager

end Mil.Blocks
