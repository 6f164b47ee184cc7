import Mil.Blocks.Tables

/-!
# Blocks that are in one table only

A block is written only by the sequence whose table it ends, so what matters about a block is which
tables it is in: in none (`Unused`), as a block that an allocator hands out, or in that of one
sequence (`Exclusive`), which is what a reference count of one says of a table without repetitions.
The calls of the manager once more, with the blocks they take. No prefix and no sliding window here.
-/

set_option autoImplicit false

namespace Mil.Blocks

open Mil.Lib

namespace BlockManager

variable {cfg : Config} {m m' : BlockManager} {g : SequenceGroup} {b : Block} {d : Device}

/-- The block is in no table. -/
def Unused (m : BlockManager) (b : Block) : Prop :=
  ∀ (id : Nat) (table : BlockTable), m.blockTables.lookup id = some table → b ∉ table

/-- The block is in no table but that of the sequence. -/
def Exclusive (m : BlockManager) (id : Nat) (b : Block) : Prop :=
  ∀ (id' : Nat) (table : BlockTable), m.blockTables.lookup id' = some table → b ∈ table → id' = id

theorem unused_iff (hkeys : (Dict.keys m.blockTables).Nodup) : m.Unused b ↔ m.entries b = 0 := by
  constructor
  · intro h
    by_contra hne
    obtain ⟨⟨id, table⟩, hmem, hpos⟩ :=
      Dict.exists_of_sum_pos (fun table => tally table b) (Nat.pos_of_ne_zero hne)
    exact h id table (Dict.lookup_of_mem hkeys hmem) (tally_pos.mp hpos)
  · intro h id table htable hb
    exact (entries_pos htable hb).ne' h

/-- Nothing refers to a block of a free list. -/
theorem Inv.unused_of_free (h : m.Inv cfg) (hb : b ∈ m.freeBlocks d) : m.Unused b :=
  (unused_iff h.keys_nodup).mpr (h.counted.free_unused d b hb).1

/-- A table without repetitions has the block to itself when the block has one entry. -/
theorem exclusive_iff (hkeys : (Dict.keys m.blockTables).Nodup) {id : Nat} {table : BlockTable}
    (htable : m.blockTables.lookup id = some table) (hnodup : table.Nodup) (hb : b ∈ table) :
    m.Exclusive id b ↔ m.entries b = 1 := by
  have hone : tally table b = 1 := List.count_eq_one_of_mem hnodup hb
  have hsum : Dict.sum (fun table => tally table b) (Dict.erase id m.blockTables) + 1 =
      m.entries b := hone ▸ Dict.sum_erase (fun table => tally table b) htable
  have hrest : m.Exclusive id b ↔
      Dict.sum (fun table => tally table b) (Dict.erase id m.blockTables) = 0 := by
    have hlookup := fun id' => Dict.lookup_erase hkeys id id'
    constructor
    · intro h
      by_contra hne
      obtain ⟨⟨id', table'⟩, hmem, hpos⟩ :=
        Dict.exists_of_sum_pos (fun table => tally table b) (Nat.pos_of_ne_zero hne)
      have htable' := Dict.lookup_of_mem (Dict.nodup_keys_erase hkeys id) hmem
      rw [hlookup] at htable'
      obtain ⟨hid, htable'⟩ := Option.ite_none_left_eq_some.mp htable'
      exact hid (h id' table' htable' (tally_pos.mp hpos))
    · intro hzero id' table' htable' hb'
      by_contra hid
      have hmem := (hlookup id').trans (if_neg hid)
      have hle := Dict.le_sum_of_mem (fun table => tally table b)
        (Dict.mem_of_lookup (hmem.trans htable'))
      rw [hzero] at hle
      exact absurd (tally_pos.mpr hb') (Nat.not_lt_of_le hle)
  rw [hrest]
  omega

/-- A block with more than one reference is in another table too. -/
theorem Inv.exists_other (h : m.Inv cfg) {id : Nat} {table : BlockTable}
    (htable : m.blockTables.lookup id = some table) (hnodup : table.Nodup) (hb : b ∈ table)
    (hshared : m.refCount b ≠ 1) :
    ∃ id' table', id' ≠ id ∧ m.blockTables.lookup id' = some table' ∧ b ∈ table' := by
  by_contra hnone
  have hex : m.Exclusive id b := by
    intro id' table' htable' hb'
    by_contra hne
    exact hnone ⟨id', table', hne, htable', hb'⟩
  rw [h.counted.refCount_eq b (entries_pos htable hb)] at hshared
  exact hshared ((exclusive_iff h.keys_nodup htable hnodup hb).mp hex)

theorem Inv.exclusive_of_refCount (h : m.Inv cfg) {id : Nat} {table : BlockTable}
    (htable : m.blockTables.lookup id = some table) (hnodup : table.Nodup) (hb : b ∈ table)
    (hone : m.refCount b = 1) : m.Exclusive id b := by
  rw [h.counted.refCount_eq b (entries_pos htable hb)] at hone
  exact (exclusive_iff h.keys_nodup htable hnodup hb).mpr hone

/-! ## Prompts -/

/-- The blocks of a prompt are different ones that nothing referred to. -/
theorem promptBlocks_fresh (hwindow : cfg.blockSlidingWindow = none) {c : Block → Nat}
    (h : m.Counted c) {n count idx : Nat} (hn : 0 < n) {table table' : BlockTable}
    (hcall : promptBlocks cfg n count idx table m = some (table', m')) :
    ∃ new, table' = table ++ new ∧ new.Nodup ∧ ∀ b ∈ new, c b = 0 := by
  induction count generalizing idx table m c with
  | zero =>
    obtain ⟨rfl, rfl⟩ := Prod.mk.inj (Option.some.inj hcall)
    exact ⟨[], (List.append_nil _).symm, .nil, fun b hb => (List.not_mem_nil hb).elim⟩
  | succ count ih =>
    rw [promptBlocks, promptBlock_eq hwindow] at hcall
    cases halloc : m.allocateBlock .gpu with
    | none => simp [halloc] at hcall
    | some p =>
      obtain ⟨b, m₁⟩ := p
      rw [halloc] at hcall
      obtain ⟨-, hfree, hcounted, -⟩ := h.allocateBlock halloc
      have hpos : 0 < (c + tally [b]) b := by
        rw [Pi.add_apply, tally_singleton_self]
        exact Nat.succ_pos _
      obtain ⟨new, rfl, hnodup, hnew⟩ := ih (hcounted.setRefCount hpos hn) hcall
      -- the blocks taken later are not the one that is referred to now
      have hother : ∀ b' ∈ new, b' ≠ b ∧ c b' = 0 := by
        intro b' hb'
        have hzero := hnew b' hb'
        have hne : b' ≠ b := by
          rintro rfl
          rw [Function.update_self] at hzero
          exact hn.ne' hzero
        rw [Function.update_of_ne hne, Pi.add_apply, tally_singleton_of_ne hne] at hzero
        exact ⟨hne, hzero⟩
      refine ⟨b :: new, by rw [List.append_assoc]; rfl, ?_, fun b' hb' => ?_⟩
      · exact List.nodup_cons.mpr ⟨fun hb => (hother b hb).1 rfl, hnodup⟩
      · rcases List.mem_cons.mp hb' with rfl | hb'
        · exact (h.free_unused _ _ hfree).1
        · exact (hother b' hb').2

/-- The waiting sequences get one table of different GPU blocks that were in no table, as long as
the prompt. -/
theorem allocate_fresh (hwindow : cfg.blockSlidingWindow = none) (h : m.Inv cfg)
    (hpre : g.pre = none) (hcall : m.allocate cfg g = some m') :
    ∃ table : BlockTable, table.Nodup ∧ (∀ b ∈ table, b.device = .gpu ∧ m.Unused b) ∧
      (∀ q, (g.getSeqs .waiting).head? = some q →
        table.length = q.logicalTokenBlocks cfg.blockSize) ∧
      ∀ id, m'.blockTables.lookup id =
        if id ∈ (g.getSeqs .waiting).map Sequence.seqId then some table
        else m.blockTables.lookup id := by
  rw [allocate] at hcall
  obtain ⟨seq, hhead, hcall⟩ := Option.bind_eq_some_iff.mp hcall
  have hnoPrefix : m.allocatedPrefix g = none := by
    rw [allocatedPrefix, hpre]
    rfl
  simp only [hnoPrefix] at hcall
  obtain ⟨⟨table, m₁⟩, hprompt, hcall⟩ := Option.bind_eq_some_iff.mp hcall
  obtain rfl := Option.some.inj hcall
  have hpos : 0 < g.numSeqs := List.length_pos_of_mem
    (List.mem_filter.mp (List.mem_of_head? hhead)).1
  obtain ⟨hgpu, hsame, hlength⟩ := promptBlocks_tables hwindow h.counted hpos hprompt
  obtain ⟨new, htable, hnodup, hfresh⟩ := promptBlocks_fresh hwindow h.counted hpos hprompt
  obtain rfl : table = new := htable
  have hset : m₁.setPrefix g table = m₁ := by
    rw [setPrefix, hpre]
  refine ⟨table, hnodup, fun b hb => ⟨(hgpu b hb).resolve_left List.not_mem_nil, ?_⟩,
    fun q hq => ?_, fun id => ?_⟩
  · exact (unused_iff h.keys_nodup).mpr (hfresh b hb)
  · rw [hhead] at hq
    rw [hlength, ← Option.some.inj hq]
    exact Nat.zero_add _
  · show ((m₁.setPrefix g table).setTables (g.getSeqs .waiting) table).blockTables.lookup id = _
    rw [hset, lookup_setTables, hsame.blockTables_eq]

/-! ## Generation -/

theorem allocateBlock_blockTables (hcall : m.allocateBlock d = some (b, m')) :
    m'.blockTables = m.blockTables := by
  unfold allocateBlock at hcall
  split at hcall
  · cases hcall
  · obtain ⟨-, rfl⟩ := Prod.mk.inj (Option.some.inj hcall)
    rfl

theorem freeBlock_blockTables (hcall : m.freeBlock d b = some m') :
    m'.blockTables = m.blockTables := by
  unfold freeBlock at hcall
  split at hcall
  · cases hcall
  · simp only at hcall
    split at hcall
    · exact (Option.some.inj hcall) ▸ rfl
    · exact (Option.some.inj hcall) ▸ rfl

/-- What `append_slot` makes of the table of a sequence, and the copy it asks for. -/
inductive Appended (cfg : Config) (m : BlockManager) (q : Sequence) (table : BlockTable) :
    BlockTable → Option (Nat × Nat) → Prop
  | grown {new : Block} (hlt : table.length < q.logicalTokenBlocks cfg.blockSize)
      (hgpu : new.device = .gpu) (hunused : m.Unused new) : Appended cfg m q table (table ++ [new]) none
  | own {last : Block} (hle : q.logicalTokenBlocks cfg.blockSize ≤ table.length)
      (hlast : table.getLast? = some last) (hex : m.Exclusive q.seqId last) :
      Appended cfg m q table table none
  | copied {front : BlockTable} {last new : Block}
      (hle : q.logicalTokenBlocks cfg.blockSize ≤ table.length) (htable : table = front ++ [last])
      (hgpu : last.device = .gpu) (hgpu' : new.device = .gpu) (hunused : m.Unused new)
      (hshared : ∃ id other, id ≠ q.seqId ∧ m.blockTables.lookup id = some other ∧ last ∈ other) :
      Appended cfg m q table (front ++ [new]) (some (last.number, new.number))

theorem Appended.mem_old {q : Sequence} {old new : BlockTable} {ret : Option (Nat × Nat)}
    (h : Appended cfg m q old new ret) (hb : b ∈ new) :
    b ∈ old ∨ m.Unused b := by
  cases h with
  | grown _ _ hunused =>
    refine (List.mem_append.mp hb).imp_right fun hb => ?_
    rw [List.mem_singleton.mp hb]
    exact hunused
  | own _ _ _ => exact .inl hb
  | copied _ htable _ _ hunused _ =>
    rcases List.mem_append.mp hb with hb | hb
    · exact .inl (htable ▸ List.mem_append_left _ hb)
    · rw [List.mem_singleton.mp hb]
      exact .inr hunused

/-- A block that leaves the table is in another one. -/
theorem Appended.mem_new {q : Sequence} {old new : BlockTable} {ret : Option (Nat × Nat)}
    (h : Appended cfg m q old new ret) (hb : b ∈ old) :
    b ∈ new ∨ ∃ id other, id ≠ q.seqId ∧ m.blockTables.lookup id = some other ∧ b ∈ other := by
  cases h with
  | grown _ _ _ => exact .inl (List.mem_append_left _ hb)
  | own _ _ _ => exact .inl hb
  | copied _ htable _ _ _ hshared =>
    rw [htable] at hb
    rcases List.mem_append.mp hb with hb | hb
    · exact .inl (List.mem_append_left _ hb)
    · rw [List.mem_singleton.mp hb]
      exact .inr hshared

theorem appendSlot_appended (hwindow : cfg.blockSlidingWindow = none) (h : m.Inv cfg)
    {q : Sequence} {ret : Option (Nat × Nat)}
    (hnodup : ∀ table, m.blockTables.lookup q.seqId = some table → table.Nodup)
    (hcall : m.appendSlot cfg q = some (ret, m')) :
    ∃ old new : BlockTable, m.blockTables.lookup q.seqId = some old ∧
      Appended cfg m q old new ret ∧
      ∀ id, m'.blockTables.lookup id =
        if id = q.seqId then some new else m.blockTables.lookup id := by
  rw [appendSlot] at hcall
  obtain ⟨table, htable, hcall⟩ := Option.bind_eq_some_iff.mp hcall
  refine ⟨table, ?_⟩
  split at hcall
  case isTrue hlt =>
    simp only [hwindow, Option.getD_none, ne_eq, not_true_eq_false, false_and, if_false] at hcall
    obtain ⟨⟨b, m₁⟩, halloc, hcall⟩ := Option.bind_eq_some_iff.mp hcall
    obtain ⟨rfl, rfl⟩ := Prod.mk.inj (Option.some.inj hcall)
    obtain ⟨hdevice, hfree, -, hsame⟩ := h.counted.allocateBlock halloc
    refine ⟨table ++ [b], htable, .grown hlt hdevice (h.unused_of_free hfree), fun id => ?_⟩
    refine (Dict.lookup_set _ _ _ _).trans ?_
    rw [hsame.blockTables_eq]
  case isFalse hle =>
    have hle := Nat.le_of_not_lt hle
    rw [copyOnWrite] at hcall
    obtain ⟨lastBlock, hlast, hcall⟩ := Option.bind_eq_some_iff.mp hcall
    have hmem : lastBlock ∈ table := List.mem_of_getLast? hlast
    split at hcall
    · cases hcall
    case isFalse hdevice =>
      have hdevice : lastBlock.device = .gpu := not_not.mp hdevice
      split at hcall
      case isTrue hone =>
        obtain ⟨rfl, rfl⟩ := Prod.mk.inj (Option.some.inj hcall)
        have hex := h.exclusive_of_refCount htable (hnodup _ htable) hmem hone
        exact ⟨table, htable, .own hle hlast hex, fun id => Dict.lookup_set _ _ _ _⟩
      case isFalse hshared =>
        obtain ⟨⟨newBlock, m₁⟩, halloc, hcall⟩ := Option.bind_eq_some_iff.mp hcall
        obtain ⟨m₂, hfree, hcall⟩ := Option.bind_eq_some_iff.mp hcall
        obtain ⟨rfl, rfl⟩ := Prod.mk.inj (Option.some.inj hcall)
        obtain ⟨hdevice', hfreeBlock, -, hsame⟩ := h.counted.allocateBlock halloc
        have htables : m₂.blockTables = (m₁.setTable q.seqId
            (table.dropLast ++ [newBlock])).blockTables := freeBlock_blockTables hfree
        refine ⟨table.dropLast ++ [newBlock], htable, .copied hle
          (List.dropLast_append_getLast? _ hlast).symm hdevice hdevice' (h.unused_of_free hfreeBlock)
          (h.exists_other htable (hnodup _ htable) hmem hshared), fun id => ?_⟩
        rw [htables]
        refine (Dict.lookup_set _ _ _ _).trans ?_
        rw [hsame.blockTables_eq]

/-! ## Swapping -/

theorem swapBlock_blockTables {src dst : Device} {st st' : Swapping}
    (hcall : swapBlock src dst st b = some st') : st'.2.2.blockTables = st.2.2.blockTables := by
  obtain ⟨mapping, table, m⟩ := st
  unfold swapBlock at hcall
  simp only at hcall
  split at hcall
  · obtain ⟨m₁, hfree, hcall⟩ := Option.bind_eq_some_iff.mp hcall
    obtain rfl := Option.some.inj hcall
    have hset := freeBlock_blockTables hfree
    exact hset
  · obtain ⟨⟨b', m₁⟩, halloc, hcall⟩ := Option.bind_eq_some_iff.mp hcall
    obtain ⟨m₂, hfree, hcall⟩ := Option.bind_eq_some_iff.mp hcall
    obtain rfl := Option.some.inj hcall
    exact (freeBlock_blockTables hfree).trans (allocateBlock_blockTables halloc)

theorem swapBlock_keys {src dst : Device} {st st' : Swapping}
    (hcall : swapBlock src dst st b = some st') {x : Block} (hx : x ∈ Dict.keys st'.1) :
    x = b ∨ x ∈ Dict.keys st.1 := by
  obtain ⟨mapping, table, m⟩ := st
  unfold swapBlock at hcall
  simp only at hcall
  split at hcall
  · obtain ⟨m₁, -, hcall⟩ := Option.bind_eq_some_iff.mp hcall
    obtain rfl := Option.some.inj hcall
    exact .inr hx
  · obtain ⟨⟨b', m₁⟩, -, hcall⟩ := Option.bind_eq_some_iff.mp hcall
    obtain ⟨m₂, -, hcall⟩ := Option.bind_eq_some_iff.mp hcall
    obtain rfl := Option.some.inj hcall
    obtain ⟨p, hp, rfl⟩ := List.mem_map.mp hx
    rcases Dict.eq_or_mem_of_mem_set hp with rfl | hp
    · exact .inl rfl
    · exact .inr (List.mem_map_of_mem hp)

/-- What is mapped comes from the tables of the sequences. -/
theorem swapSeqs_keys {src dst : Device} {seqs : List Sequence}
    {mapping mapping' : List (Block × Block)} (hnodup : (seqs.map Sequence.seqId).Nodup)
    (hcall : seqs.foldlM (swapSeq src dst) (mapping, m) = some (mapping', m')) {x : Block}
    (hx : x ∈ Dict.keys mapping') :
    x ∈ Dict.keys mapping ∨
      ∃ s ∈ seqs, ∃ table, m.blockTables.lookup s.seqId = some table ∧ x ∈ table := by
  induction seqs generalizing mapping m with
  | nil =>
    obtain ⟨rfl, rfl⟩ := Prod.mk.inj (Option.some.inj hcall)
    exact .inl hx
  | cons s seqs ih =>
    obtain ⟨hs, hnodup⟩ := List.nodup_cons.mp hnodup
    rw [List.foldlM_cons] at hcall
    obtain ⟨⟨mapping₁, m₁⟩, hfirst, hcall⟩ := Option.bind_eq_some_iff.mp hcall
    obtain ⟨old, hold, hfirst⟩ := Option.bind_eq_some_iff.mp hfirst
    obtain ⟨⟨mapping₂, new, m₂⟩, hblocks, hfirst⟩ := Option.bind_eq_some_iff.mp hfirst
    obtain ⟨rfl, rfl⟩ := Prod.mk.inj (Option.some.inj hfirst)
    have hkeys : ∀ y ∈ Dict.keys mapping₂, y ∈ old ∨ y ∈ Dict.keys mapping :=
      foldlM_inv (P := fun st => ∀ y ∈ Dict.keys st.1, y ∈ old ∨ y ∈ Dict.keys mapping)
        (fun b hb st st' h hblock y hy => (swapBlock_keys hblock hy).elim
          (fun heq => .inl (heq ▸ hb)) (h y))
        (fun y hy => .inr hy) hblocks
    have hsame : m₂.blockTables = m.blockTables :=
      foldlM_inv (P := fun st => st.2.2.blockTables = m.blockTables)
        (fun b _ st st' h hblock => (swapBlock_blockTables hblock).trans h) rfl hblocks
    rcases ih hnodup hcall with hin | ⟨s', hs', table, htable, hin⟩
    · exact (hkeys x hin).symm.imp_right fun hold' => ⟨s, .head _, old, hold, hold'⟩
    · refine .inr ⟨s', .tail _ hs', table, ?_, hin⟩
      have hne : s'.seqId ≠ s.seqId := fun heq =>
        hs (heq ▸ List.mem_map_of_mem (f := Sequence.seqId) hs')
      rw [← htable, ← hsame]
      exact ((Dict.lookup_set _ _ _ _).trans (if_neg hne)).symm

/-- The blocks of some sequences move to the other device, to blocks that were in no table, and the
other tables stay. -/
structure Relocated (src dst : Device) (m m' : BlockManager) (seqs : List Sequence)
    (moves : List (Block × Block)) : Prop where
  keys_nodup : (Dict.keys moves).Nodup
  values_nodup : (moves.map Prod.snd).Nodup
  source : ∀ p ∈ moves, p.1.device = src ∧
    ∃ s ∈ seqs, ∃ table, m.blockTables.lookup s.seqId = some table ∧ p.1 ∈ table
  target : ∀ p ∈ moves, p.2.device = dst ∧ m.Unused p.2
  tables : ∀ s ∈ seqs, ∃ old new, m.blockTables.lookup s.seqId = some old ∧
    m'.blockTables.lookup s.seqId = some new ∧ List.Forall₂ (fun b b' => (b, b') ∈ moves) old new
  others : ∀ id, (∀ s ∈ seqs, s.seqId ≠ id) → m'.blockTables.lookup id = m.blockTables.lookup id

namespace Relocated

variable {src dst : Device} {seqs : List Sequence} {moves : List (Block × Block)}

theorem eq_source (h : Relocated src dst m m' seqs moves) {a a' b : Block} (ha : (a, b) ∈ moves)
    (ha' : (a', b) ∈ moves) : a = a' :=
  congrArg Prod.fst (List.inj_on_of_nodup_map h.values_nodup ha ha' rfl)

/-- A block of a new table comes from one of the old table. -/
theorem exists_source {old new : BlockTable}
    (h : List.Forall₂ (fun b b' => (b, b') ∈ moves) old new) {b' : Block} (hb' : b' ∈ new) :
    ∃ b ∈ old, (b, b') ∈ moves := by
  induction h with
  | nil => cases hb'
  | cons hhead _ ih =>
    rcases List.mem_cons.mp hb' with rfl | hb'
    · exact ⟨_, .head _, hhead⟩
    · obtain ⟨b, hb, hmem⟩ := ih hb'
      exact ⟨b, .tail _ hb, hmem⟩

theorem exists_target {old new : BlockTable}
    (h : List.Forall₂ (fun b b' => (b, b') ∈ moves) old new) {b : Block} (hb : b ∈ old) :
    ∃ b' ∈ new, (b, b') ∈ moves := by
  induction h with
  | nil => cases hb
  | cons hhead _ ih =>
    rcases List.mem_cons.mp hb with rfl | hb
    · exact ⟨_, .head _, hhead⟩
    · obtain ⟨b', hb', hmem⟩ := ih hb
      exact ⟨b', .tail _ hb', hmem⟩

theorem nodup_new (hr : Relocated src dst m m' seqs moves) {old new : BlockTable}
    (h : List.Forall₂ (fun b b' => (b, b') ∈ moves) old new) (hnodup : old.Nodup) : new.Nodup := by
  induction h with
  | nil => exact .nil
  | cons hhead htail ih =>
    obtain ⟨hnot, hnodup⟩ := List.nodup_cons.mp hnodup
    refine List.nodup_cons.mpr ⟨fun hmem => ?_, ih hnodup⟩
    obtain ⟨b, hb, hb'⟩ := exists_source htail hmem
    exact hnot (hr.eq_source hhead hb' ▸ hb)

/-- A table of the new state is an old one or one of the moved sequences. -/
theorem cases (h : Relocated src dst m m' seqs moves) {id : Nat} {table : BlockTable}
    (htable : m'.blockTables.lookup id = some table) :
    m.blockTables.lookup id = some table ∧ (∀ s ∈ seqs, s.seqId ≠ id) ∨
      ∃ s ∈ seqs, s.seqId = id ∧ ∃ old, m.blockTables.lookup id = some old ∧
        List.Forall₂ (fun b b' => (b, b') ∈ moves) old table := by
  by_cases hmine : ∃ s ∈ seqs, s.seqId = id
  · obtain ⟨s, hs, rfl⟩ := hmine
    obtain ⟨old, new, hold, hnew, hmoves⟩ := h.tables s hs
    obtain rfl := Option.some.inj (hnew.symm.trans htable)
    exact .inr ⟨s, hs, rfl, old, hold, hmoves⟩
  · have hother : ∀ s ∈ seqs, s.seqId ≠ id := fun s hs heq => hmine ⟨s, hs, heq⟩
    exact .inl ⟨(h.others id hother).symm.trans htable, hother⟩

end Relocated

theorem forall₂_of_map_lookup {mapping : List (Block × Block)} {old new : BlockTable}
    (h : old.map (fun b => mapping.lookup b) = new.map some) :
    List.Forall₂ (fun b b' => (b, b') ∈ mapping) old new := by
  induction old generalizing new with
  | nil =>
    cases new with
    | nil => exact .nil
    | cons b new => cases h
  | cons b old ih =>
    cases new with
    | nil => cases h
    | cons b' new =>
      obtain ⟨hhead, htail⟩ := List.cons.inj h
      exact .cons (Dict.mem_of_lookup hhead) (ih htail)

theorem Swapped.relocated {src dst : Device} {seqs : List Sequence}
    {mapping : List (Block × Block)} (h : m.Inv cfg) (hswapped : Swapped dst m m' [] mapping seqs)
    (hon : TablesOn m src seqs) (hnodup : (seqs.map Sequence.seqId).Nodup)
    (hcall : seqs.foldlM (swapSeq src dst) ([], m) = some (mapping, m')) :
    Relocated src dst m m' seqs mapping where
  keys_nodup := hswapped.mapped.keys_nodup
  values_nodup := hswapped.mapped.values_nodup
  source p hp := by
    rcases swapSeqs_keys hnodup hcall (List.mem_map_of_mem hp) with hin | ⟨s, hs, table, htable, hin⟩
    · cases hin
    · exact ⟨hon s hs table htable p.1 hin, s, hs, table, htable, hin⟩
  target p hp := by
    refine ⟨hswapped.mapped.device p hp, (unused_iff h.keys_nodup).mpr ?_⟩
    exact (hswapped.fresh p hp).resolve_left List.not_mem_nil
  tables s hs := by
    obtain ⟨old, new, hold, hnew, -, hmap⟩ := hswapped.tables s hs
    exact ⟨old, new, hold, hnew, forall₂_of_map_lookup hmap⟩
  others := hswapped.others

/-- The blocks of one device are told apart by their numbers. -/
theorem nodup_numbers {moves : List (Block × Block)} {f : Block × Block → Block}
    (hnodup : (moves.map f).Nodup) (hdevice : ∀ p ∈ moves, (f p).device = d) :
    (moves.map fun p => (f p).number).Nodup := by
  refine List.Nodup.map_on (fun p hp q hq heq => ?_) (List.Nodup.of_map _ hnodup)
  refine List.inj_on_of_nodup_map hnodup hp hq ?_
  have hblock : ∀ b : Block, b.device = d → b = ⟨d, b.number⟩ := by
    rintro b rfl
    rfl
  rw [hblock _ (hdevice p hp), hblock _ (hdevice q hq), heq]

theorem blockNumberMapping_eq {src : Device} {moves : List (Block × Block)}
    (hkeys : (Dict.keys moves).Nodup) (hsrc : ∀ p ∈ moves, p.1.device = src) :
    blockNumberMapping moves = moves.map fun p => (p.1.number, p.2.number) := by
  refine Dict.update_nil ?_
  rw [Dict.keys, List.map_map]
  exact nodup_numbers hkeys hsrc

theorem swapOut_relocated (h : m.Inv cfg) (hg : Swappable m g .running .gpu)
    {ret : List (Nat × Nat)} (hcall : m.swapOut g = some (ret, m')) :
    ∃ moves, ret = (moves.map fun p => (p.1.number, p.2.number)) ∧
      Relocated .gpu .cpu m m' (g.getSeqs .running) moves := by
  have hnodup := nodup_getSeqs hg.ids_nodup .running
  rw [BlockManager.swapOut] at hcall
  obtain ⟨⟨mapping, m₁⟩, hseqs, hcall⟩ := Option.bind_eq_some_iff.mp hcall
  obtain ⟨rfl, rfl⟩ := Prod.mk.inj (Option.some.inj hcall)
  rw [swapOutSeq_eq hg.no_prefix] at hseqs
  obtain ⟨-, hswapped⟩ := h.swapSeqs (by decide) hnodup hg.on (.nil _ _) hseqs
  have hr := hswapped.relocated h hg.on hnodup hseqs
  exact ⟨mapping, blockNumberMapping_eq hr.keys_nodup fun p hp => (hr.source p hp).1, hr⟩

theorem swapIn_relocated (h : m.Inv cfg) (hg : Swappable m g .swapped .cpu)
    {ret : List (Nat × Nat)} (hcall : m.swapIn g = some (ret, m')) :
    ∃ moves, ret = (moves.map fun p => (p.1.number, p.2.number)) ∧
      Relocated .cpu .gpu m m' (g.getSeqs .swapped) moves := by
  have hnodup := nodup_getSeqs hg.ids_nodup .swapped
  rw [BlockManager.swapIn, hg.no_prefix] at hcall
  obtain ⟨⟨mapping, m₁⟩, hseqs, hcall⟩ := Option.bind_eq_some_iff.mp hcall
  obtain ⟨rfl, rfl⟩ := Prod.mk.inj (Option.some.inj hcall)
  rw [swapInSeq_eq hg.no_prefix] at hseqs
  obtain ⟨-, hswapped⟩ := h.swapSeqs (by decide) hnodup hg.on (.nil _ _) hseqs
  have hr := hswapped.relocated h hg.on hnodup hseqs
  exact ⟨mapping, blockNumberMapping_eq hr.keys_nodup fun p hp => (hr.source p hp).1, hr⟩

end BlockManager

end Mil.Blocks
