import Mil.Blocks.Counted
import Mil.Blocks.Run

/-!
# The calls keep the reference counts

Each call of the manager, with the condition under which afterwards every reference count is the
number of table entries again. A sliding window that wraps, a prefix, and a prompt of a group that
has further sequences give blocks counts that are not the number of their entries. What a swap does
to the tables is `Swapped`.
-/

set_option autoImplicit false

namespace Mil.Blocks

open Mil.Lib

namespace BlockManager

variable {cfg : Config} {m m' : BlockManager} {c : Block → Nat} {b : Block} {d : Device}

/-! ## The tables -/

theorem entries_setTable_new {seqId : Nat} (table : BlockTable)
    (hnew : m.blockTables.lookup seqId = none) :
    (m.setTable seqId table).entries = m.entries + tally table := by
  funext b
  exact Dict.sum_set_of_not_mem _ table (Dict.lookup_eq_none.mp hnew)

theorem entries_setTable_of_lookup {seqId : Nat} {old : BlockTable} (table : BlockTable)
    (hold : m.blockTables.lookup seqId = some old) :
    (m.setTable seqId table).entries + tally old = m.entries + tally table := by
  funext b
  exact Dict.sum_set_of_mem _ table hold

theorem entries_erase {seqId : Nat} {old : BlockTable}
    (hold : m.blockTables.lookup seqId = some old) :
    { m with blockTables := Dict.erase seqId m.blockTables }.entries + tally old = m.entries := by
  funext b
  exact Dict.sum_erase _ hold

/-- A block of a table is referred to. -/
theorem entries_pos {seqId : Nat} {table : BlockTable} (h : m.blockTables.lookup seqId = some table)
    (hb : b ∈ table) : 0 < m.entries b :=
  lt_of_lt_of_le (tally_pos.mpr hb)
    (Dict.le_sum_of_mem (fun table => tally table b) (Dict.mem_of_lookup h))

theorem keys_nodup_setTable (h : (Dict.keys m.blockTables).Nodup) (seqId : Nat)
    (table : BlockTable) : (Dict.keys (m.setTable seqId table).blockTables).Nodup :=
  Dict.nodup_keys_set h seqId table

/-! ## Allocation of a prompt -/

/-- The blocks of a prompt that no sliding window wraps are new ones, referred to `n` times. -/
theorem Counted.promptBlocks {n : Nat} (hn : 0 < n) {count idx : Nat} {table table' : BlockTable}
    (h : m.Counted c) (hwindow : ∀ w, cfg.blockSlidingWindow = some w → idx + count ≤ w)
    (hcall : promptBlocks cfg n count idx table m = some (table', m')) :
    ∃ new, table' = table ++ new ∧ m'.Counted (c + n • tally new) ∧ m.SameTables m' := by
  induction count generalizing idx table m c with
  | zero =>
    obtain ⟨rfl, rfl⟩ := Prod.mk.inj (Option.some.inj hcall)
    refine ⟨[], (List.append_nil _).symm, ?_, .refl m⟩
    rwa [tally_nil, nsmul_zero, add_zero]
  | succ count ih =>
    rw [BlockManager.promptBlocks] at hcall
    have hprompt : promptBlock cfg m idx table = m.allocateBlock .gpu := by
      rw [promptBlock]
      cases hw : cfg.blockSlidingWindow with
      | none => rfl
      | some w => exact if_neg (by have := hwindow w hw; omega)
    rw [hprompt] at hcall
    cases halloc : m.allocateBlock .gpu with
    | none => simp [halloc] at hcall
    | some p =>
      obtain ⟨b, m₁⟩ := p
      rw [halloc] at hcall
      obtain ⟨-, hfree, hcounted, hsame⟩ := h.allocateBlock halloc
      have hset : (m₁.setRefCount b n).Counted (c + n • tally [b]) := by
        have hzero := (h.free_unused _ b hfree).1
        have hupdate : Function.update (c + tally [b]) b n = c + n • tally [b] := by
          funext b'
          by_cases hne : b' = b
          · rw [hne, Function.update_self, Pi.add_apply, Pi.smul_apply, tally_singleton_self, hzero,
              smul_eq_mul, Nat.mul_one, Nat.zero_add]
          · rw [Function.update_of_ne hne, Pi.add_apply, Pi.add_apply, Pi.smul_apply,
              tally_singleton_of_ne hne, nsmul_zero]
        rw [← hupdate]
        refine hcounted.setRefCount ?_ hn
        rw [Pi.add_apply, tally_singleton_self]
        exact Nat.succ_pos _
      obtain ⟨new, rfl, hnew, hsame'⟩ := ih hset (fun w hw => by have := hwindow w hw; omega) hcall
      refine ⟨b :: new, by rw [List.append_assoc]; rfl, ?_, ?_⟩
      · rw [tally_cons, nsmul_add, ← add_assoc]
        exact hnew
      · exact hsame.trans (.trans ⟨_, _, rfl⟩ hsame')

/-- Every sequence of a list of new ones gets the table. -/
theorem setTables_spec {seqs : List Sequence} (table : BlockTable)
    (hnodup : (seqs.map Sequence.seqId).Nodup)
    (hnew : ∀ s ∈ seqs, m.blockTables.lookup s.seqId = none) (h : m.Counted c)
    (hkeys : (Dict.keys m.blockTables).Nodup) :
    (m.setTables seqs table).Counted c ∧
      (m.setTables seqs table).entries = m.entries + seqs.length • tally table ∧
      (Dict.keys (m.setTables seqs table).blockTables).Nodup ∧
      (m.setTables seqs table).actualGpuBlkRngEnd = m.actualGpuBlkRngEnd := by
  induction seqs generalizing m with
  | nil =>
    refine ⟨h, ?_, hkeys, rfl⟩
    rw [List.length_nil, zero_nsmul, add_zero]
    rfl
  | cons s seqs ih =>
    obtain ⟨hs, hnodup⟩ := List.nodup_cons.mp hnodup
    have hnew' : ∀ s' ∈ seqs, (m.setTable s.seqId table).blockTables.lookup s'.seqId = none := by
      intro s' hs'
      have hne : s'.seqId ≠ s.seqId := fun heq =>
        hs (heq ▸ List.mem_map_of_mem (f := Sequence.seqId) hs')
      exact (Dict.lookup_set _ _ _ _).trans
        ((if_neg hne).trans (hnew s' (List.mem_cons_of_mem _ hs')))
    obtain ⟨hcounted, hentries, hkeys', hend⟩ := ih hnodup hnew' (h.setTable s.seqId table)
      (keys_nodup_setTable hkeys _ _)
    refine ⟨hcounted, hentries.trans ?_, hkeys', hend⟩
    rw [entries_setTable_new table (hnew s List.mem_cons_self), List.length_cons, succ_nsmul',
      add_assoc]

/-- A prompt of sequences that are all waiting, with ids that have no table, no prefix, and not
longer than the window. -/
structure NewPrompt (cfg : Config) (m : BlockManager) (g : SequenceGroup) : Prop where
  no_prefix : g.pre = none
  waiting : ∀ s ∈ g.seqs, s.status = .waiting
  ids_nodup : (g.seqs.map Sequence.seqId).Nodup
  new : ∀ s ∈ g.seqs, m.blockTables.lookup s.seqId = none
  window : ∀ s ∈ g.seqs, ∀ w, cfg.blockSlidingWindow = some w →
    s.logicalTokenBlocks cfg.blockSize ≤ w

theorem NewPrompt.getSeqs_waiting {g : SequenceGroup} (h : NewPrompt cfg m g) :
    g.getSeqs .waiting = g.seqs :=
  List.filter_eq_self.mpr fun s hs => decide_eq_true (h.waiting s hs)

theorem Inv.allocate {g : SequenceGroup} (h : m.Inv cfg) (hnew : NewPrompt cfg m g)
    (hcall : m.allocate cfg g = some m') : m'.Inv cfg := by
  have hseqs := hnew.getSeqs_waiting
  have hnoPrefix : m.allocatedPrefix g = none := by
    rw [allocatedPrefix, hnew.no_prefix]
    rfl
  rw [BlockManager.allocate, hseqs] at hcall
  obtain ⟨seq, hhead, hcall⟩ := Option.bind_eq_some_iff.mp hcall
  have hseq : seq ∈ g.seqs := List.mem_of_head? hhead
  simp only [hnoPrefix] at hcall
  obtain ⟨⟨table, m₁⟩, hprompt, hcall⟩ := Option.bind_eq_some_iff.mp hcall
  obtain rfl := Option.some.inj hcall
  obtain ⟨new, hnewTable, hcounted, hsame⟩ := h.counted.promptBlocks
    (List.length_pos_of_mem hseq) (fun w hw => (Nat.zero_add _).trans_le (hnew.window seq hseq w hw))
    hprompt
  rw [List.nil_append] at hnewTable
  have hset : m₁.setPrefix g table = m₁ := by
    rw [setPrefix, hnew.no_prefix]
  obtain ⟨hcounted', hentries, hkeys, hend⟩ := setTables_spec table hnew.ids_nodup
    (fun s hs => hsame.blockTables_eq ▸ hnew.new s hs) hcounted
    (hsame.blockTables_eq ▸ h.keys_nodup)
  change (((m₁.setPrefix g table)).setTables g.seqs table).Inv cfg
  rw [hset]
  refine ⟨hkeys, ?_, ?_⟩
  · rw [hentries, hsame.entries_eq, hnewTable]
    exact hnewTable ▸ hcounted'
  · rw [hend, hsame.actualGpuBlkRngEnd_eq]
    exact h.end_mem

/-! ## Generation -/

/-- The table of a sequence is exchanged for one with the references that are held for it. -/
theorem Inv.setTable {seqId : Nat} {old table : BlockTable} (h : m.Inv cfg) (hsame : m.SameTables m')
    (hold : m.blockTables.lookup seqId = some old) {rest : Block → Nat}
    (hrest : m.entries = rest + tally old) (hcounted : m'.Counted (rest + tally table)) :
    (m'.setTable seqId table).Inv cfg := by
  have hold' : m'.blockTables.lookup seqId = some old := hsame.blockTables_eq ▸ hold
  have hentries := entries_setTable_of_lookup table hold'
  rw [hsame.entries_eq, hrest, add_right_comm] at hentries
  refine ⟨keys_nodup_setTable (hsame.blockTables_eq ▸ h.keys_nodup) _ _, ?_, ?_⟩
  · rw [add_right_cancel hentries]
    exact hcounted.setTable _ _
  · exact hsame.actualGpuBlkRngEnd_eq ▸ h.end_mem

/-- The references from other tables. -/
theorem exists_rest {seqId : Nat} {old : BlockTable}
    (hold : m.blockTables.lookup seqId = some old) :
    ∃ rest, m.entries = rest + tally old := ⟨_, (entries_erase hold).symm⟩

theorem Inv.copyOnWrite {seqId : Nat} {table : BlockTable} (h : m.Inv cfg)
    (htable : m.blockTables.lookup seqId = some table) {ret : Option (Nat × Nat)}
    (hcall : m.copyOnWrite seqId table = some (ret, m')) : m'.Inv cfg := by
  obtain ⟨rest, hrest⟩ := exists_rest htable
  rw [BlockManager.copyOnWrite] at hcall
  obtain ⟨lastBlock, hlast, hcall⟩ := Option.bind_eq_some_iff.mp hcall
  split at hcall
  · cases hcall
  case isFalse hdevice =>
    have hdevice : lastBlock.device = .gpu := not_not.mp hdevice
    split at hcall
    · obtain ⟨-, rfl⟩ := Prod.mk.inj (Option.some.inj hcall)
      exact h.setTable (.refl m) htable hrest (hrest ▸ h.counted)
    · obtain ⟨⟨newBlock, m₁⟩, halloc, hcall⟩ := Option.bind_eq_some_iff.mp hcall
      obtain ⟨m₂, hfree, hcall⟩ := Option.bind_eq_some_iff.mp hcall
      obtain ⟨-, rfl⟩ := Prod.mk.inj (Option.some.inj hcall)
      have hsplit : table = table.dropLast ++ [lastBlock] :=
        (List.dropLast_append_getLast? lastBlock hlast).symm
      obtain ⟨-, -, hcounted, hsame⟩ := h.counted.allocateBlock halloc
      have htally : m.entries + tally [newBlock] =
          rest + tally (table.dropLast ++ [newBlock]) + tally [lastBlock] := by
        rw [hrest, hsplit, List.dropLast_concat, tally_append, tally_append]
        simp only [add_assoc, add_comm (tally [newBlock])]
      rw [htally] at hcounted
      obtain ⟨m₃, hfree', hcounted', hsame'⟩ := (hcounted.setTable seqId
        (table.dropLast ++ [newBlock])).freeBlock hdevice
      obtain rfl := Option.some.inj (hfree.symm.trans hfree')
      have hinv : (m₁.setTable seqId (table.dropLast ++ [newBlock])).entries =
          rest + tally (table.dropLast ++ [newBlock]) := by
        have hentries := entries_setTable_of_lookup (table.dropLast ++ [newBlock])
          (hsame.blockTables_eq ▸ htable)
        rw [hsame.entries_eq, hrest, add_right_comm] at hentries
        exact add_right_cancel hentries
      refine ⟨?_, ?_, ?_⟩
      · rw [hsame'.blockTables_eq]
        exact keys_nodup_setTable (hsame.blockTables_eq ▸ h.keys_nodup) _ _
      · rw [hsame'.entries_eq, hinv]
        exact hcounted'
      · rw [hsame'.actualGpuBlkRngEnd_eq]
        exact hsame.actualGpuBlkRngEnd_eq ▸ h.end_mem

/-- The window does not wrap at the next block of the table. -/
def NoWrap (cfg : Config) (m : BlockManager) (s : Sequence) : Prop :=
  ∀ w table, cfg.blockSlidingWindow = some w → m.blockTables.lookup s.seqId = some table →
    table.length < s.logicalTokenBlocks cfg.blockSize → w = 0 ∨ table.length < w

theorem Inv.appendSlot {s : Sequence} (h : m.Inv cfg) (hwrap : NoWrap cfg m s)
    {ret : Option (Nat × Nat)} (hcall : m.appendSlot cfg s = some (ret, m')) : m'.Inv cfg := by
  rw [BlockManager.appendSlot] at hcall
  obtain ⟨table, htable, hcall⟩ := Option.bind_eq_some_iff.mp hcall
  split at hcall
  case isFalse => exact h.copyOnWrite htable hcall
  case isTrue hlt =>
    have hnot : ¬ (cfg.blockSlidingWindow.getD 0 ≠ 0 ∧
        cfg.blockSlidingWindow.getD 0 ≤ table.length) := by
      cases hw : cfg.blockSlidingWindow with
      | none => exact fun hwindow => hwindow.1 rfl
      | some w =>
        have := hwrap w table hw htable hlt
        simp only [Option.getD_some]
        omega
    simp only [if_neg hnot] at hcall
    obtain ⟨⟨b, m₁⟩, halloc, hcall⟩ := Option.bind_eq_some_iff.mp hcall
    obtain ⟨-, rfl⟩ := Prod.mk.inj (Option.some.inj hcall)
    obtain ⟨-, -, hcounted, hsame⟩ := h.counted.allocateBlock halloc
    obtain ⟨rest, hrest⟩ := exists_rest htable
    refine h.setTable hsame htable hrest ?_
    rw [tally_append, ← add_assoc, ← hrest]
    exact hcounted

theorem Inv.fork {parent child : Nat} (h : m.Inv cfg)
    (hchild : m.blockTables.lookup child = none) (hcall : m.fork parent child = some m') :
    m'.Inv cfg := by
  obtain ⟨table, htable, hcall⟩ := Option.bind_eq_some_iff.mp hcall
  obtain rfl := Option.some.inj hcall
  have hsame : ∀ (bs : List Block) (m : BlockManager), m.SameTables (m.addRefCounts bs 1) := by
    intro bs
    induction bs with
    | nil => exact SameTables.refl
    | cons b bs ih => exact fun m => .trans ⟨_, _, rfl⟩ (ih _)
  have hsame := hsame table (m.setTable child table)
  refine ⟨?_, ?_, ?_⟩
  · rw [hsame.blockTables_eq]
    exact keys_nodup_setTable h.keys_nodup _ _
  · rw [hsame.entries_eq, entries_setTable_new table hchild]
    have := (h.counted.setTable child table).addRefCounts (fun b hb => entries_pos htable hb) 1
    rwa [one_nsmul] at this
  · rw [hsame.actualGpuBlkRngEnd_eq]
    exact h.end_mem

/-! ## Swapping -/

/-- What the blocks swapped so far were mapped to: different blocks of the other device, all of
them referred to. -/
structure Mapped (dst : Device) (c : Block → Nat) (mapping : List (Block × Block)) : Prop where
  keys_nodup : (Dict.keys mapping).Nodup
  values_nodup : (mapping.map Prod.snd).Nodup
  device : ∀ p ∈ mapping, p.2.device = dst
  used : ∀ p ∈ mapping, 0 < c p.2

/-- The second mapping keeps what the first one says. -/
def Extends (mapping mapping' : List (Block × Block)) : Prop :=
  ∀ b b', mapping.lookup b = some b' → mapping'.lookup b = some b'

theorem Mapped.nil (dst : Device) (c : Block → Nat) : Mapped dst c [] :=
  ⟨.nil, .nil, fun _ hp => (List.not_mem_nil hp).elim, fun _ hp => (List.not_mem_nil hp).elim⟩

theorem Mapped.mono {dst : Device} {c' : Block → Nat} {mapping : List (Block × Block)}
    (h : Mapped dst c mapping) (hle : ∀ b, b.device = dst → c b ≤ c' b) : Mapped dst c' mapping :=
  { h with used := fun p hp => (h.used p hp).trans_le (hle _ (h.device p hp)) }

/-- References from a table on the first device say nothing about what was mapped to. -/
theorem Mapped.without {src dst : Device} {old : BlockTable} {mapping : List (Block × Block)}
    (h : Mapped dst (c + tally old) mapping) (hne : src ≠ dst) (hold : ∀ b ∈ old, b.device = src) :
    Mapped dst c mapping := by
  refine { h with used := fun p hp => ?_ }
  have hused := h.used p hp
  have hzero : tally old p.2 = 0 := tally_eq_zero.mpr fun hin =>
    hne ((hold _ hin).symm.trans (h.device p hp))
  rwa [Pi.add_apply, hzero, Nat.add_zero] at hused

/-- One block is swapped: its reference becomes one to the block it is mapped to. -/
theorem Counted.swapBlock {src dst : Device} {mapping mapping' : List (Block × Block)}
    {table table' : BlockTable} (h : m.Counted (c + tally [b])) (hb : b.device = src)
    (hmapped : Mapped dst c mapping)
    (hcall : swapBlock src dst (mapping, table, m) b = some (mapping', table', m')) :
    ∃ b', table' = table ++ [b'] ∧ b'.device = dst ∧ mapping'.lookup b = some b' ∧
      Extends mapping mapping' ∧ (∀ p ∈ mapping', p ∈ mapping ∨ c p.2 = 0) ∧
      m'.Counted (c + tally [b']) ∧ Mapped dst (c + tally [b']) mapping' ∧ m.SameTables m' := by
  simp only [BlockManager.swapBlock] at hcall
  -- a block shared with an earlier table has been mapped; otherwise a free block is taken
  cases hlook : mapping.lookup b with
  | some b' =>
    rw [hlook] at hcall
    obtain ⟨m₁, hfree, hcall⟩ := Option.bind_eq_some_iff.mp hcall
    obtain ⟨rfl, hrest⟩ := Prod.mk.inj (Option.some.inj hcall)
    obtain ⟨rfl, rfl⟩ := Prod.mk.inj hrest
    have hmem := Dict.mem_of_lookup hlook
    have hadd := h.addRefCount (b := b') (Nat.add_pos_left (hmapped.used _ hmem) _) 1
    rw [one_nsmul, add_right_comm] at hadd
    obtain ⟨m₂, hfree', hcounted, hsame⟩ := hadd.freeBlock hb
    obtain rfl := Option.some.inj (hfree.symm.trans hfree')
    exact ⟨b', rfl, hmapped.device _ hmem, hlook, fun _ _ hx => hx, fun _ hp => .inl hp, hcounted,
      hmapped.mono fun x _ => Nat.le_add_right _ _, .trans ⟨_, _, rfl⟩ hsame⟩
  | none =>
    rw [hlook] at hcall
    obtain ⟨⟨b', m₀⟩, halloc, hcall⟩ := Option.bind_eq_some_iff.mp hcall
    obtain ⟨m₁, hfree, hcall⟩ := Option.bind_eq_some_iff.mp hcall
    obtain ⟨rfl, hrest⟩ := Prod.mk.inj (Option.some.inj hcall)
    obtain ⟨rfl, rfl⟩ := Prod.mk.inj hrest
    obtain ⟨hdevice, hin, hadd, hsame₀⟩ := h.allocateBlock halloc
    have hunused : c b' = 0 := Nat.eq_zero_of_add_eq_zero_right (h.free_unused _ _ hin).1
    rw [add_right_comm] at hadd
    obtain ⟨m₂, hfree', hcounted, hsame⟩ := hadd.freeBlock hb
    obtain rfl := Option.some.inj (hfree.symm.trans hfree')
    have hkey : b ∉ Dict.keys mapping := Dict.lookup_eq_none.mp hlook
    have hset : Dict.set b b' mapping = mapping ++ [(b, b')] := Dict.set_of_not_mem hkey
    refine ⟨b', rfl, hdevice, (Dict.lookup_set _ _ _ _).trans (if_pos rfl), fun x y hx => ?_,
      fun p hp => ?_, hcounted,
      ⟨Dict.nodup_keys_set hmapped.keys_nodup _ _, ?_, fun p hp => ?_, fun p hp => ?_⟩,
      hsame₀.trans hsame⟩
    · rw [Dict.lookup_set, if_neg fun heq => ?_]
      · exact hx
      · cases (heq ▸ hlook).symm.trans hx
    · rw [hset] at hp
      refine (List.mem_append.mp hp).imp id fun hp => ?_
      rw [List.mem_singleton.mp hp]
      exact hunused
    · rw [hset, List.map_append]
      refine List.nodup_append.mpr ⟨hmapped.values_nodup, List.nodup_singleton _, ?_⟩
      rintro x hx y hy rfl
      obtain ⟨p, hp, rfl⟩ := List.mem_map.mp hx
      have hused := hmapped.used p hp
      rw [List.mem_singleton.mp hy, hunused] at hused
      exact lt_irrefl _ hused
    · rw [hset] at hp
      rcases List.mem_append.mp hp with hp | hp
      · exact hmapped.device p hp
      · rw [List.mem_singleton.mp hp]
        exact hdevice
    · rw [hset] at hp
      rcases List.mem_append.mp hp with hp | hp
      · exact Nat.add_pos_left (hmapped.used p hp) _
      · rw [List.mem_singleton.mp hp]
        exact Nat.add_pos_right _ (by rw [tally_singleton_self]; exact Nat.one_pos)

/-- The blocks of a table are swapped, one after the other. -/
theorem Counted.swapBlocks {src dst : Device} {mapping mapping' : List (Block × Block)}
    {old table table' : BlockTable} (hne : src ≠ dst) (h : m.Counted (c + tally old))
    (hold : ∀ b ∈ old, b.device = src) (hmapped : Mapped dst c mapping)
    (hcall : old.foldlM (BlockManager.swapBlock src dst) (mapping, table, m) =
      some (mapping', table', m')) :
    ∃ new, table' = table ++ new ∧ (∀ b ∈ new, b.device = dst) ∧
      old.map (fun b => mapping'.lookup b) = new.map some ∧ Extends mapping mapping' ∧
      (∀ p ∈ mapping', p ∈ mapping ∨ c p.2 = 0) ∧
      m'.Counted (c + tally new) ∧ Mapped dst (c + tally new) mapping' ∧ m.SameTables m' := by
  induction old generalizing mapping table m c with
  | nil =>
    obtain ⟨rfl, hrest⟩ := Prod.mk.inj (Option.some.inj hcall)
    obtain ⟨rfl, rfl⟩ := Prod.mk.inj hrest
    refine ⟨[], (List.append_nil _).symm, fun _ hb => (List.not_mem_nil hb).elim, rfl,
      fun _ _ hx => hx, fun _ hp => .inl hp, h, ?_, .refl m⟩
    rwa [tally_nil, add_zero]
  | cons b old ih =>
    rw [List.foldlM_cons] at hcall
    obtain ⟨⟨mapping₁, table₁, m₁⟩, hfirst, hcall⟩ := Option.bind_eq_some_iff.mp hcall
    have hbs : b.device = src := hold b List.mem_cons_self
    rw [tally_cons, add_comm (tally [b]), ← add_assoc] at h
    -- the blocks of the old table are on the other device, so the mapped ones stay in use
    have hold' : Mapped dst (c + tally old) mapping :=
      hmapped.mono fun x _ => Nat.le_add_right _ _
    obtain ⟨b', rfl, hdevice, hlook, hext, hfresh, hcounted, hmapped₁, hsame⟩ :=
      h.swapBlock hbs hold' hfirst
    rw [add_right_comm] at hcounted hmapped₁
    have hrest : ∀ x ∈ old, x.device = src := fun x hx => hold x (List.mem_cons_of_mem _ hx)
    obtain ⟨new, rfl, hnew, hmap, hext', hfresh', hcounted', hmapped', hsame'⟩ :=
      ih hcounted hrest (hmapped₁.without hne hrest) hcall
    refine ⟨b' :: new, by rw [List.append_assoc]; rfl, fun x hx => ?_, ?_,
      fun x y hx => hext' x y (hext x y hx), fun p hp => ?_, ?_, ?_, hsame.trans hsame'⟩
    · rcases List.mem_cons.mp hx with rfl | hx
      · exact hdevice
      · exact hnew x hx
    · rw [List.map_cons, List.map_cons, hmap, hext' b b' hlook]
    · rcases hfresh' p hp with hp | hzero
      · exact (hfresh p hp).imp id Nat.eq_zero_of_add_eq_zero_right
      · exact .inr (Nat.eq_zero_of_add_eq_zero_right hzero)
    · rw [tally_cons, ← add_assoc]
      exact hcounted'
    · rw [tally_cons, ← add_assoc]
      exact hmapped'

/-- The tables of some sequences, all on one device. -/
def TablesOn (m : BlockManager) (d : Device) (seqs : List Sequence) : Prop :=
  ∀ s ∈ seqs, ∀ table, m.blockTables.lookup s.seqId = some table → ∀ b ∈ table, b.device = d

/-- One sequence of a group without a prefix is swapped. -/
def swapSeq (src dst : Device) (st : List (Block × Block) × BlockManager) (s : Sequence) :
    Option (List (Block × Block) × BlockManager) := do
  let table ← st.2.blockTables.lookup s.seqId
  let (mapping, newTable, m) ← table.foldlM (swapBlock src dst) (st.1, [], st.2)
  return (mapping, m.setTable s.seqId newTable)

theorem swapInSeq_eq {g : SequenceGroup} (hpre : g.pre = none) :
    swapInSeq g = swapSeq .cpu .gpu := by
  funext st s
  rw [swapInSeq, hpre]
  rfl

theorem swapOutSeq_eq {g : SequenceGroup} (hpre : g.pre = none) :
    swapOutSeq g = swapSeq .gpu .cpu := by
  have hblock : swapOutBlock g = swapBlock .gpu .cpu := by
    funext st b
    rw [swapOutBlock, hpre]
    rfl
  funext st s
  rw [swapOutSeq, hblock]
  rfl

/-- What swapping some sequences does: the mapping grows by blocks that no table had, the tables of
the sequences are mapped, the others stay. -/
structure Swapped (dst : Device) (m m' : BlockManager) (mapping mapping' : List (Block × Block))
    (seqs : List Sequence) : Prop where
  mapped : Mapped dst m'.entries mapping'
  grows : Extends mapping mapping'
  fresh : ∀ p ∈ mapping', p ∈ mapping ∨ m.entries p.2 = 0
  tables : ∀ s ∈ seqs, ∃ old new, m.blockTables.lookup s.seqId = some old ∧
    m'.blockTables.lookup s.seqId = some new ∧ (∀ b ∈ new, b.device = dst) ∧
    old.map (fun b => mapping'.lookup b) = new.map some
  others : ∀ id, (∀ s ∈ seqs, s.seqId ≠ id) → m'.blockTables.lookup id = m.blockTables.lookup id

theorem Inv.swapSeqs {src dst : Device} (hne : src ≠ dst) {seqs : List Sequence}
    {mapping mapping' : List (Block × Block)} (h : m.Inv cfg)
    (hnodup : (seqs.map Sequence.seqId).Nodup) (hon : TablesOn m src seqs)
    (hmapped : Mapped dst m.entries mapping)
    (hcall : seqs.foldlM (swapSeq src dst) (mapping, m) = some (mapping', m')) :
    m'.Inv cfg ∧ Swapped dst m m' mapping mapping' seqs := by
  induction seqs generalizing mapping m with
  | nil =>
    obtain ⟨rfl, rfl⟩ := Prod.mk.inj (Option.some.inj hcall)
    exact ⟨h, hmapped, fun _ _ hx => hx, fun _ hp => .inl hp,
      fun _ hs => (List.not_mem_nil hs).elim, fun _ _ => rfl⟩
  | cons s seqs ih =>
    obtain ⟨hs, hnodup⟩ := List.nodup_cons.mp hnodup
    rw [List.foldlM_cons] at hcall
    obtain ⟨⟨mapping₁, m₁⟩, hfirst, hcall⟩ := Option.bind_eq_some_iff.mp hcall
    obtain ⟨old, hold, hfirst⟩ := Option.bind_eq_some_iff.mp hfirst
    obtain ⟨⟨mapping₂, new, m₂⟩, hblocks, hfirst⟩ := Option.bind_eq_some_iff.mp hfirst
    obtain ⟨rfl, rfl⟩ := Prod.mk.inj (Option.some.inj hfirst)
    have hdevice := hon s List.mem_cons_self old hold
    obtain ⟨rest, hrest⟩ := exists_rest hold
    rw [hrest] at hmapped
    obtain ⟨new', hnew, hdst, hmap, hext, hfresh, hcounted, hmapped₂, hsame⟩ :=
      Counted.swapBlocks hne (hrest ▸ h.counted) hdevice (hmapped.without hne hdevice) hblocks
    rw [List.nil_append] at hnew
    subst hnew
    have hentries : (m₂.setTable s.seqId new).entries = rest + tally new := by
      have hset := entries_setTable_of_lookup new (hsame.blockTables_eq ▸ hold)
      rw [hsame.entries_eq, hrest, add_right_comm] at hset
      exact add_right_cancel hset
    have hlookup : ∀ id, (m₂.setTable s.seqId new).blockTables.lookup id =
        if id = s.seqId then some new else m.blockTables.lookup id := fun id =>
      (Dict.lookup_set _ _ _ _).trans (by rw [hsame.blockTables_eq])
    have hid : ∀ s' ∈ seqs, s'.seqId ≠ s.seqId := fun s' hs' heq =>
      hs (heq ▸ List.mem_map_of_mem (f := Sequence.seqId) hs')
    have hon' : TablesOn (m₂.setTable s.seqId new) src seqs := by
      intro s' hs' table htable
      rw [hlookup, if_neg (hid s' hs')] at htable
      exact hon s' (List.mem_cons_of_mem _ hs') table htable
    obtain ⟨hinv, hswapped⟩ := ih (h.setTable hsame hold hrest hcounted) hnodup hon'
      (hentries ▸ hmapped₂) hcall
    refine ⟨hinv, hswapped.mapped, fun x y hx => hswapped.grows x y (hext x y hx), fun p hp => ?_,
      fun s' hs' => ?_, fun id hall => ?_⟩
    · -- a block of the other device that the old table did not have was in no table
      have hdev := hswapped.mapped.device p hp
      have hzero : tally old p.2 = 0 := tally_eq_zero.mpr fun hin =>
        hne ((hdevice _ hin).symm.trans hdev)
      rcases hswapped.fresh p hp with hp | hunused
      · refine (hfresh p hp).imp id fun hunused => ?_
        rw [hrest, Pi.add_apply, hunused, hzero]
      · rw [hentries, Pi.add_apply] at hunused
        refine .inr ?_
        rw [hrest, Pi.add_apply, hzero, Nat.eq_zero_of_add_eq_zero_right hunused]
    · rcases List.mem_cons.mp hs' with rfl | hs'
      · refine ⟨old, new, hold, ?_, hdst, ?_⟩
        · rw [hswapped.others _ fun s' hs' => hid s' hs', hlookup, if_pos rfl]
        · -- what the mapping said of the old table it still says
          have hall : ∀ x ∈ old, mapping'.lookup x = mapping₂.lookup x := by
            intro x hx
            have hsome : mapping₂.lookup x ∈ new.map some :=
              hmap ▸ List.mem_map_of_mem (f := fun b => mapping₂.lookup b) hx
            obtain ⟨y, -, hy⟩ := List.mem_map.mp hsome
            rw [← hy, hswapped.grows x y hy.symm]
          rw [← hmap]
          exact List.map_congr_left hall
      · obtain ⟨old', new', hold', hnew', hdst', hmap'⟩ := hswapped.tables s' hs'
        rw [hlookup, if_neg (hid s' hs')] at hold'
        exact ⟨old', new', hold', hnew', hdst', hmap'⟩
    · rw [hswapped.others id fun s' hs' => hall s' (List.mem_cons_of_mem _ hs'), hlookup,
        if_neg fun heq => hall s List.mem_cons_self heq.symm]

theorem nodup_getSeqs {g : SequenceGroup} (h : (g.seqs.map Sequence.seqId).Nodup)
    (status : SequenceStatus) : ((g.getSeqs status).map Sequence.seqId).Nodup :=
  h.sublist (List.filter_sublist.map _)

/-- A group without a prefix whose tables are on the device they are swapped from. -/
structure Swappable (m : BlockManager) (g : SequenceGroup) (status : SequenceStatus) (src : Device) :
    Prop where
  no_prefix : g.pre = none
  ids_nodup : (g.seqs.map Sequence.seqId).Nodup
  on : TablesOn m src (g.getSeqs status)

theorem Inv.swapIn {g : SequenceGroup} {ret : List (Nat × Nat)} (h : m.Inv cfg)
    (hg : Swappable m g .swapped .cpu) (hcall : m.swapIn g = some (ret, m')) :
    ∃ mapping, ret = blockNumberMapping mapping ∧ m'.Inv cfg ∧
      Swapped .gpu m m' [] mapping (g.getSeqs .swapped) := by
  rw [BlockManager.swapIn, hg.no_prefix] at hcall
  obtain ⟨⟨mapping, m₁⟩, hseqs, hcall⟩ := Option.bind_eq_some_iff.mp hcall
  obtain ⟨rfl, rfl⟩ := Prod.mk.inj (Option.some.inj hcall)
  rw [swapInSeq_eq hg.no_prefix] at hseqs
  exact ⟨mapping, rfl, h.swapSeqs (by decide) (nodup_getSeqs hg.ids_nodup _) hg.on (.nil _ _) hseqs⟩

theorem Inv.swapOut {g : SequenceGroup} {ret : List (Nat × Nat)} (h : m.Inv cfg)
    (hg : Swappable m g .running .gpu) (hcall : m.swapOut g = some (ret, m')) :
    ∃ mapping, ret = blockNumberMapping mapping ∧ m'.Inv cfg ∧
      Swapped .cpu m m' [] mapping (g.getSeqs .running) := by
  rw [BlockManager.swapOut] at hcall
  obtain ⟨⟨mapping, m₁⟩, hseqs, hcall⟩ := Option.bind_eq_some_iff.mp hcall
  obtain ⟨rfl, rfl⟩ := Prod.mk.inj (Option.some.inj hcall)
  rw [swapOutSeq_eq hg.no_prefix] at hseqs
  exact ⟨mapping, rfl, h.swapSeqs (by decide) (nodup_getSeqs hg.ids_nodup _) hg.on (.nil _ _) hseqs⟩

/-! ## Freeing -/

theorem Counted.freeBlockTable {table : BlockTable} (h : m.Counted (c + tally table)) :
    ∃ m', m.freeBlockTable table = some m' ∧ m'.Counted c ∧ m.SameTables m' := by
  induction table generalizing m with
  | nil =>
    rw [tally_nil, add_zero] at h
    exact ⟨m, rfl, h, .refl m⟩
  | cons b table ih =>
    rw [tally_cons, add_comm (tally [b]), ← add_assoc] at h
    obtain ⟨m₁, hfree, hcounted, hsame⟩ := h.freeBlock rfl
    obtain ⟨m₂, hrest, hcounted', hsame'⟩ := ih hcounted
    refine ⟨m₂, ?_, hcounted', hsame.trans hsame'⟩
    rw [BlockManager.freeBlockTable, List.foldlM_cons, hfree]
    exact hrest

theorem Inv.free (h : m.Inv cfg) (seqId : Nat) :
    ∃ m', m.free seqId = some m' ∧ m'.Inv cfg ∧
      m'.blockTables = Dict.erase seqId m.blockTables ∧
      m'.actualGpuBlkRngEnd = m.actualGpuBlkRngEnd := by
  rw [BlockManager.free]
  cases hold : m.blockTables.lookup seqId with
  | none => exact ⟨m, rfl, h, (Dict.erase_of_not_mem (Dict.lookup_eq_none.mp hold)).symm, rfl⟩
  | some table =>
    have hentries := entries_erase hold
    obtain ⟨m₁, hfree, hcounted, hsame⟩ := Counted.freeBlockTable (hentries.symm ▸ h.counted)
    have htables : Dict.erase seqId m₁.blockTables = Dict.erase seqId m.blockTables := by
      rw [hsame.blockTables_eq]
    refine ⟨{ m₁ with blockTables := Dict.erase seqId m₁.blockTables }, ?_, ⟨?_, ?_, ?_⟩, htables,
      hsame.actualGpuBlkRngEnd_eq⟩
    · simp only [hfree]
      rfl
    · rw [htables]
      exact Dict.nodup_keys_erase h.keys_nodup _
    · rw [htables]
      exact hcounted.of_same rfl rfl rfl
    · exact hsame.actualGpuBlkRngEnd_eq ▸ h.end_mem

theorem Inv.reset (h : m.Inv cfg) : ∃ m', m.reset = some m' ∧ m'.Inv cfg := by
  have hfold : ∀ (tables : List (Nat × BlockTable)) (m : BlockManager),
      m.Counted (fun b => Dict.sum (fun table => tally table b) tables) →
      ∃ m', tables.foldlM (fun m p => m.freeBlockTable p.2) m = some m' ∧ m'.Counted 0 ∧
        m.SameTables m' := by
    intro tables
    induction tables with
    | nil => exact fun m hm => ⟨m, rfl, hm, .refl m⟩
    | cons p tables ih =>
      intro m hm
      have hsum : (fun b => Dict.sum (fun table => tally table b) (p :: tables)) =
          (fun b => Dict.sum (fun table => tally table b) tables) + tally p.2 := by
        funext b
        rw [Dict.sum_cons, Nat.add_comm]
        rfl
      obtain ⟨m₁, hfree, hcounted, hsame⟩ := Counted.freeBlockTable (hsum ▸ hm)
      obtain ⟨m₂, hrest, hcounted', hsame'⟩ := ih m₁ hcounted
      refine ⟨m₂, ?_, hcounted', hsame.trans hsame'⟩
      rw [List.foldlM_cons, hfree]
      exact hrest
  obtain ⟨m₁, hall, hcounted, hsame⟩ := hfold m.blockTables m h.counted
  refine ⟨{ m₁ with blockTables := [] }, ?_, .nil, hcounted.of_same rfl rfl rfl, ?_⟩
  · rw [BlockManager.reset, hall]
    rfl
  · exact hsame.actualGpuBlkRngEnd_eq ▸ h.end_mem

end BlockManager

end Mil.Blocks
