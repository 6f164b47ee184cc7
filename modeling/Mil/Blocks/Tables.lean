import Mil.Blocks.Represent
import Mil.Lib.FoldM

/-!
# What the calls do to the tables

A call of the manager changes the tables of the sequences it is about and no others, and the blocks
it puts there are GPU blocks. No prefix and no sliding window here. A prompt for which
`can_allocate` says `OK` is allocated.
-/

set_option autoImplicit false

namespace Mil.Blocks

open Mil.Lib

namespace BlockManager

variable {cfg : Config} {m m' : BlockManager} {g : SequenceGroup} {b : Block} {d : Device}

/-! ## Prompts -/

theorem allocateBlock_eq_none : m.allocateBlock d = none ↔ m.getNumFreeBlocks d = 0 := by
  unfold allocateBlock getNumFreeBlocks
  cases hlast : (m.freeBlocks d).getLast? with
  | none => simp [List.getLast?_eq_none_iff.mp hlast]
  | some b =>
    have hne : m.freeBlocks d ≠ [] := List.ne_nil_of_mem (List.mem_of_getLast? hlast)
    simp [hne]

/-- One block fewer is free afterwards. -/
theorem length_of_allocateBlock (hcall : m.allocateBlock d = some (b, m')) :
    m'.getNumFreeBlocks d + 1 = m.getNumFreeBlocks d := by
  unfold allocateBlock at hcall
  cases hlast : (m.freeBlocks d).getLast? with
  | none => simp [hlast] at hcall
  | some b' =>
    rw [hlast] at hcall
    obtain ⟨rfl, rfl⟩ := Prod.mk.inj (Option.some.inj hcall)
    have hpos : 0 < (m.freeBlocks d).length :=
      List.length_pos_of_mem (List.mem_of_getLast? hlast)
    show (Function.update m.freeBlocks d (m.freeBlocks d).dropLast d).length + 1 = _
    rw [Function.update_self, List.length_dropLast]
    exact Nat.sub_add_cancel hpos

theorem promptBlock_eq (hwindow : cfg.blockSlidingWindow = none) (idx : Nat) (table : BlockTable) :
    promptBlock cfg m idx table = m.allocateBlock .gpu := by
  rw [promptBlock, hwindow]

/-- There is a block for each logical block of the prompt. -/
theorem promptBlocks_isSome (hwindow : cfg.blockSlidingWindow = none) {count : Nat} (n idx : Nat)
    (table : BlockTable) (hfree : count ≤ m.getNumFreeBlocks .gpu) :
    (promptBlocks cfg n count idx table m).isSome := by
  induction count generalizing idx table m with
  | zero => rfl
  | succ count ih =>
    rw [promptBlocks, promptBlock_eq hwindow]
    cases hcall : m.allocateBlock .gpu with
    | none =>
      rw [allocateBlock_eq_none.mp hcall] at hfree
      exact absurd hfree (Nat.not_succ_le_zero _)
    | some p =>
      obtain ⟨b, m₁⟩ := p
      apply ih
      have hlength := length_of_allocateBlock hcall
      show count ≤ m₁.getNumFreeBlocks .gpu
      omega

/-- The blocks of a prompt are GPU blocks, and no table is changed yet. -/
theorem promptBlocks_tables (hwindow : cfg.blockSlidingWindow = none) {c : Block → Nat}
    (h : m.Counted c) {n count idx : Nat} (hn : 0 < n) {table table' : BlockTable}
    (hcall : promptBlocks cfg n count idx table m = some (table', m')) :
    (∀ b ∈ table', b ∈ table ∨ b.device = .gpu) ∧ m.SameTables m' ∧
      table'.length = table.length + count := by
  induction count generalizing idx table m c with
  | zero =>
    obtain ⟨rfl, rfl⟩ := Prod.mk.inj (Option.some.inj hcall)
    exact ⟨fun b hb => .inl hb, .refl m, rfl⟩
  | succ count ih =>
    rw [promptBlocks, promptBlock_eq hwindow] at hcall
    cases halloc : m.allocateBlock .gpu with
    | none => simp [halloc] at hcall
    | some p =>
      obtain ⟨b, m₁⟩ := p
      rw [halloc] at hcall
      obtain ⟨hdevice, -, hcounted, hsame⟩ := h.allocateBlock halloc
      have hpos : 0 < (c + tally [b]) b := by
        rw [Pi.add_apply, tally_singleton_self]
        exact Nat.succ_pos _
      obtain ⟨hmem, hsame', hlength⟩ := ih (hcounted.setRefCount hpos hn) hcall
      refine ⟨fun b' hb' => ?_, hsame.trans (.trans ⟨_, _, rfl⟩ hsame'), ?_⟩
      · rcases hmem b' hb' with hin | hgpu
        · refine (List.mem_append.mp hin).imp id fun hin => ?_
          rw [List.mem_singleton.mp hin]
          exact hdevice
        · exact .inr hgpu
      · rw [hlength, List.length_append, List.length_singleton]
        omega

theorem lookup_setTables (seqs : List Sequence) (table : BlockTable) (id : Nat) :
    (m.setTables seqs table).blockTables.lookup id =
      if id ∈ seqs.map Sequence.seqId then some table else m.blockTables.lookup id := by
  induction seqs generalizing m with
  | nil => rfl
  | cons s seqs ih =>
    show ((m.setTable s.seqId table).setTables seqs table).blockTables.lookup id = _
    rw [ih, List.map_cons]
    by_cases hmem : id ∈ seqs.map Sequence.seqId
    · rw [if_pos hmem, if_pos (List.mem_cons_of_mem _ hmem)]
    · rw [if_neg hmem]
      refine (Dict.lookup_set _ _ _ _).trans ?_
      simp [hmem]

/-- What `allocate` does to the tables: those of the waiting sequences become one table of GPU
blocks, as long as the prompt. -/
theorem allocate_tables (hwindow : cfg.blockSlidingWindow = none) (h : m.Inv cfg)
    (hpre : g.pre = none) (hcall : m.allocate cfg g = some m') :
    ∃ table : BlockTable, (∀ b ∈ table, b.device = .gpu) ∧
      (∀ q, (g.getSeqs .waiting).head? = some q →
        table.length = q.logicalTokenBlocks cfg.blockSize) ∧
      ∀ id, m'.blockTables.lookup id =
        if id ∈ (g.getSeqs .waiting).map Sequence.seqId then some table
        else m.blockTables.lookup id := by
  rw [allocate] at hcall
  obtain ⟨seq, hhead, hcall⟩ := Option.bind_eq_some_iff.mp hcall
  have hnoPrefix : m.allocatedPrefix g = none := by
    rw [allocatedPrefix, hpre]
    rfl
  simp only [hnoPrefix] at hcall
  obtain ⟨⟨table, m₁⟩, hprompt, hcall⟩ := Option.bind_eq_some_iff.mp hcall
  obtain rfl := Option.some.inj hcall
  have hpos : 0 < g.numSeqs := List.length_pos_of_mem
    (List.mem_filter.mp (List.mem_of_head? hhead)).1
  obtain ⟨hgpu, hsame, hlength⟩ := promptBlocks_tables hwindow h.counted hpos hprompt
  have hset : m₁.setPrefix g table = m₁ := by
    rw [setPrefix, hpre]
  refine ⟨table, fun b hb => (hgpu b hb).resolve_left List.not_mem_nil, fun q hq => ?_,
    fun id => ?_⟩
  · rw [hhead] at hq
    rw [hlength, ← Option.some.inj hq]
    exact Nat.zero_add _
  · show ((m₁.setPrefix g table).setTables (g.getSeqs .waiting) table).blockTables.lookup id = _
    rw [hset, lookup_setTables, hsame.blockTables_eq]

/-- A prompt that can be allocated is. -/
theorem allocate_isSome (hwindow : cfg.blockSlidingWindow = none) (hpre : g.pre = none)
    (hok : m.canAllocate cfg g = some .ok) : ∃ m', m.allocate cfg g = some m' := by
  have hnoPrefix : m.allocatedPrefix g = none := by
    rw [allocatedPrefix, hpre]
    rfl
  rw [canAllocate] at hok
  obtain ⟨seq, hhead, hok⟩ := Option.bind_eq_some_iff.mp hok
  simp only [hnoPrefix, hwindow] at hok
  have hfree : seq.logicalTokenBlocks cfg.blockSize ≤ m.getNumFreeBlocks .gpu := by
    split at hok
    · cases Option.some.inj hok
    · split at hok
      case isTrue hle => omega
      case isFalse => cases Option.some.inj hok
  obtain ⟨p, hp⟩ := Option.isSome_iff_exists.mp
    (promptBlocks_isSome hwindow g.numSeqs 0 [] hfree)
  rw [allocate, hhead]
  refine ⟨(p.2.setPrefix g p.1).setTables (g.getSeqs .waiting) p.1, ?_⟩
  simp only [Option.bind_eq_bind, Option.bind_some, hnoPrefix, hp]
  rfl

/-! ## Generation -/

/-- What `append_slot` does to the tables: only the one of the sequence changes, and it stays on the
GPU. -/
theorem copyOnWrite_tables {c : Block → Nat} (h : m.Counted c) {seqId : Nat} {table : BlockTable}
    {ret : Option (Nat × Nat)} (hcall : m.copyOnWrite seqId table = some (ret, m')) :
    ∃ new : BlockTable, (∀ b ∈ new, b ∈ table ∨ b.device = .gpu) ∧
      ∀ id, m'.blockTables.lookup id =
        if id = seqId then some new else m.blockTables.lookup id := by
  rw [copyOnWrite] at hcall
  obtain ⟨lastBlock, hlast, hcall⟩ := Option.bind_eq_some_iff.mp hcall
  split at hcall
  · cases hcall
  · split at hcall
    · obtain ⟨-, rfl⟩ := Prod.mk.inj (Option.some.inj hcall)
      exact ⟨table, fun b hb => .inl hb, fun id => Dict.lookup_set _ _ _ _⟩
    · obtain ⟨⟨newBlock, m₁⟩, halloc, hcall⟩ := Option.bind_eq_some_iff.mp hcall
      obtain ⟨m₂, hfree, hcall⟩ := Option.bind_eq_some_iff.mp hcall
      obtain ⟨-, rfl⟩ := Prod.mk.inj (Option.some.inj hcall)
      obtain ⟨hdevice, -, hcounted, hsame⟩ := h.allocateBlock halloc
      refine ⟨table.dropLast ++ [newBlock], fun b hb => ?_, fun id => ?_⟩
      · rcases List.mem_append.mp hb with hb | hb
        · exact .inl (List.dropLast_subset _ hb)
        · rw [List.mem_singleton.mp hb]
          exact .inr hdevice
      · have htables : m₂.blockTables = (m₁.setTable seqId
            (table.dropLast ++ [newBlock])).blockTables := by
          unfold freeBlock at hfree
          split at hfree
          · cases hfree
          · simp only at hfree
            split at hfree
            · exact (Option.some.inj hfree) ▸ rfl
            · exact (Option.some.inj hfree) ▸ rfl
        rw [htables]
        refine (Dict.lookup_set _ _ _ _).trans ?_
        rw [hsame.blockTables_eq]

theorem appendSlot_tables (hwindow : cfg.blockSlidingWindow = none) (h : m.Inv cfg) {s : Sequence}
    {ret : Option (Nat × Nat)} (hcall : m.appendSlot cfg s = some (ret, m')) :
    ∃ old new : BlockTable, m.blockTables.lookup s.seqId = some old ∧
      (∀ b ∈ new, b ∈ old ∨ b.device = .gpu) ∧
      ∀ id, m'.blockTables.lookup id =
        if id = s.seqId then some new else m.blockTables.lookup id := by
  rw [appendSlot] at hcall
  obtain ⟨table, htable, hcall⟩ := Option.bind_eq_some_iff.mp hcall
  refine ⟨table, ?_⟩
  split at hcall
  case isFalse =>
    obtain ⟨new, hnew, hlookup⟩ := copyOnWrite_tables h.counted hcall
    exact ⟨new, htable, hnew, hlookup⟩
  case isTrue =>
    simp only [hwindow, Option.getD_none, ne_eq, not_true_eq_false, false_and, if_false] at hcall
    obtain ⟨⟨b, m₁⟩, halloc, hcall⟩ := Option.bind_eq_some_iff.mp hcall
    obtain ⟨-, rfl⟩ := Prod.mk.inj (Option.some.inj hcall)
    obtain ⟨hdevice, -, -, hsame⟩ := h.counted.allocateBlock halloc
    refine ⟨table ++ [b], htable, fun b' hb' => ?_, fun id => ?_⟩
    · refine (List.mem_append.mp hb').imp id fun hb' => ?_
      rw [List.mem_singleton.mp hb']
      exact hdevice
    · refine (Dict.lookup_set _ _ _ _).trans ?_
      rw [hsame.blockTables_eq]

/-- A fork shares the table of the parent. -/
theorem fork_tables {parent child : Nat} (hcall : m.fork parent child = some m') :
    ∃ table, m.blockTables.lookup parent = some table ∧
      (∀ id, m'.blockTables.lookup id =
        if id = child then some table else m.blockTables.lookup id) ∧
      m'.cachedLayerNum = m.cachedLayerNum := by
  obtain ⟨table, htable, hcall⟩ := Option.bind_eq_some_iff.mp hcall
  obtain rfl := Option.some.inj hcall
  have hsame : ∀ (bs : List Block) (m : BlockManager), m.SameTables (m.addRefCounts bs 1) := by
    intro bs
    induction bs with
    | nil => exact SameTables.refl
    | cons b bs ih => exact fun m => .trans ⟨_, _, rfl⟩ (ih _)
  obtain ⟨r, f, heq⟩ := hsame table (m.setTable child table)
  refine ⟨table, htable, fun id => ?_, ?_⟩
  · show ((m.setTable child table).addRefCounts table 1).blockTables.lookup id = _
    rw [heq]
    exact Dict.lookup_set _ _ _ _
  · show ((m.setTable child table).addRefCounts table 1).cachedLayerNum = _
    rw [heq]
    rfl

theorem noWrap (hwindow : cfg.blockSlidingWindow = none) (s : Sequence) : NoWrap cfg m s :=
  fun _ _ hw => nomatch hwindow.symm.trans hw

/-! ## Retiring blocks -/

/-- The tables stay on their devices. -/
theorem reorganize_tables {n : Nat} {mapping : List (Int × Int)} (hinv : m.Inv cfg)
    (hmovable : Movable cfg m n) (hcall : m.reorganizeGpuBlocks cfg n = some (mapping, m'))
    {id : Nat} {table : BlockTable} (htable : m'.blockTables.lookup id = some table) :
    ∃ old, m.blockTables.lookup id = some old ∧
      ∀ d, (∀ b ∈ old, b.device = d) → ∀ b ∈ table, b.device = d := by
  have hr := reorganized_of_eq_some hcall
  rw [hr.lookup_eq] at htable
  obtain ⟨old, hold, rfl⟩ := Option.map_eq_some_iff.mp htable
  refine ⟨old, hold, fun d hd b hb => ?_⟩
  obtain ⟨a, ha, rfl⟩ := List.mem_map.mp hb
  cases hlook : (m.removeMapping cfg n).lookup (a.number : Int) with
  | none =>
    rw [moved_of_none hlook]
    exact hd a ha
  | some x =>
    rw [moved_of_some hlook, ← hd a ha]
    obtain ⟨hmem, htarget⟩ := mem_of_lookup_removeMapping hlook
    rw [(hmovable a hmem (entries_pos hold ha)).1]
    exact (hinv.target_free htarget).2.1

/-! ## The number of cached layers

Only a reorganization changes it. -/

theorem allocateBlock_cached (hcall : m.allocateBlock d = some (b, m')) :
    m'.cachedLayerNum = m.cachedLayerNum := by
  unfold allocateBlock at hcall
  split at hcall
  · cases hcall
  · obtain ⟨-, rfl⟩ := Prod.mk.inj (Option.some.inj hcall)
    rfl

theorem freeBlock_cached (hcall : m.freeBlock d b = some m') :
    m'.cachedLayerNum = m.cachedLayerNum := by
  unfold freeBlock at hcall
  split at hcall
  · cases hcall
  · simp only at hcall
    split at hcall
    · exact (Option.some.inj hcall) ▸ rfl
    · exact (Option.some.inj hcall) ▸ rfl

theorem promptBlocks_cached (hwindow : cfg.blockSlidingWindow = none) {n count idx : Nat}
    {table table' : BlockTable} (hcall : promptBlocks cfg n count idx table m = some (table', m')) :
    m'.cachedLayerNum = m.cachedLayerNum := by
  induction count generalizing idx table m with
  | zero =>
    obtain ⟨-, rfl⟩ := Prod.mk.inj (Option.some.inj hcall)
    rfl
  | succ count ih =>
    rw [promptBlocks, promptBlock_eq hwindow] at hcall
    split at hcall
    · cases hcall
    case h_2 b m₁ halloc =>
      have hrest := ih hcall
      have hblock : m₁.cachedLayerNum = m.cachedLayerNum := allocateBlock_cached halloc
      exact hrest.trans hblock

theorem setTables_cached (seqs : List Sequence) (table : BlockTable) :
    (m.setTables seqs table).cachedLayerNum = m.cachedLayerNum := by
  induction seqs generalizing m with
  | nil => rfl
  | cons s seqs ih => exact ih (m := m.setTable s.seqId table)

theorem allocate_cached (hwindow : cfg.blockSlidingWindow = none) (hpre : g.pre = none)
    (hcall : m.allocate cfg g = some m') : m'.cachedLayerNum = m.cachedLayerNum := by
  rw [allocate] at hcall
  obtain ⟨seq, -, hcall⟩ := Option.bind_eq_some_iff.mp hcall
  have hnoPrefix : m.allocatedPrefix g = none := by
    rw [allocatedPrefix, hpre]
    rfl
  simp only [hnoPrefix] at hcall
  obtain ⟨⟨table, m₁⟩, hprompt, hcall⟩ := Option.bind_eq_some_iff.mp hcall
  obtain rfl := Option.some.inj hcall
  have hset : m₁.setPrefix g table = m₁ := by
    rw [setPrefix, hpre]
  show ((m₁.setPrefix g table).setTables (g.getSeqs .waiting) table).cachedLayerNum = _
  rw [hset, setTables_cached, promptBlocks_cached hwindow hprompt]

theorem appendSlot_cached (hwindow : cfg.blockSlidingWindow = none) {s : Sequence}
    {ret : Option (Nat × Nat)} (hcall : m.appendSlot cfg s = some (ret, m')) :
    m'.cachedLayerNum = m.cachedLayerNum := by
  rw [appendSlot] at hcall
  obtain ⟨table, -, hcall⟩ := Option.bind_eq_some_iff.mp hcall
  split at hcall
  · simp only [hwindow, Option.getD_none, ne_eq, not_true_eq_false, false_and, if_false] at hcall
    obtain ⟨⟨b, m₁⟩, halloc, hcall⟩ := Option.bind_eq_some_iff.mp hcall
    obtain ⟨-, rfl⟩ := Prod.mk.inj (Option.some.inj hcall)
    show m₁.cachedLayerNum = m.cachedLayerNum
    exact allocateBlock_cached halloc
  · rw [copyOnWrite] at hcall
    obtain ⟨lastBlock, -, hcall⟩ := Option.bind_eq_some_iff.mp hcall
    split at hcall
    · cases hcall
    · split at hcall
      · obtain ⟨-, rfl⟩ := Prod.mk.inj (Option.some.inj hcall)
        rfl
      · obtain ⟨⟨newBlock, m₁⟩, halloc, hcall⟩ := Option.bind_eq_some_iff.mp hcall
        obtain ⟨m₂, hfree, hcall⟩ := Option.bind_eq_some_iff.mp hcall
        obtain ⟨-, rfl⟩ := Prod.mk.inj (Option.some.inj hcall)
        have hset := freeBlock_cached hfree
        have hblock : m₁.cachedLayerNum = m.cachedLayerNum := allocateBlock_cached halloc
        exact hset.trans hblock

theorem free_cached {seqId : Nat} (hcall : m.free seqId = some m') :
    m'.cachedLayerNum = m.cachedLayerNum := by
  unfold free at hcall
  split at hcall
  · exact (Option.some.inj hcall) ▸ rfl
  · obtain ⟨m₁, hfree, hcall⟩ := Option.bind_eq_some_iff.mp hcall
    obtain rfl := Option.some.inj hcall
    exact foldlM_inv (P := fun m₁ => m₁.cachedLayerNum = m.cachedLayerNum)
      (fun b _ m₁ m₂ h hcall => (freeBlock_cached hcall).trans h) rfl hfree

theorem swapBlock_cached {src dst : Device} {st st' : Swapping}
    (hcall : swapBlock src dst st b = some st') :
    st'.2.2.cachedLayerNum = st.2.2.cachedLayerNum := by
  obtain ⟨mapping, table, m⟩ := st
  unfold swapBlock at hcall
  simp only at hcall
  split at hcall
  · obtain ⟨m₁, hfree, hcall⟩ := Option.bind_eq_some_iff.mp hcall
    obtain rfl := Option.some.inj hcall
    have hset := freeBlock_cached hfree
    exact hset
  · obtain ⟨⟨b', m₁⟩, halloc, hcall⟩ := Option.bind_eq_some_iff.mp hcall
    obtain ⟨m₂, hfree, hcall⟩ := Option.bind_eq_some_iff.mp hcall
    obtain rfl := Option.some.inj hcall
    have hset : m₂.cachedLayerNum = m₁.cachedLayerNum := freeBlock_cached hfree
    exact hset.trans (allocateBlock_cached halloc)

theorem swapSeqs_cached {src dst : Device} {seqs : List Sequence}
    {mapping mapping' : List (Block × Block)}
    (hcall : seqs.foldlM (swapSeq src dst) (mapping, m) = some (mapping', m')) :
    m'.cachedLayerNum = m.cachedLayerNum := by
  refine foldlM_inv (P := fun st => st.2.cachedLayerNum = m.cachedLayerNum) ?_ rfl hcall
  intro s _ st st' h hseq
  obtain ⟨table, -, hseq⟩ := Option.bind_eq_some_iff.mp hseq
  obtain ⟨⟨mapping₁, new, m₁⟩, hblocks, hseq⟩ := Option.bind_eq_some_iff.mp hseq
  obtain rfl := Option.some.inj hseq
  exact foldlM_inv (P := fun st => st.2.2.cachedLayerNum = m.cachedLayerNum)
    (fun b _ t t' h hblock => (swapBlock_cached hblock).trans h) h hblocks

theorem swapIn_cached (hpre : g.pre = none) {ret : List (Nat × Nat)}
    (hcall : m.swapIn g = some (ret, m')) : m'.cachedLayerNum = m.cachedLayerNum := by
  rw [swapIn, hpre] at hcall
  obtain ⟨⟨mapping, m₁⟩, hseqs, hcall⟩ := Option.bind_eq_some_iff.mp hcall
  obtain ⟨-, rfl⟩ := Prod.mk.inj (Option.some.inj hcall)
  rw [swapInSeq_eq hpre] at hseqs
  exact swapSeqs_cached hseqs

theorem swapOut_cached (hpre : g.pre = none) {ret : List (Nat × Nat)}
    (hcall : m.swapOut g = some (ret, m')) : m'.cachedLayerNum = m.cachedLayerNum := by
  rw [swapOut] at hcall
  obtain ⟨⟨mapping, m₁⟩, hseqs, hcall⟩ := Option.bind_eq_some_iff.mp hcall
  obtain ⟨-, rfl⟩ := Prod.mk.inj (Option.some.inj hcall)
  rw [swapOutSeq_eq hpre] at hseqs
  exact swapSeqs_cached hseqs

theorem reorganize_cached {n : Nat} {mapping : List (Int × Int)}
    (hcall : m.reorganizeGpuBlocks cfg n = some (mapping, m')) :
    m'.cachedLayerNum = m.cachedLayerNum - n := by
  rw [(reorganized_of_eq_some hcall).state_eq, allocateGivenBlkIdxsInFreeList_eq]
  rfl

end BlockManager

end Mil.Blocks
