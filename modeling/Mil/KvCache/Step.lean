import Mil.KvCache.Moves

/-!
# The contents of the tables across a step

What a call of `_schedule` does to the contents of the tables, when its moves are carried out
afterwards. A table of a sequence that gets no slot holds what it held. A sequence that gets one
keeps what it had cached, has room for one more token, and has the block of that token to itself.
`Moved` says so of the moves collected so far; each call of the manager in the loops of `_schedule`
is one lemma, and the loops are inductions over their queues (`Progress`).
-/

set_option autoImplicit false

namespace Mil.Requests

open Mil.Lib Mil.Blocks Mil.Blocks.BlockManager

/-- A sequence has got its slot: its table starts with what it held, it is long enough, and its last
block is in no other table. -/
structure Slotted (cfg : Config) (m : BlockManager) (origin : Block → Block) (q : Sequence)
    (old new : BlockTable) : Prop where
  starts : old <+: new.map origin
  length_eq : new.length =
    if old.length < q.logicalTokenBlocks cfg.blocks.blockSize then old.length + 1 else old.length
  last : ∃ b, new.getLast? = some b ∧ m.Exclusive q.seqId b

/-- The moves collected so far, with `pending` the groups still to be dealt with and `done` the
sequences that have got their slots. -/
structure Moved (cfg : Config) (gs : List SequenceGroup) (m₀ : BlockManager) (src dst : Device)
    (pending : List SequenceGroup) (done : List Sequence) (st : Decode) : Prop where
  apart : Apart gs st.manager
  swaps : Swaps src dst st.manager pending (st.swaps src)
  one_way : st.swaps dst = []
  copies : Copies st.manager pending (copyMoves st.blocksToCopy)
  done_not : ∀ q ∈ done, q.seqId ∉ seqIds pending
  same : ∀ (id : Nat) (table : BlockTable), st.manager.blockTables.lookup id = some table →
    id ∉ done.map Sequence.seqId → m₀.blockTables.lookup id = some (table.map st.origin)
  slots : ∀ q ∈ done, ∃ old new, m₀.blockTables.lookup q.seqId = some old ∧
    st.manager.blockTables.lookup q.seqId = some new ∧ Slotted cfg st.manager st.origin q old new
  kept : ∀ id, m₀.blockTables.lookup id ≠ none → st.manager.blockTables.lookup id ≠ none ∨
    id ∈ seqIds st.waiting

variable {cfg : Config} {gs pending pending' : List SequenceGroup} {m₀ : BlockManager}
  {src dst : Device} {done : List Sequence} {st st' : Decode} {g : SequenceGroup}

theorem seqIds_subset_cons (g : SequenceGroup) (pending : List SequenceGroup) :
    ∀ id ∈ seqIds pending, id ∈ seqIds (g :: pending) := by
  intro id hid
  rw [seqIds_cons]
  exact List.mem_append_right _ hid

theorem Slotted.of_eq {m m' : BlockManager} {origin origin' : Block → Block} {q : Sequence}
    {old new : BlockTable} (h : Slotted cfg m origin q old new)
    (horigin : ∀ b ∈ new, origin' b = origin b)
    (hex : ∀ b ∈ new, m.Exclusive q.seqId b → m'.Exclusive q.seqId b) :
    Slotted cfg m' origin' q old new := by
  obtain ⟨b, hlast, hb⟩ := h.last
  refine ⟨?_, h.length_eq, b, hlast, hex b (List.mem_of_getLast? hlast) hb⟩
  rw [List.map_congr_left horigin]
  exact h.starts

/-- A block of a table is in use. -/
theorem used_of_mem {m : BlockManager} {id : Nat} {table : BlockTable} {b : Block}
    (htable : m.blockTables.lookup id = some table) (hb : b ∈ table) : ¬ m.Unused b :=
  fun hunused => hunused id table htable hb

namespace Moved

/-- Fewer groups are left to be dealt with. -/
theorem mono (h : Moved cfg gs m₀ src dst pending done st)
    (hsub : ∀ id ∈ seqIds pending', id ∈ seqIds pending) :
    Moved cfg gs m₀ src dst pending' done st :=
  { h with
    swaps := h.swaps.of_lookup (fun _ _ hused => hused) fun id hid => ⟨hsub id hid, rfl⟩
    copies := h.copies.of_lookup hsub (fun _ _ _ htable => htable) fun _ _ htable => .inl htable
    done_not := fun q hq hin => h.done_not q hq (hsub q.seqId hin) }

/-- The queue of the swapped groups does not matter. -/
theorem setSwapped (h : Moved cfg gs m₀ src dst pending done st) (swapped : List SequenceGroup) :
    Moved cfg gs m₀ src dst pending done { st with swapped := swapped } := by
  have hswaps : Decode.swaps { st with swapped := swapped } = st.swaps := by
    funext d
    cases d <;> rfl
  exact ⟨h.apart, hswaps ▸ h.swaps, hswaps ▸ h.one_way, h.copies, h.done_not, h.same, h.slots,
    h.kept⟩

/-- A sequence of the next group gives up its blocks, and its group waits. -/
theorem freed (h : Moved cfg gs m₀ src dst (g :: pending) done st) (hne : src ≠ dst) {id₀ : Nat}
    (hid₀ : id₀ ∈ g.seqs.map Sequence.seqId) (hnot : id₀ ∉ seqIds pending)
    (hon : ∀ table, st.manager.blockTables.lookup id₀ = some table → ∀ b ∈ table, b.device = src)
    (hlookup : ∀ id, st'.manager.blockTables.lookup id =
      if id = id₀ then none else st.manager.blockTables.lookup id)
    (hmoves : st'.swaps = st.swaps ∧ st'.blocksToCopy = st.blocksToCopy)
    (horigin : st'.origin = st.origin)
    (hwaiting : id₀ ∈ seqIds st'.waiting ∧ ∀ id ∈ seqIds st.waiting, id ∈ seqIds st'.waiting) :
    Moved cfg gs m₀ src dst pending done st' := by
  have hother : ∀ id, id ≠ id₀ →
      st'.manager.blockTables.lookup id = st.manager.blockTables.lookup id :=
    fun id hid => (hlookup id).trans (if_neg hid)
  have hold : ∀ (id : Nat) (table : BlockTable), st'.manager.blockTables.lookup id = some table →
      st.manager.blockTables.lookup id = some table := by
    intro id table htable
    rw [hlookup] at htable
    exact (Option.ite_none_left_eq_some.mp htable).2
  have hdone : ∀ id, id ∉ seqIds (g :: pending) → id ≠ id₀ := by
    rintro id hid rfl
    rw [seqIds_cons, List.mem_append, not_or] at hid
    exact hid.1 hid₀
  refine ⟨h.apart.of_lookup hold, ?_, hmoves.1 ▸ h.one_way, ?_, fun q hq hin =>
    h.done_not q hq (seqIds_subset_cons g pending _ hin), fun id table htable hid => ?_,
    fun q hq => ?_, fun id hid => ?_⟩
  · rw [hmoves.1]
    refine h.swaps.of_lookup (fun b hb hused hunused => ?_) fun id hid => ?_
    · refine hused fun id table htable hmem => ?_
      by_cases hid : id = id₀
      · exact hne ((hon table (hid ▸ htable) b hmem).symm.trans hb)
      · exact hunused id table ((hother id hid).trans htable) hmem
    · exact ⟨seqIds_subset_cons g pending id hid, hother id fun heq => hnot (heq ▸ hid)⟩
  · rw [hmoves.2]
    refine h.copies.of_lookup (seqIds_subset_cons g pending) (fun id table hid htable => ?_)
      fun id table htable => .inl (hold id table htable)
    exact (hother id (hdone id hid)).trans htable
  · rw [horigin]
    exact h.same id table (hold id table htable) hid
  · obtain ⟨old, new, hold₀, hnew, hslot⟩ := h.slots q hq
    refine ⟨old, new, hold₀, (hother _ (hdone _ (h.done_not q hq))).trans hnew, ?_⟩
    refine hslot.of_eq (fun b _ => by rw [horigin]) fun b _ hex id table htable => ?_
    exact hex id table (hold id table htable)
  · by_cases heq : id = id₀
    · exact .inr (heq ▸ hwaiting.1)
    · exact (h.kept id hid).imp (hother id heq ▸ ·) (hwaiting.2 id)

/-- The next group is swapped. -/
theorem relocated (h : Moved cfg gs m₀ src dst (g :: pending) done st) (hne : src ≠ dst)
    (hgroups : GroupsOf gs (g :: pending)) (hids : (seqIds (g :: pending)).Nodup)
    {status : SequenceStatus} (hon : TablesOn st.manager src (g.getSeqs status))
    {moves : List (Block × Block)}
    (hr : Relocated src dst st.manager st'.manager (g.getSeqs status) moves)
    (hswaps : st'.swaps src = st.swaps src ++ moves.map fun p => (p.1.number, p.2.number))
    (hone : st'.swaps dst = []) (hcopy : st'.blocksToCopy = st.blocksToCopy)
    (hwaiting : st'.waiting = st.waiting) : Moved cfg gs m₀ src dst pending done st' := by
  have hs := h.swaps.relocated h.apart hgroups hids hne hon hr
  rw [← hswaps] at hs
  obtain ⟨hmoved, hkept⟩ := origin_relocated hne h.one_way hone hswaps hcopy hs h.copies h.apart
    hgroups hr
  -- the sequences that have their slots are in none of the groups still to be dealt with
  have hother : ∀ id, id ∉ seqIds (g :: pending) →
      st'.manager.blockTables.lookup id = st.manager.blockTables.lookup id := by
    intro id hid
    rw [seqIds_cons, List.mem_append, not_or] at hid
    exact lookup_eq_of_relocated hr hid.1
  refine ⟨h.apart.relocated hr, hs, hone, hcopy ▸ h.copies.relocated hr, fun q hq hin =>
    h.done_not q hq (seqIds_subset_cons g pending _ hin), fun id table htable hid => ?_,
    fun q hq => ?_, fun id hid => ?_⟩
  · rcases hr.cases htable with ⟨hold, -⟩ | ⟨s, -, -, old, hold, hmoves⟩
    · rw [List.map_congr_left fun b hb => hkept b (used_of_mem hold hb)]
      exact h.same id table hold hid
    · have heq : table.map st'.origin = old.map st.origin := by
        clear htable hold
        induction hmoves with
        | nil => rfl
        | cons hmove _ ih => rw [List.map_cons, List.map_cons, ih, hmoved _ hmove]
      rw [heq]
      exact h.same id old hold hid
  · obtain ⟨old, new, hold₀, hnew, hslot⟩ := h.slots q hq
    refine ⟨old, new, hold₀, (hother _ (h.done_not q hq)).trans hnew, ?_⟩
    refine hslot.of_eq (fun b hb => hkept b (used_of_mem hnew hb)) ?_
    intro b hb hex id table htable hin
    rcases hr.cases htable with ⟨hold, -⟩ | ⟨s, -, -, old', -, hmoves⟩
    · exact hex id table hold hin
    · obtain ⟨a, -, hmove⟩ := Relocated.exists_source hmoves hin
      exact absurd hb ((hr.target _ hmove).2 _ _ hnew)
  · rw [hwaiting]
    refine (h.kept id hid).imp_left fun hsome => ?_
    by_cases hmine : ∃ s ∈ g.getSeqs status, s.seqId = id
    · obtain ⟨s, hs, rfl⟩ := hmine
      obtain ⟨old, new, -, hnew, -⟩ := hr.tables s hs
      rw [hnew]
      exact Option.some_ne_none new
    · rw [hr.others id fun s hs heq => hmine ⟨s, hs, heq⟩]
      exact hsome

/-- A sequence gets its slot. -/
theorem appended (h : Moved cfg gs m₀ src dst pending done st) (hgroups : GroupsOf gs pending)
    {q : Sequence} (hq : q.seqId ∉ seqIds pending) (hdone : q.seqId ∉ done.map Sequence.seqId)
    {old new : BlockTable} {ret : Option (Nat × Nat)}
    (hold : st.manager.blockTables.lookup q.seqId = some old)
    (happended : Appended cfg.blocks st.manager q old new ret) {m' : BlockManager}
    (hlookup : ∀ id, m'.blockTables.lookup id =
      if id = q.seqId then some new else st.manager.blockTables.lookup id)
    (hst : st' = { st with
      manager := m', blocksToCopy := ret.elim st.blocksToCopy (addCopy st.blocksToCopy) }) :
    Moved cfg gs m₀ src dst pending (done ++ [q]) st' := by
  have hcopies := h.copies.appended hold happended hlookup h.apart hgroups hq
  have hm : st'.manager = m' := by rw [hst]
  have hmoves : st'.swaps = st.swaps := by
    rw [hst]
    funext d
    cases d <;> rfl
  have hcopy : st'.blocksToCopy = ret.elim st.blocksToCopy (addCopy st.blocksToCopy) := by rw [hst]
  rw [← hcopy] at hcopies
  -- where the contents come from: the new block gets a copy, if one is made
  obtain ⟨horigin, hsame⟩ : (∀ b, ¬ st.manager.Unused b → st'.origin b = st.origin b) ∧
      old.map st.origin <+: new.map st'.origin := by
    have hmem : ∀ b ∈ old, ¬ st.manager.Unused b := fun b hb => used_of_mem hold hb
    cases happended with
    | grown _ _ _ =>
      have heq : st'.origin = st.origin := by rw [hst]; rfl
      rw [heq, List.map_append]
      exact ⟨fun _ _ => rfl, List.prefix_append _ _⟩
    | own _ _ _ =>
      have heq : st'.origin = st.origin := by rw [hst]; rfl
      rw [heq]
      exact ⟨fun _ _ => rfl, List.prefix_refl _⟩
    | @copied front last b _ htable hgpu hgpu' hunused _ =>
      have hlast : ((⟨.gpu, last.number⟩ : Block) = last) := hgpu ▸ rfl
      have hnew : ((⟨.gpu, b.number⟩ : Block) = b) := hgpu' ▸ rfl
      have hcopy : st' = { st with
          manager := st'.manager
          blocksToCopy := addCopy st.blocksToCopy (last.number, b.number) } := by
        rw [hst]
        rfl
      obtain ⟨hcopied, hrest⟩ := origin_addCopy hcopies.independent hcopy
      rw [hlast, hnew] at hcopied
      rw [hnew] at hrest
      have hkept : ∀ x, ¬ st.manager.Unused x → st'.origin x = st.origin x := by
        intro x hx
        refine hrest x fun heq => hx (heq ▸ hunused)
      refine ⟨hkept, ?_⟩
      rw [htable, List.map_append, List.map_append, List.map_singleton, List.map_singleton, hcopied]
      rw [List.map_congr_left fun x hx =>
        hkept x (hmem x (htable ▸ List.mem_append_left _ hx))]
  have hothers : ∀ id, id ≠ q.seqId →
      m'.blockTables.lookup id = st.manager.blockTables.lookup id := fun id hid =>
    (hlookup id).trans (if_neg hid)
  refine ⟨?_, ?_, hmoves ▸ h.one_way, hm ▸ hcopies, fun q' hq' => ?_, fun id table htable hid => ?_,
    fun q' hq' => ?_, fun id hid => ?_⟩
  · rw [hm]
    exact h.apart.appended hold happended hlookup
  · rw [hm, hmoves]
    exact h.swaps.appended hold happended hlookup hq
  · rcases List.mem_append.mp hq' with hq' | hq'
    · exact h.done_not q' hq'
    · rw [List.mem_singleton.mp hq']
      exact hq
  · rw [List.map_append, List.mem_append, not_or] at hid
    have hne : id ≠ q.seqId := fun heq => hid.2 (heq ▸ .head _)
    rw [hm, hothers id hne] at htable
    rw [List.map_congr_left fun b hb => horigin b (used_of_mem htable hb)]
    exact h.same id table htable hid.1
  · rw [hm]
    rcases List.mem_append.mp hq' with hq' | hq'
    · obtain ⟨old', new', hold', hnew', hslot⟩ := h.slots q' hq'
      have hne : q'.seqId ≠ q.seqId := fun heq => hdone (heq ▸ List.mem_map_of_mem hq')
      refine ⟨old', new', hold', (hothers _ hne).trans hnew', ?_⟩
      exact hslot.of_eq (fun b hb => horigin b (used_of_mem hnew' hb)) fun b hb hex =>
        exclusive_appended hold happended hlookup hnew' hb hex
    · rw [List.mem_singleton.mp hq']
      refine ⟨_, new, h.same q.seqId old hold hdone, lookup_appended hlookup, hsame, ?_, ?_⟩
      · rw [List.length_map]
        cases happended with
        | grown hlt _ _ => rw [if_pos hlt, List.length_append, List.length_singleton]
        | own hle _ _ => rw [if_neg (Nat.not_lt_of_le hle)]
        | copied hle htable _ _ _ _ =>
          rw [if_neg (Nat.not_lt_of_le hle), htable, List.length_append, List.length_append]
          rfl
      · cases happended with
        | @grown b _ _ hunused =>
          exact ⟨b, List.getLast?_concat, exclusive_of_unused hlookup hunused⟩
        | own hle hlast hex =>
          exact ⟨_, hlast, exclusive_appended hold (.own hle hlast hex) hlookup hold
            (List.mem_of_getLast? hlast) hex⟩
        | @copied front last b _ _ _ _ hunused _ =>
          exact ⟨b, List.getLast?_concat, exclusive_of_unused hlookup hunused⟩
  · rw [hm]
    have hwaiting : st'.waiting = st.waiting := by rw [hst]
    rw [hwaiting]
    refine (h.kept id hid).imp_left fun hsome => ?_
    rw [hlookup]
    split
    · exact Option.some_ne_none new
    · exact hsome

end Moved

end Mil.Requests
