import Mil.KvCache.Engine

/-!
# The paged cache is right in every run

In every reachable state of the engine each table holds, for the tokens of its sequence, the entries
that a pass over all of them would compute (`Inv.tables`): of all tokens when the sequence has just
run, and of all but the last one otherwise. A step of the scheduler moves the entries with the tables
(`Stepped.held`) and gives each sequence that runs a slot of its own, so the pass over the paged cache
computes what a pass from scratch does (`execute_computes`).
-/

set_option autoImplicit false

namespace Mil.Requests

open Mil.Lib Mil.Blocks Mil.Blocks.BlockManager Mil.KvCache

variable {Hidden Entry : Type} {M : Decoder Hidden Entry} {cfg : Config}

/-! ## What a table holds -/

/-- The table is no longer than the tokens need, and the entries of the first positions are in its
blocks. -/
structure Held (M : Decoder Hidden Entry) (blockSize : Nat) (tokens : List Nat)
    (cache : Block → Nat → Nat → Entry) (table : BlockTable) (count : Nat) : Prop where
  length_le : table.length ≤ (tokens.length + blockSize - 1) / blockSize
  cached : ∀ p < count, ∃ b, table[p / blockSize]? = some b ∧
    ∀ layer < M.numLayers, cache b layer (p % blockSize) = M.entry tokens layer p

section Held

variable {blockSize count p n : Nat} {tokens tokens' : List Nat}
  {cache cache' : Block → Nat → Nat → Entry} {table table' : BlockTable}

/-- A position is in one of the blocks that the tokens need. -/
theorem div_lt_blocks (hsize : 0 < blockSize) (hp : p < n) :
    p / blockSize < (n + blockSize - 1) / blockSize := by
  apply Nat.lt_of_succ_le
  rw [Nat.le_div_iff_mul_le hsize, Nat.succ_mul]
  have hle := Nat.div_mul_le_self p blockSize
  omega

/-- A table that has all positions but the last one needs at most one more block. -/
theorem blocks_le_succ (hsize : 0 < blockSize) {blocks : Nat} (h : n - 1 ≤ blocks * blockSize) :
    (n + blockSize - 1) / blockSize ≤ blocks + 1 := by
  apply Nat.le_of_lt_succ
  apply Nat.div_lt_of_lt_mul
  rw [Nat.mul_comm, Nat.succ_mul, Nat.succ_mul]
  omega

/-- The last position is in the last block. -/
theorem div_eq_blocks (hsize : 0 < blockSize) (hn : 0 < n) :
    (n - 1) / blockSize = (n + blockSize - 1) / blockSize - 1 := by
  have heq : n + blockSize - 1 = (n - 1) + blockSize := by omega
  rw [heq, Nat.add_div_right _ hsize]
  rfl

namespace Held

theorem mono (h : Held M blockSize tokens cache table count) {count' : Nat}
    (hle : count' ≤ count) : Held M blockSize tokens cache table count' :=
  ⟨h.length_le, fun p hp => h.cached p (Nat.lt_of_lt_of_le hp hle)⟩

theorem count_le (hsize : 0 < blockSize) (h : Held M blockSize tokens cache table count) :
    count ≤ table.length * blockSize := by
  rcases Nat.eq_zero_or_pos count with rfl | hpos
  · exact Nat.zero_le _
  · obtain ⟨b, hb, -⟩ := h.cached (count - 1) (Nat.sub_one_lt_of_lt hpos)
    have hlt : (count - 1) / blockSize < table.length := (List.getElem?_eq_some_iff.mp hb).1
    rw [Nat.div_lt_iff_lt_mul hsize] at hlt
    omega

/-- The contents of the table have moved with it, and there may be more of them. -/
theorem of_starts (h : Held M blockSize tokens cache table count)
    (hstarts : table.map cache <+: table'.map cache')
    (hlength : table'.length ≤ (tokens.length + blockSize - 1) / blockSize) :
    Held M blockSize tokens cache' table' count := by
  refine ⟨hlength, fun p hp => ?_⟩
  obtain ⟨b, hb, hentry⟩ := h.cached p hp
  have hold : (table.map cache)[p / blockSize]? = some (cache b) := by
    rw [List.getElem?_map, hb]
    rfl
  obtain ⟨rest, hrest⟩ := hstarts
  have hnew : (table'.map cache')[p / blockSize]? = some (cache b) := by
    rw [← hrest, List.getElem?_append_left (List.getElem?_eq_some_iff.mp hold).1]
    exact hold
  rw [List.getElem?_map] at hnew
  obtain ⟨b', hb', heq⟩ := Option.map_eq_some_iff.mp hnew
  exact ⟨b', hb', fun layer hlayer => heq ▸ hentry layer hlayer⟩

/-- Other tokens with the same entries, and other contents of other blocks. -/
theorem of_eq (h : Held M blockSize tokens cache table count)
    (hlength : tokens.length ≤ tokens'.length)
    (hentry : ∀ p < count, ∀ layer, M.entry tokens' layer p = M.entry tokens layer p)
    (hcache : ∀ b ∈ table, cache' b = cache b) : Held M blockSize tokens' cache' table count := by
  refine ⟨h.length_le.trans (Nat.div_le_div_right (by omega)), fun p hp => ?_⟩
  obtain ⟨b, hb, hold⟩ := h.cached p hp
  refine ⟨b, hb, fun layer hlayer => ?_⟩
  rw [hcache b (List.mem_of_getElem? hb), hentry p hp]
  exact hold layer hlayer

/-- What the metadata says of a table on the GPU. -/
theorem toCached (h : Held M blockSize tokens cache table count)
    (hgpu : ∀ b ∈ table, b.device = .gpu) :
    Cached M blockSize (fun n => cache ⟨.gpu, n⟩) ⟨tokens, table.map Block.number⟩ count := by
  intro p hp
  obtain ⟨b, hb, hentry⟩ := h.cached p hp
  have heq : (⟨.gpu, b.number⟩ : Block) = b := hgpu b (List.mem_of_getElem? hb) ▸ rfl
  refine ⟨b.number, ?_, fun layer hlayer => ?_⟩
  · show (table.map Block.number)[p / blockSize]? = _
    rw [List.getElem?_map, hb]
    rfl
  · show cache ⟨.gpu, b.number⟩ layer (p % blockSize) = _
    rw [heq]
    exact hentry layer hlayer

/-- What the model has cached. -/
theorem of_cached {gpu : Cache Entry}
    (hlength : table.length ≤ (tokens.length + blockSize - 1) / blockSize)
    (hgpu : ∀ b ∈ table, b.device = .gpu)
    (h : Cached M blockSize gpu ⟨tokens, table.map Block.number⟩ count) :
    Held M blockSize tokens (setGpu cache gpu) table count := by
  refine ⟨hlength, fun p hp => ?_⟩
  obtain ⟨n, hn, hentry⟩ := h p hp
  have hn : (table.map Block.number)[p / blockSize]? = some n := hn
  rw [List.getElem?_map] at hn
  obtain ⟨b, hb, rfl⟩ := Option.map_eq_some_iff.mp hn
  refine ⟨b, hb, fun layer hlayer => ?_⟩
  have heq : b = ⟨.gpu, b.number⟩ := hgpu b (List.mem_of_getElem? hb) ▸ rfl
  rw [heq]
  exact hentry layer hlayer

end Held

end Held

/-! ## The invariant -/

/-- The invariant of the engine: that of the scheduler, the sequences have as many tokens as the
scheduler counts, and the tables hold the entries of their sequences. -/
structure Engine.Inv (M : Decoder Hidden Entry) (cfg : Config) (e : Engine Entry) : Prop where
  owned : e.scheduler.Owned cfg
  apart : e.scheduler.Apart
  sized : ∀ g ∈ e.scheduler.groups, ∀ q ∈ g.seqs,
    (e.tokens q.seqId).length = q.len ∧ 0 < q.len
  tables : ∀ (id : Nat) (table : BlockTable),
    e.scheduler.manager.blockTables.lookup id = some table →
    Held M cfg.blocks.blockSize (e.tokens id) e.cache table
      (if id ∈ e.sampled then (e.tokens id).length else (e.tokens id).length - 1)

theorem Engine.Inv.held {e : Engine Entry} (h : e.Inv M cfg) {id : Nat} {table : BlockTable}
    (htable : e.scheduler.manager.blockTables.lookup id = some table) :
    Held M cfg.blocks.blockSize (e.tokens id) e.cache table ((e.tokens id).length - 1) := by
  refine (h.tables id table htable).mono ?_
  split
  · exact Nat.sub_le _ _
  · exact Nat.le_refl _

/-! ## A step of the scheduler -/

section Scheduled

variable {s' : Scheduler} {outputs : SchedulerOutputs} {copies : List (Block × Block)}
  {e : Engine Entry} {tables : List (Nat × List Nat)}

/-- The groups after a call have the sequences of groups before it. -/
theorem mem_groups_schedule {s₀ : Scheduler}
    (hcall : s₀.schedule cfg = some (tables, outputs, s')) {g' : SequenceGroup}
    (hg' : g' ∈ s'.groups) {q' : Sequence} (hq' : q' ∈ g'.seqs) :
    ∃ g ∈ s₀.groups, ∃ q ∈ g.seqs, q.seqId = q'.seqId ∧ q.len = q'.len := by
  have hcontents : contents s₀.groups =
      contents s'.groups + contents outputs.ignoredSeqGroups := by
    have hconserved := schedule_conserves hcall
    simp only [Scheduler.contents, ← contents_append] at hconserved
    rw [← contents_append]
    exact hconserved
  have hmem : content g' ∈ contents s₀.groups := by
    rw [hcontents]
    exact Multiset.mem_add.mpr (.inl (mem_contents hg'))
  obtain ⟨g, hg, heq⟩ := List.mem_map.mp (Multiset.mem_coe.mp hmem)
  have hseqs : (q'.seqId, q'.len) ∈ g.seqs.map fun q => (q.seqId, q.len) := by
    rw [show (g.seqs.map fun q => (q.seqId, q.len)) = _ from congrArg Prod.snd heq]
    exact List.mem_map_of_mem hq'
  obtain ⟨q, hq, hpair⟩ := List.mem_map.mp hseqs
  obtain ⟨hid, hlen⟩ := Prod.mk.inj hpair
  exact ⟨g, hg, q, hq, hid, hlen⟩

theorem sized_schedule (h : e.Inv M cfg)
    (hcall : e.scheduler.schedule cfg = some (tables, outputs, s')) :
    ∀ g ∈ s'.groups, ∀ q ∈ g.seqs, (e.tokens q.seqId).length = q.len ∧ 0 < q.len := by
  intro g' hg' q' hq'
  obtain ⟨g, hg, q, hq, hid, hlen⟩ := mem_groups_schedule hcall hg' hq'
  rw [← hid, ← hlen]
  exact h.sized g hg q hq

/-- What is scheduled is running afterwards. -/
theorem scheduled_running (hcall : e.scheduler.schedule cfg = some (tables, outputs, s')) :
    ∀ g ∈ outputs.scheduledSeqGroups, g ∈ s'.running := by
  intro g hg
  rcases schedule_run hcall with ⟨taken, admitted, ignored, h⟩ | ⟨kept, preempted, back, h⟩
  · rw [h.scheduled, ← (perm_sortByRequestId cfg _).mem_iff] at hg
    rw [h.running]
    exact List.mem_append_right _ hg
  · rw [h.scheduled] at hg
    exact (perm_sortByRequestId cfg _).mem_iff.mpr hg

/-- What the model finds of a sequence that runs: a table with room for all its tokens, which holds
the entries of the tokens before the first one that is computed, and in which the blocks that are
written are in no other table. -/
structure Fed (M : Decoder Hidden Entry) (cfg : Config) (tokens : List Nat)
    (cache : Block → Nat → Nat → Entry) (m : BlockManager) (isPrompt : Bool) (id : Nat)
    (table : BlockTable) : Prop where
  lookup : m.blockTables.lookup id = some table
  length_eq : table.length = (tokens.length + cfg.blocks.blockSize - 1) / cfg.blocks.blockSize
  held : Held M cfg.blocks.blockSize tokens cache table (if isPrompt then 0 else tokens.length - 1)
  exclusive : ∀ p < tokens.length, (if isPrompt then 0 else tokens.length - 1) ≤ p →
    ∀ b, table[p / cfg.blocks.blockSize]? = some b → m.Exclusive id b

/-- What a call of the scheduler prepares. -/
theorem Stepped.fed (hsize : 0 < cfg.blocks.blockSize) (h : e.Inv M cfg)
    (hstepped : Stepped cfg e.scheduler s' outputs)
    (hsized : ∀ q ∈ runningSeqs outputs.scheduledSeqGroups,
      (e.tokens q.seqId).length = q.len ∧ 0 < q.len)
    (hcopies : (copyMoves outputs.blocksToCopy).Perm copies) :
    ∀ q ∈ runningSeqs outputs.scheduledSeqGroups, ∃ table,
      Fed M cfg (e.tokens q.seqId) (cacheSwap outputs copies e.cache) s'.manager outputs.promptRun
        q.seqId table := by
  intro q hq
  obtain ⟨hlen, hpos⟩ := hsized q hq
  have hcontents := fun {id : Nat} {table table' : BlockTable} =>
    @Stepped.contents _ _ _ _ _ hstepped _ hcopies e.cache id table table'
  cases hstepped with
  | prompt hadmitted hs hscheduled hprompt _ =>
    subst hs
    rw [hscheduled, mem_runningSeqs_sortByRequestId] at hq
    obtain ⟨table, htable, hlength, hblocks⟩ := hadmitted.new q hq
    rw [hprompt]
    have hlength : table.length =
        ((e.tokens q.seqId).length + cfg.blocks.blockSize - 1) / cfg.blocks.blockSize :=
      hlen.symm ▸ hlength
    exact ⟨table, htable, hlength, ⟨hlength.le, fun p hp => absurd hp (Nat.not_lt_zero p)⟩,
      fun p _ _ b hb => (hblocks b (List.mem_of_getElem? hb)).2⟩
  | decode hprogress hs hscheduled hprompt _ =>
    rw [hscheduled, mem_runningSeqs_sortByRequestId] at hq
    obtain ⟨old, new, hold, hnew, hslot⟩ := hprogress.moved.slots q hq
    have hheld := h.held hold
    have hlookup : s'.manager.blockTables.lookup q.seqId = some new := by
      rw [hs]
      exact hnew
    rw [hprompt]
    have hlength : new.length =
        ((e.tokens q.seqId).length + cfg.blocks.blockSize - 1) / cfg.blocks.blockSize := by
      have hle := hheld.length_le
      have hge := blocks_le_succ hsize (hheld.count_le hsize)
      have heq := hslot.length_eq
      rw [Sequence.logicalTokenBlocks, ← hlen] at heq
      split at heq <;> omega
    refine ⟨new, hlookup, hlength, hheld.of_starts (hcontents hold hlookup) hlength.le,
      fun p hp hle b hb => ?_⟩
    -- the position written is the last one, which is in the last block
    have hp : p = (e.tokens q.seqId).length - 1 := by
      rw [if_neg Bool.false_ne_true] at hle
      omega
    obtain ⟨last, hlast, hex⟩ := hslot.last
    rw [hp, div_eq_blocks hsize (hlen ▸ hpos), ← hlength, ← List.getLast?_eq_getElem?, hlast] at hb
    obtain rfl := Option.some.inj hb
    rw [hs]
    exact hex

/-- Tables of sequences that do not run hold what they held. -/
theorem Stepped.held (h : e.Inv M cfg) (hstepped : Stepped cfg e.scheduler s' outputs)
    (hcopies : (copyMoves outputs.blocksToCopy).Perm copies) {id : Nat} {table : BlockTable}
    (htable : s'.manager.blockTables.lookup id = some table)
    (hid : id ∉ (runningSeqs outputs.scheduledSeqGroups).map Sequence.seqId) :
    Held M cfg.blocks.blockSize (e.tokens id) (cacheSwap outputs copies e.cache) table
      ((e.tokens id).length - 1) := by
  obtain ⟨old, hold, hlength⟩ : ∃ old, e.scheduler.manager.blockTables.lookup id = some old ∧
      old.length = table.length := by
    cases hstepped with
    | prompt hadmitted hs hscheduled _ _ =>
      subst hs
      rcases hadmitted.only id table htable with hold | ⟨q, hq, rfl⟩
      · exact ⟨table, hold, rfl⟩
      · refine absurd (List.mem_map_of_mem ?_) hid
        rw [hscheduled]
        exact mem_runningSeqs_sortByRequestId.mpr hq
    | decode hprogress hs hscheduled _ _ =>
      rw [hs] at htable
      have hid : id ∉ (runningSeqs s'.running).map Sequence.seqId := by
        intro hin
        obtain ⟨q, hq, rfl⟩ := List.mem_map.mp hin
        refine hid (List.mem_map_of_mem ?_)
        rw [hscheduled]
        exact mem_runningSeqs_sortByRequestId.mpr hq
      exact ⟨_, hprogress.moved.same id table htable hid, List.length_map _⟩
  have hheld := h.held hold
  exact hheld.of_starts (hstepped.contents hcopies e.cache hold htable) (hlength ▸ hheld.length_le)

/-! ## A step of the model -/

/-- The table of a sequence. -/
def Scheduler.tableOf (s : Scheduler) (id : Nat) : BlockTable :=
  (s.manager.blockTables.lookup id).getD []

/-- The metadata: the running sequences of the groups that are scheduled, with their tables. -/
theorem blockTables_eq {gs : List SequenceGroup} (h : s'.blockTables gs = some tables) :
    tables = ((runningSeqs gs).map Sequence.seqId).map fun id =>
      (id, (s'.tableOf id).map Block.number) := by
  have hforall := forall₂_of_mapM h
  have hseqs : (gs.flatMap fun g => g.getSeqs .running) = runningSeqs gs := rfl
  rw [hseqs] at hforall
  generalize runningSeqs gs = qs at hforall
  clear h
  induction hforall with
  | nil => rfl
  | cons hp _ ih =>
    obtain ⟨numbers, hnumbers, rfl⟩ := Option.map_eq_some_iff.mp hp
    obtain ⟨table, htable, rfl⟩ := Option.map_eq_some_iff.mp hnumbers
    rw [List.map_cons, List.map_cons, ← ih, Scheduler.tableOf, htable]
    rfl

/-- A running sequence has its blocks on the GPU. -/
theorem Scheduler.Owned.gpu {s : Scheduler} (h : s.Owned cfg) {g : SequenceGroup}
    (hg : g ∈ s.running) {q : Sequence} (hq : q ∈ g.seqs) {table : BlockTable}
    (htable : s.manager.blockTables.lookup q.seqId = some table) : ∀ b ∈ table, b.device = .gpu :=
  (Owned.perm h (.refl _) (List.perm_cons_erase hg) (.refl _)).running_gpu hq htable

/-- What the model gets for a sequence: its tokens and its table. -/
def inputOf (e : Engine Entry) (s' : Scheduler) (id : Nat) : SeqInput :=
  ⟨e.tokens id, (s'.tableOf id).map Block.number⟩

/-- What holds of it. -/
structure Input (M : Decoder Hidden Entry) (cfg : Config) (e : Engine Entry) (s' : Scheduler)
    (isPrompt : Bool) (cache : Block → Nat → Nat → Entry) (id : Nat) : Prop where
  fed : Fed M cfg (e.tokens id) cache s'.manager isPrompt id (s'.tableOf id)
  pos : 0 < (e.tokens id).length
  gpu : ∀ b ∈ s'.tableOf id, b.device = .gpu
  nodup : (s'.tableOf id).Nodup

variable {isPrompt : Bool} {cache : Block → Nat → Nat → Entry} {ids : List Nat}

/-- A slot tells the block of a table. -/
theorem Input.block_of_slot (hsize : 0 < cfg.blocks.blockSize) {id : Nat}
    (h : Input M cfg e s' isPrompt cache id) {p slotNumber : Nat}
    (hslot : slot cfg.blocks.blockSize (inputOf e s' id) p = some slotNumber) :
    (s'.tableOf id)[p / cfg.blocks.blockSize]? =
        some ⟨.gpu, slotNumber / cfg.blocks.blockSize⟩ ∧
      slotNumber % cfg.blocks.blockSize = p % cfg.blocks.blockSize := by
  obtain ⟨hn, hmod⟩ := slot_eq_some hsize hslot
  refine ⟨?_, hmod⟩
  have hn : ((s'.tableOf id).map Block.number)[p / cfg.blocks.blockSize]? = _ := hn
  rw [List.getElem?_map] at hn
  obtain ⟨b, hb, heq⟩ := Option.map_eq_some_iff.mp hn
  rw [hb, ← heq, ← h.gpu b (List.mem_of_getElem? hb)]

/-- The slots that are written are of one position each. -/
theorem separate_inputs (hsize : 0 < cfg.blocks.blockSize)
    (h : ∀ id ∈ ids, Input M cfg e s' isPrompt cache id) :
    Separate cfg.blocks.blockSize isPrompt (ids.map (inputOf e s')) := by
  intro x hx p hp hle x' hx' p' hp' slotNumber hslot hslot'
  obtain ⟨id, hid, rfl⟩ := List.mem_map.mp hx
  obtain ⟨id', hid', rfl⟩ := List.mem_map.mp hx'
  have hin := h id hid
  have hin' := h id' hid'
  obtain ⟨hb, hmod⟩ := hin.block_of_slot hsize hslot
  obtain ⟨hb', hmod'⟩ := hin'.block_of_slot hsize hslot'
  -- the block is in no table but that of the sequence
  obtain rfl : id' = id := hin.fed.exclusive p hp hle _ hb id' _ hin'.fed.lookup
    (List.mem_of_getElem? hb')
  refine ⟨rfl, ?_⟩
  have hdiv : p / cfg.blocks.blockSize = p' / cfg.blocks.blockSize :=
    (List.getElem?_inj (List.getElem?_eq_some_iff.mp hb).1 hin.nodup).mp (hb.trans hb'.symm)
  rw [← Nat.div_add_mod p cfg.blocks.blockSize, ← Nat.div_add_mod p' cfg.blocks.blockSize, hdiv,
    ← hmod, ← hmod']

/-- A pass over the inputs: what it computes, what the tables hold afterwards, and which blocks stay
as they are. -/
theorem executeModel_inputs (hsize : 0 < cfg.blocks.blockSize)
    (h : ∀ id ∈ ids, Input M cfg e s' isPrompt cache id) :
    ∃ gpu, executeModel M cfg.blocks.blockSize isPrompt (ids.map (inputOf e s'))
        (fun n => cache ⟨.gpu, n⟩) = some (ids.map fun id => M.output (e.tokens id), gpu) ∧
      (∀ id ∈ ids, Held M cfg.blocks.blockSize (e.tokens id) (setGpu cache gpu) (s'.tableOf id)
        (e.tokens id).length) ∧
      ∀ b, (∀ id ∈ ids, ¬ s'.manager.Exclusive id b) → setGpu cache gpu b = cache b := by
  have hpos : ∀ x ∈ ids.map (inputOf e s'), 0 < x.tokens.length := by
    intro x hx
    obtain ⟨id, hid, rfl⟩ := List.mem_map.mp hx
    exact (h id hid).pos
  have htable : ∀ x ∈ ids.map (inputOf e s'), ∀ p < x.tokens.length, ∃ b,
      x.blockTable[p / cfg.blocks.blockSize]? = some b := by
    intro x hx p hp
    obtain ⟨id, hid, rfl⟩ := List.mem_map.mp hx
    have hlt : p / cfg.blocks.blockSize < ((s'.tableOf id).map Block.number).length := by
      rw [List.length_map, (h id hid).fed.length_eq]
      exact div_lt_blocks hsize hp
    exact ⟨_, List.getElem?_eq_getElem hlt⟩
  have hcached : ∀ x ∈ ids.map (inputOf e s'), Cached M cfg.blocks.blockSize
      (fun n => cache ⟨.gpu, n⟩) x (firstPosition isPrompt x) := by
    intro x hx
    obtain ⟨id, hid, rfl⟩ := List.mem_map.mp hx
    exact (h id hid).fed.held.toCached (h id hid).gpu
  obtain ⟨gpu, hrun, hheld, hothers⟩ :=
    executeModel_computes hsize hpos htable (separate_inputs hsize h) hcached
  refine ⟨gpu, ?_, fun id hid => ?_, fun b hb => ?_⟩
  · rw [hrun, List.map_map]
    rfl
  · have hin := h id hid
    exact .of_cached hin.fed.length_eq.le hin.gpu (hheld _ (List.mem_map_of_mem hid))
  · obtain ⟨device, n⟩ := b
    cases device with
    | cpu => rfl
    | gpu =>
      show gpu n = cache ⟨.gpu, n⟩
      refine hothers n fun x hx p hp hle hn => ?_
      obtain ⟨id, hid, rfl⟩ := List.mem_map.mp hx
      have hin := h id hid
      have hn : ((s'.tableOf id).map Block.number)[p / cfg.blocks.blockSize]? = some n := hn
      rw [List.getElem?_map] at hn
      obtain ⟨b, hb', rfl⟩ := Option.map_eq_some_iff.mp hn
      have heq : (⟨.gpu, b.number⟩ : Block) = b := hin.gpu b (List.mem_of_getElem? hb') ▸ rfl
      exact hb id hid (heq ▸ hin.fed.exclusive p hp hle b hb')

/-- The model runs after every call of the scheduler, it computes for each sequence what a pass over
all its tokens computes, and the tables hold the entries afterwards. -/
theorem execute_inv (hwindow : cfg.blocks.blockSlidingWindow = none)
    (hdynamic : cfg.dynamicIncreaseOncardWeights = false) (hsize : 0 < cfg.blocks.blockSize)
    (h : e.Inv M cfg) (hmeets : Meets cfg e.scheduler)
    (hcall : e.scheduler.schedule cfg = some (tables, outputs, s'))
    (hcopies : (copyMoves outputs.blocksToCopy).Perm copies) :
    ∃ e', e.execute M cfg.blocks.blockSize outputs tables copies s' =
        some (tables.map fun p => M.output (e.tokens p.1), e') ∧ e'.Inv M cfg := by
  obtain ⟨hstepped, htables⟩ := schedule_stepped hwindow hdynamic h.owned h.apart hmeets hcall
  have howned : s'.Owned cfg := h.owned.schedule hwindow hmeets hcall
  have hapart := hstepped.apart
  have hsized := sized_schedule h hcall
  have hrunning : ∀ q ∈ runningSeqs outputs.scheduledSeqGroups, ∃ g ∈ s'.running, q ∈ g.seqs := by
    intro q hq
    obtain ⟨g, hg, hmem⟩ := mem_runningSeqs.mp hq
    exact ⟨g, scheduled_running hcall g hg, (mem_getSeqs.mp hmem).1⟩
  have hsized' : ∀ q ∈ runningSeqs outputs.scheduledSeqGroups,
      (e.tokens q.seqId).length = q.len ∧ 0 < q.len := by
    intro q hq
    obtain ⟨g, hg, hmem⟩ := hrunning q hq
    exact hsized g (List.mem_append_left _ (List.mem_append_right _ hg)) q hmem
  -- what the model is given for each sequence is what it has cached, after the swaps and copies
  have hinput : ∀ id ∈ (runningSeqs outputs.scheduledSeqGroups).map Sequence.seqId,
      Input M cfg e s' outputs.promptRun (cacheSwap outputs copies e.cache) id := by
    intro id hid
    obtain ⟨q, hq, rfl⟩ := List.mem_map.mp hid
    obtain ⟨table, hfed⟩ := hstepped.fed hsize h hsized' hcopies q hq
    obtain ⟨g, hg, hmem⟩ := hrunning q hq
    obtain ⟨hlen, hpos⟩ := hsized' q hq
    have htable : s'.tableOf q.seqId = table := by
      rw [Scheduler.tableOf, hfed.lookup]
      rfl
    rw [← htable] at hfed
    exact ⟨hfed, hlen ▸ hpos, howned.gpu hg hmem hfed.lookup, hapart.nodup _ _ hfed.lookup⟩
  have heq := blockTables_eq htables
  obtain ⟨gpu, hrun, hheld, hothers⟩ := executeModel_inputs hsize hinput
  have hsampled : tables.map Prod.fst =
      (runningSeqs outputs.scheduledSeqGroups).map Sequence.seqId := by
    rw [heq, List.map_map]
    exact List.map_id _
  refine ⟨⟨s', e.tokens, setGpu (cacheSwap outputs copies e.cache) gpu, tables.map Prod.fst⟩, ?_,
    howned, hapart, hsized, fun id table htable => ?_⟩
  · have hinputs : e.inputs tables =
        ((runningSeqs outputs.scheduledSeqGroups).map Sequence.seqId).map (inputOf e s') := by
      rw [Engine.inputs, heq, List.map_map]
      rfl
    show Option.map _ (executeModel _ _ _ (e.inputs tables) _) = _
    rw [hinputs, hrun, ← hsampled, List.map_map]
    rfl
  -- a sequence that did not run keeps its entries: no table that ran has one of its blocks
  · show Held _ _ (e.tokens id) _ table (if id ∈ tables.map Prod.fst then _ else _)
    rw [hsampled]
    by_cases hid : id ∈ (runningSeqs outputs.scheduledSeqGroups).map Sequence.seqId
    · rw [if_pos hid]
      have htable : s'.tableOf id = table := by
        rw [Scheduler.tableOf, htable]
        rfl
      exact htable ▸ hheld id hid
    · rw [if_neg hid]
      refine (hstepped.held h hcopies htable hid).of_eq (Nat.le_refl _) (fun _ _ _ => rfl) ?_
      intro b hb
      refine hothers b fun id' hid' hex => hid ?_
      rw [hex id table htable hb]
      exact hid'

end Scheduled

/-! ## The other steps -/

section Others

variable {e : Engine Entry} {s' : Scheduler} {g : SequenceGroup} {before after : List SequenceGroup}

/-- A new sequence gets tokens; no table is its own yet. -/
theorem Engine.Inv.not_new (h : e.Inv M cfg) {new : Nat} (hnew : new ∉ e.scheduler.seqIds)
    {id : Nat} {table : BlockTable}
    (htable : e.scheduler.manager.blockTables.lookup id = some table) : id ≠ new := by
  rintro rfl
  refine hnew (h.owned.mem_seqIds ?_)
  rw [htable]
  exact Option.some_ne_none table

theorem mem_seqIds_of_mem {s : Scheduler} (hg : g ∈ s.groups) {q : Sequence} (hq : q ∈ g.seqs) :
    q.seqId ∈ s.seqIds := Requests.mem_seqIds.mpr ⟨g, hg, q, hq, rfl⟩

/-- The groups of the queues, a running one first. -/
theorem perm_groups_running (s : Scheduler) (manager : BlockManager) (g' : SequenceGroup) :
    (Scheduler.groups { s with manager := manager, running := before ++ g' :: after }).Perm
      (g' :: (s.waiting ++ (before ++ after) ++ s.swapped)) := by
  refine ((List.perm_middle.append_left s.waiting).append_right s.swapped).trans ?_
  exact Owned.perm_running g' s.waiting (before ++ after) s.swapped

theorem perm_groups {s : Scheduler} (hrunning : s.running = before ++ g :: after) :
    s.groups.Perm (g :: (s.waiting ++ (before ++ after) ++ s.swapped)) := by
  have hperm : (Scheduler.groups { s with running := before ++ g :: after }).Perm _ :=
    perm_groups_running s s.manager g
  rw [← hrunning] at hperm
  exact hperm

/-- When a running group changes, the others are there as before. -/
theorem mem_groups_of_running {s : Scheduler} (hrunning : s.running = before ++ g :: after)
    {g' : SequenceGroup} (manager : BlockManager) {g₁ : SequenceGroup}
    (hg₁ : g₁ ∈ Scheduler.groups { s with manager := manager, running := before ++ g' :: after }) :
    g₁ = g' ∨ g₁ ∈ s.groups :=
  (List.mem_cons.mp ((perm_groups_running s manager g').mem_iff.mp hg₁)).imp_right fun hin =>
    (perm_groups hrunning).mem_iff.mpr (List.mem_cons_of_mem _ hin)

/-- A sequence of a group takes the place of another one. -/
theorem mem_replaced {front back : List Sequence} {q q₁ : Sequence}
    (h : q₁ ∈ front ++ q :: back) : q₁ = q ∨ q₁ ∈ front ++ back := by
  rcases List.mem_append.mp h with hin | hin
  · exact .inr (List.mem_append_left _ hin)
  · exact (List.mem_cons.mp hin).imp_right (List.mem_append_right _)

theorem mem_of_rest {front back : List Sequence} {q q₁ : Sequence} (hseqs : g.seqs = front ++ q :: back)
    (h : q₁ ∈ front ++ back) : q₁ ∈ g.seqs := by
  rw [hseqs]
  exact List.perm_middle.mem_iff.mpr (List.mem_cons_of_mem _ h)

theorem mem_groups_running {s : Scheduler} (hrunning : s.running = before ++ g :: after) :
    g ∈ s.groups := (perm_groups hrunning).mem_iff.mpr (.head _)

/-- The scheduler changes, with tables that were there before and sequences of groups that were, and
the tokens stay. -/
theorem Engine.Inv.of_scheduler (h : e.Inv M cfg) (howned : s'.Owned cfg) (hapart : s'.Apart)
    (hgroups : ∀ g ∈ s'.groups, ∀ q ∈ g.seqs, ∃ g₀ ∈ e.scheduler.groups, ∃ q₀ ∈ g₀.seqs,
      q₀.seqId = q.seqId ∧ q₀.len = q.len)
    (htables : ∀ (id : Nat) (table : BlockTable), s'.manager.blockTables.lookup id = some table →
      e.scheduler.manager.blockTables.lookup id = some table) :
    Engine.Inv M cfg { e with scheduler := s' } := by
  refine ⟨howned, hapart, fun g hg q hq => ?_, fun id table htable => ?_⟩
  · obtain ⟨g₀, hg₀, q₀, hq₀, hid, hlen⟩ := hgroups g hg q hq
    show (e.tokens q.seqId).length = q.len ∧ 0 < q.len
    rw [← hid, ← hlen]
    exact h.sized g₀ hg₀ q₀ hq₀
  · exact h.tables id table (htables id table htable)

/-- A sequence gets tokens that no table is about. -/
theorem Engine.Inv.of_tokens {new : Nat} {tokens : List Nat} (h : e.Inv M cfg)
    (hnew : new ∉ e.scheduler.seqIds) (howned : s'.Owned cfg) (hapart : s'.Apart)
    (hgroups : ∀ g ∈ s'.groups, ∀ q ∈ g.seqs, (q.seqId = new ∧ q.len = tokens.length) ∨
      ∃ g₀ ∈ e.scheduler.groups, ∃ q₀ ∈ g₀.seqs, q₀.seqId = q.seqId ∧ q₀.len = q.len)
    (hpos : 0 < tokens.length)
    (htables : ∀ (id : Nat) (table : BlockTable), s'.manager.blockTables.lookup id = some table →
      e.scheduler.manager.blockTables.lookup id = some table) :
    Engine.Inv M cfg
      { e with scheduler := s', tokens := Function.update e.tokens new tokens } := by
  refine ⟨howned, hapart, fun g hg q hq => ?_, fun id table htable => ?_⟩
  · show (Function.update e.tokens new tokens q.seqId).length = q.len ∧ 0 < q.len
    rcases hgroups g hg q hq with ⟨hid, hlen⟩ | ⟨g₀, hg₀, q₀, hq₀, hid, hlen⟩
    · rw [hid, Function.update_self, hlen]
      exact ⟨rfl, hpos⟩
    · have hne : q.seqId ≠ new := fun heq => hnew (heq ▸ hid ▸ mem_seqIds_of_mem hg₀ hq₀)
      rw [Function.update_of_ne hne, ← hid, ← hlen]
      exact h.sized g₀ hg₀ q₀ hq₀
  · have hold := htables id table htable
    have hsame : Function.update e.tokens new tokens id = e.tokens id :=
      Function.update_of_ne (h.not_new hnew hold) _ _
    show Held _ _ (Function.update e.tokens new tokens id) _ _ (if id ∈ e.sampled then
      (Function.update e.tokens new tokens id).length
      else (Function.update e.tokens new tokens id).length - 1)
    rw [hsame]
    exact h.tables id table hold

/-- The sequences of a running group that changes, among those of all groups. -/
theorem sequences_of_running {s : Scheduler} (hrunning : s.running = before ++ g :: after)
    {g' : SequenceGroup} {manager : BlockManager} {P : Sequence → Prop}
    (hmine : ∀ q ∈ g'.seqs, P q ∨ ∃ q₀ ∈ g.seqs, q₀.seqId = q.seqId ∧ q₀.len = q.len) :
    ∀ g₁ ∈ Scheduler.groups { s with manager := manager, running := before ++ g' :: after },
      ∀ q ∈ g₁.seqs, P q ∨
        ∃ g₀ ∈ s.groups, ∃ q₀ ∈ g₀.seqs, q₀.seqId = q.seqId ∧ q₀.len = q.len := by
  intro g₁ hg₁ q hq
  rcases mem_groups_of_running hrunning manager hg₁ with rfl | hin
  · exact (hmine q hq).imp_right fun hold => ⟨g, mem_groups_running hrunning, hold⟩
  · exact .inr ⟨g₁, hin, q, hq, rfl, rfl⟩

theorem lookup_of_free {id₀ : Nat} {m' : BlockManager} (h : e.Inv M cfg)
    (hcall : e.scheduler.manager.free id₀ = some m') :
    ∀ (id : Nat) (table : BlockTable), m'.blockTables.lookup id = some table →
      e.scheduler.manager.blockTables.lookup id = some table := by
  intro id table htable
  rw [(Owned.lookup_of_free h.owned hcall).2] at htable
  exact (Option.ite_none_left_eq_some.mp htable).2

/-- The sampled token of a sequence is appended: the entries cached are those of all its tokens but
the last one again. -/
theorem Engine.Inv.appendToken {front back : List Sequence} {q : Sequence} {s' : Scheduler}
    {token : Nat} (h : e.Inv M cfg) (hg : g ∈ e.scheduler.groups)
    (hseqs : g.seqs = front ++ q :: back) (hsampled : q.seqId ∈ e.sampled) (howned : s'.Owned cfg)
    (hapart : s'.Apart)
    (hgroups : ∀ g ∈ s'.groups, ∀ q₁ ∈ g.seqs, q₁ = { q with len := q.len + 1 } ∨
      q₁.seqId ≠ q.seqId ∧ ∃ g₀ ∈ e.scheduler.groups, q₁ ∈ g₀.seqs)
    (hmanager : s'.manager = e.scheduler.manager) :
    Engine.Inv M cfg
      { scheduler := s'
        tokens := Function.update e.tokens q.seqId (e.tokens q.seqId ++ [token])
        cache := e.cache
        sampled := e.sampled.filter (· ≠ q.seqId) } := by
  have hq : q ∈ g.seqs := hseqs ▸ List.mem_append_right _ (.head _)
  obtain ⟨hlen, hpos⟩ := h.sized g hg q hq
  refine ⟨howned, hapart, fun g₁ hg₁ q₁ hq₁ => ?_, fun id table htable => ?_⟩
  · show (Function.update e.tokens q.seqId _ q₁.seqId).length = q₁.len ∧ 0 < q₁.len
    rcases hgroups g₁ hg₁ q₁ hq₁ with rfl | ⟨hne, g₀, hg₀, hin⟩
    · rw [Function.update_self, List.length_append, hlen]
      exact ⟨rfl, Nat.succ_pos _⟩
    · rw [Function.update_of_ne hne]
      exact h.sized g₀ hg₀ q₁ hin
  · rw [show Engine.scheduler _ = s' from rfl, hmanager] at htable
    have hheld := h.tables id table htable
    show Held _ _ (Function.update e.tokens q.seqId (e.tokens q.seqId ++ [token]) id) _ _
      (if id ∈ e.sampled.filter (· ≠ q.seqId) then
        (Function.update e.tokens q.seqId (e.tokens q.seqId ++ [token]) id).length
      else (Function.update e.tokens q.seqId (e.tokens q.seqId ++ [token]) id).length - 1)
    by_cases hid : id = q.seqId
    · subst hid
      have hnot : q.seqId ∉ e.sampled.filter (· ≠ q.seqId) := by simp
      rw [if_neg hnot, Function.update_self, List.length_append, List.length_singleton,
        Nat.add_sub_cancel]
      rw [if_pos hsampled] at hheld
      refine hheld.of_eq (List.length_append ▸ Nat.le_add_right _ _) (fun p hp layer => ?_)
        fun _ _ => rfl
      exact M.entry_append [token] hp
    · have hmem : id ∈ e.sampled.filter (· ≠ q.seqId) ↔ id ∈ e.sampled := by simp [hid]
      rw [Function.update_of_ne hid, if_congr hmem rfl rfl]
      exact hheld

/-- A fork has the blocks of its parent, and the tokens of its parent but the last one. -/
theorem Engine.Inv.fork {parent : Sequence} {child token : Nat} {s' : Scheduler}
    (h : e.Inv M cfg) (hg : g ∈ e.scheduler.groups) (hparent : parent ∈ g.seqs)
    (hnew : child ∉ e.scheduler.seqIds) (htaken : parent.seqId ∉ e.sampled)
    (howned : s'.Owned cfg) (hapart : s'.Apart)
    (hgroups : ∀ g ∈ s'.groups, ∀ q ∈ g.seqs, q = { parent with seqId := child } ∨
      ∃ g₀ ∈ e.scheduler.groups, q ∈ g₀.seqs)
    (hcall : e.scheduler.manager.fork parent.seqId child = some s'.manager) :
    Engine.Inv M cfg
      { scheduler := s'
        tokens := forkTokens e.tokens parent.seqId child token
        cache := e.cache
        sampled := e.sampled.filter (· ≠ child) } := by
  obtain ⟨hlen, hpos⟩ := h.sized g hg parent hparent
  have hlength : ((e.tokens parent.seqId).dropLast ++ [token]).length =
      (e.tokens parent.seqId).length := by
    rw [List.length_append, List.length_dropLast, List.length_singleton]
    omega
  refine ⟨howned, hapart, fun g₁ hg₁ q hq => ?_, fun id table htable => ?_⟩
  · show (Function.update e.tokens child _ q.seqId).length = q.len ∧ 0 < q.len
    rcases hgroups g₁ hg₁ q hq with rfl | ⟨g₀, hg₀, hin⟩
    · rw [Function.update_self, hlength]
      exact ⟨hlen, hpos⟩
    · have hne : q.seqId ≠ child := fun heq => hnew (heq ▸ mem_seqIds_of_mem hg₀ hin)
      rw [Function.update_of_ne hne]
      exact h.sized g₀ hg₀ q hin
  · obtain ⟨old, hold, hlookup, -⟩ := fork_tables hcall
    have htable : s'.manager.blockTables.lookup id = some table := htable
    rw [hlookup] at htable
    show Held _ _ (Function.update e.tokens child _ id) _ _
      (if id ∈ e.sampled.filter (· ≠ child) then (Function.update e.tokens child _ id).length
      else (Function.update e.tokens child _ id).length - 1)
    by_cases hid : id = child
    · subst hid
      rw [if_pos rfl] at htable
      obtain rfl := Option.some.inj htable
      have hheld := h.tables _ _ hold
      rw [if_neg htaken] at hheld
      have hnot : id ∉ e.sampled.filter (· ≠ id) := by simp
      rw [if_neg hnot, Function.update_self, hlength]
      refine hheld.of_eq hlength.ge (fun p hp layer => ?_) fun _ _ => rfl
      have hp' : p < (e.tokens parent.seqId).dropLast.length := by
        rw [List.length_dropLast]
        exact hp
      have hne : e.tokens parent.seqId ≠ [] := List.ne_nil_of_length_pos (hlen ▸ hpos)
      rw [M.entry_append [token] hp', ← M.entry_append [(e.tokens parent.seqId).getLast hne] hp',
        List.dropLast_concat_getLast hne]
    · rw [if_neg hid] at htable
      have hmem : id ∈ e.sampled.filter (· ≠ child) ↔ id ∈ e.sampled := by simp [hid]
      rw [Function.update_of_ne hid, if_congr hmem rfl rfl]
      exact h.tables id table htable

end Others

/-! ## Runs -/

section Runs

variable {e e' : Engine Entry}

theorem Engine.Inv.init {cachedLayerNum : Int} (hcached : -2 ≤ cachedLayerNum)
    (tokens : Nat → List Nat) (cache : Block → Nat → Nat → Entry) :
    Engine.Inv M cfg ⟨Scheduler.init cfg cachedLayerNum, tokens, cache, []⟩ := by
  have hnone : ∀ (id : Nat) (table : BlockTable),
      ¬ ([] : List (Nat × BlockTable)).lookup id = some table := fun _ _ htable => by cases htable
  have hgroups : ∀ g, g ∉ (Scheduler.init cfg cachedLayerNum).groups := fun _ => List.not_mem_nil
  refine ⟨?_, ?_, fun g hg => absurd hg (hgroups g), fun id table htable => ?_⟩
  · exact ⟨inv_init _ _, hcached, List.nodup_nil, fun g hg => absurd hg List.not_mem_nil,
      fun g hg => absurd hg List.not_mem_nil, fun g hg => absurd hg List.not_mem_nil,
      fun id table htable => absurd htable (hnone id table)⟩
  · exact ⟨fun id table htable => absurd htable (hnone id table),
      fun id _ table _ _ htable => absurd htable (hnone id table)⟩
  · exact absurd htable (hnone id table)

theorem Engine.Inv.step (hwindow : cfg.blocks.blockSlidingWindow = none)
    (hdynamic : cfg.dynamicIncreaseOncardWeights = false) (hsize : 0 < cfg.blocks.blockSize)
    (h : e.Inv M cfg) (hmeets : Meets cfg e.scheduler) (hstep : EngineStep M cfg e e') :
    e'.Inv M cfg := by
  have howned := h.owned.step hwindow hmeets hstep.toStep
  have hapart := Scheduler.Apart.step hwindow hdynamic h.owned h.apart hmeets hstep.toStep
  cases hstep with
  | @addSeqGroup g q prompt hnew hseqs hprompt hlen =>
    have hid : q.seqId ∉ e.scheduler.seqIds := by
      obtain ⟨q', hseqs', -, hid⟩ := hnew.single
      obtain rfl := List.singleton_injective (hseqs.symm.trans hseqs')
      exact hid
    refine h.of_tokens hid howned hapart (fun g₁ hg₁ q₁ hq₁ => ?_)
      (List.length_pos_of_ne_nil hprompt) fun _ _ htable => htable
    have hcases : g₁ ∈ e.scheduler.groups ∨ g₁ = g := by
      rcases List.mem_append.mp hg₁ with hin | hin
      · rcases List.mem_append.mp hin with hin | hin
        · rcases List.mem_append.mp hin with hin | hin
          · exact .inl (List.mem_append_left _ (List.mem_append_left _ hin))
          · exact .inr (List.mem_singleton.mp hin)
        · exact .inl (List.mem_append_left _ (List.mem_append_right _ hin))
      · exact .inl (List.mem_append_right _ hin)
    rcases hcases with hin | rfl
    · exact .inr ⟨g₁, hin, q₁, hq₁, rfl, rfl⟩
    · rw [hseqs, List.mem_singleton] at hq₁
      obtain rfl := hq₁
      exact .inl ⟨rfl, hlen⟩
  | abortSeqGroup requestIds hcall =>
    unfold Scheduler.abortSeqGroup at hcall
    obtain ⟨m, hfree, rfl⟩ := Option.map_eq_some_iff.mp hcall
    rw [foldlM_freeUnfinished] at hfree
    obtain ⟨-, -, hlookup⟩ := freeSeqs_spec h.owned.inv hfree
    refine h.of_scheduler howned hapart (fun g hg q hq => ⟨g, ?_, q, hq, rfl, rfl⟩)
      fun id table htable => ?_
    · exact (((takeAborted_sublist _ _).append (takeAborted_sublist _ _)).append
        (takeAborted_sublist _ _)).subset hg
    · exact (Option.ite_none_left_eq_some.mp ((hlookup id).symm.trans htable)).2
  | step hcall hcopies hexecute =>
    obtain ⟨e₁, hexecute', hinv⟩ := execute_inv hwindow hdynamic hsize h hmeets hcall hcopies
    obtain ⟨-, rfl⟩ := Prod.mk.inj (Option.some.inj (hexecute'.symm.trans hexecute))
    exact hinv
  | @appendToken before after g front back q token hrunning hseqs hq hsampled =>
    have hperm := perm_groups hrunning
    have hmem : q ∈ g.seqs := hseqs ▸ List.mem_append_right _ (.head _)
    refine h.appendToken (mem_groups_running hrunning) hseqs hsampled howned hapart
      (fun g₁ hg₁ q₁ hq₁ => ?_) rfl
    rcases List.mem_cons.mp ((perm_groups_running _ _ _).mem_iff.mp hg₁) with rfl | hin
    · refine (mem_replaced hq₁).imp_right fun hrest => ⟨?_, g, mem_groups_running hrunning,
        mem_of_rest hseqs hrest⟩
      -- the ids in a group are distinct
      have hids := Owned.ids_nodup_group h.owned.ids_nodup hperm
      rw [hseqs, (List.perm_middle.map _).nodup_iff, List.map_cons, List.nodup_cons] at hids
      exact fun heq => hids.1 (heq ▸ List.mem_map_of_mem hrest)
    · have hnot := Owned.not_mem_rest h.owned.ids_nodup hperm hmem
      refine .inr ⟨fun heq => hnot ?_, g₁, hperm.mem_iff.mpr (List.mem_cons_of_mem _ hin), hq₁⟩
      exact heq ▸ Requests.mem_seqIds.mpr ⟨g₁, hin, q₁, hq₁, rfl⟩
  | @addFinished before after g parent child status token hrunning hparent hnew hfin =>
    obtain ⟨hlen, hpos⟩ := h.sized g (mem_groups_running hrunning) parent hparent
    have hlength : ((e.tokens parent.seqId).dropLast ++ [token]).length = parent.len := by
      rw [List.length_append, List.length_dropLast, List.length_singleton]
      omega
    refine h.of_tokens hnew howned hapart (sequences_of_running hrunning fun q hq => ?_)
      (hlength ▸ hpos) fun _ _ htable => htable
    rcases List.mem_append.mp hq with hin | hin
    · exact .inr ⟨q, hin, rfl, rfl⟩
    · rw [List.mem_singleton.mp hin]
      exact .inl ⟨rfl, hlength.symm⟩
  | @fork before after g parent child m' token hrunning hparent hnew htaken hcall =>
    refine h.fork (mem_groups_running hrunning) (mem_getSeqs.mp hparent).1 hnew htaken howned hapart
      (fun g₁ hg₁ q hq => ?_) hcall
    rcases mem_groups_of_running hrunning m' hg₁ with rfl | hin
    · rcases List.mem_append.mp hq with hin | hin
      · exact .inr ⟨g, mem_groups_running hrunning, hin⟩
      · exact .inl (List.mem_singleton.mp hin)
    · exact .inr ⟨g₁, hin, hq⟩
  | @finish before after g front back q status m' hrunning hseqs hfin hcall =>
    refine h.of_scheduler howned hapart (fun g₁ hg₁ q₁ hq₁ => ?_) (lookup_of_free h hcall)
    have hsame := sequences_of_running (P := fun _ => False) hrunning (fun q₁ hq₁ => .inr ?_) g₁ hg₁
      q₁ hq₁
    · exact hsame.resolve_left fun hfalse => hfalse
    · rcases mem_replaced hq₁ with rfl | hrest
      · exact ⟨q, hseqs ▸ List.mem_append_right _ (.head _), rfl, rfl⟩
      · exact ⟨q₁, mem_of_rest hseqs hrest, rfl, rfl⟩
  | @remove before after g front back q m' hrunning hseqs hcall =>
    refine h.of_scheduler howned hapart (fun g₁ hg₁ q₁ hq₁ => ?_) (lookup_of_free h hcall)
    have hsame := sequences_of_running (P := fun _ => False) hrunning
      (fun q₁ hq₁ => .inr ⟨q₁, mem_of_rest hseqs hq₁, rfl, rfl⟩) g₁ hg₁ q₁ hq₁
    exact hsame.resolve_left fun hfalse => hfalse
  | freeFinishedSeqGroups =>
    refine h.of_scheduler howned hapart (fun g hg q hq => ⟨g, ?_, q, hq, rfl, rfl⟩)
      fun _ _ htable => htable
    exact (((List.Sublist.refl _).append List.filter_sublist).append (.refl _)).subset hg

theorem EngineReach.inv (hwindow : cfg.blocks.blockSlidingWindow = none)
    (hdynamic : cfg.dynamicIncreaseOncardWeights = false) (hsize : 0 < cfg.blocks.blockSize)
    (h : EngineReach M cfg e) : e.Inv M cfg := by
  induction h with
  | init hcached tokens cache => exact .init hcached tokens cache
  | step _ hmeets hstep ih => exact ih.step hwindow hdynamic hsize hmeets hstep

/-- A step of the engine goes through. -/
theorem EngineReach.run (hwindow : cfg.blocks.blockSlidingWindow = none)
    (hdynamic : cfg.dynamicIncreaseOncardWeights = false) (hsize : 0 < cfg.blocks.blockSize)
    (h : EngineReach M cfg e) (hmeets : Meets cfg e.scheduler) {tables : List (Nat × List Nat)}
    {outputs : SchedulerOutputs} {s' : Scheduler}
    (hcall : e.scheduler.schedule cfg = some (tables, outputs, s')) :
    ∃ cache, EngineReach M cfg ⟨s', e.tokens, cache, tables.map Prod.fst⟩ := by
  obtain ⟨e', hexecute, -⟩ := execute_inv hwindow hdynamic hsize (h.inv hwindow hdynamic hsize)
    hmeets hcall (List.Perm.refl _)
  obtain ⟨gpu, -, rfl⟩ := execute_eq_some hexecute
  exact ⟨_, .step h hmeets (.step hcall (List.Perm.refl _) hexecute)⟩

/-- In every run of the engine, after every call of the scheduler and in whatever order blocks are
copied, the model runs over the paged cache and gives for each sequence of the batch what a pass over
all its tokens gives. -/
theorem execute_computes (hwindow : cfg.blocks.blockSlidingWindow = none)
    (hdynamic : cfg.dynamicIncreaseOncardWeights = false) (hsize : 0 < cfg.blocks.blockSize)
    (hreach : EngineReach M cfg e) (hmeets : Meets cfg e.scheduler)
    {tables : List (Nat × List Nat)} {outputs : SchedulerOutputs} {s' : Scheduler}
    (hcall : e.scheduler.schedule cfg = some (tables, outputs, s'))
    {copies : List (Block × Block)} (hcopies : (copyMoves outputs.blocksToCopy).Perm copies) :
    ∃ e', e.execute M cfg.blocks.blockSize outputs tables copies s' =
      some (tables.map fun p => M.output (e.tokens p.1), e') := by
  obtain ⟨e', hexecute, -⟩ :=
    execute_inv hwindow hdynamic hsize (hreach.inv hwindow hdynamic hsize) hmeets hcall hcopies
  exact ⟨e', hexecute⟩

end Runs

/-! ## A forked sequence -/

section Fork

/-- Two layers that add what they read. -/
def sumDecoder : Decoder Nat Nat where
  numLayers := 2
  embed token := token
  keyValue layer position hidden := layer + position + hidden
  layer _ _ hidden entries := hidden + entries.sum
  norm hidden := hidden

/-- The prompt has run, and a token is appended. -/
def grownFork : Scheduler :=
  { promptFork with running := [⟨0, [⟨0, .running, 11⟩], 2, false, none⟩] }

def grownManager : BlockManager := (grownFork.manager.fork 0 1).get (by decide +kernel)

/-- The sequence is forked. -/
def forkedGrown : Scheduler :=
  { grownFork with
    manager := grownManager
    running := [⟨0, [⟨0, .running, 11⟩, ⟨1, .running, 11⟩], 2, false, none⟩] }

def grownRun : List (Nat × List Nat) × SchedulerOutputs × Scheduler :=
  (forkedGrown.schedule forkConfig).get (by decide +kernel)

def forkedTables : List (Nat × List Nat) := grownRun.1

def forkedOutputs : SchedulerOutputs := grownRun.2.1

def copiedGrown : Scheduler := grownRun.2.2

/-- Ten tokens, then one of each sequence. -/
def forkedTokens : Nat → List Nat :=
  forkTokens (Function.update (Function.update (fun _ => []) 0 (List.range 10)) 0
    (List.range 10 ++ [7])) 0 1 8

theorem reach_forkedGrown : ∃ cache sampled,
    EngineReach sumDecoder forkConfig ⟨forkedGrown, forkedTokens, cache, sampled⟩ := by
  have hid : 0 ∉ (Scheduler.init forkConfig 0).seqIds := List.not_mem_nil
  have hnew : NewRequest forkConfig (Scheduler.init forkConfig 0) forkRequest :=
    ⟨⟨_, rfl, rfl, hid⟩, rfl, by decide, by decide⟩
  have hprompt : List.range 10 ≠ [] := by decide
  have hone : forkRequest.seqs = [⟨0, .waiting, 10⟩] := rfl
  have hstart : EngineReach sumDecoder forkConfig
      ⟨Scheduler.init forkConfig 0, fun _ => [], fun _ _ _ => 0, []⟩ :=
    .init (show (-2 : Int) ≤ 0 by decide) _ _
  have hfirst : Meets forkConfig (Scheduler.init forkConfig 0) :=
    meets_of (by decide) (by decide)
  have hwaiting : EngineReach sumDecoder forkConfig ⟨waitingFork,
      Function.update (fun _ => []) 0 (List.range 10), fun _ _ _ => 0, []⟩ :=
    hstart.step hfirst (.addSeqGroup hnew hone hprompt rfl)
  have hcall : waitingFork.schedule forkConfig = some promptRun := (Option.some_get _).symm
  obtain ⟨cache, hprompt⟩ := hwaiting.run rfl rfl (by decide)
    (meets_of (by decide) (by decide)) hcall
  have hmeets : Meets forkConfig promptFork := meets_of (by decide) (by decide)
  have hmeets' : Meets forkConfig grownFork := meets_of (by decide) (by decide)
  have hrunning : promptFork.running = [] ++ ⟨0, [⟨0, .running, 10⟩], 2, false, none⟩ :: [] := by
    decide
  have hsampled : 0 ∈ promptRun.1.map Prod.fst := by
    decide
  have hseqs : SequenceGroup.seqs ⟨0, [⟨0, .running, 10⟩], 2, false, none⟩ =
      [] ++ ⟨0, .running, 10⟩ :: [] := rfl
  have hgrown := hprompt.step hmeets (.appendToken 7 hrunning hseqs rfl hsampled)
  have hparent : (⟨0, .running, 11⟩ : Sequence) ∈
      SequenceGroup.getSeqs ⟨0, [⟨0, .running, 11⟩], 2, false, none⟩ .running :=
    List.mem_singleton.mpr rfl
  have hchild : 1 ∉ grownFork.seqIds := by decide
  have htaken : ∀ sampled : List Nat, 0 ∉ sampled.filter (· ≠ 0) := fun _ => by simp
  have hgroup : grownFork.running = [] ++ ⟨0, [⟨0, .running, 11⟩], 2, false, none⟩ :: [] := rfl
  have hcopied : grownFork.manager.fork 0 1 = some grownManager := (Option.some_get _).symm
  have hforked := hgrown.step hmeets' (.fork 8 hgroup hparent hchild (htaken _) hcopied)
  exact ⟨_, _, hforked⟩

/-- Both sequences have the block of the prompt, which is copied before their last tokens are
written to it; the outputs are those of two passes from scratch. -/
theorem execute_computes_forked : forkedOutputs.blocksToCopy = [(0, [1])] ∧ ∃ cache sampled e',
    EngineReach sumDecoder forkConfig ⟨forkedGrown, forkedTokens, cache, sampled⟩ ∧
    Engine.execute sumDecoder 16 forkedOutputs forkedTables (copyMoves forkedOutputs.blocksToCopy)
      copiedGrown ⟨forkedGrown, forkedTokens, cache, sampled⟩ =
      some ([sumDecoder.output (List.range 10 ++ [7]), sumDecoder.output (List.range 10 ++ [8])],
        e') := by
  obtain ⟨cache, sampled, hreach⟩ := reach_forkedGrown
  have hmeets : Meets forkConfig forkedGrown := meets_of (by decide) (by decide)
  have hcall : forkedGrown.schedule forkConfig = some grownRun := (Option.some_get _).symm
  obtain ⟨e', hexecute⟩ := execute_computes rfl rfl (by decide) hreach hmeets hcall
    (List.Perm.refl _)
  refine ⟨by decide, cache, sampled, e', hreach, hexecute.trans ?_⟩
  have houtputs : (forkedTables.map fun p => sumDecoder.output (forkedTokens p.1)) =
      [sumDecoder.output (List.range 10 ++ [7]), sumDecoder.output (List.range 10 ++ [8])] := by
    decide
  exact congrArg (fun outputs => some (outputs, e')) houtputs

end Fork

end Mil.Requests
