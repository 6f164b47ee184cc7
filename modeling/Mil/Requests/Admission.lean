import Mathlib.Data.List.Perm.Subperm
import Mil.Requests.Runs

/-!
# Admission from an idle state

With nothing running and nothing swapped, every block below the end of the GPU range is free. The
head of `waiting` is then admitted or ignored, unless its prompt lies between two capacities:
`can_allocate` compares it with the number of blocks there were at first (`num_total_gpu_blocks`)
to answer `NEVER`, and with the free blocks, of which retired ones are no part, to answer `OK`. A
prompt that fits the first number and not the second is told `LATER` for ever
(`idle_schedule_iff`).
-/

set_option autoImplicit false

namespace Mil.Requests

open Mil.Lib Mil.Blocks Mil.Blocks.BlockManager

variable {cfg : Config} {m : BlockManager} {g : SequenceGroup}

/-! ## Free blocks -/

theorem nodup_freeNumbers (h : m.Inv cfg.blocks) :
    ((m.freeBlocks .gpu).map fun b => (b.number : Int)).Nodup :=
  h.nodup_numbers (.refl _)

/-- No more blocks are free than there are. -/
theorem numFree_le (h : m.Inv cfg.blocks) :
    (m.getNumFreeBlocks .gpu : Int) ≤ m.actualGpuBlkRngEnd := by
  have hsub : (m.freeBlocks .gpu).map (fun b => (b.number : Int)) ⊆
      range 0 m.actualGpuBlkRngEnd := by
    intro i hi
    obtain ⟨b, hb, rfl⟩ := List.mem_map.mp hi
    exact mem_range.mpr ⟨Int.natCast_nonneg _, h.free_lt b hb⟩
  have hle := ((nodup_freeNumbers h).subperm hsub).length_le
  rw [List.length_map, length_range] at hle
  unfold getNumFreeBlocks
  have := h.end_mem.1
  omega

/-- Without a table all are free. -/
theorem numFree_eq (h : m.Inv cfg.blocks) (hnone : m.blockTables = []) :
    (m.getNumFreeBlocks .gpu : Int) = m.actualGpuBlkRngEnd := by
  refine le_antisymm (numFree_le h) ?_
  have hentries : ∀ b, m.entries b = 0 := fun b => by
    rw [entries, hnone]
    rfl
  have hsub : range 0 m.actualGpuBlkRngEnd ⊆
      (m.freeBlocks .gpu).map fun b => (b.number : Int) := by
    intro i hi
    obtain ⟨hnonneg, hlt⟩ := mem_range.mp hi
    obtain ⟨k, rfl⟩ := Int.eq_ofNat_of_zero_le hnonneg
    refine (h.counted.gpu_cover k hlt).elim (fun hfree => List.mem_map.mpr ⟨_, hfree, rfl⟩) ?_
    rw [hentries]
    exact fun hpos => absurd hpos (lt_irrefl 0)
  have hle := ((nodup_range 0 m.actualGpuBlkRngEnd).subperm hsub).length_le
  rw [List.length_map, length_range] at hle
  unfold getNumFreeBlocks
  omega

/-! ## What `can_allocate` answers -/

/-- The blocks that the prompt of a group needs, with the watermark. -/
def neededBlocks (cfg : Config) (q : Sequence) : Int :=
  q.logicalTokenBlocks cfg.blocks.blockSize + cfg.blocks.watermarkBlocks

/-- The prompt needs more than is left of the GPU range, but no more than there was at first. -/
def BetweenCapacities (cfg : Config) (m : BlockManager) (q : Sequence) : Prop :=
  m.actualGpuBlkRngEnd < neededBlocks cfg q ∧ neededBlocks cfg q ≤ cfg.blocks.numTotalGpuBlocks

theorem canAllocate_eq (hwindow : cfg.blocks.blockSlidingWindow = none) (hpre : g.pre = none)
    {q : Sequence} (hq : (g.getSeqs .waiting).head? = some q) :
    m.canAllocate cfg.blocks g = some
      (if (cfg.blocks.numTotalGpuBlocks : Int) < neededBlocks cfg q then .never
       else if neededBlocks cfg q ≤ m.getNumFreeBlocks .gpu then .ok else .later) := by
  have hnoPrefix : m.allocatedPrefix g = none := by
    rw [allocatedPrefix, hpre]
    rfl
  have hnever : ((cfg.blocks.numTotalGpuBlocks : Int) -
      q.logicalTokenBlocks cfg.blocks.blockSize < cfg.blocks.watermarkBlocks) ↔
      (cfg.blocks.numTotalGpuBlocks : Int) < neededBlocks cfg q := by
    unfold neededBlocks
    omega
  have hok : ((cfg.blocks.watermarkBlocks : Int) ≤ m.getNumFreeBlocks .gpu -
      q.logicalTokenBlocks cfg.blocks.blockSize) ↔
      neededBlocks cfg q ≤ m.getNumFreeBlocks .gpu := by
    unfold neededBlocks
    omega
  rw [canAllocate, hq]
  simp only [Option.bind_eq_bind, Option.bind_some, hnoPrefix, hwindow, hnever, hok]
  split
  · rfl
  · split <;> rfl

/-- `LATER` only where freeing all allocated blocks gives `OK`, and `NEVER` wherever it does
not. -/
structure AnswersRight (cfg : Config) (m : BlockManager) (g : SequenceGroup) : Prop where
  later : m.canAllocate cfg.blocks g = some .later →
    ∃ m₀, m.reset = some m₀ ∧ m₀.canAllocate cfg.blocks g = some .ok
  never : (∀ m₀, m.reset = some m₀ → m₀.canAllocate cfg.blocks g ≠ some .ok) →
    m.canAllocate cfg.blocks g = some .never

theorem freeBlock_end {d : Device} {b : Block} {m' : BlockManager}
    (hcall : m.freeBlock d b = some m') : m'.actualGpuBlkRngEnd = m.actualGpuBlkRngEnd := by
  unfold freeBlock at hcall
  split at hcall
  · cases hcall
  · simp only at hcall
    split at hcall
    · exact (Option.some.inj hcall) ▸ rfl
    · exact (Option.some.inj hcall) ▸ rfl

/-- After `reset` the whole range that is left is free. -/
theorem reset_spec (h : m.Inv cfg.blocks) :
    ∃ m₀, m.reset = some m₀ ∧ (m₀.getNumFreeBlocks .gpu : Int) = m.actualGpuBlkRngEnd := by
  obtain ⟨m₀, hreset, hinv⟩ := h.reset
  refine ⟨m₀, hreset, ?_⟩
  obtain ⟨m₁, hfold, heq⟩ := Option.bind_eq_some_iff.mp hreset
  obtain rfl := Option.some.inj heq
  have hend : m₁.actualGpuBlkRngEnd = m.actualGpuBlkRngEnd :=
    foldlM_inv (P := fun t => t.actualGpuBlkRngEnd = m.actualGpuBlkRngEnd)
      (fun p _ t t' ht hstep =>
        foldlM_inv (P := fun t => t.actualGpuBlkRngEnd = m.actualGpuBlkRngEnd)
          (fun b _ u u' hu hfree => (freeBlock_end hfree).trans hu) ht hstep) rfl hfold
  rw [← hend]
  exact numFree_eq hinv rfl

/-- The answers are right exactly when the prompt does not lie between the two capacities. -/
theorem answersRight_iff (hwindow : cfg.blocks.blockSlidingWindow = none)
    (h : m.Inv cfg.blocks) (hpre : g.pre = none) {q : Sequence}
    (hq : (g.getSeqs .waiting).head? = some q) :
    AnswersRight cfg m g ↔ ¬ BetweenCapacities cfg m q := by
  obtain ⟨m₀, hreset, hfree⟩ := reset_spec h
  have hle := numFree_le h
  have hnow := canAllocate_eq (m := m) hwindow hpre hq
  have hfreed := canAllocate_eq (m := m₀) hwindow hpre hq
  rw [hfree] at hfreed
  unfold BetweenCapacities
  constructor
  -- a prompt between the two gets the answer `LATER`, and does not fit after `reset` either
  · rintro hright ⟨hlt, htotal⟩
    rw [if_neg (not_lt.mpr htotal), if_neg (by omega)] at hnow
    obtain ⟨m₁, hreset', hok⟩ := hright.later hnow
    obtain rfl := Option.some.inj (hreset.symm.trans hreset')
    rw [if_neg (not_lt.mpr htotal), if_neg (not_le.mpr hlt)] at hfreed
    exact absurd (hfreed.symm.trans hok) (by decide)
  · intro hnot
    refine ⟨fun hlater => ⟨m₀, hreset, ?_⟩, fun hnever => ?_⟩
    · rw [hnow] at hlater
      have htotal : neededBlocks cfg q ≤ cfg.blocks.numTotalGpuBlocks := by
        refine not_lt.mp fun hlt => ?_
        rw [if_pos hlt] at hlater
        exact absurd hlater (by decide)
      rw [hfreed, if_neg (not_lt.mpr htotal), if_pos]
      exact not_lt.mp fun hlt => hnot ⟨hlt, htotal⟩
    · by_cases htotal : (cfg.blocks.numTotalGpuBlocks : Int) < neededBlocks cfg q
      · rw [hnow, if_pos htotal]
      · refine absurd ?_ (hnever m₀ hreset)
        rw [hfreed, if_neg htotal, if_pos]
        exact not_lt.mp fun hlt => hnot ⟨hlt, not_lt.mp htotal⟩

/-! ## The loop over `waiting` -/

/-- The loop returns, and what was admitted or ignored before stays so. -/
theorem admitPrompts_returns (hwindow : cfg.blocks.blockSlidingWindow = none)
    {waiting : List SequenceGroup}
    (hwaiting : ∀ g ∈ waiting, g.pre = none ∧ (g.getSeqs .waiting).length = 1) (st : Prompts) :
    ∃ waiting' st', admitPrompts cfg waiting st = some (waiting', st') ∧
      st.scheduled <+: st'.scheduled ∧ st.ignoredSeqGroups <+: st'.ignoredSeqGroups := by
  induction waiting generalizing st with
  | nil => exact ⟨[], st, rfl, List.prefix_rfl, List.prefix_rfl⟩
  | cons g waiting ih =>
    have ih := ih fun g' hg' => hwaiting g' (.tail _ hg')
    obtain ⟨hpre, hlength⟩ := hwaiting g (.head _)
    obtain ⟨q, hq⟩ := List.length_eq_one_iff.mp hlength
    -- the two ways on that do not admit the group: it is ignored, or the loop stops at it
    have hignore : ∃ waiting' st', admitPrompts cfg waiting (st.ignore g) = some (waiting', st') ∧
        st.scheduled <+: st'.scheduled ∧ st.ignoredSeqGroups <+: st'.ignoredSeqGroups := by
      obtain ⟨waiting', st', hcall, hscheduled, hignored⟩ := ih (st.ignore g)
      exact ⟨waiting', st', hcall, hscheduled, (List.prefix_append _ _).trans hignored⟩
    have hstop : ∃ waiting' st', some (g :: waiting, st) = some (waiting', st') ∧
        st.scheduled <+: st'.scheduled ∧ st.ignoredSeqGroups <+: st'.ignoredSeqGroups :=
      ⟨_, st, rfl, List.prefix_rfl, List.prefix_rfl⟩
    have hanswer := canAllocate_eq (m := st.manager) hwindow hpre (q := q) (by rw [hq]; rfl)
    rw [admitPrompts, hq]
    simp only
    split
    · exact hignore
    · split
      case h_1 hnone =>
        rw [hnone] at hanswer
        cases hanswer
      case h_2 => exact hstop
      case h_3 => exact hignore
      case h_4 hok =>
        split
        · obtain ⟨m', halloc⟩ := allocate_isSome hwindow hpre hok
          rw [halloc, Option.bind_some]
          obtain ⟨waiting', st', hcall, hscheduled, hignored⟩ := ih
            { st with
              manager := m'
              scheduled := st.scheduled ++ [setStatus .waiting .running g]
              seqLens := st.seqLens ++ [q.len]
              numCurrSeqs := st.numCurrSeqs + g.getMaxNumRunningSeqs }
          exact ⟨waiting', st', hcall, (List.prefix_append _ _).trans hscheduled, hignored⟩
        · exact hstop

/-! ## The head of an idle scheduler -/

/-- The call schedules the group or ignores it. -/
def SchedulerOutputs.Handles (outputs : SchedulerOutputs) (g : SequenceGroup) : Prop :=
  setStatus .waiting .running g ∈ outputs.scheduledSeqGroups ∨
    setStatus .waiting .finishedIgnored g ∈ outputs.ignoredSeqGroups

/-- Nothing runs and nothing is swapped, and `g` is the first that waits. -/
structure IdleBefore (s : Scheduler) (g : SequenceGroup) (rest : List SequenceGroup) : Prop where
  running : s.running = []
  swapped : s.swapped = []
  waiting : s.waiting = g :: rest

section Idle

variable {s : Scheduler} {rest : List SequenceGroup} {q : Sequence}

/-- Then there is no table. -/
theorem blockTables_of_idle (h : s.Owned cfg) (hidle : IdleBefore s g rest) :
    s.manager.blockTables = [] := by
  have hlook : ∀ id table, s.manager.blockTables.lookup id ≠ some table := by
    intro id table htable
    rcases h.tables id table htable with ⟨⟨g', hg', -⟩, -⟩ | ⟨⟨g', hg', -⟩, -⟩
    · rw [hidle.running] at hg'
      exact List.not_mem_nil hg'
    · rw [hidle.swapped] at hg'
      exact List.not_mem_nil hg'
  refine List.eq_nil_iff_forall_not_mem.mpr fun p hp => ?_
  exact hlook p.1 p.2 (Dict.lookup_of_mem h.inv.keys_nodup hp)

theorem numBatchedTokens_singleton (n : Nat) : numBatchedTokens [n] = n := by
  simp [numBatchedTokens]

/-- A waiting group asks for no more sequences than its parameters say. -/
theorem getMaxNumRunningSeqs_le (h : InState cfg .waiting g)
    (hlength : (g.getSeqs .waiting).length = 1) : g.getMaxNumRunningSeqs ≤ g.bestOf := by
  have hunfinished : g.numUnfinishedSeqs ≤ 1 := by
    have heq : g.seqs.filter (fun q => !q.status.isFinished) = g.getSeqs .waiting := by
      refine List.filter_congr fun q hq => ?_
      rcases h.status_eq q hq with hstatus | hfin
      · rw [hstatus]
        rfl
      · rw [hfin]
        refine (decide_eq_false fun hstatus => ?_).symm
        rw [hstatus] at hfin
        cases hfin
    unfold SequenceGroup.numUnfinishedSeqs
    rw [heq, hlength]
  unfold SequenceGroup.getMaxNumRunningSeqs
  have hpos := h.best_of_pos
  split
  · exact le_refl _
  · split
    · exact le_refl _
    · exact hunfinished.trans hpos

/-- The only prompt of a batch fits it. -/
theorem fitsBatch_first (h : InState cfg .waiting g) (hlength : (g.getSeqs .waiting).length = 1)
    (m : BlockManager) {n : Nat} (hlimit : n ≤ cfg.promptLimit) :
    fitsBatch cfg ⟨m, [], [], [], maxNumRunningSeqs []⟩ g n = true := by
  have hbatch : n ≤ cfg.maxNumBatchedTokens := hlimit.trans (Nat.min_le_right _ _)
  have hseqs := (getMaxNumRunningSeqs_le h hlength).trans h.best_of_le
  simp [fitsBatch, numBatchedTokens_singleton, maxNumRunningSeqs, hbatch, hseqs]

/-- An idle scheduler with nothing to admit schedules nothing. -/
theorem scheduleDecode_idle (cfg : Config) (m : BlockManager) (waiting : List SequenceGroup) :
    ∃ outputs s', Scheduler.scheduleDecode cfg ⟨m, waiting, [], []⟩ = some (outputs, s') ∧
      outputs.scheduledSeqGroups = [] ∧ outputs.ignoredSeqGroups = [] :=
  ⟨_, _, rfl, rfl, rfl⟩

/-- The head that is told `LATER`, and everything behind it, is neither scheduled nor ignored. -/
theorem not_handles_of_later (hidle : IdleBefore s g rest) (hq : g.getSeqs .waiting = [q])
    (hlimit : q.len ≤ cfg.promptLimit)
    (hlater : s.manager.canAllocate cfg.blocks g = some .later) :
    ¬ ∃ outputs s', s.scheduleQueues cfg = some (outputs, s') ∧ outputs.Handles g := by
  rintro ⟨outputs, s', hcall, hhandles⟩
  unfold Scheduler.scheduleQueues at hcall
  rw [hidle.swapped, hidle.running, hidle.waiting] at hcall
  rw [if_pos List.isEmpty_nil, admitPrompts, hq] at hcall
  simp only [if_neg (not_lt.mpr hlimit), hlater, Option.bind_some] at hcall
  obtain ⟨outputs₁, s₁, hdecode, hscheduled, hignored⟩ :=
    scheduleDecode_idle cfg s.manager (g :: rest)
  have heq : some (outputs₁, s₁) = some (outputs, s') := hdecode.symm.trans hcall
  obtain ⟨rfl, rfl⟩ := Prod.mk.inj (Option.some.inj heq)
  unfold SchedulerOutputs.Handles at hhandles
  rw [hscheduled, hignored] at hhandles
  exact hhandles.elim List.not_mem_nil List.not_mem_nil

/-- The head that is not told `LATER` is handled. -/
theorem handles_of_not_later (hwindow : cfg.blocks.blockSlidingWindow = none) (h : s.Owned cfg)
    (hidle : IdleBefore s g rest) (hq : g.getSeqs .waiting = [q])
    (hnot : ¬ (q.len ≤ cfg.promptLimit ∧ s.manager.canAllocate cfg.blocks g = some .later)) :
    ∃ outputs s', s.scheduleQueues cfg = some (outputs, s') ∧ outputs.Handles g := by
  have hwaiting : ∀ g' ∈ g :: rest, InState cfg .waiting g' ∧ (g'.getSeqs .waiting).length = 1 :=
    hidle.waiting ▸ h.of_waiting
  obtain ⟨hstate, hlength⟩ := hwaiting g (.head _)
  have hloop := admitPrompts_returns hwindow fun g' (hg' : g' ∈ rest) =>
    ⟨(hwaiting g' (.tail _ hg')).1.pre_eq, (hwaiting g' (.tail _ hg')).2⟩
  -- it is enough that the loop returns with the head among its groups
  suffices hadmit : ∃ waiting' st', admitPrompts cfg (g :: rest)
      ⟨s.manager, [], [], [], maxNumRunningSeqs []⟩ = some (waiting', st') ∧
      (setStatus .waiting .running g ∈ st'.scheduled ∨
        setStatus .waiting .finishedIgnored g ∈ st'.ignoredSeqGroups) by
    obtain ⟨waiting', st', hcall, hmem⟩ := hadmit
    have hne : (st'.scheduled.isEmpty && st'.ignoredSeqGroups.isEmpty) = false := by
      rw [Bool.and_eq_false_iff, List.isEmpty_eq_false_iff, List.isEmpty_eq_false_iff]
      exact hmem.imp List.ne_nil_of_mem List.ne_nil_of_mem
    unfold Scheduler.scheduleQueues
    rw [hidle.swapped, hidle.running, hidle.waiting, if_pos List.isEmpty_nil, hcall,
      Option.bind_some]
    simp only [hne]
    exact ⟨_, _, rfl, hmem.imp_left (perm_sortByRequestId cfg _).mem_iff.mp⟩
  have hignore : ∃ waiting' st', admitPrompts cfg rest
      (Prompts.ignore ⟨s.manager, [], [], [], maxNumRunningSeqs []⟩ g) = some (waiting', st') ∧
      (setStatus .waiting .running g ∈ st'.scheduled ∨
        setStatus .waiting .finishedIgnored g ∈ st'.ignoredSeqGroups) := by
    obtain ⟨waiting', st', hcall, -, hignored⟩ :=
      hloop (Prompts.ignore ⟨s.manager, [], [], [], maxNumRunningSeqs []⟩ g)
    exact ⟨waiting', st', hcall, .inr (hignored.subset List.mem_cons_self)⟩
  have hanswer := canAllocate_eq (m := s.manager) hwindow hstate.pre_eq (q := q)
    (by rw [hq]; rfl)
  rw [admitPrompts, hq]
  simp only
  split
  · exact hignore
  case isFalse hlimit =>
    have hlimit := not_lt.mp hlimit
    split
    case h_1 hnone =>
      rw [hnone] at hanswer
      cases hanswer
    case h_2 hlater => exact absurd ⟨hlimit, hlater⟩ hnot
    case h_3 => exact hignore
    case h_4 hok =>
      rw [if_pos (fitsBatch_first hstate hlength s.manager hlimit)]
      obtain ⟨m', halloc⟩ := allocate_isSome hwindow hstate.pre_eq hok
      rw [halloc, Option.bind_some]
      obtain ⟨waiting', st', hcall, hscheduled, -⟩ := hloop
        ⟨m', [setStatus .waiting .running g], [], [q.len],
          maxNumRunningSeqs [] + g.getMaxNumRunningSeqs⟩
      exact ⟨waiting', st', hcall, .inl (hscheduled.subset List.mem_cons_self)⟩

/-- In every state of a run without the two other defects (`Meets`): `can_allocate` answers right
for a group exactly when its prompt does not lie between the two capacities; and in an idle state
`_schedule` schedules or ignores the head of `waiting` exactly when its prompt is too long for the
model or does not lie between them. -/
theorem idle_schedule_iff (hwindow : cfg.blocks.blockSlidingWindow = none)
    (h : Reach cfg (Meets cfg) s) :
    (∀ g q, g.pre = none → (g.getSeqs .waiting).head? = some q →
      (AnswersRight cfg s.manager g ↔ ¬ BetweenCapacities cfg s.manager q)) ∧
    ∀ g rest, IdleBefore s g rest → ∃ q, g.getSeqs .waiting = [q] ∧
      ((∃ outputs s', s.scheduleQueues cfg = some (outputs, s') ∧ outputs.Handles g) ↔
        ¬ (q.len ≤ cfg.promptLimit ∧ BetweenCapacities cfg s.manager q)) := by
  have howned := h.owned hwindow
  refine ⟨fun g q hpre hq => answersRight_iff hwindow howned.inv hpre hq, fun g rest hidle => ?_⟩
  obtain ⟨hstate, hlength⟩ := howned.of_waiting g (hidle.waiting ▸ List.mem_cons_self)
  obtain ⟨q, hq⟩ := List.length_eq_one_iff.mp hlength
  refine ⟨q, hq, ?_⟩
  -- in an idle state the free blocks are what is left of the range
  have hanswer := canAllocate_eq (m := s.manager) hwindow hstate.pre_eq (q := q)
    (by rw [hq]; rfl)
  rw [numFree_eq howned.inv (blockTables_of_idle howned hidle)] at hanswer
  have hlater : s.manager.canAllocate cfg.blocks g = some .later ↔
      BetweenCapacities cfg s.manager q := by
    unfold BetweenCapacities
    rw [hanswer, Option.some.injEq]
    by_cases htotal : (cfg.blocks.numTotalGpuBlocks : Int) < neededBlocks cfg q
    · rw [if_pos htotal]
      exact iff_of_false (by decide) fun hboth => absurd hboth.2 (not_le.mpr htotal)
    · rw [if_neg htotal]
      by_cases hfits : neededBlocks cfg q ≤ s.manager.actualGpuBlkRngEnd
      · rw [if_pos hfits]
        exact iff_of_false (by decide) fun hboth => absurd hboth.1 (not_lt.mpr hfits)
      · rw [if_neg hfits]
        exact iff_of_true rfl ⟨not_le.mp hfits, not_lt.mp htotal⟩
  rw [← hlater]
  exact ⟨fun hhandled hboth => not_handles_of_later hidle hq hboth.1 hboth.2 hhandled,
    handles_of_not_later hwindow howned hidle hq⟩

end Idle

/-! ## A long request after blocks were retired -/

section Stall

/-- The condition, computed: the waiting groups have one sequence, and a reorganization retires no
used block. -/
theorem meets_of {s : Scheduler} (hone : s.waiting.all fun g => g.numSeqs = 1)
    (hmovable : (s.layersToLoad cfg).all fun n =>
      (s.manager.toRemove cfg.blocks n.toNat).isEmpty) : Meets cfg s where
  one g hg _ _ _ := of_decide_eq_true (List.all_eq_true.mp hone g hg)
  movable n hn _ b hb := by
    rw [hn, Option.all_some, List.isEmpty_iff] at hmovable
    rw [hmovable] at hb
    exact absurd hb List.not_mem_nil

/-- Eight blocks, of which each layer takes two. -/
def stallConfig : Config := ⟨2048, 256, 2048, 256, true, 4, fun i => i, fun i => [i],
  ⟨16, 8, 0, 0, none, 2⟩⟩

/-- A request of one block, and one of five. -/
def shortRequest : SequenceGroup := ⟨0, [⟨0, .waiting, 16⟩], 1, false, none⟩

def longRequest : SequenceGroup := ⟨1, [⟨1, .waiting, 80⟩], 1, false, none⟩

def shortState : Scheduler :=
  { Scheduler.init stallConfig 2 with waiting := [shortRequest] }

def shortRun : List (Nat × List Nat) × SchedulerOutputs × Scheduler :=
  (shortState.schedule stallConfig).get (by decide +kernel)

/-- The prompt of the short request has run. -/
def promptState : Scheduler := shortRun.2.2

def retiringRun : List (Nat × List Nat) × SchedulerOutputs × Scheduler :=
  (promptState.schedule stallConfig).get (by decide +kernel)

/-- No request waits, and four blocks have been retired for the weights of two layers. -/
def retiredState : Scheduler := retiringRun.2.2

def emptyState : Scheduler := (retiredState.abortSeqGroup [0]).get (by decide +kernel)

def stallState : Scheduler := { emptyState with waiting := emptyState.waiting ++ [longRequest] }

theorem reach_shortState {meets : Scheduler → Prop}
    (h : ∀ s, Meets stallConfig s → meets s) : Reach stallConfig meets shortState := by
  refine .step (.init (show (-2 : Int) ≤ 2 by decide))
    (h _ (meets_of (by decide +kernel) (by decide +kernel)))
    (.addSeqGroup ⟨⟨_, rfl, rfl, ?_⟩, rfl, by decide, by decide⟩)
  decide

theorem reach_emptyState {meets : Scheduler → Prop}
    (h : ∀ s, Meets stallConfig s → meets s) : Reach stallConfig meets emptyState := by
  have hshort : shortState.schedule stallConfig = some shortRun := (Option.some_get _).symm
  have hprompt : Reach stallConfig meets promptState :=
    .step (reach_shortState h) (h _ (meets_of (by decide) (by decide)))
      (.schedule hshort)
  have hretiring : promptState.schedule stallConfig = some retiringRun := (Option.some_get _).symm
  have hretired : Reach stallConfig meets retiredState :=
    .step hprompt (h _ (meets_of (by decide +kernel) (by decide +kernel))) (.schedule hretiring)
  exact .step hretired (h _ (meets_of (by decide +kernel) (by decide +kernel)))
    (.abortSeqGroup [0] (Option.some_get _).symm)

theorem reach_stallState : Reach stallConfig (fun _ => True) stallState := by
  refine .step (reach_emptyState fun _ _ => trivial) trivial
    (.addSeqGroup ⟨⟨_, rfl, rfl, ?_⟩, rfl, by decide, by decide⟩)
  decide +kernel

theorem idleBefore_stallState : IdleBefore stallState longRequest [] :=
  ⟨by decide +kernel, by decide +kernel, by decide +kernel⟩

/-- The long request needs five blocks of eight, of which four are left. -/
theorem long_request_stalls :
    ¬ ∀ (cfg : Config) (s : Scheduler) (g : SequenceGroup) (rest : List SequenceGroup),
      cfg.blocks.blockSlidingWindow = none → Reach cfg (fun _ => True) s →
      IdleBefore s g rest →
      ∃ outputs s', s.scheduleQueues cfg = some (outputs, s') ∧ outputs.Handles g := by
  intro hall
  have hlater : stallState.manager.canAllocate stallConfig.blocks longRequest = some .later := by
    decide +kernel
  exact not_handles_of_later idleBefore_stallState rfl (by decide) hlater
    (hall stallConfig stallState longRequest [] rfl reach_stallState
      idleBefore_stallState)

/-- A request of the four blocks that are left. -/
def fittingRequest : SequenceGroup := ⟨1, [⟨1, .waiting, 64⟩], 1, false, none⟩

def fittingState : Scheduler := { emptyState with waiting := emptyState.waiting ++ [fittingRequest] }

/-- It is handled. -/
theorem idle_schedule_iff_fittingState :
    stallConfig.blocks.blockSlidingWindow = none ∧
      Reach stallConfig (Meets stallConfig) fittingState ∧
      fittingState.manager.actualGpuBlkRngEnd = 4 ∧
      ∃ outputs s', fittingState.scheduleQueues stallConfig = some (outputs, s') ∧
        outputs.Handles fittingRequest := by
  have hreach : Reach stallConfig (Meets stallConfig) fittingState := by
    refine .step (reach_emptyState fun _ h => h) (meets_of (by decide +kernel) (by decide +kernel))
      (.addSeqGroup ⟨⟨_, rfl, rfl, ?_⟩, rfl, by decide, by decide⟩)
    decide +kernel
  have hleft : fittingState.manager.actualGpuBlkRngEnd = 4 := by decide +kernel
  refine ⟨rfl, hreach, hleft, ?_⟩
  obtain ⟨q, hq, hiff⟩ := (idle_schedule_iff rfl hreach).2 fittingRequest []
    ⟨by decide +kernel, by decide +kernel, by decide +kernel⟩
  obtain rfl := List.singleton_injective (hq.symm.trans rfl : [q] = [⟨1, .waiting, 64⟩])
  refine hiff.mpr fun hboth => absurd hboth.2.1 ?_
  rw [hleft]
  show ¬ (4 : Int) < 4
  exact lt_irrefl 4

end Stall

end Mil.Requests
