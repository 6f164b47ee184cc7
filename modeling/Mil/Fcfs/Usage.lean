import Mil.Fcfs.Budget
import Mil.Fcfs.Reached

/-!
# The cache budget is kept

In every state a simulator reaches, `block_num_used` counts the blocks of the running requests and
does not exceed the budget (`Sched.InBudget`). A round keeps this: admission charges a request before
it runs, killing and the removal of finished requests take blocks back, and the decode steps are as
many as the cache has room for. So in no iteration of a round do the running requests need more
blocks than there are (`InBudget.iterationBlocks_le`), in any of the three simulators.
-/

set_option autoImplicit false

namespace Mil.Fcfs

open Mil.Lib

/-! ## Iterations -/

/-- The blocks the running requests need in the decode steps there is room for. -/
def decodeBlocks (cfg : Config) (s : Sched) : Option (List Nat) := do
  let s ← killSeqsForMoreCacheSpace cfg s
  let iterNum ← getMaxIterNum cfg s
  return (List.range iterNum).map fun i => blocksAfter cfg.blockSize (i + 1) s.runningSeqs

/-- The blocks the running requests need in the iterations of a round, given the state after
admission. -/
def iterationBlocks (cfg : Config) (s : Sched) : List Nat :=
  blocksOf cfg.blockSize s.runningSeqs :: (decodeBlocks cfg s).getD []

/-! ## The invariant -/

variable {cfg : Config} {s s' : Sched}

structure Sched.InBudget (cfg : Config) (s : Sched) : Prop where
  used : s.blockNumUsed = blocksOf cfg.blockSize s.runningSeqs
  le : s.blockNumUsed ≤ cfg.maxBlockNum
  len_pos : ∀ q ∈ s.runningSeqs, 1 ≤ q.len

theorem blocksOf_sublist {blockSize : Nat} {seqs seqs' : List Seq} (h : seqs.Sublist seqs') :
    blocksOf blockSize seqs ≤ blocksOf blockSize seqs' := by
  induction h with
  | slnil => exact le_rfl
  | cons q _ ih =>
    rw [blocksOf_cons]
    exact ih.trans (Nat.le_add_left _ _)
  | cons_cons q _ ih =>
    rw [blocksOf_cons, blocksOf_cons]
    exact Nat.add_le_add_left ih _

theorem Sched.InBudget.congr (h : s.InBudget cfg) (hrunning : s'.runningSeqs = s.runningSeqs)
    (hused : s'.blockNumUsed = s.blockNumUsed) : s'.InBudget cfg := by
  constructor
  case used => rw [hused, hrunning, h.used]
  case le => rw [hused]; exact h.le
  case len_pos => rw [hrunning]; exact h.len_pos

/-- Part of the running requests. -/
theorem Sched.InBudget.sublist (h : s.InBudget cfg)
    (hsub : s'.runningSeqs.Sublist s.runningSeqs)
    (hused : s'.blockNumUsed = blocksOf cfg.blockSize s'.runningSeqs) : s'.InBudget cfg where
  used := hused
  le := by
    rw [hused]
    exact (blocksOf_sublist hsub).trans (h.used ▸ h.le)
  len_pos := fun q hq => h.len_pos q (hsub.subset hq)

/-- A request is charged when it is admitted. -/
theorem Sched.InBudget.charge (h : s.InBudget cfg) {id len rem : Nat}
    (hroom : hasEnoughCache cfg s.blockNumUsed len = true)
    (hrunning : s'.runningSeqs = s.runningSeqs ++ [⟨id, len + 1, rem⟩])
    (hused : s'.blockNumUsed = s.blockNumUsed + ceilBlocks cfg.blockSize len) :
    s'.InBudget cfg := by
  constructor
  case used =>
    rw [hused, hrunning, h.used, blocksOf, blocksOf, List.map_append, List.sum_append,
      List.map_singleton, List.sum_singleton, Seq.blocks, Nat.add_sub_cancel]
  case le =>
    have hle := of_decide_eq_true hroom
    rw [hused]
    omega
  case len_pos =>
    intro q hq
    rw [hrunning] at hq
    rcases List.mem_append.mp hq with hq | hq
    · exact h.len_pos q hq
    · rw [List.mem_singleton.mp hq]
      exact Nat.le_add_left 1 len

theorem Sched.InBudget.kill (h : s.InBudget cfg) (hkill : killSeqsForMoreCacheSpace cfg s = some s') :
    s'.InBudget cfg := by
  rw [killSeqsForMoreCacheSpace] at hkill
  obtain ⟨most, -, hkill⟩ := Option.bind_eq_some_iff.mp hkill
  obtain rfl := Option.some.inj hkill
  exact h.sublist (List.take_sublist _ _) rfl

theorem running_ne_nil_of_steps {steps : Nat} (hsteps : getMaxIterNum cfg s = some steps) :
    s.runningSeqs ≠ [] := by
  intro hnil
  rw [getMaxIterNum, hnil] at hsteps
  cases hsteps

/-- The blocks needed in the steps that `get_max_iter_num` gives. -/
theorem Sched.InBudget.blocksAfter_le (hbs : 0 < cfg.blockSize) (h : s.InBudget cfg) {steps n : Nat}
    (hsteps : getMaxIterNum cfg s = some steps) (hn : n ≤ steps) :
    blocksAfter cfg.blockSize n s.runningSeqs ≤ cfg.maxBlockNum := by
  obtain ⟨steps', hsteps', hgreatest⟩ :=
    getMaxIterNum_isGreatest hbs (running_ne_nil_of_steps hsteps) h.len_pos h.used h.le
  obtain rfl := Option.some.inj (hsteps'.symm.trans hsteps)
  exact (blocksAfter_mono hn _).trans hgreatest.1.2

/-- In no iteration of a round is the budget exceeded. -/
theorem Sched.InBudget.iterationBlocks_le (hbs : 0 < cfg.blockSize) (h : s.InBudget cfg) :
    ∀ b ∈ iterationBlocks cfg s, b ≤ cfg.maxBlockNum := by
  intro b hb
  rcases List.mem_cons.mp hb with rfl | hb
  · exact h.used ▸ h.le
  · rw [decodeBlocks] at hb
    cases hkill : killSeqsForMoreCacheSpace cfg s with
    | none =>
      rw [hkill] at hb
      cases hb
    | some s' =>
      rw [hkill, Option.bind_eq_bind, Option.bind_some] at hb
      cases hsteps : getMaxIterNum cfg s' with
      | none =>
        rw [hsteps] at hb
        cases hb
      | some steps =>
        rw [hsteps] at hb
        obtain ⟨i, hi, rfl⟩ := List.mem_map.mp hb
        exact (h.kill hkill).blocksAfter_le hbs hsteps (List.mem_range.mp hi)

theorem blocksOf_advance {blockSize : Nat} {seqs : List Seq} (hlen : ∀ q ∈ seqs, 1 ≤ q.len) (n : Nat) :
    blocksOf blockSize (seqs.map fun q => { q with len := q.len + n, rem := q.rem - n }) =
      blocksAfter blockSize n seqs := by
  rw [blocksOf, blocksAfter, List.map_map]
  refine congrArg List.sum (List.map_congr_left fun q hq => ?_)
  have hq := hlen q hq
  show ceilBlocks blockSize (q.len + n - 1) = ceilBlocks blockSize (q.len - 1 + n)
  congr 1
  omega

/-- After decode steps that the cache has room for and the removal of finished requests. -/
theorem Sched.InBudget.advance (h : s.InBudget cfg) {n : Nat}
    (hn : blocksAfter cfg.blockSize n s.runningSeqs ≤ cfg.maxBlockNum)
    (hrunning : s'.runningSeqs =
      s.runningSeqs.map fun q => { q with len := q.len + n, rem := q.rem - n }) :
    (removeFinishedSeqs cfg s').InBudget cfg := by
  constructor
  case used => rfl
  case le =>
    refine (blocksOf_sublist List.filter_sublist).trans ?_
    rw [hrunning, blocksOf_advance h.len_pos]
    exact hn
  case len_pos =>
    intro q hq
    have hq := List.mem_of_mem_filter hq
    rw [hrunning] at hq
    obtain ⟨q', hq', rfl⟩ := List.mem_map.mp hq
    exact (h.len_pos q' hq').trans (Nat.le_add_right _ _)

/-! ## The simulators -/

/-- Every step of a simulator keeps within the budget. -/
theorem inBudget_preserved (hbs : 0 < cfg.blockSize) : Preserved cfg (Sched.InBudget cfg) where
  receive := fun _ _ _ _ h => h.congr rfl rfl
  finish := fun _ h => h.congr rfl rfl
  start := fun _ _ _ _ h hroom => h.charge hroom rfl rfl
  prefill := fun _ _ _ h _ => h.congr rfl rfl
  kill := fun _ _ h hkill => h.kill hkill
  decode := by
    intro s s' slot steps n h hsteps hn hdecode
    obtain ⟨most, -, hdecode⟩ := Option.bind_eq_some_iff.mp hdecode
    obtain rfl := Option.some.inj hdecode
    exact h.advance (h.blocksAfter_le hbs hsteps hn) rfl

theorem inBudget_init (cfg : Config) (inpLens outLens : List Nat) :
    (Sched.init inpLens outLens).InBudget cfg where
  used := rfl
  le := Nat.zero_le _
  len_pos := fun _ hq => absurd hq List.not_mem_nil

theorem inBudget_arriving_init (cfg : Config) (inpLens outLens : List Nat) (arriveTimes : List ℚ)
    (unfinished : Nat) :
    (Arriving.init inpLens outLens arriveTimes unfinished).sched.InBudget cfg where
  used := rfl
  le := Nat.zero_le _
  len_pos := fun _ hq => absurd hq List.not_mem_nil

/-- The cache budget is kept. The number of decode steps is the greatest for which the running
requests do not run past their ends and the cache suffices. Killing keeps the first running request if
and only if one block more than it has fits, and then there is room for a step. In every iteration of
the three simulators the running requests need at most `max_block_num` blocks. -/
theorem cacheBudget_kept (cfg : ArrivalConfig) (hbs : 0 < cfg.blockSize) :
    (∀ s : Sched, s.runningSeqs ≠ [] → (∀ q ∈ s.runningSeqs, 1 ≤ q.len ∧ 1 ≤ q.rem) →
      s.blockNumUsed = blocksOf cfg.blockSize s.runningSeqs → s.blockNumUsed ≤ cfg.maxBlockNum →
      (∃ steps, getMaxIterNum cfg.toConfig s = some steps ∧
        IsGreatest {t | (∀ q ∈ s.runningSeqs, t ≤ q.rem) ∧
          blocksAfter cfg.blockSize t s.runningSeqs ≤ cfg.maxBlockNum} steps) ∧
      ∀ q rest, s.runningSeqs = q :: rest →
        ((∃ s', killSeqsForMoreCacheSpace cfg.toConfig s = some s' ∧
          s'.runningSeqs.head? = some q) ↔ q.blocks cfg.blockSize + 1 ≤ cfg.maxBlockNum) ∧
        (q.blocks cfg.blockSize + 1 ≤ cfg.maxBlockNum →
          ∃ s' steps, killSeqsForMoreCacheSpace cfg.toConfig s = some s' ∧
            getMaxIterNum cfg.toConfig s' = some steps ∧ 1 ≤ steps)) ∧
    (∀ inpLens outLens s,
      Reached (·.unfinishedReqnum) (scheduleRound cfg.toConfig) (.init inpLens outLens) s →
      ∀ b ∈ iterationBlocks cfg.toConfig (admitWaiting cfg.toConfig s.inpLens.length s []).1,
        b ≤ cfg.maxBlockNum) ∧
    (∀ inpLens outLens arriveTimes unfinished a check,
      Reached (·.sched.unfinishedReqnum) (pipelineRound cfg)
        (.init inpLens outLens arriveTimes unfinished) a →
      a.checks cfg = some check →
      ∀ b ∈ iterationBlocks cfg.toConfig (admitReceived cfg.toConfig
        (a.afterCheck cfg check).sched.seqIds.length (a.afterCheck cfg check).sched []).1,
        b ≤ cfg.maxBlockNum) ∧
    (∀ first later a check,
      Reached (·.sched.unfinishedReqnum) (fusedRound cfg (reqNum (first :: later)))
        (.init first later) a →
      a.checks cfg = some check →
      ∀ b ∈ iterationBlocks cfg.toConfig (admitReceived cfg.toConfig
        (a.afterCheck cfg check).sched.seqIds.length (a.afterCheck cfg check).sched []).1,
        b ≤ cfg.maxBlockNum) := by
  have hP := inBudget_preserved hbs
  refine ⟨fun s hne hseqs hused hle => ⟨?_, fun q rest hrunning => ⟨?_, ?_⟩⟩, ?_, ?_, ?_⟩
  · exact getMaxIterNum_isGreatest hbs hne (fun q hq => (hseqs q hq).1) hused hle
  · exact kill_keeps_first_iff hbs hrunning fun q hq => (hseqs q hq).1
  · exact steps_pos_of_kept hbs hrunning (fun q hq => (hseqs q hq).1) fun q hq => (hseqs q hq).2
  · intro inpLens outLens s hreached
    have h := hP.reached_schedule (inBudget_init _ _ _) hreached
    exact (hP.admitWaiting h _ _).iterationBlocks_le hbs
  · intro inpLens outLens arriveTimes unfinished a check hreached _
    have h := hP.reached_pipeline (inBudget_arriving_init _ _ _ _ _) hreached
    exact (hP.admitReceived (hP.afterCheck h check) _ _).iterationBlocks_le hbs
  · intro first later a check hreached _
    have h := hP.reached_fused (inBudget_arriving_init _ _ _ _ _) hreached
    exact (hP.admitReceived (hP.afterCheckFused h check) _ _).iterationBlocks_le hbs

theorem cacheBudget_kept_blocks_of_4 :
    0 < 4 ∧
    (∃ steps, getMaxIterNum ⟨2, 9, 100, 4, 0⟩
      ⟨[], [], [], 2, [⟨0, 8, 6⟩, ⟨1, 3, 9⟩], 3, 2, [], [], ⟨[], [], [[], []], 0⟩⟩ = some steps ∧
      IsGreatest {t | (∀ q ∈ [(⟨0, 8, 6⟩ : Seq), ⟨1, 3, 9⟩], t ≤ q.rem) ∧
        blocksAfter 4 t [⟨0, 8, 6⟩, ⟨1, 3, 9⟩] ≤ 9} steps) :=
  ⟨by decide, ((cacheBudget_kept ⟨⟨2, 9, 100, 4, 0⟩, 1, false, fun _ => 0, fun _ => 0⟩
    (by decide)).1 ⟨[], [], [], 2, [⟨0, 8, 6⟩, ⟨1, 3, 9⟩], 3, 2, [], [], ⟨[], [], [[], []], 0⟩⟩
    (by decide) (by decide) (by decide) (by decide)).1⟩

/-- A single running request of 3 blocks, still 3 blocks after its next step, is killed although the
cache has 3 blocks; then there is nothing to run. -/
theorem fitting_request_killed :
    let cfg : Config := ⟨1, 3, 100, 4, 0⟩
    let s : Sched := ⟨[9], [3], [0], 1, [⟨0, 10, 2⟩], 3, 1, [], [], ⟨[], [], [[]], 0⟩⟩
    s.blockNumUsed = blocksOf cfg.blockSize s.runningSeqs ∧ s.blockNumUsed ≤ cfg.maxBlockNum ∧
      blocksAfter cfg.blockSize 1 s.runningSeqs ≤ cfg.maxBlockNum ∧
      (killSeqsForMoreCacheSpace cfg s).map Sched.runningSeqs = some [] ∧
      (killSeqsForMoreCacheSpace cfg s).bind (getMaxIterNum cfg) = none := by
  decide

end Mil.Fcfs
