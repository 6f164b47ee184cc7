import Mil.Fcfs.Arrivals

/-!
# What every reached state has

The three simulators take the same kinds of steps: they receive requests, admit them, record prefill
steps, kill requests, run decode steps and remove what has finished. `Preserved` says that a property
of the schedule survives each of these; then it holds in every state that one of the simulators
reaches, in the states in which a round admits requests, and after its prefill steps
(`Preserved.scheduleRound`, `pipelineRound`, `fusedRound` and what comes with them).
-/

set_option autoImplicit false

namespace Mil.Fcfs

/-! ## Runs -/

/-- The states that a loop `while unfinished` reaches. -/
inductive Reached {σ : Type} (unfinished : σ → Nat) (round : σ → Option σ) (init : σ) : σ → Prop
  | init : Reached unfinished round init init
  | step {s s' : σ} : Reached unfinished round init s → unfinished s ≠ 0 → round s = some s' →
      Reached unfinished round init s'

theorem Reached.invariant {σ : Type} {unfinished : σ → Nat} {round : σ → Option σ} {init s : σ}
    {P : σ → Prop} (hinit : P init) (hround : ∀ s s', P s → round s = some s' → P s')
    (h : Reached unfinished round init s) : P s := by
  induction h with
  | init => exact hinit
  | step _ _ hrun ih => exact hround _ _ ih hrun

/-- The state in which a round of the first simulator admits requests. -/
def Arriving.afterCheck (cfg : ArrivalConfig) (check : Bool) (a : Arriving) : Arriving :=
  if check then checkNewInputRequests cfg a else a

/-- The state in which a round of the simulator of fused models admits requests. -/
def Fused.afterCheck (cfg : ArrivalConfig) (check : Bool) (a : Fused) : Fused :=
  if check then checkNewInputRequestsVerticalFuse cfg (updateSeqInfo a) else a

/-- The schedule with the prefill steps of `progress`. -/
def Sched.withPrefills (s : Sched) (progress : Progress) : Sched :=
  { s with
    progress := progress
    isPrefillSteps := s.isPrefillSteps ++
      List.replicate (progress.totIterNum - s.isPrefillSteps.length) true }

/-- The schedule of a round of the plain simulator after its prefill steps. -/
def Sched.prefilled (cfg : Config) (s : Sched) : Option Sched := do
  let (s, prompts) := admitWaiting cfg s.inpLens.length s []
  let progress ← updatePrefillLogs cfg.maxNumBatchedTokens prompts s.progress
  return s.withPrefills progress

/-- A round of the plain simulator goes on from there. -/
theorem scheduleRound_eq_prefilled (cfg : Config) (s : Sched) :
    scheduleRound cfg s = (s.prefilled cfg).bind fun s =>
      if s.unfinishedReqnum = 0 then (if s.runningSeqs.length = 0 then some s else none)
      else (killSeqsForMoreCacheSpace cfg s).bind fun s =>
        (getMaxIterNum cfg s).bind fun iterNum =>
          (decode iterNum s).bind fun s => some (removeFinishedSeqs cfg s) := by
  rw [scheduleRound, Sched.prefilled]
  generalize admitWaiting cfg s.inpLens.length s [] = admitted
  show Option.bind (updatePrefillLogs _ admitted.2 admitted.1.progress) _ =
    (Option.bind (updatePrefillLogs _ admitted.2 admitted.1.progress) _).bind _
  cases updatePrefillLogs cfg.maxNumBatchedTokens admitted.2 admitted.1.progress <;> rfl

/-! ## Preserved properties -/

structure Preserved (cfg : Config) (P : Sched → Prop) : Prop where
  receive : ∀ s inpLens outLens seqIds, P s →
    P { s with inpLens := inpLens, outLens := outLens, seqIds := seqIds }
  finish : ∀ s, P s →
    P { s with unfinishedReqnum := s.unfinishedReqnum - 1, pointer := s.pointer + 1 }
  start : ∀ s id len rem, P s → hasEnoughCache cfg s.blockNumUsed len = true →
    P { s with
      runningSeqs := s.runningSeqs ++ [⟨id, len + 1, rem⟩]
      blockNumUsed := s.blockNumUsed + ceilBlocks cfg.blockSize len
      pointer := s.pointer + 1 }
  prefill : ∀ s prompts progress, P s →
    updatePrefillLogs cfg.maxNumBatchedTokens prompts s.progress = some progress →
    P (s.withPrefills progress)
  kill : ∀ s s', P s → killSeqsForMoreCacheSpace cfg s = some s' → P s'
  decode : ∀ s s' slot steps n, P s → getMaxIterNum cfg s = some steps → n ≤ steps →
    decodeAt slot n s = some s' → P (removeFinishedSeqs cfg s')

namespace Preserved

variable {P : Sched → Prop}

section

variable {cfg : Config} (hP : Preserved cfg P) {s s' : Sched}

include hP

theorem admitWaiting (h : P s) (fuel : Nat) (prompts : List (Nat × Nat)) :
    P (admitWaiting cfg fuel s prompts).1 := by
  induction fuel generalizing s prompts with
  | zero => exact h
  | succ fuel ih =>
    rw [Fcfs.admitWaiting]
    split
    · simp only
      split
      · rename_i hroom
        split
        · exact ih (hP.finish s h) _
        · exact ih (hP.start s _ _ _ h hroom) _
      · exact h
    · exact h

theorem admitReceived (h : P s) (fuel : Nat) (prompts : List (Nat × Nat)) :
    P (admitReceived cfg fuel s prompts).1 := by
  induction fuel generalizing s prompts with
  | zero => exact h
  | succ fuel ih =>
    rw [Fcfs.admitReceived]
    split
    · simp only
      split
      · rename_i hroom
        split
        · exact ih (hP.finish s h) _
        · exact ih (hP.start s _ _ _ h hroom) _
      · exact h
    · exact h

theorem prefilled (h : P s) (hrun : s.prefilled cfg = some s') : P s' := by
  have hadmitted := hP.admitWaiting h s.inpLens.length []
  rw [Sched.prefilled] at hrun
  generalize Fcfs.admitWaiting cfg s.inpLens.length s [] = admitted at hadmitted hrun
  obtain ⟨progress, hprogress, hrun⟩ := Option.bind_eq_some_iff.mp hrun
  obtain rfl := Option.some.inj hrun
  exact hP.prefill _ _ _ hadmitted hprogress

theorem scheduleRound (h : P s) (hrun : scheduleRound cfg s = some s') : P s' := by
  rw [scheduleRound_eq_prefilled] at hrun
  obtain ⟨prefilled, hprefill, hrun⟩ := Option.bind_eq_some_iff.mp hrun
  have hprefilled := hP.prefilled h hprefill
  split at hrun
  · split at hrun
    · obtain rfl := Option.some.inj hrun
      exact hprefilled
    · cases hrun
  · obtain ⟨killed, hkill, hrun⟩ := Option.bind_eq_some_iff.mp hrun
    obtain ⟨steps, hsteps, hrun⟩ := Option.bind_eq_some_iff.mp hrun
    obtain ⟨decoded, hdecode, hrun⟩ := Option.bind_eq_some_iff.mp hrun
    obtain rfl := Option.some.inj hrun
    exact hP.decode killed decoded id steps steps (hP.kill _ _ hprefilled hkill) hsteps le_rfl hdecode

end

/-! ## The arrival-aware simulators -/

section

variable {cfg : ArrivalConfig} (hP : Preserved cfg.toConfig P)

include hP

theorem arrivalPrefill {slot : Nat → Nat} {more : Bool} {a a' : Arriving} (h : P a.sched)
    (hrun : arrivalPrefill cfg slot more a = some a') : P a'.sched := by
  rw [Fcfs.arrivalPrefill] at hrun
  have hadmitted := hP.admitReceived h a.sched.seqIds.length []
  generalize Fcfs.admitReceived cfg.toConfig a.sched.seqIds.length a.sched [] = admitted
    at hadmitted hrun
  obtain ⟨progress, hprogress, hrun⟩ := Option.bind_eq_some_iff.mp hrun
  obtain rfl := Option.some.inj hrun
  exact hP.prefill _ _ _ hadmitted hprogress

theorem arrivalDecode {slot : Nat → Nat} {steps n : Nat} {a a' : Arriving} (h : P a.sched)
    (hsteps : getMaxIterNum cfg.toConfig a.sched = some steps) (hn : n ≤ steps)
    (hrun : arrivalDecode cfg slot n a = some a') : P a'.sched := by
  rw [Fcfs.arrivalDecode] at hrun
  obtain ⟨decoded, hdecode, hrun⟩ := Option.bind_eq_some_iff.mp hrun
  obtain ⟨time, -, hrun⟩ := Option.bind_eq_some_iff.mp hrun
  obtain rfl := Option.some.inj hrun
  exact hP.decode _ _ slot steps n h hsteps hn hdecode

theorem arrivalRound {slot : Nat → Nat} {more : Bool} {a a' : Arriving} (h : P a.sched)
    (hrun : arrivalRound cfg slot more a = some a') : P a'.sched := by
  rw [Fcfs.arrivalRound] at hrun
  obtain ⟨prefilled, hprefill, hrun⟩ := Option.bind_eq_some_iff.mp hrun
  have hprefilled := hP.arrivalPrefill h hprefill
  split at hrun
  · obtain rfl := Option.some.inj hrun
    exact hprefilled
  · obtain ⟨killed, hkill, hrun⟩ := Option.bind_eq_some_iff.mp hrun
    obtain ⟨steps, hsteps, hrun⟩ := Option.bind_eq_some_iff.mp hrun
    have hkilled := hP.kill _ _ hprefilled hkill
    rw [arrivalSteps] at hrun
    -- A round does at most the steps there is room for.
    split at hrun
    · split at hrun
      · cases hrun
      · split at hrun
        · obtain rfl := Option.some.inj hrun
          exact hkilled
        · exact hP.arrivalDecode (a := { prefilled.killed killed with mustRecord := false }) hkilled
            hsteps (Nat.min_le_left _ _) hrun
    · exact hP.arrivalDecode (a := prefilled.killed killed) hkilled hsteps le_rfl hrun

theorem afterCheck {a : Arriving} (h : P a.sched) (check : Bool) :
    P (a.afterCheck cfg check).sched := by
  rw [Arriving.afterCheck]
  split
  · rw [checkNewInputRequests]
    split
    · exact h
    · exact hP.receive _ _ _ _ h
  · exact h

theorem afterCheckFused {a : Fused} (h : P a.sched) (check : Bool) :
    P (a.afterCheck cfg check).sched := by
  rw [Fused.afterCheck]
  split
  · have hupdated : P (updateSeqInfo a).sched := hP.receive _ _ _ a.sched.seqIds h
    rw [checkNewInputRequestsVerticalFuse]
    split
    · exact hupdated
    · exact hP.receive _ _ _ _ hupdated
  · exact h

theorem pipelineRound {a a' : Arriving} (h : P a.sched) (hrun : pipelineRound cfg a = some a') :
    P a'.sched := by
  obtain ⟨check, -, hrun⟩ := Option.bind_eq_some_iff.mp hrun
  exact hP.arrivalRound (hP.afterCheck h check) hrun

theorem fusedRound {reqNum : Nat} {a a' : Fused} (h : P a.sched)
    (hrun : fusedRound cfg reqNum a = some a') : P a'.sched := by
  obtain ⟨check, -, hrun⟩ := Option.bind_eq_some_iff.mp hrun
  obtain ⟨round, hround, hrun⟩ := Option.bind_eq_some_iff.mp hrun
  obtain rfl := Option.some.inj hrun
  exact hP.arrivalRound (hP.afterCheckFused h check) hround

end

/-! ## Reached states -/

section

variable {cfg : ArrivalConfig} (hP : Preserved cfg.toConfig P)

include hP

theorem reached_schedule {inpLens outLens : List Nat} {s : Sched} (hinit : P (.init inpLens outLens))
    (h : Reached (·.unfinishedReqnum) (Fcfs.scheduleRound cfg.toConfig) (.init inpLens outLens) s) :
    P s :=
  Reached.invariant hinit (fun _ _ h hrun => hP.scheduleRound h hrun) h

theorem reached_pipeline {inpLens outLens : List Nat} {arriveTimes : List ℚ} {unfinished : Nat}
    {a : Arriving} (hinit : P (Arriving.init inpLens outLens arriveTimes unfinished).sched)
    (h : Reached (·.sched.unfinishedReqnum) (Fcfs.pipelineRound cfg)
      (.init inpLens outLens arriveTimes unfinished) a) : P a.sched :=
  Reached.invariant (P := fun a => P a.sched) hinit (fun _ _ h hrun => hP.pipelineRound h hrun) h

theorem reached_fused {reqNum : Nat} {first : Level} {later : List Level} {a : Fused}
    (hinit : P (Fused.init first later).sched)
    (h : Reached (·.sched.unfinishedReqnum) (Fcfs.fusedRound cfg reqNum) (.init first later) a) :
    P a.sched :=
  Reached.invariant (P := fun a => P a.sched) hinit (fun _ _ h hrun => hP.fusedRound h hrun) h

end

end Preserved

end Mil.Fcfs
