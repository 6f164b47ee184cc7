import Mil.Handshake.System

/-!
# What the handshake guarantees, and when

The events alone do not make the handshake safe. At the top of its loop a model tests
`is_started` and, on a negative answer, raises its ready event; the scheduler may raise the start
flag and clear the ready event between the two, and then the event stays up through the next
round (`lateReady_unsafe`). Two more accesses lose a start: a stop before the model has noticed
the start, and the start of a model that has meanwhile finished.

`Sys.Meets` excludes these three, each by a look at the state before the step. `Sys.Safe` is what
the handshake is for, and `safe_of_meets` proves it of every run that excludes them. The
invariant is per model: what the scheduler has yet to do to the model (`Agenda`) fixes a phase,
and the phase fixes where the process can be and what its ready event can say (`Model.Ok`).
-/

set_option autoImplicit false

namespace Mil.Handshake

open Relation

variable {n : Nat} {P : Type} {cfg : Settings P}

/-! ## The property -/

namespace Model

/-- The process has not noticed a start yet and is on its way to wait for one. -/
def Awaiting (c : Model P) : Prop :=
  c.finished = false ∧ (c.pc = .loopTop ∨ c.pc = .checkStarted ∨ c.pc = .finishPreparationAgain ∨
    c.pc = .waitToBeStarted)

instance (c : Model P) : Decidable c.Awaiting := by unfold Awaiting; infer_instance

/-- The model is in a round: its GPUs are in use, or about to be, or the end of the round has not
been announced. -/
def InRound (c : Model P) : Prop :=
  c.pc = .updateExecutionPlan ∨ c.pc = .launch ∨ c.pc = .waitWorkers ∨ c.pc = .finishPreparation

instance (c : Model P) : Decidable c.InRound := by unfold InRound; infer_instance

/-- How many steps of its own a stopped model is away from the end of its round. -/
def distance (cfg : Settings P) (c : Model P) : Nat :=
  match c.pc with
  | .updateExecutionPlan => cfg.dpSize c.setting + 4
  | .launch => cfg.dpSize c.plan + 3
  | .waitWorkers => c.running + 2
  | .finishPreparation => 1
  | _ => 0

end Model

/-- What the handshake is for. -/
structure Sys.Safe (cfg : Settings P) (s : Sys n P) : Prop where
  /-- When the scheduler returns from waiting for a model, no worker of it is running, the model
  is between rounds, and every start has begun its round. -/
  free : ∀ m rest, s.todo = .waitReady m :: rest → (s.model m).ready = true →
    (s.model m).running = 0 ∧ ¬ (s.model m).InRound ∧ (s.model m).starts = (s.model m).begun
  /-- Rounds and starts agree one by one, settings included, except that the last start may still
  be on its way. -/
  rounds : ∀ m, (s.model m).starts = (s.model m).begun ∨
    ((s.model m).starts = (s.model m).begun ++ [(s.model m).setting] ∧
      ((s.model m).pc = .updateExecutionPlan ∨
        (s.model m).started = true ∧ (s.model m).Awaiting))
  /-- A stop stays requested until the scheduler returns from waiting. -/
  stays : ∀ m, .waitReady m ∈ s.todo → .stop m ∉ s.todo → (s.model m).started = false
  /-- A model asked to stop can go on, and whatever it does brings the end of its round nearer. -/
  leaves : ∀ m, (s.model m).started = false → (s.model m).InRound →
    (∃ a c, (s.model m).step cfg a = some c) ∧
      ∀ a c, (s.model m).step cfg a = some c → c.distance cfg < (s.model m).distance cfg

/-! ## The condition -/

/-- An action that does not race: the ready event raised at the top of the loop is not raised
behind the back of a start, unless the scheduler is just about to clear it; a model is stopped
only once it has noticed its start; a model that has finished is not started. -/
def Sys.Meets (s : Sys n P) : Act n P → Prop
  | .schedule _ _ => True
  | .main =>
    match s.todo with
    | .stop m :: _ => ¬ (s.model m).Awaiting
    | .setStarted m :: _ => (s.model m).finished = false
    | _ => True
  | .model m .next => (s.model m).pc = .finishPreparationAgain → (s.model m).started = true →
      s.todo.head? = some (.clearReady m)
  | .model _ _ => True

/-- A step that meets the condition. -/
def Sys.MeetsStep (cfg : Settings P) (s s' : Sys n P) : Prop :=
  ∃ a, s.Meets a ∧ s.step cfg a = some s'

/-! ## The invariant of one model -/

inductive Phase
  | off
  | starting
  | on
  | stopping
deriving DecidableEq, Repr

/-- The scheduler is going to launch `m`, or not. -/
inductive Launching (m : Fin n) : List (Op n P) → Prop
  | no : Launching m []
  | plan (p : P) : Launching m [.setPlan m p, .setStarted m, .clearReady m]
  | started : Launching m [.setStarted m, .clearReady m]

/-- What the scheduler has yet to do to `m`, and the phase `m` is in. -/
inductive Agenda (m : Fin n) : Bool → List (Op n P) → Phase → Prop
  | off {l : List (Op n P)} (h : Launching m l) : Agenda m false l .off
  | starting : Agenda m true [.clearReady m] .starting
  | on : Agenda m true [] .on
  | stop {l : List (Op n P)} (h : Launching m l) :
      Agenda m true (.stop m :: .waitReady m :: l) .on
  | wait {l : List (Op n P)} (h : Launching m l) : Agenda m false (.waitReady m :: l) .stopping

namespace Model

/-- The last start is on its way, or has begun its round. -/
def Pending (c : Model P) : Prop := c.starts = c.begun ++ [c.setting]
def Settled (c : Model P) : Prop := c.starts = c.begun

/-- Where the process is and what its ready event says, phase by phase. -/
def AtPhase (c : Model P) : Phase → Prop
  | .off => ¬ c.InRound ∧ c.pc ≠ .finishPreparationBeforeInit ∧ c.Settled
  | .starting =>
    c.pc ≠ .finishPreparationBeforeInit ∧ (c.pc = .waitWorkers → c.stopped = 0) ∧
    (c.pc = .finishPreparation → c.finished = true) ∧
    (c.Awaiting ∨ c.pc = .updateExecutionPlan → c.Pending) ∧
    (¬ c.Awaiting → c.pc ≠ .updateExecutionPlan → c.Settled)
  | .on =>
    c.pc ≠ .finishPreparationBeforeInit ∧ (c.pc = .waitWorkers → c.stopped = 0) ∧
    (c.pc = .finishPreparation → c.finished = true) ∧
    (c.Awaiting ∨ c.pc = .updateExecutionPlan → c.Pending) ∧
    (¬ c.Awaiting → c.pc ≠ .updateExecutionPlan → c.Settled) ∧
    (c.Awaiting ∨ c.InRound → c.ready = false)
  | .stopping =>
    (c.pc = .updateExecutionPlan → c.Pending) ∧ (c.pc ≠ .updateExecutionPlan → c.Settled) ∧
    (c.pc = .finishPreparationBeforeInit ∨ c.InRound → c.ready = false)

structure Ok (c : Model P) : Prop where
  running_eq : c.pc ≠ .waitWorkers → c.running = 0
  gened_le : c.pc = .waitWorkers → c.gened ≤ c.remained
  all_ended : c.pc = .waitWorkers → c.running = 0 → c.stopped = 0 → c.gened = c.remained
  finished_pc : c.finished = true →
    c.pc = .finishPreparation ∨ c.pc = .loopTop ∨ c.pc = .exited
  exited : c.pc = .exited → c.finished = true

/-! ### The steps of a model -/

/-- What a process can do next, case by case. -/
inductive Moves (cfg : Settings P) (c : Model P) : Model P → Prop
  | announce (h : c.pc = .finishPreparationBeforeInit) :
      Moves cfg c { c with ready := true, pc := .waitToBeStarted }
  | pickUp (h : c.pc = .waitToBeStarted) (started : c.started = true) :
      Moves cfg c { c with pc := .updateExecutionPlan }
  | begin (h : c.pc = .updateExecutionPlan) :
      Moves cfg c { c with plan := c.setting, begun := c.begun ++ [c.setting], pc := .launch }
  | launch (h : c.pc = .launch) :
      Moves cfg c { c with
        running := cfg.dpSize c.plan, stopped := 0, gened := 0, pc := .waitWorkers }
  | gather (h : c.pc = .waitWorkers) (done : c.running = 0) :
      Moves cfg c { c with
        remained := c.remained - c.gened
        finished := c.finished || c.remained - c.gened = 0
        pc := .finishPreparation }
  | announceEnd (h : c.pc = .finishPreparation) :
      Moves cfg c { c with ready := true, pc := .loopTop }
  | leave (h : c.pc = .loopTop) (finished : c.finished = true) :
      Moves cfg c { c with pc := .exited }
  | again (h : c.pc = .loopTop) (unfinished : c.finished = false) :
      Moves cfg c { c with pc := .checkStarted }
  | checkYes (h : c.pc = .checkStarted) (started : c.started = true) :
      Moves cfg c { c with pc := .waitToBeStarted }
  | checkNo (h : c.pc = .checkStarted) (stopped : c.started = false) :
      Moves cfg c { c with pc := .finishPreparationAgain }
  | announceLate (h : c.pc = .finishPreparationAgain) :
      Moves cfg c { c with ready := true, pc := .waitToBeStarted }

theorem moves_of_next {c c' : Model P} (run : c.next cfg = some c') : Moves cfg c c' := by
  unfold Model.next at run
  split at run <;> rename_i hpc
  · exact Option.some.inj run ▸ .announce hpc
  · split at run
    · exact Option.some.inj run ▸ .pickUp hpc ‹_›
    · cases run
  · exact Option.some.inj run ▸ .begin hpc
  · exact Option.some.inj run ▸ .launch hpc
  · split at run
    · exact Option.some.inj run ▸ .gather hpc ‹_›
    · cases run
  · exact Option.some.inj run ▸ .announceEnd hpc
  · cases hfin : c.finished with
    | true => exact Option.some.inj run ▸ by simpa [hfin] using Moves.leave hpc hfin
    | false => exact Option.some.inj run ▸ by simpa [hfin] using Moves.again hpc hfin
  · cases hs : c.started with
    | true => exact Option.some.inj run ▸ by simpa [hs] using Moves.checkYes hpc hs
    | false => exact Option.some.inj run ▸ by simpa [hs] using Moves.checkNo hpc hs
  · exact Option.some.inj run ▸ .announceLate hpc
  · cases run

/-- A worker that is done leaves the process and its events alone. -/
inductive WorkerDone (c : Model P) (stopped' gened' : Nat) : Prop
  | stop (running : 0 < c.running) (asked : c.started = false) (le : gened' ≤ c.remained)
      (stopped : stopped' = c.stopped + 1)
  | finish (running : 0 < c.running) (le : gened' ≤ c.remained)
      (last : c.running = 1 → c.stopped = 0 → gened' = c.remained) (stopped : stopped' = c.stopped)

theorem step_cases {c c' : Model P} {a : ModelAct} (run : c.step cfg a = some c') :
    (a = .next ∧ Moves cfg c c') ∨ (a ≠ .next ∧ ∃ stopped' gened', WorkerDone c stopped' gened' ∧
      c' = { c with running := c.running - 1, stopped := stopped', gened := gened' }) := by
  cases a with
  | next => exact .inl ⟨rfl, moves_of_next run⟩
  | workerStop g =>
    simp only [Model.step, workerStop, Option.ite_none_right_eq_some, Option.some.injEq] at run
    obtain ⟨⟨hrun, hask, hle⟩, rfl⟩ := run
    exact .inr ⟨by simp, _, _, .stop hrun hask hle rfl, rfl⟩
  | workerEnd g =>
    simp only [Model.step, workerEnd, Option.ite_none_right_eq_some, Option.some.injEq] at run
    obtain ⟨⟨hrun, hle, hlast⟩, rfl⟩ := run
    exact .inr ⟨by simp, c.stopped, _, .finish hrun hle (fun h₁ h₂ => hlast ⟨h₁, h₂⟩) rfl, rfl⟩

theorem Ok.moves {c c' : Model P} (h : c.Ok) (hm : Moves cfg c c') : c'.Ok := by
  obtain ⟨h1, h2, h3, h4, h5⟩ := h
  have hpos := cfg.dpSize_pos c.plan
  cases hm with
  | launch hpc =>
    refine ⟨fun hne => absurd rfl hne, fun _ => Nat.zero_le _, fun _ hzero => ?_, fun hf => ?_,
      fun hex => by cases hex⟩
    · simp only at hzero
      omega
    · simp_all
  | _ => constructor <;> simp_all

theorem Ok.workerDone {c : Model P} (h : c.Ok) {stopped' gened' : Nat}
    (hd : WorkerDone c stopped' gened') :
    Ok { c with running := c.running - 1, stopped := stopped', gened := gened' } := by
  obtain ⟨h1, h2, h3, h4, h5⟩ := h
  cases hd with
  | stop hrun hask hle hst =>
    refine ⟨fun hne => ?_, fun _ => hle, fun _ _ hzero => ?_, h4, h5⟩
    · have := h1 hne
      simp only
      omega
    · simp only at hzero
      omega
  | finish hrun hle hlast hst =>
    refine ⟨fun hne => ?_, fun _ => hle, fun _ hone hzero => ?_, h4, h5⟩
    · have := h1 hne
      simp only
      omega
    · simp only at hone hzero
      exact hlast (by omega) (by omega)

/-- The process keeps to its phase. The one move that might not, the late announcement, is the
one excluded. -/
theorem AtPhase.moves {c c' : Model P} {ph : Phase} (hok : c.Ok) (h : c.AtPhase ph)
    (hstarted : c.started = true ↔ ph = .starting ∨ ph = .on)
    (hlate : c.pc = .finishPreparationAgain → ph ≠ .on)
    (hm : Moves cfg c c') : c'.AtPhase ph := by
  obtain ⟨h1, h2, h3, h4, h5⟩ := hok
  cases hm <;> cases ph <;> simp_all [AtPhase, Awaiting, InRound, Pending, Settled]

theorem AtPhase.workerDone {c : Model P} {ph : Phase} (h : c.AtPhase ph)
    (hstarted : c.started = true ↔ ph = .starting ∨ ph = .on) {stopped' gened' : Nat}
    (hd : WorkerDone c stopped' gened') :
    AtPhase { c with running := c.running - 1, stopped := stopped', gened := gened' } ph := by
  cases hd with
  | stop hrun hask hle hst =>
    cases ph with
    | off => exact h
    | stopping => exact h
    | starting => simp_all
    | on => simp_all
  | finish hrun hle hlast hst => subst hst; cases ph <;> exact h

theorem exists_step_of_inRound {c : Model P} (hok : c.Ok) (hstopped : c.started = false)
    (hround : c.InRound) : ∃ a c', c.step cfg a = some c' := by
  rcases hround with hpc | hpc | hpc | hpc
  · exact ⟨.next, _, by rw [Model.step, Model.next, hpc]⟩
  · exact ⟨.next, _, by rw [Model.step, Model.next, hpc]⟩
  · rcases Nat.eq_zero_or_pos c.running with hzero | hpos
    · exact ⟨.next, _, by rw [Model.step, Model.next, hpc]; exact if_pos hzero⟩
    · exact ⟨.workerStop 0, _, if_pos ⟨hpos, hstopped, hok.gened_le hpc⟩⟩
  · exact ⟨.next, _, by rw [Model.step, Model.next, hpc]⟩

theorem distance_lt {c c' : Model P} (hok : c.Ok) (hround : c.InRound) {a : ModelAct}
    (run : c.step cfg a = some c') : c'.distance cfg < c.distance cfg := by
  rcases step_cases run with ⟨-, hm⟩ | ⟨-, stopped', gened', hdone, rfl⟩
  · unfold InRound at hround
    cases hm <;> simp_all [distance]
  · have hrunning : 0 < c.running := by cases hdone <;> assumption
    have hpc : c.pc = .waitWorkers := by
      by_contra hne
      have := hok.running_eq hne
      omega
    simp only [distance, hpc]
    omega

theorem Ok.leaves {c : Model P} (hok : c.Ok) (hstopped : c.started = false)
    (hround : c.InRound) : (∃ a c', c.step cfg a = some c') ∧
      ∀ a c', c.step cfg a = some c' → c'.distance cfg < c.distance cfg :=
  ⟨exists_step_of_inRound hok hstopped hround, fun _ _ run => distance_lt hok hround run⟩

/-- A start begins: the model, which has not finished, is waiting for it. -/
theorem AtPhase.start {c : Model P} (hok : c.Ok) (h : c.AtPhase .off)
    (hfin : c.finished = false) :
    AtPhase { c with started := true, starts := c.starts ++ [c.setting] } .starting := by
  obtain ⟨hround, hboot, hsettled⟩ := h
  have hexit := hok.exited
  have hawait : c.Awaiting := by
    refine ⟨hfin, ?_⟩
    unfold InRound at hround
    cases hpc : c.pc <;> simp_all
  have hpc := hawait.2
  refine ⟨hboot, fun hp => ?_, fun hp => ?_, fun _ => ?_, fun hnot => absurd hawait hnot⟩
  · simp only at hp
    simp [hp] at hpc
  · simp only at hp
    simp [hp] at hpc
  · simp only [Pending]
    rw [hsettled]

end Model

/-! ## The invariant of the system -/

/-- The accesses that concern `m`. -/
def Op.about (m : Fin n) : Op n P → Bool
  | .dropDone => false
  | .stop m' | .waitReady m' | .setPlan m' _ | .setStarted m' | .clearReady m' => m' = m

def Sys.agenda (s : Sys n P) (m : Fin n) : List (Op n P) := s.todo.filter (Op.about m)

/-- All stops of a round come before it drops the models that are done. -/
def StopsFirst (a b : Op n P) : Prop := a = .dropDone → ∀ m, b ≠ .stop m

structure Sys.Ok (s : Sys n P) : Prop where
  order : s.todo.Pairwise StopsFirst
  model : ∀ m, (s.model m).Ok
  phase : ∀ m, ∃ ph, Agenda m (s.model m).started (s.agenda m) ph ∧ (s.model m).AtPhase ph

theorem Agenda.started_iff {m : Fin n} {b : Bool} {l : List (Op n P)} {ph : Phase}
    (h : Agenda m b l ph) : b = true ↔ ph = .starting ∨ ph = .on := by
  cases h <;> simp

section Agenda

variable {m : Fin n} {b : Bool} {l : List (Op n P)} {ph : Phase}

theorem Agenda.stop_inv (h : Agenda m b (.stop m :: l) ph) :
    b = true ∧ ph = .on ∧ ∃ l', l = .waitReady m :: l' ∧ Launching m l' := by
  cases h with
  | off hl => cases hl
  | stop hl => exact ⟨rfl, rfl, _, rfl, hl⟩

theorem Agenda.wait_inv (h : Agenda m b (.waitReady m :: l) ph) :
    b = false ∧ ph = .stopping ∧ Launching m l := by
  cases h with
  | off hl => cases hl
  | wait hl => exact ⟨rfl, rfl, hl⟩

theorem Agenda.plan_inv {p : P} (h : Agenda m b (.setPlan m p :: l) ph) :
    b = false ∧ ph = .off ∧ l = [.setStarted m, .clearReady m] := by
  cases h with
  | off hl => cases hl; exact ⟨rfl, rfl, rfl⟩

theorem Agenda.started_inv (h : Agenda m b (.setStarted m :: l) ph) :
    b = false ∧ ph = .off ∧ l = [.clearReady m] := by
  cases h with
  | off hl => cases hl; exact ⟨rfl, rfl, rfl⟩

theorem Agenda.clear_inv (h : Agenda m b (.clearReady m :: l) ph) :
    b = true ∧ ph = .starting ∧ l = [] := by
  cases h with
  | off hl => cases hl
  | starting => exact ⟨rfl, rfl, rfl⟩

/-- A launch has nothing to wait for. -/
theorem Launching.filter_eq {keep : Op n P → Bool} (h : Launching m l)
    (hkeep : ∀ op : Op n P, (∀ m', op ≠ .waitReady m') → keep op = true) :
    l.filter keep = l := by
  rw [List.filter_eq_self]
  intro op hop
  refine hkeep op fun m' heq => ?_
  subst heq
  cases h <;> simp at hop

/-- Once the wait for `m` is dropped from an agenda that waits, `m` is off. -/
theorem Agenda.dropWait {keep : Op n P → Bool} (h : Agenda m b l ph)
    (hwait : keep (.waitReady m) = false)
    (hkeep : ∀ op : Op n P, (∀ m', op ≠ .waitReady m') → keep op = true)
    (hstop : .stop m ∉ l) :
    Agenda m b (l.filter keep) ph ∨ (ph = .stopping ∧ Agenda m b (l.filter keep) .off) := by
  cases h with
  | off hl => exact .inl (by rw [hl.filter_eq hkeep]; exact .off hl)
  | starting => exact .inl (by simpa [hkeep (.clearReady m) (by simp)] using Agenda.starting)
  | on => exact .inl .on
  | stop hl => exact absurd List.mem_cons_self hstop
  | wait hl =>
    refine .inr ⟨rfl, ?_⟩
    rw [List.filter_cons, if_neg (by simp [hwait]), hl.filter_eq hkeep]
    exact .off hl

end Agenda

theorem mem_agenda {s : Sys n P} {m : Fin n} {op : Op n P} (hop : op.about m = true) :
    op ∈ s.agenda m ↔ op ∈ s.todo := by
  simp [Sys.agenda, List.mem_filter, hop]

theorem filter_map_single {m : Fin n} {op : Fin n → Op n P}
    (hop : ∀ m', (op m').about m = decide (m' = m)) :
    ∀ {l : List (Fin n)}, l.Nodup →
      (l.map op).filter (Op.about m) = if m ∈ l then [op m] else []
  | [], _ => rfl
  | m' :: l, h => by
    rw [List.nodup_cons] at h
    rw [List.map_cons, List.filter_cons, filter_map_single hop h.2, hop m']
    by_cases hm : m' = m
    · subst hm
      simp [h.1]
    · simp [hm, Ne.symm hm]

/-- A launch concerns each model at most once. -/
theorem launching_newLaunch {m : Fin n} :
    ∀ {l : List (Fin n × P)}, (l.map Prod.fst).Nodup →
      Launching m ((l.flatMap fun e => [Op.setPlan e.1 e.2, .setStarted e.1, .clearReady e.1]).filter
        (Op.about m)) ∧
      (m ∉ l.map Prod.fst → (l.flatMap fun e =>
        [Op.setPlan e.1 e.2, .setStarted e.1, .clearReady e.1]).filter (Op.about m) = [])
  | [], _ => ⟨.no, fun _ => rfl⟩
  | (m', p) :: l, h => by
    rw [List.map_cons, List.nodup_cons] at h
    obtain ⟨hl, hnil⟩ := launching_newLaunch (m := m) h.2
    rw [List.flatMap_cons, List.filter_append]
    by_cases hm : m' = m
    · subst hm
      rw [hnil h.1]
      exact ⟨by simpa [Op.about] using Launching.plan p, fun hnot => absurd (by simp) hnot⟩
    · have hskip : ([Op.setPlan m' p, .setStarted m', .clearReady m'] : List (Op n P)).filter
          (Op.about m) = [] := by simp [Op.about, hm]
      rw [hskip, List.nil_append]
      exact ⟨hl, fun hnot => hnil fun hmem => hnot (List.mem_cons_of_mem _ hmem)⟩

theorem launching_firstStage {m : Fin n} :
    ∀ {l : List (Fin n)}, l.Nodup →
      Launching m ((l.flatMap fun m' => [(Op.setStarted m' : Op n P), .clearReady m']).filter
        (Op.about m)) ∧
      (m ∉ l → (l.flatMap fun m' => [(Op.setStarted m' : Op n P), .clearReady m']).filter
        (Op.about m) = [])
  | [], _ => ⟨.no, fun _ => rfl⟩
  | m' :: l, h => by
    rw [List.nodup_cons] at h
    obtain ⟨hl, hnil⟩ := launching_firstStage (m := m) h.2
    rw [List.flatMap_cons, List.filter_append]
    by_cases hm : m' = m
    · subst hm
      rw [hnil h.1]
      exact ⟨by simpa [Op.about] using Launching.started (P := P),
        fun hnot => absurd (by simp) hnot⟩
    · have hskip : ([Op.setStarted m', .clearReady m'] : List (Op n P)).filter
          (Op.about m) = [] := by simp [Op.about, hm]
      rw [hskip, List.nil_append]
      exact ⟨hl, fun hnot => hnil fun hmem => hnot (List.mem_cons_of_mem _ hmem)⟩

theorem stopsFirst_of_notMem {l : List (Op n P)} (h : .dropDone ∉ l) :
    l.Pairwise StopsFirst :=
  List.pairwise_of_forall_mem_list fun _ ha _ _ heq => absurd (heq ▸ ha) h

theorem stopsFirst_roundOps (stop : List (Fin n)) (launch : List (Fin n × P)) :
    (Sys.roundOps stop launch).Pairwise StopsFirst := by
  unfold Sys.roundOps
  refine List.pairwise_append.mpr ⟨stopsFirst_of_notMem (by simp),
    List.pairwise_cons.mpr ⟨fun op hop _ m heq => ?_, stopsFirst_of_notMem (by simp)⟩,
    fun op hop _ _ heq => ?_⟩
  · subst heq
    simp at hop
  · subst heq
    simp at hop

namespace Sys.Ok

variable {s s' : Sys n P}

theorem init {remained : Fin n → Nat} {setting : Fin n → P} {firstStage : List (Fin n)}
    (hfirst : firstStage.Nodup) : (Sys.init remained setting firstStage).Ok where
  order := stopsFirst_of_notMem (by simp [Sys.init])
  model m := by constructor <;> simp [Sys.init]
  phase m := by
    have hag : (Sys.init remained setting firstStage).agenda m =
        .waitReady m :: (firstStage.flatMap fun m' => [Op.setStarted m', .clearReady m']).filter
          (Op.about m) := by
      unfold Sys.agenda Sys.init
      rw [List.filter_append, filter_map_single (fun _ => rfl) (List.nodup_finRange n),
        if_pos (List.mem_finRange m)]
      rfl
    rw [hag]
    exact ⟨.stopping, .wait (launching_firstStage hfirst).1,
      by simp [Model.AtPhase, Sys.init, Model.Settled, Model.InRound]⟩

theorem schedule (h : s.Ok) {stop : List (Fin n)} {launch : List (Fin n × P)}
    (run : s.schedule stop launch = some s') : s'.Ok := by
  simp only [Sys.schedule, Option.ite_none_right_eq_some, Option.some.injEq] at run
  obtain ⟨⟨htodo, -, hstop, hkeys, hon, hoff⟩, rfl⟩ := run
  refine ⟨stopsFirst_roundOps stop launch, h.model, fun m => ?_⟩
  obtain ⟨ph, hag, hph⟩ := h.phase m
  have hnow : s.agenda m = [] := by simp [Sys.agenda, htodo]
  generalize hb : (s.model m).started = b at hag
  rw [hnow] at hag
  obtain ⟨hl, hnil⟩ := launching_newLaunch (m := m) hkeys
  -- what the round asks of `m`: a stop and a wait if it is to be stopped, and then a start
  have hnew : Sys.agenda { s with
        todo := Sys.roundOps stop launch
        pending := s.pending.filter fun m => (s.model m).pc ≠ .exited } m =
      (if m ∈ stop then [.stop m, .waitReady m] else []) ++
        (launch.flatMap fun e => [Op.setPlan e.1 e.2, .setStarted e.1, .clearReady e.1]).filter
          (Op.about m) := by
    unfold Sys.agenda Sys.roundOps
    rw [List.filter_append, List.filter_cons, List.filter_append,
      filter_map_single (fun _ => rfl) hstop, filter_map_single (fun _ => rfl) hstop]
    by_cases hm : m ∈ stop <;> simp [hm, Op.about]
  rw [hnew]
  simp only
  -- a model that is off is not stopped, and one that is on is only launched if it is
  cases hag with
  | off _ =>
    have hm : m ∉ stop := fun hmem => by
      have := hon m hmem
      rw [hb] at this
      cases this
    rw [if_neg hm, List.nil_append]
    exact ⟨.off, .off hl, hph⟩
  | on =>
    by_cases hm : m ∈ stop
    · rw [if_pos hm]
      exact ⟨.on, .stop hl, hph⟩
    · have hkey : m ∉ launch.map Prod.fst := fun hmem => by
        obtain ⟨e, he, rfl⟩ := List.mem_map.mp hmem
        rcases hoff e he with hf | hmem
        · rw [hb] at hf
          cases hf
        · exact hm hmem
      rw [if_neg hm, hnil hkey]
      exact ⟨.on, .on, hph⟩

/-- The models the scheduler does not touch keep their agenda. -/
theorem of_todo (h : s.Ok) {op : Op n P} {rest : List (Op n P)} (htodo : s.todo = op :: rest)
    {m : Fin n} {c : Model P} (hop : ∀ m', m' ≠ m → op.about m' = false) (hc : c.Ok)
    (hm : ∃ ph, Agenda m c.started (rest.filter (Op.about m)) ph ∧ c.AtPhase ph) :
    Sys.Ok { s.setModel m c with todo := rest } := by
  refine ⟨(htodo ▸ h.order).of_cons, fun m' => ?_, fun m' => ?_⟩ <;> by_cases hmm : m' = m
  · subst hmm
    simpa [Sys.setModel] using hc
  · simpa [Sys.setModel, Function.update_of_ne hmm] using h.model m'
  · subst hmm
    simpa [Sys.setModel, Sys.agenda] using hm
  · have hag := h.phase m'
    simp only [Sys.agenda, htodo, List.filter_cons, hop m' hmm] at hag
    simpa [Sys.setModel, Sys.agenda, Function.update_of_ne hmm] using hag

/-- The head of an agenda is the head of the scheduler's list. -/
theorem agenda_cons {op : Op n P} {rest : List (Op n P)} (htodo : s.todo = op :: rest)
    {m : Fin n} (hop : op.about m = true) :
    s.agenda m = op :: rest.filter (Op.about m) := by
  simp [Sys.agenda, htodo, hop]

theorem dropDone (h : s.Ok) {rest : List (Op n P)} (htodo : s.todo = .dropDone :: rest) :
    Sys.Ok { s with todo := rest.filter s.stillWaited } := by
  have horder := h.order
  rw [htodo, List.pairwise_cons] at horder
  refine ⟨horder.2.filter _, h.model, fun m => ?_⟩
  have hag : s.agenda m = rest.filter (Op.about m) := by
    simp [Sys.agenda, htodo, Op.about]
  obtain ⟨ph, hagenda, hph⟩ := h.phase m
  rw [hag] at hagenda
  have hnew : Sys.agenda { s with todo := rest.filter s.stillWaited } m =
      (rest.filter (Op.about m)).filter s.stillWaited := by
    simp only [Sys.agenda, List.filter_filter, Bool.and_comm]
  have hkeep : ∀ op : Op n P, (∀ m', op ≠ .waitReady m') → s.stillWaited op = true := by
    intro op hop
    cases op with
    | waitReady m' => exact absurd rfl (hop m')
    | _ => rfl
  rw [hnew]
  by_cases hex : (s.model m).pc = .exited
  · -- the wait for a model that is done is dropped, which leaves the model off
    have hstop : .stop m ∉ rest.filter (Op.about m) := fun hmem =>
      horder.1 _ (List.mem_filter.mp hmem).1 rfl m rfl
    have hwait : s.stillWaited (.waitReady m) = false := by simp [Sys.stillWaited, hex]
    rcases hagenda.dropWait hwait hkeep hstop with hag' | ⟨rfl, hag'⟩
    · exact ⟨ph, hag', hph⟩
    · refine ⟨.off, hag', ?_, by simp [hex], ?_⟩
      · simp [Model.InRound, hex]
      · exact hph.2.1 (by simp [hex])
  · have hsame : (rest.filter (Op.about m)).filter s.stillWaited = rest.filter (Op.about m) := by
      rw [List.filter_eq_self]
      intro op hop
      have habout := (List.mem_filter.mp hop).2
      cases op with
      | waitReady m' =>
        have hm : m' = m := of_decide_eq_true habout
        simp [Sys.stillWaited, hm, hex]
      | _ => rfl
    rw [hsame]
    exact ⟨ph, hagenda, hph⟩

theorem main_stop (h : s.Ok) {m : Fin n} {rest : List (Op n P)}
    (htodo : s.todo = .stop m :: rest) (hnoticed : ¬ (s.model m).Awaiting) :
    Sys.Ok { s.setModel m { s.model m with started := false } with todo := rest } := by
  obtain ⟨ph, hag, hph⟩ := h.phase m
  rw [agenda_cons htodo (by simp [Op.about])] at hag
  obtain ⟨-, rfl, l', hl, hlaunch⟩ := hag.stop_inv
  have hok := h.model m
  refine h.of_todo htodo (fun m' hne => by simp [Op.about, Ne.symm hne])
    ⟨hok.1, hok.2, hok.3, hok.4, hok.5⟩ ⟨.stopping, ?_, ?_⟩
  · rw [hl]
    exact .wait hlaunch
  · obtain ⟨hboot, -, -, hpend, hsettled, hready⟩ := hph
    refine ⟨fun hp => hpend (.inr hp), hsettled hnoticed, fun hp => ?_⟩
    exact hready (.inr (hp.resolve_left hboot))

/-- A raised ready event says that the round is over. -/
theorem main_waitReady (h : s.Ok) {m : Fin n} {rest : List (Op n P)}
    (htodo : s.todo = .waitReady m :: rest) (hready : (s.model m).ready = true) :
    Sys.Ok { s with todo := rest } := by
  obtain ⟨ph, hag, hph⟩ := h.phase m
  rw [agenda_cons htodo (by simp [Op.about])] at hag
  obtain ⟨hb, rfl, hlaunch⟩ := hag.wait_inv
  obtain ⟨-, hsettled, hnot⟩ := hph
  have hnot' : ¬ ((s.model m).pc = .finishPreparationBeforeInit ∨ (s.model m).InRound) := by
    intro hp
    rw [hnot hp] at hready
    cases hready
  rw [not_or] at hnot'
  have hset := h.of_todo (m := m) htodo (fun m' hne => by simp [Op.about, Ne.symm hne]) (h.model m)
    ⟨.off, by rw [hb]; exact .off hlaunch, hnot'.2, hnot'.1, hsettled fun hp => hnot'.2 (.inl hp)⟩
  simpa [Sys.setModel] using hset

theorem main_setPlan (h : s.Ok) {m : Fin n} {p : P} {rest : List (Op n P)}
    (htodo : s.todo = .setPlan m p :: rest) :
    Sys.Ok { s.setModel m { s.model m with setting := p } with todo := rest } := by
  obtain ⟨ph, hag, hph⟩ := h.phase m
  rw [agenda_cons htodo (by simp [Op.about])] at hag
  obtain ⟨hb, rfl, hl⟩ := hag.plan_inv
  have hok := h.model m
  refine h.of_todo htodo (fun m' hne => by simp [Op.about, Ne.symm hne])
    ⟨hok.1, hok.2, hok.3, hok.4, hok.5⟩ ⟨.off, ?_, hph⟩
  rw [hl]
  exact hb ▸ .off .started

theorem main_setStarted (h : s.Ok) {m : Fin n} {rest : List (Op n P)}
    (htodo : s.todo = .setStarted m :: rest) (hfin : (s.model m).finished = false) :
    Sys.Ok { s.setModel m { s.model m with
      started := true
      starts := (s.model m).starts ++ [(s.model m).setting] } with todo := rest } := by
  obtain ⟨ph, hag, hph⟩ := h.phase m
  rw [agenda_cons htodo (by simp [Op.about])] at hag
  obtain ⟨-, rfl, hl⟩ := hag.started_inv
  have hok := h.model m
  refine h.of_todo htodo (fun m' hne => by simp [Op.about, Ne.symm hne])
    ⟨hok.1, hok.2, hok.3, hok.4, hok.5⟩ ⟨.starting, ?_, hph.start hok hfin⟩
  rw [hl]
  exact .starting

theorem main_clearReady (h : s.Ok) {m : Fin n} {rest : List (Op n P)}
    (htodo : s.todo = .clearReady m :: rest) :
    Sys.Ok { s.setModel m { s.model m with ready := false } with todo := rest } := by
  obtain ⟨ph, hag, hph⟩ := h.phase m
  rw [agenda_cons htodo (by simp [Op.about])] at hag
  obtain ⟨hb, rfl, hl⟩ := hag.clear_inv
  have hok := h.model m
  obtain ⟨hboot, hstopped, hfin, hpend, hsettled⟩ := hph
  refine h.of_todo htodo (fun m' hne => by simp [Op.about, Ne.symm hne])
    ⟨hok.1, hok.2, hok.3, hok.4, hok.5⟩
    ⟨.on, ?_, hboot, hstopped, hfin, hpend, hsettled, fun _ => rfl⟩
  rw [hl]
  exact hb ▸ .on

theorem main (h : s.Ok) (hmeets : s.Meets .main) (run : s.main = some s') : s'.Ok := by
  cases htodo : s.todo with
  | nil => simp [Sys.main, htodo] at run
  | cons op rest =>
    simp only [Sys.main, Sys.Meets, htodo] at run hmeets
    cases op with
    | stop m => exact Option.some.inj run ▸ h.main_stop htodo hmeets
    | dropDone => exact Option.some.inj run ▸ h.dropDone htodo
    | waitReady m =>
      simp only [Option.ite_none_right_eq_some, Option.some.injEq] at run
      exact run.2 ▸ h.main_waitReady htodo run.1
    | setPlan m p => exact Option.some.inj run ▸ h.main_setPlan htodo
    | setStarted m => exact Option.some.inj run ▸ h.main_setStarted htodo hmeets
    | clearReady m => exact Option.some.inj run ▸ h.main_clearReady htodo

/-- A step on the model side of `m`. -/
theorem setModel (h : s.Ok) {m : Fin n} {c : Model P} (hc : c.Ok)
    (hstarted : c.started = (s.model m).started)
    (hph : ∀ ph, Agenda m (s.model m).started (s.agenda m) ph → (s.model m).AtPhase ph →
      c.AtPhase ph) : (s.setModel m c).Ok := by
  refine ⟨h.order, fun m' => ?_, fun m' => ?_⟩ <;> by_cases hmm : m' = m
  · subst hmm
    simpa [Sys.setModel] using hc
  · simpa [Sys.setModel, Function.update_of_ne hmm] using h.model m'
  · subst hmm
    obtain ⟨ph, hag, hat⟩ := h.phase m'
    refine ⟨ph, ?_, ?_⟩
    · simpa [Sys.setModel, Sys.agenda, hstarted] using hag
    · simpa [Sys.setModel] using hph ph hag hat
  · simpa [Sys.setModel, Sys.agenda, Function.update_of_ne hmm] using h.phase m'

theorem modelStep (h : s.Ok) {m : Fin n} {a : ModelAct} {c : Model P}
    (hmeets : s.Meets (.model m a)) (run : (s.model m).step cfg a = some c) :
    (s.setModel m c).Ok := by
  have hok := h.model m
  rcases Model.step_cases run with ⟨rfl, hmoves⟩ | ⟨-, stopped', gened', hdone, rfl⟩
  · have hstarted : c.started = (s.model m).started := by cases hmoves <;> rfl
    refine h.setModel (hok.moves hmoves) hstarted fun ph hag hat =>
      hat.moves hok hag.started_iff (fun hpc hon => ?_) hmoves
    subst hon
    -- a late announcement: the condition asks for the clear to come next, and here it is past
    have hs := hag.started_iff.mpr (.inr rfl)
    have hhead := hmeets hpc hs
    obtain ⟨op, rest, htodo⟩ : ∃ op rest, s.todo = op :: rest := by
      cases htodo : s.todo with
      | nil => simp [htodo] at hhead
      | cons op rest => exact ⟨op, rest, rfl⟩
    rw [htodo, List.head?_cons, Option.some.injEq] at hhead
    subst hhead
    rw [agenda_cons htodo (by simp [Op.about])] at hag
    cases hag.clear_inv.2.1
  · exact h.setModel (hok.workerDone hdone) rfl fun ph hag hat =>
      hat.workerDone hag.started_iff hdone

theorem step (h : s.Ok) (hstep : s.MeetsStep cfg s') : s'.Ok := by
  obtain ⟨a, hmeets, run⟩ := hstep
  cases a with
  | schedule stop launch => exact h.schedule run
  | main => exact h.main hmeets run
  | model m a =>
    obtain ⟨c, hc, rfl⟩ := Option.map_eq_some_iff.mp run
    exact h.modelStep hmeets hc

/-! ## What the invariant says -/

theorem safe (h : s.Ok) : s.Safe cfg where
  free m rest htodo hready := by
    obtain ⟨ph, hag, hat⟩ := h.phase m
    rw [agenda_cons htodo (by simp [Op.about])] at hag
    obtain ⟨-, rfl, -⟩ := hag.wait_inv
    -- while the model is stopping, the event is clear until the round is over
    have hround : ¬ (s.model m).InRound := fun hin => by
      rw [hat.2.2 (.inr hin)] at hready
      cases hready
    refine ⟨(h.model m).running_eq fun hpc => hround (.inr (.inr (.inl hpc))), hround,
      hat.2.1 fun hpc => hround (.inl hpc)⟩
  rounds m := by
    obtain ⟨ph, hag, hat⟩ := h.phase m
    have hs := hag.started_iff
    cases ph with
    | off => exact .inl hat.2.2
    | starting =>
      obtain ⟨-, -, -, hpend, hsettled⟩ := hat
      by_cases hpc : (s.model m).pc = .updateExecutionPlan
      · exact .inr ⟨hpend (.inr hpc), .inl hpc⟩
      · by_cases haw : (s.model m).Awaiting
        · exact .inr ⟨hpend (.inl haw), .inr ⟨hs.mpr (.inl rfl), haw⟩⟩
        · exact .inl (hsettled haw hpc)
    | on =>
      obtain ⟨-, -, -, hpend, hsettled, -⟩ := hat
      by_cases hpc : (s.model m).pc = .updateExecutionPlan
      · exact .inr ⟨hpend (.inr hpc), .inl hpc⟩
      · by_cases haw : (s.model m).Awaiting
        · exact .inr ⟨hpend (.inl haw), .inr ⟨hs.mpr (.inr rfl), haw⟩⟩
        · exact .inl (hsettled haw hpc)
    | stopping =>
      by_cases hpc : (s.model m).pc = .updateExecutionPlan
      · exact .inr ⟨hat.1 hpc, .inl hpc⟩
      · exact .inl (hat.2.1 hpc)
  stays m hwait hstop := by
    obtain ⟨ph, hag, -⟩ := h.phase m
    rw [← mem_agenda (s := s) (m := m) (by simp [Op.about])] at hwait hstop
    generalize (s.model m).started = b at hag ⊢
    generalize s.agenda m = l at hag hwait hstop
    cases hag with
    | off hl => cases hl <;> rfl
    | starting => simp at hwait
    | on => simp at hwait
    | stop _ => simp at hstop
    | wait _ => rfl
  leaves m hstopped hround := (h.model m).leaves hstopped hround

theorem run {s₀ : Sys n P} (h : s₀.Ok) (hrun : ReflTransGen (Sys.MeetsStep cfg) s₀ s) : s.Ok := by
  induction hrun with
  | refl => exact h
  | tail _ hstep ih => exact ih.step hstep

end Sys.Ok

/-- **The handshake is safe in every run without the three races**, from any initial settings,
requests and first stage. -/
theorem safe_of_meets {remained : Fin n → Nat} {setting : Fin n → P} {firstStage : List (Fin n)}
    (hfirst : firstStage.Nodup) {s : Sys n P}
    (hrun : ReflTransGen (Sys.MeetsStep cfg) (Sys.init remained setting firstStage) s) :
    s.Safe cfg :=
  ((Sys.Ok.init hfirst).run hrun).safe

/-! ## Three models -/

namespace Sys

/-- Whether an access of the scheduler meets the condition can be checked. -/
instance meetsMain (s : Sys n P) : (todo : List (Op n P)) → Decidable (match todo with
    | .stop m :: _ => ¬ (s.model m).Awaiting
    | .setStarted m :: _ => (s.model m).finished = false
    | _ => True)
  | .stop m :: _ => inferInstanceAs (Decidable (¬ (s.model m).Awaiting))
  | .setStarted m :: _ => inferInstanceAs (Decidable ((s.model m).finished = false))
  | [] | .dropDone :: _ | .waitReady _ :: _ | .setPlan _ _ :: _ | .clearReady _ :: _ =>
    inferInstanceAs (Decidable True)

instance [DecidableEq P] (s : Sys n P) : (a : Act n P) → Decidable (s.Meets a)
  | .main => s.meetsMain s.todo
  | .model m .next => inferInstanceAs (Decidable ((s.model m).pc = .finishPreparationAgain →
      (s.model m).started = true → s.todo.head? = some (.clearReady m)))
  | .schedule _ _ | .model _ (.workerStop _) | .model _ (.workerEnd _) =>
    inferInstanceAs (Decidable True)

/-- A run along a list of actions that all meet the condition. -/
def runMeets [DecidableEq P] (cfg : Settings P) : Sys n P → List (Act n P) → Option (Sys n P)
  | s, [] => some s
  | s, a :: rest => if s.Meets a then (s.step cfg a).bind fun s' => s'.runMeets cfg rest else none

theorem reach_of_runMeets [DecidableEq P] {s s' : Sys n P} {acts : List (Act n P)}
    (run : s.runMeets cfg acts = some s') : ReflTransGen (Sys.MeetsStep cfg) s s' := by
  induction acts generalizing s with
  | nil => exact Option.some.inj run ▸ .refl
  | cons a acts ih =>
    rw [runMeets] at run
    split at run
    · rename_i hmeets
      obtain ⟨s₁, hstep, hrest⟩ := Option.bind_eq_some_iff.mp run
      exact .head ⟨a, hmeets, hstep⟩ (ih hrest)
    · cases run

end Sys

/-- Setting `p` asks for `p + 1` workers. -/
def workers : Settings Nat := ⟨fun p => p + 1, Nat.succ_pos⟩

/-- Model 0 has three requests and models 1 and 2 have one each. All are planned in the first
stage. -/
def threeModels : Sys 3 Nat := Sys.init (fun m => if m = 0 then 3 else 1) (fun _ => 0) [0, 1, 2]

/-- So many steps of the scheduler. -/
def mains (k : Nat) : List (Act 3 Nat) := List.replicate k .main

/-- So many steps of the process of a model. -/
def nexts (m : Fin 3) (k : Nat) : List (Act 3 Nat) := List.replicate k (.model m .next)

/-- The models are launched, the first stage is started, and they all begin their rounds. -/
def firstRound : List (Act 3 Nat) :=
  List.flatten [nexts 0 1, nexts 1 1, nexts 2 1, mains 9, nexts 0 3, nexts 1 3, nexts 2 3]

/-- The only worker of a model runs to the end, and the process ends too. -/
def runToEnd (m : Fin 3) : List (Act 3 Nat) := .model m (.workerEnd 1) :: nexts m 3

/-- Model 1 ends, so model 0 is stopped and started again with two workers. Then model 2 ends, so
model 0 is stopped again. The scheduler returns from both waits. -/
def restartRun : List (Act 3 Nat) :=
  List.flatten [firstRound, runToEnd 1, [.schedule [1, 0] [(0, 1)]], mains 3,
    -- the worker leaves, the end of the round is announced, and again at the top of the loop
    [.model 0 (.workerStop 1)], nexts 0 5,
    -- the scheduler returns from waiting, and starts the model
    mains 4, nexts 0 3, runToEnd 2, [.schedule [2, 0] [(0, 0)]], mains 3,
    [.model 0 (.workerStop 0), .model 0 (.workerStop 1)], nexts 0 2, mains 1]

/-- Both rounds of model 0 have begun with the settings of its starts, and its GPUs are free. -/
theorem safe_of_meets_restart : ∃ s, ReflTransGen (Sys.MeetsStep workers) threeModels s ∧
    s.todo = [.setPlan 0 0, .setStarted 0, .clearReady 0] ∧ (s.model 0).starts = [0, 1] ∧
    (s.model 0).begun = [0, 1] ∧ (s.model 0).running = 0 ∧ s.Safe workers := by
  have hany : (threeModels.runMeets workers restartRun).any (fun s =>
      decide (s.todo = [.setPlan 0 0, .setStarted 0, .clearReady 0] ∧ (s.model 0).starts = [0, 1] ∧
        (s.model 0).begun = [0, 1] ∧ (s.model 0).running = 0)) = true := by
    decide +kernel
  obtain ⟨s, hrun, hend⟩ := (Option.any_eq_true _ _).mp hany
  obtain ⟨htodo, hstarts, hbegun, hrunning⟩ := of_decide_eq_true hend
  have hreach := Sys.reach_of_runMeets hrun
  exact ⟨s, hreach, htodo, hstarts, hbegun, hrunning, safe_of_meets (by decide) hreach⟩

/-- The same, but at the top of its loop model 0 finds itself stopped and raises the ready event only
after the restart has cleared it. -/
def lateReadyRun : List (Act 3 Nat) :=
  List.flatten [firstRound, runToEnd 1, [.schedule [1, 0] [(0, 1)]], mains 3,
    [.model 0 (.workerStop 1)], nexts 0 4, mains 4,
    -- the late announcement, and the second round
    nexts 0 4, runToEnd 2, [.schedule [2, 0] [(0, 0)]], mains 3]

/-- The scheduler is about to return from waiting for model 0, and two workers are running. -/
theorem lateReady_unsafe : ∃ s, threeModels.runActs workers lateReadyRun = some s ∧
    s.todo.head? = some (.waitReady 0) ∧ (s.model 0).ready = true ∧ (s.model 0).running = 2 ∧
    ¬ s.Safe workers := by
  have hany : (threeModels.runActs workers lateReadyRun).any (fun s =>
      decide (s.todo.head? = some (.waitReady 0) ∧ (s.model 0).ready = true ∧
        (s.model 0).running = 2)) = true := by
    decide +kernel
  obtain ⟨s, hrun, hend⟩ := (Option.any_eq_true _ _).mp hany
  obtain ⟨hhead, hready, hrunning⟩ := of_decide_eq_true hend
  refine ⟨s, hrun, hhead, hready, hrunning, fun hsafe => ?_⟩
  obtain ⟨rest, htodo⟩ := List.head?_eq_some_iff.mp hhead
  have hzero := (hsafe.free 0 rest htodo hready).1
  rw [hrunning] at hzero
  exact absurd hzero (Nat.succ_ne_zero 1)

end Mil.Handshake
