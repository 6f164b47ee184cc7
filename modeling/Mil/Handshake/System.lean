import Mathlib.Data.List.FinRange
import Mathlib.Data.List.Nodup
import Mathlib.Logic.Function.Basic
import Mathlib.Logic.Relation

/-!
# Stopping and starting models

The scheduler process and the model processes share two events per model
(`SHARED_CONTECT` in `vllm/core/multimodel_scheduler.py`): `started_status[m]`, which only the
scheduler sets and clears, and `events[2 + m]`, the *ready* event, which the model sets and the
scheduler waits for and clears. A model process runs the loop of `run_vllm`
(`benchmarks/benchmark_throughput.py`): it waits to be started, reads its setting, launches the
data-parallel workers and waits for all of them. The scheduler runs the loop of
`main_with_preemption`, which goes into its next round when another process has ended.

Every access to an event is one step, and so is everything a process does between two accesses.
Settings are an arbitrary type `P`; what matters of one is its number of workers. Two lists
record, for each model, the settings it was started with and those it began a round with.
-/

set_option autoImplicit false

namespace Mil.Handshake

/-- Where a model process is in `run_vllm`. -/
inductive Pc
  /-- before `set_finish_preparation_before_init_LLM` -/
  | finishPreparationBeforeInit
  /-- in `wait_to_be_started` -/
  | waitToBeStarted
  | updateExecutionPlan
  | launch
  /-- in `wait(futures, return_when=ALL_COMPLETED)` -/
  | waitWorkers
  /-- after `set_finished`, before `set_finish_preparation_for_reschedule` -/
  | finishPreparation
  /-- at `while (not is_finished())` -/
  | loopTop
  /-- at `if not is_started()` -/
  | checkStarted
  /-- after a negative check, before the second `set_finish_preparation_for_reschedule` -/
  | finishPreparationAgain
  | exited
deriving DecidableEq, Repr

/-- One model: its two events, its slice of the shared setting, and its process with the workers
of the current round. `remained` is `tot_req_num_remained`; `gened` sums the outputs of the
workers that are done. -/
structure Model (P : Type) where
  started : Bool
  ready : Bool
  setting : P
  finished : Bool
  remained : Nat
  pc : Pc
  plan : P
  running : Nat
  stopped : Nat
  gened : Nat
  starts : List P
  begun : List P
deriving DecidableEq, Repr

/-- What the model side does: the process goes on, or a worker is done with `g` outputs, because
it was asked to stop or because it ran to the end. -/
inductive ModelAct
  | next
  | workerStop (g : Nat)
  | workerEnd (g : Nat)
deriving DecidableEq, Repr

/-- Settings, and the number of workers each asks for. -/
structure Settings (P : Type) where
  dpSize : P → Nat
  dpSize_pos : ∀ p, 0 < dpSize p

namespace Model

variable {P : Type} (cfg : Settings P) (c : Model P)

/-- The process goes on, unless it is blocked. -/
def next : Option (Model P) :=
  match c.pc with
  | .finishPreparationBeforeInit => some { c with ready := true, pc := .waitToBeStarted }
  | .waitToBeStarted => if c.started then some { c with pc := .updateExecutionPlan } else none
  | .updateExecutionPlan =>
    some { c with plan := c.setting, begun := c.begun ++ [c.setting], pc := .launch }
  | .launch =>
    some { c with running := cfg.dpSize c.plan, stopped := 0, gened := 0, pc := .waitWorkers }
  | .waitWorkers =>
    if c.running = 0 then
      some { c with
        remained := c.remained - c.gened
        finished := c.finished || c.remained - c.gened = 0
        pc := .finishPreparation }
    else none
  | .finishPreparation => some { c with ready := true, pc := .loopTop }
  | .loopTop => some { c with pc := if c.finished then .exited else .checkStarted }
  | .checkStarted =>
    some { c with pc := if c.started then .waitToBeStarted else .finishPreparationAgain }
  | .finishPreparationAgain => some { c with ready := true, pc := .waitToBeStarted }
  | .exited => none

/-- A worker polls `should_reschedule` and leaves. -/
def workerStop (g : Nat) : Option (Model P) :=
  if 0 < c.running ∧ c.started = false ∧ c.gened + g ≤ c.remained then
    some { c with running := c.running - 1, stopped := c.stopped + 1, gened := c.gened + g }
  else none

/-- A worker runs to the end. A worker does so when no request of the model is left to fetch, so
if all of them do, every request has been generated. -/
def workerEnd (g : Nat) : Option (Model P) :=
  if 0 < c.running ∧ c.gened + g ≤ c.remained ∧
      (c.running = 1 ∧ c.stopped = 0 → c.gened + g = c.remained) then
    some { c with running := c.running - 1, gened := c.gened + g }
  else none

def step : ModelAct → Option (Model P)
  | .next => c.next cfg
  | .workerStop g => c.workerStop g
  | .workerEnd g => c.workerEnd g

end Model

/-! ## The scheduler -/

/-- The accesses of the scheduler process, on `n` models. -/
inductive Op (n : Nat) (P : Type)
  /-- `stop_specific_models`, for one model -/
  | stop (m : Fin n)
  /-- `model_ids_to_stop = [… if not task_dict[model_id].done()]` -/
  | dropDone
  /-- `wait_all_models_to_finish_prepare_for_reschedule`, for one model -/
  | waitReady (m : Fin n)
  /-- `set_execution_plan` -/
  | setPlan (m : Fin n) (setting : P)
  /-- the two halves of `start_specific_models` -/
  | setStarted (m : Fin n)
  | clearReady (m : Fin n)
deriving DecidableEq, Repr

/-- All models, what the scheduler has yet to do in its current round, and the models whose processes
had not ended when it last looked (`pending_list`). -/
structure Sys (n : Nat) (P : Type) where
  model : Fin n → Model P
  todo : List (Op n P)
  pending : List (Fin n)

/-- An action of the system. `schedule` is the scheduler returning from `asyncio.wait` and entering
its next round, with the models it is going to stop and those it is going to launch. -/
inductive Act (n : Nat) (P : Type)
  | schedule (modelIdsToStop : List (Fin n)) (newLaunch : List (Fin n × P))
  | main
  | model (m : Fin n) (a : ModelAct)
deriving DecidableEq, Repr

namespace Sys

variable {n : Nat} {P : Type} (cfg : Settings P) (s : Sys n P)

/-- Before the first round: the processes are launched, the settings of the first stage are
written, and the scheduler waits for all models before it starts that stage. -/
def init (remained : Fin n → Nat) (setting : Fin n → P) (firstStage : List (Fin n)) : Sys n P where
  model := fun m =>
    { started := false, ready := false, setting := setting m, finished := false,
      remained := remained m, pc := .finishPreparationBeforeInit, plan := setting m,
      running := 0, stopped := 0, gened := 0, starts := [], begun := [] }
  todo := (List.finRange n).map .waitReady ++
    firstStage.flatMap fun m => [.setStarted m, .clearReady m]
  pending := List.finRange n

/-- What the scheduler does in a round. -/
def roundOps (modelIdsToStop : List (Fin n)) (newLaunch : List (Fin n × P)) : List (Op n P) :=
  modelIdsToStop.map .stop ++ .dropDone :: (modelIdsToStop.map .waitReady ++
    newLaunch.flatMap fun e => [.setPlan e.1 e.2, .setStarted e.1, .clearReady e.1])

/-- `asyncio.wait(pending_list, return_when=FIRST_COMPLETED)` returns when a pending process has ended,
and takes all that have off the list. The scheduler stops models it has started, and launches models
it has not, or stops first. -/
def schedule (modelIdsToStop : List (Fin n)) (newLaunch : List (Fin n × P)) :
    Option (Sys n P) :=
  if s.todo = [] ∧ (∃ m ∈ s.pending, (s.model m).pc = .exited) ∧
      modelIdsToStop.Nodup ∧ (newLaunch.map Prod.fst).Nodup ∧
      (∀ m ∈ modelIdsToStop, (s.model m).started = true) ∧
      (∀ e ∈ newLaunch, (s.model e.1).started = false ∨ e.1 ∈ modelIdsToStop) then
    some { s with
      todo := roundOps modelIdsToStop newLaunch
      pending := s.pending.filter fun m => (s.model m).pc ≠ .exited }
  else none

def setModel (m : Fin n) (c : Model P) : Sys n P :=
  { s with model := Function.update s.model m c }

/-- Waiting for a model whose process is done is skipped. -/
def stillWaited : Op n P → Bool
  | .waitReady m => (s.model m).pc ≠ .exited
  | _ => true

/-- The scheduler's next access, unless it is blocked. -/
def main : Option (Sys n P) :=
  match s.todo with
  | [] => none
  | .stop m :: rest =>
    some { s.setModel m { s.model m with started := false } with todo := rest }
  | .dropDone :: rest => some { s with todo := rest.filter s.stillWaited }
  | .waitReady m :: rest => if (s.model m).ready then some { s with todo := rest } else none
  | .setPlan m p :: rest =>
    some { s.setModel m { s.model m with setting := p } with todo := rest }
  | .setStarted m :: rest =>
    some { s.setModel m { s.model m with
      started := true
      starts := (s.model m).starts ++ [(s.model m).setting] } with todo := rest }
  | .clearReady m :: rest =>
    some { s.setModel m { s.model m with ready := false } with todo := rest }

def step : Act n P → Option (Sys n P)
  | .schedule stop launch => s.schedule stop launch
  | .main => s.main
  | .model m a => ((s.model m).step cfg a).map (s.setModel m)

end Sys

/-- A run along a list of actions. -/
def Sys.runActs {n : Nat} {P : Type} (cfg : Settings P) :
    Sys n P → List (Act n P) → Option (Sys n P)
  | s, [] => some s
  | s, a :: rest => (s.step cfg a).bind fun s' => s'.runActs cfg rest

end Mil.Handshake
