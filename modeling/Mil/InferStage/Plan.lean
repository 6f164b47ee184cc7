import Mathlib.Order.MinMax
import Mathlib.Data.List.SplitLengths
import Mil.Fcfs.RestartRows
import Mil.Lib.Strided

/-!
# Execution plans over an infer stage

`MyExecPlan`, `MyVerticalFusedExecPlan` and `MyExecPlanGroup` of `benchmarks/search_exec_plans.py`,
as far as the lengths of the requests are concerned. A plan serves the requests of one base model,
or, when it is a fused one, those of a chain of base models, which are its levels. It splits them
over its data-parallel workers, and each worker has been simulated: the cumulated latencies of the
iterations, and for each level and request the ranges of iterations the request takes part in.

A stage ends when the first plan without inputs in the group ends. Then every plan works out up to
which iteration each of its workers got, takes the tokens of these iterations off the output lengths
and adds them to the input lengths, and drops the requests that have no output left.

Times are values of any ordered type with `0`, `+` and `-`; no law of arithmetic is used. The
throughputs, which are computed along the way, do not enter. `none` is a raised exception.
-/

set_option autoImplicit false

namespace Mil.InferStage

open Mil.Lib Mil.Fcfs

/-! ## Data -/

/-- A request of a base model, with its remaining output length. -/
structure Request where
  seqId : Nat
  inpLen : Nat
  outLen : Nat
deriving DecidableEq, Repr

/-- The remaining requests of each base model. -/
abbrev ModelStates := Nat → List Request

/-- The simulation of one worker: `cumsum_latencys_list[dp_id]`, and the ranges of each level. -/
structure WorkerProgress (τ : Type) where
  cumsumLatencys : List τ
  rngs : List RngArrays

/-- `MyExecPlan`, and with `fused` `MyVerticalFusedExecPlan`. `arriveTime` is the arrival time of a
request at a level; `earlierStops` are the stop times the plan object has been asked about before,
in other groups it is part of. -/
structure ExecPlan (τ : Type) where
  fused : Bool
  baseModelIds : List Nat
  inpBaseModelIds : List Nat
  dpSize : Nat
  extraCost : τ
  arriveTime : Nat → Nat → τ
  progress : Nat → WorkerProgress τ
  earlierStops : List τ
  dpSize_pos : 0 < dpSize
  single : fused = false → baseModelIds.length = 1

/-- `MyExecPlanGroup`; `synchTime` is the stage's synchronisation time when it is considered. -/
structure ExecPlanGroup (τ : Type) where
  execPlans : List (ExecPlan τ)
  synchTime : Option τ

variable {τ : Type} [LinearOrder τ] [Zero τ] [Add τ] [Sub τ]

/-! ## The workers' requests -/

/-- By arrival time, and by id where arrival times are equal. -/
def sortByArrival (arrive : Nat → τ) (l : List Request) : List Request :=
  l.insertionSort fun a b =>
    arrive a.seqId < arrive b.seqId ∨ arrive a.seqId = arrive b.seqId ∧ a.seqId ≤ b.seqId

def sortBySeqId (l : List Request) : List Request :=
  l.insertionSort fun a b => a.seqId ≤ b.seqId

/-- The arrival times a plan works with. -/
def ExecPlan.arrive (p : ExecPlan τ) (level seqId : Nat) : τ := p.arriveTime level seqId - p.extraCost

/-- Splits the requests of a level into those whose id has not been visited at an earlier level,
`unknown`, and the others, `known`. -/
def splitKnown : List Request → List Nat → List Request × List Request
  | [], _ => ([], [])
  | r :: rest, visited =>
    if r.seqId ∈ visited then
      let (unknown, known) := splitKnown rest visited
      (unknown, r :: known)
    else
      let (unknown, known) := splitKnown rest (visited ++ [r.seqId])
      (r :: unknown, known)

/-- `_sort_and_assign` and `_assign_in_consistent_with_previous_assignment`: what each worker gets of
one level, `previous` being what it has got of the level before. -/
def assignLevel (dpSize : Nat) (arrive : Nat → τ) (requests : List Request) (visited : List Nat)
    (previous : Nat → List Request) (dpId : Nat) : List Request :=
  let (unknown, known) := splitKnown requests visited
  strided (sortByArrival arrive unknown) dpId dpSize ++
    (sortBySeqId known).filter (·.seqId ∈ (previous dpId).map Request.seqId)

/-- The loop over the levels. -/
def assignLevels (dpSize : Nat) (arrive : Nat → Nat → τ) :
    Nat → List (List Request) → List Nat → (Nat → List Request) → List (Nat → List Request)
  | _, [], _, _ => []
  | level, requests :: rest, visited, previous =>
    let assigned := assignLevel dpSize (arrive level) requests visited previous
    assigned :: assignLevels dpSize arrive (level + 1) rest
      (visited ++ (splitKnown requests visited).1.map Request.seqId) assigned

/-- `_sort_and_partition_data_parallel` of both classes: the requests of a worker, level by
level. -/
def ExecPlan.dpRequests (p : ExecPlan τ) (s : ModelStates) (dpId : Nat) : List (List Request) :=
  if p.fused then
    (assignLevels p.dpSize p.arrive 0 (p.baseModelIds.map s) [] fun _ => []).map
      fun assigned => sortBySeqId (assigned dpId)
  else p.baseModelIds.map fun m => strided (sortByArrival (p.arrive 0) (s m)) dpId p.dpSize

/-! ## One worker at the stop -/

/-- `np.searchsorted(xs, value, side='left')` on a sorted array. -/
def searchsortedLeft (xs : List τ) (value : τ) : Nat := xs.findIdx fun x => decide (value ≤ x)

/-- `stop_iter_i`, for a worker that has iterations. -/
def stopIter (cumsumLatencys : List τ) (last stageStopTime : τ) : Nat :=
  searchsortedLeft cumsumLatencys (min last stageStopTime)

/-- `finished_lens` of every level. -/
def WorkerProgress.finishedLens (w : WorkerProgress τ) (stopIterI : Nat) : List (List Nat) :=
  w.rngs.map fun rngs => getInfoAtStopTime rngs stopIterI

/-- The lengths of a request after `finished` more tokens. -/
def Request.advance (r : Request) (finished : Nat) : Request where
  seqId := r.seqId
  inpLen := r.inpLen + finished
  outLen := r.outLen - finished

/-- The requests with `remaining_lens > 0`, with their new lengths. -/
def remaining (requests : List Request) (finishedLens : List Nat) : List Request :=
  (List.zipWith Request.advance requests finishedLens).filter (0 < ·.outLen)

/-- `new_inp_out_lens` of a worker of a `MyExecPlan`. -/
def newInpOutLens (w : WorkerProgress τ) (requests : List (List Request)) (stopIterI : Nat) :
    List (List Request) :=
  List.zipWith remaining requests (w.finishedLens stopIterI)

/-- `new_inp_out_lens_for_models` of a worker of a `MyVerticalFusedExecPlan`: all levels are put
into one array, which is cut into levels afterwards. -/
def newInpOutLensForModels (w : WorkerProgress τ) (requests : List (List Request))
    (stopIterI : Nat) : List (List Request) :=
  let flattened := List.zipWith Request.advance requests.flatten (w.finishedLens stopIterI).flatten
  ((requests.map List.length).splitLengths flattened).map (·.filter (0 < ·.outLen))

/-- `cache_stop_time_info`. -/
abbrev StopTimeInfo := List (Nat × List (List Request))

/-- The body of the loop over the workers of
`update_inp_out_seqlens_and_throughput_after_an_infer_stage`, with the cache it leaves. -/
def ExecPlan.updateWorker (p : ExecPlan τ) (requests : List (List Request)) (dpId : Nat)
    (stageStopTime : τ) (cache : StopTimeInfo) : List (List Request) × StopTimeInfo :=
  let w := p.progress dpId
  match w.cumsumLatencys.getLast? with
  | none => (requests.map fun _ => [], cache)
  | some last =>
    let i := stopIter w.cumsumLatencys last stageStopTime
    match cache.lookup i with
    | some info => (info, cache)
    | none =>
      let info := if p.fused then newInpOutLensForModels w requests i
        else newInpOutLens w requests i
      (info, (i, info) :: cache)

/-- The cache after the stop times the plan has been asked about before. -/
def ExecPlan.cacheStopTimeInfo (p : ExecPlan τ) (requests : List (List Request)) (dpId : Nat) :
    StopTimeInfo :=
  p.earlierStops.foldl (fun cache stop => (p.updateWorker requests dpId stop cache).2) []

/-- `new_inp_out_lens_list[dp_id]`. -/
def ExecPlan.newInpOutLensOf (p : ExecPlan τ) (s : ModelStates) (stageStopTime : τ) (dpId : Nat) :
    List (List Request) :=
  let requests := p.dpRequests s dpId
  (p.updateWorker requests dpId stageStopTime (p.cacheStopTimeInfo requests dpId)).1

/-! ## The stage -/

/-- The value from which on a latency is not counted: `1e8`. -/
abbrev Bound (τ : Type) := τ

/-- `_get_valid_max_latency`, and `0` for a worker without iterations. -/
def validMaxLatency (bound : Bound τ) (cumsumLatencys : List τ) : τ :=
  ((cumsumLatencys.filter (· < bound)).max?).getD 0

/-- `max(self.total_latency_list) + self.extra_cost`. -/
def ExecPlan.latency (bound : Bound τ) (p : ExecPlan τ) : τ :=
  (((List.range p.dpSize).map fun dpId =>
    validMaxLatency bound (p.progress dpId).cumsumLatencys).max?).getD 0 + p.extraCost

/-- `len(self.inp_exec_plan_dict[exec_plan]) == 0`. -/
def ExecPlanGroup.isRoot (g : ExecPlanGroup τ) (p : ExecPlan τ) : Bool :=
  p.inpBaseModelIds.all fun i => i ∉ g.execPlans.flatMap ExecPlan.baseModelIds

/-- The latency of the stage. -/
def ExecPlanGroup.inferStageLatency (bound : Bound τ) (g : ExecPlanGroup τ) : Option τ :=
  (((g.execPlans.filter g.isRoot).map (ExecPlan.latency bound)).min?).map fun latency =>
    match g.synchTime with
    | none => latency
    | some synchTime => max latency synchTime

/-- `merge_new_inp_out_lens_of_data_parallel_workers` for one level, and `update_inp_out_seqlens` of
the level's base model. -/
def ExecPlan.mergedLevel (p : ExecPlan τ) (s : ModelStates) (stageStopTime : τ) (level : Nat) :
    List Request :=
  (sortBySeqId ((List.range p.dpSize).flatMap fun dpId =>
    (p.newInpOutLensOf s stageStopTime dpId).getD level [])).filter (·.outLen ≠ 0)

/-- `update_inp_out_seqlens` of the plan's model. -/
def ExecPlan.updateInpOutSeqlens (p : ExecPlan τ) (levels : List (List Request))
    (s : ModelStates) : ModelStates :=
  (p.baseModelIds.zip levels).foldl (fun s (m, requests) => Function.update s m requests) s

/-- `assert sorted(inp_seq_ids) == list(inp_seq_ids)` for every level of a fused plan. -/
def ExecPlan.idsSorted (p : ExecPlan τ) (s : ModelStates) : Prop :=
  p.fused = true → ∀ m ∈ p.baseModelIds, (s m).Pairwise fun a b => a.seqId ≤ b.seqId

instance (p : ExecPlan τ) (s : ModelStates) : Decidable (p.idsSorted s) :=
  inferInstanceAs (Decidable (_ → _))

/-- A stage: `wait_remote_fake_scheduling_to_compute_infer_stage_data` and then
`update_model_inp_out_lens`. -/
def ExecPlanGroup.inferStage (bound : Bound τ) (g : ExecPlanGroup τ) (s : ModelStates) :
    Option ModelStates :=
  if ∀ p ∈ g.execPlans, p.idsSorted s then
    (g.inferStageLatency bound).map fun latency =>
      g.execPlans.foldl (fun s' p =>
        p.updateInpOutSeqlens ((List.range p.baseModelIds.length).map
          (p.mergedLevel s (latency - p.extraCost))) s') s
  else none

end Mil.InferStage
