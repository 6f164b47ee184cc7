import Mil.Lib.Strided
import Mil.Fcfs.Arrivals
import Mil.Fcfs.Restart

/-!
# What a plan simulates

`benchmarks/search_exec_plans.py` keeps the results of simulations under keys. Before it looks for a
key, a plan deals its requests out to its data-parallel workers
(`_sort_and_partition_data_parallel`): sorted by arrival time, worker `i` of `n` gets every `n`-th
request from the `i`-th one on. A plan of fused models deals out, for each model, the requests with
new ids in this way; a request whose id an earlier model has goes to the worker that has it in the
previous model. The key (`_get_inp_key`) has the lengths and arrival times each worker has got. When
there is no result under the key, every worker is simulated (`fake_FCFS_schedule`,
`fake_FCFS_schedule_vertical_fuse`).

The cache size and the other limits are looked up by the name of the model and the key of the plan. The
parallel arrays of a model's requests are zipped to records to be sorted. The ids of a model are
distinct, so its first model has no request with an id that has been seen. `none` is an exception, or a
simulation that has used up its fuel.
-/

set_option autoImplicit false

namespace Mil.Fcfs

open Mil.Lib

/-! ## Dealing out requests -/

/-- `get_key()`. -/
structure PlanKey where
  numWorker : Nat
  memPerCompGpu : ℚ
  wldDegree : Nat
  cacheGpuNum : Nat
  dpSize : Nat
deriving DecidableEq

/-- The requests of a model, without arrival times. -/
structure ModelRequests where
  inpLens : List Nat
  outLens : List Nat
  seqIds : List Nat

structure Request where
  inpLen : Nat
  outLen : Nat
  seqId : Nat
  arriveTime : ℚ

/-- The requests, as they arrive once the model has been loaded. -/
def ModelRequests.requests (m : ModelRequests) (arriveTimes : List ℚ) (extraCost : ℚ) : List Request :=
  (m.inpLens.zip (m.outLens.zip (m.seqIds.zip arriveTimes))).map fun e =>
    ⟨e.1, e.2.1, e.2.2.1, e.2.2.2 - extraCost⟩

/-- The order of `(arrive_time, seq_id)`. -/
def sortByArrival (rs : List Request) : List Request :=
  rs.insertionSort fun r r' =>
    r.arriveTime < r'.arriveTime ∨ r.arriveTime = r'.arriveTime ∧ r.seqId ≤ r'.seqId

def sortBySeqId (rs : List Request) : List Request :=
  rs.insertionSort fun r r' => r.seqId ≤ r'.seqId

/-- Requests as a worker keeps them. -/
def levelOf (rs : List Request) : Level where
  inpLens := rs.map Request.inpLen
  outLens := rs.map Request.outLen
  arriveTimes := rs.map Request.arriveTime
  seqIds := rs.map Request.seqId

/-- The requests with new ids, the others, and the ids seen. -/
def splitVisited (visited : List Nat) : List Request → List Request × List Request × List Nat
  | [] => ([], [], visited)
  | r :: rs =>
    if r.seqId ∈ visited then
      let (unknown, known, visited) := splitVisited visited rs
      (unknown, r :: known, visited)
    else
      let (unknown, known, visited) := splitVisited (visited ++ [r.seqId]) rs
      (r :: unknown, known, visited)

/-- The known requests that continue requests of the worker's previous model. -/
def carriedOver (known previous : List Request) : List Request :=
  ((unique (known.map Request.seqId)).filter (· ∈ previous.map Request.seqId)).filterMap fun seqId =>
    known.find? (·.seqId = seqId)

/-- The requests of each model, for each worker, with the assertion that the ids are sorted. -/
def assignModels (dpSize : Nat) (extraCost : ℚ) :
    List Nat → List (List Request) → List (ModelRequests × List ℚ) →
      Option (List (List (List Request)))
  | _, _, [] => some []
  | visited, previous, (m, arriveTimes) :: rest =>
    let (unknown, known, visited) := splitVisited visited (m.requests arriveTimes extraCost)
    let assigned := (List.range dpSize).map fun dpId =>
      strided (sortByArrival unknown) dpId dpSize ++ carriedOver known (previous.getD dpId [])
    if m.seqIds.Pairwise (· ≤ ·) then
      (assignModels dpSize extraCost visited assigned rest).map (assigned :: ·)
    else none

/-! ## Simulating a worker -/

/-- The limits and costs of a worker. -/
structure WorkerConfig extends ArrivalConfig where
  throughput : List (Nat × Nat × Nat × Nat) → List (Int × Int) → List (Nat × Nat × Nat × Nat) →
    List Bool → List ℚ → List ℚ

/-- The result of a worker's simulation: the ranges of iterations (`cum_rng_nums`, `rng_starts`,
`rng_ends`) are given as `infer_progress`, for one model or for a list of them. -/
structure Simulated (α β : Type) where
  cumsumLatencys : List ℚ
  inferProgress : α
  isPrefillSteps : List Bool
  finishTimes : β
  throughputTillEachIter : List ℚ
deriving DecidableEq

/-- `get_finish_times`. -/
def getFinishTimes (cumsumLatencys : List ℚ) (inferProgress : List (List Rng)) : Option (List ℚ) :=
  inferProgress.mapM fun rngs => rngs.getLast?.bind fun rng => cumsumLatencys[rng.2]?

/-- A simulation with its finish times and throughputs. -/
def Simulation.simulated {α β : Type} (cfg : WorkerConfig) (sim : Simulation α) (finishTimes : β) :
    Simulated α β where
  cumsumLatencys := sim.cumsumLatencys
  inferProgress := sim.inferProgress
  isPrefillSteps := sim.isPrefillSteps
  finishTimes := finishTimes
  throughputTillEachIter := cfg.throughput sim.prefillLogs sim.validPrefillLogs sim.logs
    sim.isPrefillSteps sim.cumsumLatencys

/-- A schedule of the plain simulator with its cumulative latencies. -/
def Schedule.simulation (cfg : ArrivalConfig) (r : Schedule) : Option (Simulation (List (List Rng))) := do
  let latencys ← mergeLatencys r.isPrefillSteps
    ((r.prefillLogs.zip r.validPrefillLogs).map cfg.prefillCost) (r.logs.map cfg.decodeCost)
  return ⟨cumsumFrom 0 latencys, r.isPrefillSteps, r.inferProgress, r.prefillLogs, r.logs,
    r.validPrefillLogs⟩

/-- `fake_FCFS_schedule`. -/
def simulateWorker (cfg : WorkerConfig) (fuel : Nat) (l : Level) :
    Option (Simulated (List (List Rng)) (List ℚ)) :=
  if l.inpLens = [] then some ⟨[], [], [], [], []⟩
  else do
    let sim ←
      if ∀ a ∈ l.arriveTimes, a < 0 then
        (fakeFCFSSchedule cfg.toConfig fuel l.inpLens l.outLens).bind
          (Schedule.simulation cfg.toArrivalConfig)
      else fakeFCFSSchedulePipeline cfg.toArrivalConfig fuel l.inpLens l.outLens l.arriveTimes
    let finishTimes ← getFinishTimes sim.cumsumLatencys sim.inferProgress
    return sim.simulated cfg finishTimes

/-- Requests without arrival times are there from the beginning. -/
def Level.arrived (l : Level) : Level :=
  if l.arriveTimes = [] then { l with arriveTimes := List.replicate l.inpLens.length (-1) } else l

/-- `fake_FCFS_schedule_vertical_fuse`, for the levels of a worker. -/
def simulateFusedWorker (cfg : WorkerConfig) (fuel : Nat) :
    List Level → Option (Simulated (List (List (List Rng))) (List (List ℚ)))
  | [] => none
  | first :: later =>
    if ∀ l ∈ first :: later, l.inpLens = [] then
      some ⟨[], (first :: later).map fun _ => [], [], (first :: later).map fun _ => [], []⟩
    else do
      let sim ← fakeFCFSScheduleVerticalFuse cfg.toArrivalConfig fuel first.arrived
        (later.map Level.arrived)
      let finishTimes ← sim.inferProgress.mapM (getFinishTimes sim.cumsumLatencys)
      return sim.simulated cfg finishTimes

/-! ## Plans -/

structure MyExecPlan where
  modelName : String
  key : PlanKey
  model : ModelRequests
  extraCost : ℚ

structure MyVerticalFusedExecPlan where
  modelName : String
  key : PlanKey
  modelList : List ModelRequests
  extraCost : ℚ

/-- A key of `_FAKE_SCHEDULING_RES`; `Lens` and `Times` are lists of lists for one model, and one list
deeper for fused models. -/
structure ResKey (Lens Times : Type) where
  modelName : String
  planKey : PlanKey
  inpLens : Lens
  outLens : Lens
  arriveTimes : Times
deriving DecidableEq

/-- What `_sort_and_partition_data_parallel` gives each worker. -/
def MyExecPlan.workers (p : MyExecPlan) (arriveTimes : List ℚ) : List Level :=
  (List.range p.key.dpSize).map fun dpId =>
    levelOf (strided (sortByArrival (p.model.requests arriveTimes p.extraCost)) dpId p.key.dpSize)

def MyExecPlan.resKey (p : MyExecPlan) (arriveTimes : List ℚ) :
    ResKey (List (List Nat)) (List (List ℚ)) where
  modelName := p.modelName
  planKey := p.key
  inpLens := (p.workers arriveTimes).map Level.inpLens
  outLens := (p.workers arriveTimes).map Level.outLens
  arriveTimes := (p.workers arriveTimes).map Level.arriveTimes

/-- What is stored under a key that has no result yet: a simulation of each worker. -/
def MyExecPlan.freshRes (limits : String → PlanKey → WorkerConfig) (fuel : Nat) (p : MyExecPlan)
    (arriveTimes : List ℚ) : Option (List (Simulated (List (List Rng)) (List ℚ))) :=
  (p.workers arriveTimes).mapM (simulateWorker (limits p.modelName p.key) fuel)

/-- What `_sort_and_partition_data_parallel` gives each worker: a level for each model, sorted by
ids. -/
def MyVerticalFusedExecPlan.workers (p : MyVerticalFusedExecPlan) (arriveTimesList : List (List ℚ)) :
    Option (List (List Level)) :=
  (assignModels p.key.dpSize p.extraCost [] [] (p.modelList.zip arriveTimesList)).map fun models =>
    (List.range p.key.dpSize).map fun dpId =>
      models.map fun assigned => levelOf (sortBySeqId (assigned.getD dpId []))

def MyVerticalFusedExecPlan.resKey (p : MyVerticalFusedExecPlan) (arriveTimesList : List (List ℚ)) :
    Option (ResKey (List (List (List Nat))) (List (List (List ℚ)))) :=
  (p.workers arriveTimesList).map fun workers => {
    modelName := p.modelName
    planKey := p.key
    inpLens := workers.map fun levels => levels.map Level.inpLens
    outLens := workers.map fun levels => levels.map Level.outLens
    arriveTimes := workers.map fun levels => levels.map Level.arriveTimes }

def MyVerticalFusedExecPlan.freshRes (limits : String → PlanKey → WorkerConfig) (fuel : Nat)
    (p : MyVerticalFusedExecPlan) (arriveTimesList : List (List ℚ)) :
    Option (List (Simulated (List (List (List Rng))) (List (List ℚ)))) :=
  (p.workers arriveTimesList).bind fun workers =>
    workers.mapM (simulateFusedWorker (limits p.modelName p.key) fuel)

end Mil.Fcfs
