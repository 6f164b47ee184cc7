import Mil.Lib.Dict
import Mil.Lib.Returns
import Mil.Arrive.Merged

/-!
# Arrival times in a plan group

`MyExecPlanGroup` of `benchmarks/search_exec_plans.py`: the extra costs of the plans are set, the
plans that run the sources of each plan are found by the ids of base models, and
`_get_arrive_times` asks these plans for the finish times of the source requests. A base model whose
sources are concatenated waits for the last of them; with independent sources each of its requests
has one source request.

The plans of a group are objects that keep their merged arrays, so the computation has the list of
plans as its state, and a plan is referred to by its position. The order in which a set is iterated
is not specified; here it is the order in which its elements come up. Which plans continue a plan of
the last stage, with nothing to load, and what loading costs otherwise, are parameters. A group with
a synchronisation time of the whole stage sets other extra costs; it is not modelled.
-/

set_option autoImplicit false

namespace Mil.Arrive

open Mil.Lib

abbrev GroupM := StateT (List ExecPlan) Option

/-- `comp_extra_prepare_costs`. -/
def compExtraPrepareCosts (continues : ExecPlan → Bool) (prepareCost : ExecPlan → ℚ)
    (plans : List ExecPlan) : List ExecPlan :=
  plans.map fun p =>
    { p with extraCost := if continues p then ⟨false, 0⟩ else ⟨false, prepareCost p⟩ }

/-- `inp_exec_plan_dict[exec_plan]`, with the positions of the plans (`_topological_sort`). -/
def inpExecPlans (plans : List ExecPlan) (p : ExecPlan) : List (ExecPlan × Nat) :=
  let modelExecPlanMapping := Dict.update [] (plans.zipIdx.map fun e => (e.1.modelId, e))
  let nodeMapping :=
    Dict.update [] (plans.flatMap fun q => q.getBaseModelIds.map fun ori => (ori, q.modelId))
  let inpModelIdsThisStage := (p.inpBaseModelIds.filterMap fun i => nodeMapping.lookup i).dedup
  inpModelIdsThisStage.filterMap fun i => modelExecPlanMapping.lookup i

/-- `get_finish_times_merged(...) + extra_cost` of the plan at a position. -/
def sourceTimes (inpSeqIds : List Nat) (info : Nat × Nat) : GroupM (List ℚ) := fun plans => do
  let p ← plans[info.1]?
  let (times, p') ← p.getFinishTimesMerged inpSeqIds info.2
  return (times.map (· + p.extraCost.value), plans.set info.1 p')

/-- `np.max(..., axis=0)`. -/
def maxRows : List (List ℚ) → Option (List ℚ)
  | [] => none
  | row :: rows => some (rows.foldl (List.zipWith max) row)

/-- `_get_arrive_times_base_model`. -/
def getArriveTimesBaseModel (inpSeqIds : List Nat) (inpInfo : List (Nat × Nat)) :
    GroupM (List ℚ) :=
  if inpInfo = [] then return List.replicate inpSeqIds.length (-1)
  else do
    let finishTimes ← inpInfo.mapM (sourceTimes inpSeqIds)
    StateT.lift (maxRows finishTimes)

/-- Where the base model `inModelId` is run. -/
def infoOf (inps : List (ExecPlan × Nat)) (inModelId : Nat) : List (Nat × Nat) :=
  inps.flatMap fun e =>
    (e.1.getBaseModelIds.zipIdx.filter (·.1 = inModelId)).map fun d => (e.2, d.2)

/-- `inp_info`; independent sources that are not run have an entry too. -/
def inpInfo (inps : List (ExecPlan × Nat)) (m : BaseModel) : List (Option (Nat × Nat)) :=
  m.inpBaseModelIds.flatMap fun inModelId =>
    let found := infoOf inps inModelId
    if found = [] ∧ m.independentSrcs = true then [none] else found.map some

/-- The arrival times of the requests that come from one independent source. -/
def timesFromSource (finishStatus : List (Nat × Bool)) (inpSeqIds : List (Nat × Nat))
    (inModelId : Nat) : Option (Nat × Nat) → GroupM (List (Nat × ℚ))
  | none => do
    let finished ← StateT.lift (finishStatus.lookup inModelId)
    return inpSeqIds.map fun r => (r.1, if finished then -1 else 10 ^ 9)
  | some info => do
    let needSeqIds := (inpSeqIds.map Prod.snd).dedup
    let times ← getArriveTimesBaseModel needSeqIds [info]
    StateT.lift (inpSeqIds.mapM fun r => ((needSeqIds.zip times).lookup r.2).map fun t => (r.1, t))

/-- The arrival times of a base model's requests. -/
def arriveTimesOf (finishStatus : List (Nat × Bool)) (inps : List (ExecPlan × Nat))
    (m : BaseModel) : GroupM (List ℚ) :=
  if m.independentSrcs then do
    let finishTimes ← (m.inpBaseModelIds.zip (inpInfo inps m)).foldlM (fun dict e => do
      let inpSeqIds ← StateT.lift (m.inpReqFromWhichModelWhichOutReqs.lookup e.1)
      let items ← timesFromSource finishStatus inpSeqIds e.1 e.2
      return Dict.update dict items) []
    StateT.lift (m.inpSeqIds.mapM fun seqId => finishTimes.lookup seqId)
  else getArriveTimesBaseModel m.inpSeqIds ((inpInfo inps m).filterMap id)

/-- `_get_arrive_times` of the plan at a position, a list for each base model. -/
def getArriveTimes (finishStatus : List (Nat × Bool)) (k : Nat) : GroupM (List (List ℚ)) := do
  let plans ← get
  let p ← StateT.lift plans[k]?
  p.modelList.mapM (arriveTimesOf finishStatus (inpExecPlans plans p))

/-- The arrival times of all plans of a new group. -/
def buildPlanGroup (continues : ExecPlan → Bool) (prepareCost : ExecPlan → ℚ)
    (finishStatus : List (Nat × Bool)) (plans : List ExecPlan) :
    Option (List (List (List ℚ)) × List ExecPlan) :=
  (List.range plans.length).mapM (getArriveTimes finishStatus)
    (compExtraPrepareCosts continues prepareCost plans)

end Mil.Arrive
