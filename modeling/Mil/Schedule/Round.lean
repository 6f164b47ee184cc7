import Mil.Schedule.Plan

/-!
# One round of the runtime scheduler

`get_the_next_round_exec_plan_schedule` of `benchmarks/schedule_multi_model.py`. The main process
calls it whenever a model process ends. It first settles which plans run next, with or without
runtime adjustment, and then which GPUs each of them gets.

With adjustment, plans of the target stage are launched as soon as they fit beside the plans that
have to be kept; when some do not fit, plans of earlier stages that would go on in a later stage
are admitted again. Without adjustment, a stage starts when no plan that is the last of its model
is left.

`fin` is the finish status of the models (`SHARED_CONTECT.query_finish_status`), which does not
change during a round. The recursion through the stages is on the list of the stages after the
target. `to_launch_model_ids` always lists the models of `to_launch` and is not kept apart.
`model_driver_worker_gpu_i` is only written.
-/

set_option autoImplicit false

namespace Mil.Schedule

/-! ## Loading candidates -/

/-- The plans no other candidate's model is an input of. -/
def roots (cands : List PlanState) : List PlanState :=
  cands.filter fun ps => ∀ i ∈ ps.inputModelIds, i ∉ cands.map PlanState.modelId

/-- `_get_the_first_plan_state_when_sorted_by_gpu_num_and_topology`, and with the light rule
`_get_the_first_plan_state_when_sorted_by_topology`. -/
def firstPlanState (cfg : Config) (cands : List PlanState) : Option PlanState :=
  if cfg.lightRule then (roots cands).head?
  else (sortedReverse (fun ps => [ps.gpuNum]) (roots cands)).head?

/-- The lists `_try_to_load_exec_plans` updates, and the free GPUs. -/
structure Load where
  toLaunch : List PlanState
  newCandidates : List PlanState
  availableGpus : List Nat
  cells : Cells

/-- The body of the loop of `_try_to_load_exec_plans`. -/
def Load.consider (l : Load) (ps : PlanState) : Load :=
  if ps.modelId ∈ l.toLaunch.map PlanState.modelId then l
  else if ps.gpuNum ≤ l.availableGpus.length then
    if (l.cells ps).launched then
      { l with
        toLaunch := l.toLaunch ++ [ps]
        availableGpus := l.availableGpus.filter (· ∉ (l.cells ps).compGpus) }
    else
      { l with
        toLaunch := l.toLaunch ++ [ps]
        cells := (l.cells.setLaunched ps).setCompGpus ps (l.availableGpus.take ps.gpuNum)
        availableGpus := l.availableGpus.drop ps.gpuNum }
  else if (l.cells ps).launched then l
  else { l with newCandidates := l.newCandidates ++ [ps] }

/-- `_try_to_load_exec_plans`. Every turn of the loop takes a plan out of the candidates, so that
their number bounds the turns. -/
def tryToLoad (cfg : Config) : Nat → List PlanState → Load → Except Raised Load
  | 0, _, l => pure l
  | fuel + 1, cands, l =>
    if cands = [] then pure l
    else match firstPlanState cfg cands with
      | none => throw .noRoot
      | some ps => tryToLoad cfg fuel (cands.filter (· ≠ ps)) (l.consider ps)

def tryToLoadExecPlans (cfg : Config) (cands : List PlanState) (l : Load) : Except Raised Load :=
  tryToLoad cfg cands.length cands l

/-- The order in which the candidates are handed over. -/
def candOrder (cfg : Config) (cands : List PlanState) : List PlanState :=
  if cfg.lightRule then cands else sortedReverse (fun ps => [ps.numWorker]) cands

/-! ## What to keep -/

/-- Running plans that stay: their model has not finished, and they are the last plan of their
model or belong to the target stage. -/
def keptPlans (fin : Nat → Bool) (s : State) : List PlanState :=
  s.launched.filter fun ps =>
    !fin ps.modelId && (!decide (ps.stageI < s.target) || ps.lastExecPlanForTheModel)

/-- Running plans of earlier stages whose model has not finished and has a later plan. -/
def earlierPlans (fin : Nat → Bool) (s : State) : List PlanState :=
  s.launched.filter fun ps =>
    !fin ps.modelId && (decide (ps.stageI < s.target) && !ps.lastExecPlanForTheModel)

/-- The dictionary from `(model_id, get_key())` to GPUs; later entries replace earlier ones. -/
def gpusOf (cells : Cells) (plans : List PlanState) (key : ModelKey) : Option (List Nat) :=
  (plans.reverse.find? fun ps => ps.modelKey = key).map fun ps => (cells ps).compGpus

/-- What the loop over the candidates updates: `to_launch`, `cand_to_launch_list[1]`, the heap. -/
structure Taken where
  toLaunch : List PlanState
  pending : List PlanState
  cells : Cells

/-- The loop over the candidates: those that need no preparation take over the GPUs of the running
plan with the same key. -/
def takeCandidates (fin : Nat → Bool) (gpus : ModelKey → Option (List Nat)) :
    List PlanState → Taken → Except Raised Taken
  | [], t => pure t
  | ps :: rest, t =>
    if fin ps.modelId then
      takeCandidates fin gpus rest { t with cells := t.cells.setLaunched ps }
    else if ps.needPrepareInferEnv then
      takeCandidates fin gpus rest { t with pending := t.pending ++ [ps] }
    else match gpus ps.modelKey with
      | none => throw .planGpusMissing
      | some comp => takeCandidates fin gpus rest
          { t with
            toLaunch := t.toLaunch ++ [ps]
            cells := (t.cells.setLaunched ps).setCompGpus ps comp }

/-- `[i for i in range(tot_gpu_num) if i not in occupied_gpus]`. -/
def availableGpus (cfg : Config) (cells : Cells) (toLaunch : List PlanState) : List Nat :=
  (List.range cfg.totGpuNum).filter (· ∉ toLaunch.flatMap fun ps => (cells ps).compGpus)

/-- The plans that are taken over, and then as many pending candidates as fit. -/
def loadTaken (cfg : Config) (t : Taken) : Except Raised Load :=
  tryToLoadExecPlans cfg (candOrder cfg t.pending)
    ⟨t.toLaunch, [], availableGpus cfg t.cells t.toLaunch, t.cells⟩

/-- `_has_model_finished`. -/
def hasModelFinished (groups : List (List PlanState)) (fin : Nat → Bool) (stageI : Nat) : Bool :=
  (groups.getD stageI []).any fun ps => fin ps.modelId

/-! ## The plans of the next round -/

/-- One level of `_get_the_next_round_exec_plan_schedule`: everything up to the test whether
candidates are left over. -/
def loadCandidates (cfg : Config) (fin : Nat → Bool) (s : State) : Except Raised Load := do
  let t ← takeCandidates fin (gpusOf s.cells s.launched) s.candidates
    ⟨keptPlans fin s, [], s.cells⟩
  loadTaken cfg t

/-- Plans of earlier stages are admitted again. -/
def readmit (cfg : Config) (fin : Nat → Bool) (s : State) (l : Load) : Except Raised Load :=
  tryToLoadExecPlans cfg (candOrder cfg (earlierPlans fin s)) l

/-- `_get_the_next_round_exec_plan_schedule`; `later` are the stages after the target. -/
def nextRound (cfg : Config) (groups : List (List PlanState)) (fin : Nat → Bool) :
    List (List PlanState) → State → Except Raised State
  | later, s => do
    let l ← loadCandidates cfg fin s
    if l.newCandidates ≠ [] then
      let l ← readmit cfg fin s l
      pure ⟨l.toLaunch, l.newCandidates, s.target, l.cells⟩
    else match later with
      | [] => pure ⟨l.toLaunch, [], s.target + 1, l.cells⟩
      | next :: later =>
        if hasModelFinished groups fin s.target then
          nextRound cfg groups fin later ⟨l.toLaunch, next, s.target + 1, l.cells⟩
        else pure ⟨l.toLaunch, next, s.target + 1, l.cells⟩

/-- One level of `_get_the_next_round_exec_plan_schedule_no_runtime_adjustment` when no plan is
kept: the plans of the target stage are launched. -/
def loadStage (cfg : Config) (groups : List (List PlanState)) (fin : Nat → Bool) (s : State) :
    Except Raised Load := do
  let t ← takeCandidates fin (gpusOf s.cells s.launched) (groups.getD s.target [])
    ⟨[], [], s.cells⟩
  let l ← loadTaken cfg t
  if l.newCandidates ≠ [] then throw .stateError2
  pure l

/-- `_get_the_next_round_exec_plan_schedule_no_runtime_adjustment`. -/
def nextRoundNoAdjustment (cfg : Config) (groups : List (List PlanState)) (fin : Nat → Bool) :
    List (List PlanState) → State → Except Raised State
  | later, s => do
    let kept := keptPlans fin s
    if ¬ ∀ ps ∈ kept, ps.stageI < s.target then throw .stateError
    if kept ≠ [] then
      let l ← loadTaken cfg ⟨kept, [], s.cells⟩
      let l ← readmit cfg fin s l
      pure ⟨l.toLaunch, l.newCandidates, s.target, l.cells⟩
    else
      let l ← loadStage cfg groups fin s
      match later with
      | [] => pure ⟨l.toLaunch, [], s.target + 1, l.cells⟩
      | next :: later =>
        if hasModelFinished groups fin s.target then
          nextRoundNoAdjustment cfg groups fin later ⟨l.toLaunch, next, s.target + 1, l.cells⟩
        else pure ⟨l.toLaunch, next, s.target + 1, l.cells⟩

/-! ## The GPUs of the next round -/

/-- The value that marks a GPU group as not to be touched: `1e9`. -/
def sentinel : Nat := 1000000000

/-- `np.unique(gpus // fully_connected_gpu_unit)`. -/
def unitsOf (cfg : Config) (gpus : List Nat) : List Nat :=
  (gpus.map (· / cfg.fullyConnectedGpuUnit)).dedup

/-- What the first loop of `_adjust_comp_gpus_for_current_launched_exec_plans` updates. -/
structure Keeping where
  costToCleanModels : Nat → Nat
  occupiedGpus : List Nat
  toReassign : List PlanState
  cells : Cells

/-- The first loop of `_adjust_comp_gpus_for_current_launched_exec_plans`: plans that were running
get their GPUs back, and the groups of the large ones are closed. -/
def keepCompGpus (cfg : Config) (newLaunch : List PlanState)
    (oldGpus : ModelKey → Option (List Nat)) :
    List PlanState → Keeping → Except Raised Keeping
  | [], k => pure k
  | ps :: rest, k =>
    if ps ∈ newLaunch then
      keepCompGpus cfg newLaunch oldGpus rest { k with toReassign := k.toReassign ++ [ps] }
    else match oldGpus ps.modelKey with
      | none => throw .compGpusMissing
      | some comp =>
        let gpus := comp.take ps.gpuNum
        let units := unitsOf cfg gpus
        let k := { k with
          cells := k.cells.setCompGpus ps comp
          occupiedGpus := k.occupiedGpus ++ gpus }
        if gpus = [] then throw .emptyIndex
        else if cfg.fullyConnectedGpuUnit ≤ ps.numWorker then
          if ∀ i ∈ units, gpus.countP (· / cfg.fullyConnectedGpuUnit = i) =
              cfg.fullyConnectedGpuUnit then
            keepCompGpus cfg newLaunch oldGpus rest { k with
              costToCleanModels := fun i => if i ∈ units then sentinel else k.costToCleanModels i }
          else throw .partialUnit
        else keepCompGpus cfg newLaunch oldGpus rest { k with
          costToCleanModels := fun i =>
            if i ∈ units then k.costToCleanModels i + ps.execPlan.loadCostJustForRefer
            else k.costToCleanModels i
          toReassign := k.toReassign ++ [ps] }

/-- Row `i` of `np.arange(tot_gpu_num).reshape((-1, fully_connected_gpu_unit))`. -/
def gpuGroup (cfg : Config) (i : Nat) : List Nat :=
  (List.range cfg.fullyConnectedGpuUnit).map (i * cfg.fullyConnectedGpuUnit + ·)

/-- `sorted_gpu_group_ids`: the groups that are not closed, the cheapest first. -/
def sortedGpuGroupIds (cfg : Config) (k : Keeping) : List Nat :=
  (cfg.argsort.run ((List.range (cfg.totGpuNum / cfg.fullyConnectedGpuUnit)).map
    k.costToCleanModels)).filter fun i => k.costToCleanModels i < sentinel

/-- `cand_gpus`: the GPUs of these groups, within a group the free ones first. -/
def candGpus (cfg : Config) (k : Keeping) : List Nat :=
  (sortedGpuGroupIds cfg k).flatMap fun i =>
    (gpuGroup cfg i).insertionSort fun a b =>
      (decide (a ∈ k.occupiedGpus)).toNat ≤ (decide (b ∈ k.occupiedGpus)).toNat

/-- What the second loop updates. -/
structure Reassign where
  candGpus : List Nat
  extraNewLaunch : List PlanState
  cells : Cells

/-- `gpu_for_dps`. -/
def gpuForDps (ps : PlanState) (gpus : List Nat) : List (List Nat) :=
  (List.range ps.dpSize).map fun dpI => (gpus.drop (dpI * ps.numWorker)).take ps.numWorker

/-- Every data-parallel worker has its GPUs in one group; `none` when `min` is given no GPU. -/
def workersInUnits (cfg : Config) (ps : PlanState) (gpus : List Nat) : Option Bool :=
  (gpuForDps ps gpus).foldr (fun worker acc => do
    let least ← worker.min?
    let most ← worker.max?
    let rest ← acc
    some (decide (least / cfg.fullyConnectedGpuUnit = most / cfg.fullyConnectedGpuUnit) && rest))
    (some true)

/-- A plan gets the next candidate GPUs. -/
def Reassign.assign (r : Reassign) (ps : PlanState) (isNew : Bool) : Reassign where
  candGpus := r.candGpus.drop ps.gpuNum
  cells := r.cells.setCompGpus ps (r.candGpus.take ps.gpuNum)
  extraNewLaunch := if isNew then r.extraNewLaunch else r.extraNewLaunch ++ [ps]

/-- The second loop of `_adjust_comp_gpus_for_current_launched_exec_plans`. -/
def reassignCompGpus (cfg : Config) (newLaunch : List PlanState) :
    List PlanState → Reassign → Except Raised Reassign
  | [], r => pure r
  | ps :: rest, r =>
    if cfg.fullyConnectedGpuUnit ≤ ps.numWorker ∨ ps ∈ newLaunch then
      reassignCompGpus cfg newLaunch rest (r.assign ps (ps ∈ newLaunch))
    else
      let gpus := (r.cells ps).compGpus.take ps.gpuNum
      if ∀ g ∈ gpus, g ∈ r.candGpus then
        match workersInUnits cfg ps gpus with
        | none => throw .emptyWorker
        | some true => reassignCompGpus cfg newLaunch rest
            { r with candGpus := r.candGpus.filter (· ∉ gpus) }
        | some false => reassignCompGpus cfg newLaunch rest (r.assign ps false)
      else reassignCompGpus cfg newLaunch rest (r.assign ps false)

def reassignKey (cfg : Config) (newLaunch : List PlanState) (ps : PlanState) : List Nat :=
  [ps.numWorker, if ps ∈ newLaunch then 0 else 1,
    if ps.gpuNum % cfg.fullyConnectedGpuUnit = 0 then 1 else 0, ps.gpuNum]

/-- `_adjust_comp_gpus_for_current_launched_exec_plans`, with the heap it leaves. -/
def adjustCompGpus (cfg : Config) (launched newLaunch oldLaunched : List PlanState)
    (cells : Cells) : Except Raised (List PlanState × Cells) := do
  if cfg.fullyConnectedGpuUnit = 0 ∨ cfg.totGpuNum % cfg.fullyConnectedGpuUnit ≠ 0 then
    throw .badUnit
  let k ← keepCompGpus cfg newLaunch (gpusOf cells oldLaunched)
    (sortedBy (fun ps => [ps.numWorker]) launched) ⟨fun _ => 0, [], [], cells⟩
  if sortedGpuGroupIds cfg k = [] then throw .noGpuGroup
  let r ← reassignCompGpus cfg newLaunch (sortedReverse (reassignKey cfg newLaunch) k.toReassign)
    ⟨candGpus cfg k, [], k.cells⟩
  pure (r.extraNewLaunch, r.cells)

/-! ## The round -/

/-- What a round returns. -/
structure Round where
  state : State
  modelIdsToStop : List Nat
  newLaunch : List PlanState

/-- `get_the_next_round_exec_plan_schedule`. -/
def getTheNextRound (cfg : Config) (groups : List (List PlanState)) (fin : Nat → Bool)
    (s : State) : Except Raised Round := do
  let later := groups.drop (s.target + 1)
  let next ← if cfg.noRuntimeAdjustment then nextRoundNoAdjustment cfg groups fin later s
    else nextRound cfg groups fin later s
  let newLaunch := next.launched.filter fun ps =>
    ps.modelKey ∉ s.launched.map PlanState.modelKey
  let toStop := s.launched.filter fun ps => ps.modelKey ∉ next.launched.map PlanState.modelKey
  let (extraNewLaunch, cells) ← adjustCompGpus cfg next.launched newLaunch s.launched next.cells
  pure {
    state := { next with cells := cells }
    modelIdsToStop := toStop.map PlanState.modelId ++ extraNewLaunch.map PlanState.modelId
    newLaunch := newLaunch ++ extraNewLaunch }

/-- The states the scheduling loop reaches, with the finish status of the last round. Models finish
in any order and any number of them between two rounds; `Meets` restricts the rounds. -/
inductive Reach (cfg : Config) (groups : List (List PlanState))
    (Meets : (Nat → Bool) → State → Prop) : (Nat → Bool) → State → Prop
  | start {s : State} : initializeSharedContect cfg groups = .ok s →
      Reach cfg groups Meets (fun _ => false) s
  | round {fin fin' : Nat → Bool} {s : State} {r : Round} : Reach cfg groups Meets fin s →
      (∀ m, fin m → fin' m) → Meets fin' s → getTheNextRound cfg groups fin' s = .ok r →
      Reach cfg groups Meets fin' r.state

end Mil.Schedule
