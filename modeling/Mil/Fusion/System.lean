import Mathlib.Data.List.Dedup
import Mathlib.Data.List.Sort
import Mil.Lib.Dict
import Mil.Lib.Topological

/-!
# Model systems and vertical fusion

`MyModelInfor`, `MyFusedModelInfor`, `MyModelSystem` and `MyExecPlanGroup._topological_sort` of
`benchmarks/search_exec_plans.py`, as far as the graph of the models is concerned: the levels of the
models, the fusion of similar models of a chain, the system the fused models give, and the order of
the plans of a group.

A system is built from its models and from `out_edge_dict`, which gives the models every model feeds.
Before the search starts, every model that continues a chain is put into one fused model with it, and
the system is built anew from the fused models. What else a model carries, its requests and the data
of its checkpoint, does not enter; neither does `can_be_vertically_fused_topologically`, which the
fusion sets and only the searches read. `none` is a raised exception or a loop that has used up its
fuel. The elements of a Python set are a list without repetition; nothing depends on their order.
-/

set_option autoImplicit false

namespace Mil.Fusion

open Mil.Lib

/-! ## Models -/

/-- `MyModelInfor` or `MyFusedModelInfor`. The ids of the base models are those of
`get_base_model_ids`; of a base model it is its own id. `finished` is `is_finished`. -/
structure ModelInfor where
  modelId : Nat
  modelName : String
  baseModelIds : List Nat
  inputModelIds : List Nat
  inpBaseModelIds : List Nat
  finished : Bool
deriving DecidableEq, Repr

/-- `sorted(set(ids).difference(own))`. -/
def outsideIds (ids own : List Nat) : List Nat :=
  ((ids.filter (· ∉ own)).dedup).insertionSort (· ≤ ·)

/-- `MyFusedModelInfor(model_list)`, with the next model id. -/
def fusedModelInfor (modelId : Nat) (first : ModelInfor) (rest : List ModelInfor) : ModelInfor :=
  let modelList := first :: rest
  let own := modelList.map (·.modelId)
  { modelId
    modelName := first.modelName
    baseModelIds := own
    inputModelIds := outsideIds (modelList.flatMap (·.inputModelIds)) own
    inpBaseModelIds := outsideIds (modelList.flatMap (·.inpBaseModelIds)) own
    finished := modelList.all (·.finished) }

/-! ## Systems -/

/-- `out_edge_dict`. -/
abbrev EdgeDict := List (Nat × List Nat)

/-- `MyModelSystem`: the values of `model_dict`, `out_edge_dict`, and `all_level_model_ids`, which is
empty until it is computed. -/
structure ModelSystem where
  models : List ModelInfor
  outEdges : EdgeDict
  allLevelModelIds : List (List Nat)

/-- The ids appended to the `input_model_ids` of a model, one for every time it is listed. -/
def inputsOf (outEdges : EdgeDict) (modelId : Nat) : List Nat :=
  outEdges.flatMap fun e => (e.2.filter (· = modelId)).map fun _ => e.1

/-- The constructor: the input ids are computed from the edges, all of which have to lead to models
of the system. -/
def modelSystem (models : List ModelInfor) (outEdges : EdgeDict) : Option ModelSystem :=
  if ∀ e ∈ outEdges, ∀ out ∈ e.2, out ∈ models.map (·.modelId) then
    some ⟨models.map fun m => { m with inputModelIds := inputsOf outEdges m.modelId }, outEdges, []⟩
  else none

/-- The rounds of `get_all_level_models(False)`: the unfinished models all of whose inputs have been
visited are the next level, unless there are none; the finished models are visited right away. -/
def levelRounds (models : List ModelInfor) : Nat → List Nat → Option (List (List Nat))
  | 0, visited => if ∀ m ∈ models, m.modelId ∈ visited then some [] else none
  | fuel + 1, visited =>
    if ∀ m ∈ models, m.modelId ∈ visited then some []
    else
      let unvisited := models.filter (·.modelId ∉ visited)
      let newlyFinished := unvisited.filter (·.finished)
      let newModels := unvisited.filter fun m => !m.finished && decide (m.inputModelIds ⊆ visited)
      let newModelIds := newModels.map (·.modelId)
      (levelRounds models fuel (visited ++ newlyFinished.map (·.modelId) ++ newModelIds)).map
        fun levels => if newModelIds = [] then levels else newModelIds :: levels

def ModelSystem.getAllLevelModels (s : ModelSystem) : Option ModelSystem :=
  (levelRounds s.models s.models.length []).map fun levels => { s with allLevelModelIds := levels }

/-- `get_best_model_schedule` before the fusion: the system of the base models, with its levels, and
with the input ids recorded as the ids of the input base models. -/
def baseSystem (models : List ModelInfor) (outEdges : EdgeDict) : Option ModelSystem := do
  let s ← modelSystem models outEdges
  let s ← s.getAllLevelModels
  pure { s with models := s.models.map fun m => { m with inpBaseModelIds := m.inputModelIds } }

/-! ## Fusion -/

/-- An entry of `fused_models`, with the model objects in place of their ids. Its key is the id of
the first model. -/
structure Chain where
  first : ModelInfor
  rest : List ModelInfor

def Chain.models (c : Chain) : List ModelInfor := c.first :: c.rest

def Chain.ids (c : Chain) : List Nat := c.models.map (·.modelId)

/-- `_meet_vertical_fuse_condition`. -/
def meetVerticalFuseCondition (toFuseInp modelIdsFused fusedModelInp : List Nat) : Bool :=
  (toFuseInp.length == 1 && toFuseInp.head? == modelIdsFused.getLast?) ||
    toFuseInp.insertionSort (· ≤ ·) == (fusedModelInp ++ modelIdsFused).insertionSort (· ≤ ·)

/-- Whether the model may continue the chain. -/
def Chain.accepts (c : Chain) (m : ModelInfor) : Bool :=
  c.first.modelName == m.modelName &&
    meetVerticalFuseCondition m.inputModelIds c.ids c.first.inpBaseModelIds

/-- The first chain that accepts the model is continued by it; without one it begins a chain. -/
def fuseModel (m : ModelInfor) : List Chain → List Chain
  | [] => [⟨m, []⟩]
  | c :: chains =>
    if c.accepts m then { c with rest := c.rest ++ [m] } :: chains else c :: fuseModel m chains

/-- `get_models_at_given_level`. -/
def ModelSystem.getModelsAtGivenLevel (s : ModelSystem) (level : List Nat) :
    Option (List ModelInfor) :=
  level.mapM fun modelId => s.models.find? (·.modelId = modelId)

/-- The loop over the levels, up to an empty one. -/
def ModelSystem.fuseLevels (s : ModelSystem) : List (List Nat) → List Chain → Option (List Chain)
  | [], chains => some chains
  | level :: levels, chains => do
    let candModels ← s.getModelsAtGivenLevel level
    if candModels = [] then pure chains
    else s.fuseLevels levels (candModels.foldl (fun chains m => fuseModel m chains) chains)

/-- The fused models of the chains with more than one model, with ids from `nextId` on. -/
def fusedModelObjs : Nat → List Chain → List ModelInfor
  | _, [] => []
  | nextId, c :: chains =>
    if c.rest = [] then fusedModelObjs nextId chains
    else fusedModelInfor nextId c.first c.rest :: fusedModelObjs (nextId + 1) chains

/-- `node_mapping` after its first two loops: the base models of the fused models are mapped to them,
and so is a model whose base models are. -/
def fusedNodeMapping (models fused : List ModelInfor) : Option (List (Nat × Nat)) :=
  models.foldlM (fun mapping m => do
    let base ← m.baseModelIds.head?
    match mapping.lookup base with
    | none => pure mapping
    | some target =>
      if ∀ b ∈ m.baseModelIds, mapping.lookup b = some target then
        pure (Dict.set m.modelId target mapping)
      else none)
    (Dict.update [] (fused.flatMap fun f => f.baseModelIds.map fun b => (b, f.modelId)))

/-- The other models are mapped to themselves. -/
def completeNodeMapping (models : List ModelInfor) (mapping : List (Nat × Nat)) :
    List (Nat × Nat) :=
  models.foldl (fun mapping m =>
    if m.modelId ∈ Dict.keys mapping then mapping else Dict.set m.modelId m.modelId mapping) mapping

/-- `new_out_edge_dict`: the mapped edges, collected in a set for every source. -/
def collectEdges (mapping : List (Nat × Nat)) (outEdges : EdgeDict) : Option EdgeDict :=
  outEdges.foldlM (fun new e => do
    let src ← mapping.lookup e.1
    let tgts ← e.2.mapM fun tgt => mapping.lookup tgt
    pure (Dict.set src (((new.lookup src).getD [] ++ tgts).dedup) new)) []

/-- `gen_new_model_sys_with_fused_models`. -/
def ModelSystem.genNewModelSysWithFusedModels (s : ModelSystem) (fused : List ModelInfor) :
    Option ModelSystem := do
  let mapping ← fusedNodeMapping s.models fused
  let kept := s.models.filter (·.modelId ∉ Dict.keys mapping)
  let newModels := (Dict.update (kept.map fun m => (m.modelId, m))
    (fused.map fun f => (f.modelId, f))).map Prod.snd
  let new ← collectEdges (completeNodeMapping s.models mapping) s.outEdges
  modelSystem newModels (new.map fun e => (e.1, e.2.filter (· ≠ e.1)))

/-- `fuse_similar_models_in_a_chain_fuseAll_by_default`; `nextId` is the global counter of model
ids. -/
def ModelSystem.fuseSimilarModelsInAChain (s : ModelSystem) (nextId : Nat) : Option ModelSystem := do
  if s.allLevelModelIds.length = 1 then pure s
  else
    let chains ← s.fuseLevels s.allLevelModelIds []
    s.genNewModelSysWithFusedModels (fusedModelObjs nextId chains)

/-! ## Plan groups -/

section

variable {π : Type} (model : π → ModelInfor)

/-- `node_mapping` of a group: the base models of its plans. -/
def groupNodeMapping (plans : List π) : List (Nat × Nat) :=
  Dict.update [] (plans.flatMap fun p => (model p).baseModelIds.map fun b => (b, (model p).modelId))

/-- `inp_model_ids_this_stage`: the models of the group that hold an input base model. -/
def inpModelIdsThisStage (plans : List π) (p : π) : List Nat :=
  ((model p).inpBaseModelIds.filterMap fun b => (groupNodeMapping model plans).lookup b).dedup

/-- `_topological_sort`: `self.exec_plans` and `self.inp_exec_plan_dict` after it, for plans of any
kind. The loop has no guard; here it gets a sweep for every plan. -/
def topologicalSort (plans : List π) : Option (List π × List (π × List π)) := do
  let mapping := Dict.update [] (plans.map fun p => ((model p).modelId, p))
  let inpExecPlanDict ← plans.mapM fun p => do
    let inps ← (inpModelIdsThisStage model plans p).mapM fun modelId => mapping.lookup modelId
    pure (p, inps)
  let sortedPlans ← sweeps (fun p => (model p).modelId) (inpModelIdsThisStage model plans)
    plans.length (mapping.map Prod.snd) plans.length []
  pure (sortedPlans, inpExecPlanDict)

end

end Mil.Fusion
