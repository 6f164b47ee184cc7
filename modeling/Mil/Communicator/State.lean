import Mathlib.Data.List.AList
import Mathlib.Data.List.Sort
import Mil.Lib.Gather
import Mil.Lib.Strided

/-!
# `LLM_COMMUNICATOR`: the object and its methods

The communicator passes outputs of models on as inputs of other models
(`vllm/core/multimodel_scheduler.py`). Upstream models append to `output_pool`; a reader
assembles what has arrived into requests, appends them to `fused_inp_queues`, and hands out a
strided share of that queue to the data-parallel worker that asks.

The definitions follow the methods one by one. A `none` is a Python exception: a missing key,
an index out of range, `+=` on a `None` part, or the assertion of `get_seqs_base_model`. Two
methods are cut where they enter and leave a lock, because other processes run in between:
`add_seqs_base_model` is `extendOutputPool` then `decUngened`, and `_get_fused_inp_queues` is
one `readSource` per source and then `appendFused`.

Left out, because none of these methods reads them: `outlen_dict`, the tokenizers, the
non-compute ranges and the unused `inp_req_ids`.
-/

set_option autoImplicit false

namespace Mil.Communicator

open Mil.Lib

/-- Base models and, below zero, the dummy nodes that hold the initial prompts. -/
abbrev ModelId := Int
/-- The ids `LLM`s are started under; one stands for several base models when they are fused. -/
abbrev SharedId := Int
abbrev ReqId := Nat
abbrev Req (α : Type) := ReqId × α
abbrev Dict (κ ν : Type) := AList fun _ : κ => ν

/-- What the communicator does with contents: `+=` and `''.join`. -/
class Content (α : Type) extends Append α where
  join : List α → α

instance : Content String := ⟨String.join⟩

/-- The tail of a `prompt_template_args` entry with more than two elements: the template, used
through `template.format`, and the source order if there is a fourth element. -/
structure PromptTemplate (α : Type) where
  format : List α → α
  srcsInOrder : Option (List ModelId)

/-- The arguments of the constructor. -/
structure Config (α : Type) where
  inEdgeDictWithDummyInpNodes : ModelId → List ModelId
  baseModelIdsDict : SharedId → List ModelId
  /-- to-model, from-model, input request id ↦ output request id -/
  inpReqFromWhichModelWhichOutReqs : ModelId → ModelId → Option (Dict ReqId ReqId)
  outReqIdMapping : ModelId → ReqId → Option (ReqId × Nat)
  newOutReqPartNum : ModelId → Option (Dict ReqId Nat)
  independentSrcs : ModelId → Bool
  promptTemplateArgs : ModelId → Option (PromptTemplate α)
  /-- the in-edges of a node are distinct -/
  inEdges_nodup : ∀ m, (inEdgeDictWithDummyInpNodes m).Nodup

structure State (α : Type) where
  outputPool : ModelId → List (Req α)
  readOutputNums : ModelId → ModelId → Nat
  availableSrcs : ModelId → ReqId → Option (Slots α)
  fusedInpQueues : ModelId → List (Req α)
  fetchedFusedInpStart : ModelId → List Nat
  unavailableReqNums : ModelId → Int
  ungenedOutReqNums : ModelId → Int
  metaOutputPool : ModelId → ReqId → Option (Slots α)
  outReqModelIdMapping : SharedId → ReqId → Option ModelId

variable {α : Type} [Content α]

/-- `_init_meta_output_pool`. -/
def initMetaOutputPool (cfg : Config α) : ModelId → ReqId → Option (Slots α) :=
  fun modelId newOutReqId =>
    ((cfg.newOutReqPartNum modelId).bind fun d => d.lookup newOutReqId).map Slots.empty

/-- `__init__`, followed by `init_unavailable_req_nums_and_ungened_out_req_nums`. -/
def State.init (cfg : Config α) (unavailableReqNums ungenedOutReqNums : ModelId → Int) :
    State α where
  outputPool := fun _ => []
  readOutputNums := fun _ _ => 0
  availableSrcs := fun _ _ => none
  fusedInpQueues := fun _ => []
  fetchedFusedInpStart := fun _ => []
  unavailableReqNums := unavailableReqNums
  ungenedOutReqNums := ungenedOutReqNums
  metaOutputPool := initMetaOutputPool cfg
  outReqModelIdMapping := fun _ _ => none

/-- `sorted(reqs, key=lambda x: x[0])`. -/
def sortById (reqs : List (Req α)) : List (Req α) :=
  reqs.insertionSort fun a b => a.1 ≤ b.1

/-! ## Adding outputs -/

/-- `fuse_inp_srcs`: `ret = src_seqs[0]`, then `ret += src` for the others. -/
def fuseInpSrcs : List (Option α) → Option α
  | [] => none
  | src :: srcs => srcs.foldlM (fun ret s => s.map (ret ++ ·)) =<< src

/-- The loop body of `_process_outputs`: file one output under its merged id; the merged output
joins `ret` when its last part arrives. -/
def processOutput (cfg : Config α) (modelId : ModelId)
    (s : State α × List (Req α)) (req : Req α) : Option (State α × List (Req α)) := do
  let (newOutId, ind) ← cfg.outReqIdMapping modelId req.1
  let slots ← s.1.metaOutputPool modelId newOutId
  if ind < slots.parts.length then
    let slots' := slots.put ind req.2
    let st' := { s.1 with
      metaOutputPool := Function.update s.1.metaOutputPool modelId
        (Function.update (s.1.metaOutputPool modelId) newOutId (some slots')) }
    if slots'.count = slots'.parts.length then
      let newOutContent ← fuseInpSrcs slots'.parts
      return (st', s.2 ++ [(newOutId, newOutContent)])
    else return (st', s.2)
  else none

/-- `_process_outputs`. -/
def processOutputs (cfg : Config α) (modelId : ModelId) (st : State α) (seqs : List (Req α)) :
    Option (State α × List (Req α)) :=
  seqs.foldlM (processOutput cfg modelId) (st, [])

/-- `add_seqs_base_model` up to and including `output_pool[model_id].extend(to_add)`; the number
is `len(to_add)`. -/
def extendOutputPool (cfg : Config α) (modelId : ModelId) (st : State α) (seqs : List (Req α)) :
    Option (State α × Nat) := do
  let (st, toAdd) ←
    if (cfg.newOutReqPartNum modelId).isSome then processOutputs cfg modelId st seqs
    else some (st, seqs)
  return ({ st with
    outputPool := Function.update st.outputPool modelId (st.outputPool modelId ++ toAdd) },
    toAdd.length)

/-- The decrement of `_ungened_out_req_nums` that ends `add_seqs_base_model`. -/
def decUngened (modelId : ModelId) (n : Nat) (st : State α) : State α :=
  { st with ungenedOutReqNums :=
      Function.update st.ungenedOutReqNums modelId (st.ungenedOutReqNums modelId - n) }

/-- `add_seqs_base_model`, nothing else running meanwhile. -/
def addSeqsBaseModel (cfg : Config α) (modelId : ModelId) (st : State α)
    (seqs : List (Req α)) : Option (State α) := do
  let (st, n) ← extendOutputPool cfg modelId st seqs
  return decUngened modelId n st

/-! ## Reading sources -/

inductive LockKind
  | lock
  | dummyLock
deriving DecidableEq, Repr

/-- `_get_correct_lock` for reading the outputs of `modelId`: dummy nodes are never locked, and
neither is a model that has sent out all its outputs. -/
def getCorrectLock (st : State α) (modelId : ModelId) : LockKind :=
  if modelId < 0 then .dummyLock
  else if st.ungenedOutReqNums modelId = 0 then .dummyLock
  else .lock

/-- One entry of `_init_inp_req_from_which_model_which_out_reqs_reversed`: the inputs an output
feeds, in the order of the dictionary it reverses. -/
def reversed (fromReqInfo : Dict ReqId ReqId) (outReqId : ReqId) : List ReqId :=
  (fromReqInfo.entries.filter fun e => e.2 = outReqId).map fun e => e.1

/-- The selection of `_get_selected_outputs` out of a run of outputs of `fromModelId`. -/
def selectOutputs (cfg : Config α) (fromModelId toModelId : ModelId) (outs : List (Req α)) :
    List (Req α) :=
  match cfg.inpReqFromWhichModelWhichOutReqs toModelId fromModelId with
  | some info =>
      let ret := outs.filter fun req => req.1 ∈ info.entries.map fun e => e.2
      ret.flatMap fun req => (reversed info req.1).map fun inpReqId => (inpReqId, req.2)
  | none => outs

/-- `_get_selected_outputs`. -/
def getSelectedOutputs (cfg : Config α) (fromModelId toModelId : ModelId) (st : State α) :
    State α × List (Req α) :=
  let out := st.outputPool fromModelId
  let start := st.readOutputNums fromModelId toModelId
  ({ st with
      readOutputNums := Function.update st.readOutputNums fromModelId
        (Function.update (st.readOutputNums fromModelId) toModelId out.length) },
    selectOutputs cfg fromModelId toModelId (out.drop start))

/-- The two branches of `_get_fused_inp_queues`. -/
def oneSrc (cfg : Config α) (toModelId : ModelId) : Bool :=
  (cfg.inEdgeDictWithDummyInpNodes toModelId).length = 1 || cfg.independentSrcs toModelId

/-- The local variables of `_get_fused_inp_queues`: `reqs` of the first branch and
`new_complete_req_ids` of the second. -/
structure Acc (α : Type) where
  reqs : List (Req α)
  newCompleteReqIds : List ReqId

def Acc.empty : Acc α := ⟨[], []⟩

/-- `_available_srcs[to_model_id][req_id]` as the loop finds it, a missing entry created. -/
def availableSlots (cfg : Config α) (st : State α) (toModelId : ModelId) (reqId : ReqId) :
    Slots α :=
  (st.availableSrcs toModelId reqId).getD
    (Slots.empty (cfg.inEdgeDictWithDummyInpNodes toModelId).length)

/-- The body of the inner loop of the second branch: source `inpI` of request `req` arrives. -/
def arriveSrc (cfg : Config α) (toModelId : ModelId) (inpI : Nat) (s : State α × Acc α)
    (req : Req α) : State α × Acc α :=
  let slots := (availableSlots cfg s.1 toModelId req.1).put inpI req.2
  ({ s.1 with
      availableSrcs := Function.update s.1.availableSrcs toModelId
        (Function.update (s.1.availableSrcs toModelId) req.1 (some slots)) },
    if slots.count = (cfg.inEdgeDictWithDummyInpNodes toModelId).length then
      { s.2 with newCompleteReqIds := s.2.newCompleteReqIds ++ [req.1] }
    else s.2)

/-- What `_get_fused_inp_queues` does under the lock of its `inpI`-th source. -/
def readSource (cfg : Config α) (toModelId : ModelId) (inpI : Nat) (fromModelId : ModelId)
    (s : State α × Acc α) : State α × Acc α :=
  let (st, reqs) := getSelectedOutputs cfg fromModelId toModelId s.1
  if oneSrc cfg toModelId then (st, { s.2 with reqs := s.2.reqs ++ reqs })
  else reqs.foldl (arriveSrc cfg toModelId inpI) (st, s.2)

/-! ## Assembling requests -/

/-- The index `{inp: i for i, inp in enumerate(inps)}[src]`. -/
def srcIndex (inps : List ModelId) (src : ModelId) : Option Nat :=
  (inps.zipIdx.reverse.find? fun e => e.1 = src).map fun e => e.2

/-- `fuse_inp_srcs_based_on_template` for one request with one source. -/
def fuseOneSrc (cfg : Config α) (toModelId : ModelId) (srcSeq : α) : α :=
  match cfg.promptTemplateArgs toModelId with
  | none => srcSeq
  | some template => template.format [srcSeq]

/-- `fuse_inp_srcs_based_on_template` for one request with the sources `srcSeqs`. -/
def fuseManySrcs (cfg : Config α) (toModelId : ModelId) (srcSeqs : List (Option α)) : Option α :=
  match cfg.promptTemplateArgs toModelId with
  | none => (srcSeqs.mapM id).map Content.join
  | some template => do
      let srcsInOrder ← template.srcsInOrder
      let args ← srcsInOrder.mapM fun src => do
        let i ← srcIndex (cfg.inEdgeDictWithDummyInpNodes toModelId) src
        (← srcSeqs[i]?)
      return template.format args

/-- The new requests, in the order they are appended in. -/
def fusedReqs (cfg : Config α) (toModelId : ModelId) (st : State α) (acc : Acc α) :
    Option (List (Req α)) :=
  if oneSrc cfg toModelId then
    some ((sortById acc.reqs).map fun req => (req.1, fuseOneSrc cfg toModelId req.2))
  else
    (acc.newCompleteReqIds.insertionSort (· ≤ ·)).mapM fun reqId => do
      let slots ← st.availableSrcs toModelId reqId
      let content ← fuseManySrcs cfg toModelId slots.parts
      return (reqId, content)

/-- The end of `_get_fused_inp_queues`: append the requests and count them off. -/
def appendFused (toModelId : ModelId) (st : State α) (reqs : List (Req α)) : State α :=
  { st with
    fusedInpQueues := Function.update st.fusedInpQueues toModelId
      (st.fusedInpQueues toModelId ++ reqs)
    unavailableReqNums := Function.update st.unavailableReqNums toModelId
      (st.unavailableReqNums toModelId - reqs.length) }

/-- The sources in the order `_get_fused_inp_queues` reads them; none when every request of the
model is already in its queue. -/
def sourcesToRead (cfg : Config α) (toModelId : ModelId) (st : State α) : List (ModelId × Nat) :=
  if st.unavailableReqNums toModelId = 0 then []
  else (cfg.inEdgeDictWithDummyInpNodes toModelId).zipIdx

/-- `_get_fused_inp_queues`, nothing else running meanwhile. The requests it appended come
along for the record. -/
def getFusedInpQueues (cfg : Config α) (toModelId : ModelId) (st : State α) :
    Option (State α × List (Req α)) := do
  if st.unavailableReqNums toModelId = 0 then return (st, [])
  let (st, acc) := (cfg.inEdgeDictWithDummyInpNodes toModelId).zipIdx.foldl
    (fun s e => readSource cfg toModelId e.2 e.1 s) (st, Acc.empty)
  let reqs ← fusedReqs cfg toModelId st acc
  return (appendFused toModelId st reqs, reqs)

/-! ## Handing requests out -/

/-- `_get_seqs`. -/
def getSeqs (toModelId : ModelId) (dpId dpSize : Nat) (st : State α) :
    Option (State α × List (Req α)) := do
  let starts := st.fetchedFusedInpStart toModelId
  let start ← starts[dpId]?
  let ret := strided (st.fusedInpQueues toModelId) start dpSize
  return ({ st with
      fetchedFusedInpStart := Function.update st.fetchedFusedInpStart toModelId
        (starts.set dpId (start + ret.length * dpSize)) }, ret)

/-- `_reset_state_for_model`: what no worker has fetched becomes the new queue. -/
def resetStateForBaseModel (modelId : ModelId) (dpSize : Nat) (st : State α) : State α :=
  let starts := st.fetchedFusedInpStart modelId
  let remaining := pending (st.fusedInpQueues modelId) starts starts.length
  { st with
    fusedInpQueues := Function.update st.fusedInpQueues modelId (sortById remaining)
    fetchedFusedInpStart := Function.update st.fetchedFusedInpStart modelId (List.range dpSize) }

/-- `reset_state_for_model`. -/
def resetStateForModel (cfg : Config α) (sharedId : SharedId) (dpSize : Nat) (st : State α) :
    State α :=
  (cfg.baseModelIdsDict sharedId).foldl (fun st m => resetStateForBaseModel m dpSize st) st

/-- `_update_out_req_model_id_mapping`. -/
def updateOutReqModelIdMapping (cfg : Config α) (sharedId : SharedId) (baseModelId : ModelId)
    (reqs : List (Req α)) (st : State α) : State α :=
  if (cfg.baseModelIdsDict sharedId).length = 1 then st
  else
    { st with
      outReqModelIdMapping := Function.update st.outReqModelIdMapping sharedId fun reqId =>
        if reqId ∈ reqs.map Prod.fst then some baseModelId
        else st.outReqModelIdMapping sharedId reqId }

/-- `get_seqs_base_model` after `_get_fused_inp_queues`: the requests handed to the worker, and
`possible_to_get_future_reqs`. -/
def handOut (cfg : Config α) (toSharedId : SharedId) (toModelId : ModelId) (dpId dpSize : Nat)
    (st : State α) : Option (State α × List (Req α) × Bool) := do
  let (st, ret) ← getSeqs toModelId dpId dpSize st
  if ret.length = 0 then
    let st := resetStateForBaseModel toModelId dpSize st
    let start ← (st.fetchedFusedInpStart toModelId)[dpId]?
    if (st.fusedInpQueues toModelId).length ≤ start then
      match st.fusedInpQueues toModelId with
      | req :: rest =>
          -- a starving worker takes the head, whoever's share it is
          let st := { st with
            fusedInpQueues := Function.update st.fusedInpQueues toModelId rest }
          return (updateOutReqModelIdMapping cfg toSharedId toModelId [req] st, [req], true)
      | [] =>
          if 0 ≤ st.unavailableReqNums toModelId then
            return (st, [], decide (st.unavailableReqNums toModelId ≠ 0))
          else none
    else
      let (st, ret) ← getSeqs toModelId dpId dpSize st
      return (updateOutReqModelIdMapping cfg toSharedId toModelId ret st, ret, true)
  else
    return (updateOutReqModelIdMapping cfg toSharedId toModelId ret st, ret, true)

/-- What one call of `get_seqs_base_model` does: the requests it assembled, the requests it
returned and the flag. -/
structure Fetched (α : Type) where
  assembled : List (Req α)
  ret : List (Req α)
  possibleToGetFutureReqs : Bool

/-- `get_seqs_base_model`, nothing else running meanwhile. -/
def getSeqsBaseModel (cfg : Config α) (toSharedId : SharedId) (toModelId : ModelId)
    (dpId dpSize : Nat) (st : State α) : Option (State α × Fetched α) := do
  let (st, assembled) ← getFusedInpQueues cfg toModelId st
  let (st, ret, possible) ← handOut cfg toSharedId toModelId dpId dpSize st
  return (st, ⟨assembled, ret, possible⟩)

end Mil.Communicator
