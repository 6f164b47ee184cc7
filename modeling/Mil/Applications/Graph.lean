import Mathlib.Algebra.Order.Ring.Int
import Mil.Lib.Dict

/-!
# The graphs of the applications

How `benchmarks/schedule_multi_model.py` sets up the models of the chain summary, of the LLM blender,
of the two together and of several copies of the two. A model is known by its position among the
model paths; the node `-(i+1)` stands for the input that comes to model `i` from outside. A model
reads requests of other models through its request maps.

`out_req_id_mapping`, `new_out_req_part_num` and `inp_req_ids` are left out, since both applications
leave them empty, and so are the sampling arguments and the functions that make up lengths.
-/

set_option autoImplicit false

namespace Mil.Applications

open Mil.Lib

/-- The tuple `(tokenizer, trust_remote_code)`, then perhaps the template and perhaps the nodes
whose texts the template puts together. -/
structure TemplateArgs (α : Type) where
  args : α
  template : Option String
  sources : Option (List Int)
deriving DecidableEq

/-- `(dataset, chunk_id, chunk_size)`. -/
abbrev ChunkMapping := Option String × Nat × Int

structure Application (α : Type) where
  modelPaths : List String
  inEdgeDict : List (Int × List Int)
  reqNum : Nat
  inpSeqIdsDict : List (Int × List Nat)
  promptTemplatesLens : List (Int × Nat)
  nodeDatasetChunkMapping : List (Int × ChunkMapping)
  inpReqFrom : List (Int × List (Int × List (Nat × Nat)))
  independentSrcs : List (Int × Bool)
  promptTemplateArgs : List (Int × TemplateArgs α)
deriving DecidableEq

/-! ## The chain summary -/

/-- What the tokenizers say, and `get_template_chain_summary`. -/
structure Prompts (α : Type) where
  tokenNum : String → String → Nat
  inferenceArgs : String → α
  initTemplate : String
  intermediateTemplate : String
  evaluateTemplate : String

/-- `list(range(sum(chunk_nums > i)))`. -/
def seqIds (chunkNums : List Nat) (i : Nat) : List Nat :=
  List.range (chunkNums.countP (i < ·))

/-- `{out_i*evaluate_item_num+inp_i: out_i for inp_i ... for out_i in outs}`. -/
def requestMap (evaluateItemNum : Nat) (outs : List Nat) : List (Nat × Nat) :=
  Dict.update [] ((List.range evaluateItemNum).flatMap fun inpI =>
    outs.map fun outI => (outI * evaluateItemNum + inpI, outI))

/-- `sorted(set(inp_seq_ids_dict[i])-set(inp_seq_ids_dict[i+1]))`; the ids are in order. -/
def lastChunkIds (chunkNums : List Nat) (i : Nat) : List Nat :=
  (seqIds chunkNums i).filter (· ∉ seqIds chunkNums (i + 1))

section

variable {α : Type} (prompts : Prompts α) (summModel evaluateModel : String) (evaluateItemNum : Nat)

/-- `prompt_templates`. -/
def promptTemplates (maxChunkNum : Nat) : List String :=
  [prompts.initTemplate] ++ List.replicate (maxChunkNum - 1) prompts.intermediateTemplate ++
    [prompts.evaluateTemplate]

/-- The part of `_get_booookscore_data` that sets up the graph, for `max_chunk_num` chunks of the
longest book. -/
def chainSummaryGraph (chunkNums : List Nat) (maxChunkNum : Nat) : Application α where
  modelPaths := List.replicate maxChunkNum summModel ++ [evaluateModel]
  inEdgeDict :=
    Dict.set (maxChunkNum : Int) ((List.range maxChunkNum).map fun i : Nat => (i : Int))
      (Dict.update [(0, [-1])] ((List.range' 1 (maxChunkNum - 1)).map fun i : Nat =>
        ((i : Int), [-((i : Int) + 1), (i : Int) - 1])))
  reqNum := chunkNums.length
  inpSeqIdsDict :=
    Dict.set (maxChunkNum : Int) (List.range (chunkNums.length * evaluateItemNum))
      (Dict.update ((List.range maxChunkNum).map fun i : Nat => ((i : Int), seqIds chunkNums i))
        ((List.range maxChunkNum).map fun i : Nat => (-((i : Int) + 1), seqIds chunkNums i)))
  promptTemplatesLens :=
    let templates := promptTemplates prompts maxChunkNum
    let lens := templates.dropLast.map (prompts.tokenNum summModel) ++
      (templates.drop (templates.length - 1)).map (prompts.tokenNum evaluateModel)
    lens.zipIdx.map fun l => ((l.2 : Int), l.1)
  nodeDatasetChunkMapping :=
    (List.range maxChunkNum).map fun i : Nat => (-((i : Int) + 1), (none, i, -1))
  inpReqFrom :=
    [((maxChunkNum : Int),
      Dict.set ((maxChunkNum : Int) - 1)
        (requestMap evaluateItemNum (seqIds chunkNums (maxChunkNum - 1)))
        ((List.range (maxChunkNum - 1)).map fun i : Nat =>
          ((i : Int), requestMap evaluateItemNum (lastChunkIds chunkNums i))))]
  independentSrcs :=
    Dict.set (maxChunkNum : Int) true ((List.range maxChunkNum).map fun i : Nat => ((i : Int), false))
  promptTemplateArgs :=
    let templates := promptTemplates prompts maxChunkNum
    Dict.set (maxChunkNum : Int)
      { args := prompts.inferenceArgs evaluateModel, template := templates[maxChunkNum]?
        sources := none }
      ((List.range maxChunkNum).map fun i : Nat =>
        ((i : Int),
          { args := prompts.inferenceArgs summModel, template := templates[i]?
            sources := if i = 0 then none else some [-((i : Int) + 1), (i : Int) - 1] }))

/-- `_get_booookscore_data`, with the chunk numbers in descending order. There has to be a book
(`tot_inp_prompts[0]`), and the longest one has to have a chunk
(`inp_seq_ids_dict[max_chunk_num-1]`). -/
def chainSummary : List Nat → Option (Application α)
  | [] => none
  | 0 :: _ => none
  | maxChunkNum :: chunkNums =>
    some (chainSummaryGraph prompts summModel evaluateModel evaluateItemNum
      (maxChunkNum :: chunkNums) maxChunkNum)

end

/-! ## The blender -/

/-- The part of `_get_llm_blender_data` that sets up the graph. Of the prompts at most `reqnum` are
taken; the number that goes on is `reqnum` itself. -/
def llmBlender {α : Type} (inferenceArgs : String → α) (modelPaths : List String)
    (reqnum promptNum : Nat) : Application α where
  modelPaths := modelPaths
  inEdgeDict := (List.range modelPaths.length).map fun i : Nat => ((i : Int), [-((i : Int) + 1)])
  reqNum := reqnum
  inpSeqIdsDict :=
    Dict.update
      ((List.range modelPaths.length).map fun i : Nat => ((i : Int), List.range (min reqnum promptNum)))
      ((List.range modelPaths.length).map fun i : Nat =>
        (-((i : Int) + 1), List.range (min reqnum promptNum)))
  promptTemplatesLens := []
  nodeDatasetChunkMapping :=
    (List.range modelPaths.length).map fun i : Nat => (-((i : Int) + 1), (none, 0, -1))
  inpReqFrom := []
  independentSrcs := (List.range modelPaths.length).map fun i : Nat => ((i : Int), false)
  promptTemplateArgs :=
    modelPaths.zipIdx.map fun m =>
      ((m.2 : Int), { args := inferenceArgs m.1, template := none, sources := none })

/-! ## Two applications in one graph -/

/-- `i+n if i >= 0 else i-n`. -/
def shiftNode (n : Nat) (i : Int) : Int := if 0 ≤ i then i + n else i - n

section

variable {α : Type}

/-- `_get_mixed_application_data`: the second application is the blender, so its nodes are taken to
have an input from outside only, and its template arguments to name no nodes. -/
def mixedApplication (first second : Application α) : Application α :=
  let modelNum := first.modelPaths.length
  { modelPaths := first.modelPaths ++ second.modelPaths
    inEdgeDict := Dict.update first.inEdgeDict (second.inEdgeDict.map fun e =>
      (e.1 + modelNum, [-(e.1 + modelNum + 1)]))
    reqNum := first.reqNum + second.reqNum
    inpSeqIdsDict := Dict.update first.inpSeqIdsDict (second.inpSeqIdsDict.map fun e =>
      (shiftNode modelNum e.1, e.2.map (· + first.reqNum)))
    promptTemplatesLens := Dict.update first.promptTemplatesLens
      (second.promptTemplatesLens.map fun e => (e.1 + modelNum, e.2))
    nodeDatasetChunkMapping := Dict.update first.nodeDatasetChunkMapping
      (second.nodeDatasetChunkMapping.map fun e => (e.1 - modelNum, e.2))
    inpReqFrom := first.inpReqFrom
    independentSrcs := Dict.update first.independentSrcs
      (second.independentSrcs.map fun e => (e.1 + modelNum, e.2))
    promptTemplateArgs := Dict.update first.promptTemplateArgs
      (second.promptTemplateArgs.map fun e => (e.1 + modelNum, e.2)) }

/-- The step of `_get_mixed_application_data_replicated_ver` that puts the copies made before behind
one more copy. The template arguments are written twice, the second time with the nodes shifted. -/
def addCopy (first second : Application α) : Application α :=
  let modelNum := first.modelPaths.length
  { modelPaths := first.modelPaths ++ second.modelPaths
    inEdgeDict := Dict.update first.inEdgeDict (second.inEdgeDict.map fun e =>
      (e.1 + modelNum, e.2.map fun inModelId =>
        if inModelId < 0 then -(e.1 + modelNum + 1) else inModelId + modelNum))
    reqNum := first.reqNum + second.reqNum
    inpSeqIdsDict := Dict.update first.inpSeqIdsDict (second.inpSeqIdsDict.map fun e =>
      (shiftNode modelNum e.1, e.2.map (· + first.reqNum)))
    promptTemplatesLens := Dict.update first.promptTemplatesLens
      (second.promptTemplatesLens.map fun e => (e.1 + modelNum, e.2))
    nodeDatasetChunkMapping := Dict.update first.nodeDatasetChunkMapping
      (second.nodeDatasetChunkMapping.map fun e => (e.1 - modelNum, e.2))
    inpReqFrom := Dict.update first.inpReqFrom (second.inpReqFrom.map fun e =>
      (e.1 + modelNum, e.2.map fun src =>
        (src.1 + modelNum, src.2.map fun r => (r.1 + first.reqNum, r.2 + first.reqNum))))
    independentSrcs := Dict.update first.independentSrcs
      (second.independentSrcs.map fun e => (e.1 + modelNum, e.2))
    promptTemplateArgs :=
      Dict.update
        (Dict.update first.promptTemplateArgs
          (second.promptTemplateArgs.map fun e => (e.1 + modelNum, e.2)))
        (second.promptTemplateArgs.map fun e =>
          (e.1 + modelNum,
            { e.2 with sources := e.2.sources.map (·.map (shiftNode modelNum)) })) }

/-- `_get_mixed_application_data_replicated_ver` for `model_replicate_num = n + 1`; for `0` it does
not end. Every call sets up the mixed application from the same seed. -/
def replicatedVer (mixed : Application α) : Nat → Application α
  | 0 => mixed
  | n + 1 => addCopy mixed (replicatedVer mixed n)

end

end Mil.Applications
