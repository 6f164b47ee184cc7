import Mil.Lib.Columns
import Mil.LlmEngine.Outputs
import Mil.Sampler.Penalties

/-!
# The sampler

`Sampler.forward` of `vllm/model_executor/layers/sampler.py` with `_prepare_sample` of
`vllm/worker/model_runner.py` and `SamplingTensors.from_sampling_metadata`: the rows of the hidden
states that are sampled from are picked out of the padded batch, the logits of all rows are changed
with the parameters of their sequences, the groups are sorted into greedy, random and beam sampling,
and the results are put back into the order of the groups.

A batch is one of prompts or one of running groups (`isPrompt`), as the scheduler makes them. What
is computed for one row alone is a parameter (`Ops`). Three operations are skipped when no group of
the batch asks for them (`Flags`), and the noise of random sampling is drawn for the rows of the
batch (`draw`). Left out: the log probabilities of the most likely tokens, which are only reported, and
prefixes.
-/

set_option autoImplicit false

namespace Mil.Sampler

open Mil.Lib Mil.Requests

inductive SamplingType
  | greedy
  | random
  | beam
deriving DecidableEq, Repr

/-- The `SamplingParams` that the sampler reads. -/
structure SamplingParams (Logit : Type) where
  bestOf : Nat
  useBeamSearch : Bool
  temperature : Rat
  topP : Rat
  topK : Int
  minP : Rat
  presencePenalty : Rat
  frequencyPenalty : Rat
  repetitionPenalty : Rat
  promptLogprobs : Option Nat
  logitsProcessors : List (List Nat → List Logit → List Logit)

/-- `_SAMPLING_EPS` -/
def samplingEps : Rat := 1 / 100000

variable {Hidden Logit : Type}

def SamplingParams.samplingType (p : SamplingParams Logit) : SamplingType :=
  if p.useBeamSearch then .beam else if p.temperature < samplingEps then .greedy else .random

/-- What the metadata says of a group; `promptLen` is the number of tokens of a prompt, with its
output when it is computed again. -/
structure SeqGroup (Logit : Type) where
  seqIds : List Nat
  samplingParams : SamplingParams Logit
  promptLen : Nat

/-- The parameters of a row, and the tokens that are penalised. -/
structure RowParams where
  temperature : Rat
  topP : Rat
  topK : Int
  minP : Rat
  penalties : Penalties
  promptTokens : List Nat
  outputTokens : List Nat

/-- What is computed for a row. `draw i j` takes the token of a row of probabilities with the noise
of row `i` and sample `j`; `topk` gives the indices of the largest entries. -/
structure Ops (Hidden Logit : Type) where
  vocabSize : Nat
  floats : Floats Logit
  logits : Hidden → List Logit
  applyTopKTopP : Rat → Int → List Logit → List Logit
  applyMinP : Rat → List Logit → List Logit
  softmax : List Logit → List Logit
  logSoftmax : List Logit → List Logit
  argmax : List Logit → Nat
  draw : Nat → Nat → List Logit → Nat
  topk : Nat → List Logit → List Nat
  topk_length : ∀ (k : Nat) (row : List Logit), k ≤ row.length → (topk k row).length = k

/-! ## The rows that are picked -/

/-- `prompt_logprobs` asks for the rows of the prompt too, but for the last one. -/
def SeqGroup.promptRows (isPrompt : Bool) (g : SeqGroup Logit) : Nat :=
  if isPrompt && g.samplingParams.promptLogprobs.isSome then g.promptLen - 1 else 0

/-- The state of the loop of `_prepare_sample`. -/
structure Prepared where
  selectedTokenIndices : List Nat
  selectedTokenStartIdx : Nat
  categorizedSampleIndices : SamplingType → List Nat
  categorizedSampleIndicesStartIdx : Nat

/-- The indices of a group are appended to those of its type. -/
def addIndices (t : SamplingType) (indices : List Nat) (m : SamplingType → List Nat) :
    SamplingType → List Nat :=
  Function.update m t (m t ++ indices)

/-- A turn of the loop. -/
def prepareGroup (isPrompt : Bool) (maxSubqueryLen : Nat) (st : Prepared) (g : SeqGroup Logit) :
    Option Prepared :=
  let t := g.samplingParams.samplingType
  if isPrompt then
    if g.seqIds.length = 1 then
      -- the rows of the prompt come before the one that is sampled from
      let rows := g.promptRows isPrompt
      some
        { selectedTokenIndices := st.selectedTokenIndices ++
            List.range' st.selectedTokenStartIdx rows ++
            [st.selectedTokenStartIdx + g.promptLen - 1]
          selectedTokenStartIdx := st.selectedTokenStartIdx + maxSubqueryLen
          categorizedSampleIndices :=
            addIndices t [st.categorizedSampleIndicesStartIdx + rows] st.categorizedSampleIndices
          categorizedSampleIndicesStartIdx := st.categorizedSampleIndicesStartIdx + rows + 1 }
    else none
  else
    some
      { selectedTokenIndices := st.selectedTokenIndices ++
          List.range' st.selectedTokenStartIdx g.seqIds.length
        selectedTokenStartIdx := st.selectedTokenStartIdx + g.seqIds.length
        categorizedSampleIndices :=
          addIndices t (List.range' st.categorizedSampleIndicesStartIdx g.seqIds.length)
            st.categorizedSampleIndices
        categorizedSampleIndicesStartIdx := st.categorizedSampleIndicesStartIdx + g.seqIds.length }

/-- `_prepare_sample` -/
def prepareSample (isPrompt : Bool) (groups : List (SeqGroup Logit)) : Option Prepared :=
  groups.foldlM
    (prepareGroup isPrompt ((groups.map SeqGroup.promptLen).foldl max 0))
    ⟨[], 0, fun _ => [], 0⟩

/-! ## The logits -/

/-- The logits processors of a group, on the rows from `st.2` on. -/
def processSeq (p : SamplingParams Logit) {Logprob : Type} (data : Nat → SequenceData Logprob)
    (st : List (List Logit) × Nat) (seqId : Nat) : Option (List (List Logit) × Nat) :=
  st.1[st.2]?.map fun row =>
    (st.1.set st.2
      (p.logitsProcessors.foldl (fun row f => f (data seqId).outputTokenIds row) row), st.2 + 1)

/-- A turn of the loop of `_apply_logits_processors`. -/
def processGroup {Logprob : Type} (data : Nat → SequenceData Logprob)
    (st : List (List Logit) × Nat) (g : SeqGroup Logit) : Option (List (List Logit) × Nat) :=
  if g.samplingParams.logitsProcessors.isEmpty then some (st.1, st.2 + g.seqIds.length)
  else g.seqIds.foldlM (processSeq g.samplingParams data) st

/-- `_apply_logits_processors`, with the assertion that all rows have been counted. -/
def applyLogitsProcessors {Logprob : Type} (data : Nat → SequenceData Logprob)
    (groups : List (SeqGroup Logit)) (logits : List (List Logit)) : Option (List (List Logit)) := do
  let (rows, idx) ← groups.foldlM (processGroup data) (logits, 0)
  if (groups.any fun g => !g.samplingParams.logitsProcessors.isEmpty) && idx != logits.length then
    none
  else some rows

/-- `top_k`, which is never more than the vocabulary. -/
def SamplingParams.topKOf (vocabSize : Nat) (p : SamplingParams Logit) : Int :=
  if min p.topK vocabSize = -1 then vocabSize else min p.topK vocabSize

/-- The operations that some group asks for. -/
structure Flags where
  doPenalties : Bool
  doTopPTopK : Bool
  doMinP : Bool
deriving DecidableEq, Repr

def SamplingParams.flags (vocabSize : Nat) (p : SamplingParams Logit) : Flags where
  doPenalties := samplingEps ≤ |p.presencePenalty| || samplingEps ≤ |p.frequencyPenalty| ||
    samplingEps ≤ |p.repetitionPenalty - 1|
  doTopPTopK := p.topP < 1 - samplingEps || p.topKOf vocabSize != vocabSize
  doMinP := samplingEps < p.minP

def batchFlags (vocabSize : Nat) (groups : List (SeqGroup Logit)) : Flags where
  doPenalties := groups.any fun g => (g.samplingParams.flags vocabSize).doPenalties
  doTopPTopK := groups.any fun g => (g.samplingParams.flags vocabSize).doTopPTopK
  doMinP := groups.any fun g => (g.samplingParams.flags vocabSize).doMinP

/-- The parameters of a row with these tokens. -/
def SamplingParams.row (vocabSize : Nat) (p : SamplingParams Logit)
    (promptTokens outputTokens : List Nat) : RowParams where
  temperature := if p.temperature < samplingEps then 1 else p.temperature
  topP := p.topP
  topK := p.topKOf vocabSize
  minP := p.minP
  penalties := ⟨p.presencePenalty, p.frequencyPenalty, p.repetitionPenalty⟩
  promptTokens := promptTokens
  outputTokens := outputTokens

/-- The rows of a prompt are not penalised. -/
def SamplingParams.promptRow (vocabSize : Nat) (p : SamplingParams Logit) : RowParams :=
  { p.row vocabSize [] [] with penalties := ⟨0, 0, 1⟩ }

/-- The lists of `from_sampling_metadata`, row by row. -/
def samplingTensors {Logprob : Type} (vocabSize : Nat) (isPrompt : Bool)
    (data : Nat → SequenceData Logprob) (groups : List (SeqGroup Logit)) : List RowParams :=
  groups.flatMap fun g =>
    List.replicate (g.promptRows isPrompt) (g.samplingParams.promptRow vocabSize) ++
      g.seqIds.map fun seqId =>
        g.samplingParams.row vocabSize (data seqId).promptTokenIds (data seqId).outputTokenIds

/-- The call of `_apply_penalties`; without penalties there are no token tensors. -/
def applyBatchPenalties (ops : Ops Hidden Logit) (doPenalties : Bool) (tensors : List RowParams)
    (logits : List (List Logit)) : Option (List (List Logit)) :=
  if doPenalties then
    applyPenalties ops.floats ops.vocabSize
      (tokenTensor ops.vocabSize (tensors.map RowParams.promptTokens))
      (tokenTensor ops.vocabSize (tensors.map RowParams.outputTokens))
      (tensors.map RowParams.penalties) logits
  else some logits

/-- What `forward` does with a row after that. -/
def Ops.scaleRow (ops : Ops Hidden Logit) (flags : Flags) (r : RowParams) (row : List Logit) :
    List Logit :=
  let row := row.map fun x => ops.floats.div x (ops.floats.ofRat r.temperature)
  let row := if flags.doTopPTopK then ops.applyTopKTopP r.topP r.topK row else row
  if flags.doMinP then ops.applyMinP r.minP row else row

/-! ## Sampling -/

/-- `next_token_ids` and `parent_ids` of a group. -/
abbrev SampleResult := List Nat × List Nat

/-- The loops of the three functions: each group takes the rows of its sequences. -/
def sampleLoop (one : Nat → SeqGroup Logit → Option SampleResult) :
    Nat → List (SeqGroup Logit) → Option (List SampleResult)
  | _, [] => some []
  | sampleIdx, g :: gs => do
    let result ← one sampleIdx g
    let results ← sampleLoop one (sampleIdx + g.seqIds.length) gs
    return result :: results

/-- `_greedy_sample` for a group. -/
def greedyOne (samples : List Nat) (sampleIdx : Nat) (g : SeqGroup Logit) : Option SampleResult :=
  if g.seqIds.length = 1 then
    samples[sampleIdx]?.map fun token => ([token], List.range g.seqIds.length)
  else none

/-- `_random_sample` for a group. -/
def randomOne (isPrompt : Bool) (samples : List (List Nat)) (sampleIdx : Nat)
    (g : SeqGroup Logit) : Option SampleResult :=
  if isPrompt then
    samples[sampleIdx]?.map fun row =>
      (row.take g.samplingParams.bestOf, List.replicate g.samplingParams.bestOf 0)
  else
    (((samples.drop sampleIdx).take g.seqIds.length).mapM List.head?).map fun tokens =>
      (tokens, List.range g.seqIds.length)

/-- `torch.topk` raises when there are fewer entries. -/
def Ops.topkIds (ops : Ops Hidden Logit) (k : Nat) (row : List Logit) : Option (List Nat) :=
  if k ≤ row.length then some (ops.topk k row) else none

/-- `_beam_search_sample` for a group. -/
def beamOne (ops : Ops Hidden Logit) (isPrompt : Bool) (data : Nat → SequenceData Logit)
    (logprobs : List (List Logit)) (sampleIdx : Nat) (g : SeqGroup Logit) : Option SampleResult :=
  let beamWidth := g.samplingParams.bestOf
  let rows := (logprobs.drop sampleIdx).take g.seqIds.length
  if isPrompt then
    if g.seqIds.length = 1 then
      (rows.head?.bind (ops.topkIds (2 * beamWidth))).map fun nextTokenIds =>
        (nextTokenIds, List.replicate (2 * beamWidth) 0)
    else none
  else
    -- the beams of a group compete with each other
    let scores := List.zipWith
      (fun row seqId => row.map fun x => ops.floats.add x (data seqId).cumulativeLogprob) rows
      g.seqIds
    (ops.topkIds (2 * beamWidth) scores.flatten).map fun topkIds =>
      (topkIds.map (· % ops.vocabSize), topkIds.map (· / ops.vocabSize))

/-- The groups of a type. -/
def groupsOf (t : SamplingType) (groups : List (SeqGroup Logit)) : List (SeqGroup Logit) :=
  groups.filter fun g => g.samplingParams.samplingType = t

/-- `categorized_seq_group_ids` -/
def categorizedIds (t : SamplingType) (groups : List (SeqGroup Logit)) : List Nat :=
  (groups.zipIdx.filter fun p => p.1.samplingParams.samplingType = t).map Prod.snd

/-- The tokens that are drawn for some rows, `max_best_of` for each. -/
def multinomial (ops : Ops Hidden Logit) (isPrompt : Bool) (groups : List (SeqGroup Logit))
    (probs : List (List Logit)) : List (List Nat) :=
  let maxBestOf :=
    if isPrompt then (groups.map fun g => g.samplingParams.bestOf).foldl max 1 else 1
  probs.zipIdx.map fun (row, i) => (List.range maxBestOf).map fun j => ops.draw i j row

/-- The results of the groups of a type, from the rows of their sequences. -/
def sampleType (ops : Ops Hidden Logit) (isPrompt : Bool) (data : Nat → SequenceData Logit)
    (t : SamplingType) (groups : List (SeqGroup Logit)) (rows : List (List Logit)) :
    Option (List SampleResult) :=
  match t with
  | .greedy => sampleLoop (greedyOne (rows.map fun row => ops.argmax (ops.logSoftmax row))) 0 groups
  | .random =>
    sampleLoop (randomOne isPrompt (multinomial ops isPrompt groups (rows.map ops.softmax))) 0
      groups
  | .beam => do
    let results ← sampleLoop (beamOne ops isPrompt data (rows.map ops.logSoftmax)) 0 groups
    if (groups.map fun g => g.seqIds.length).sum = rows.length then some results else none

/-- One type of `_sample`, with the indices of its groups. A type without rows is passed over. -/
def sampleCategory (ops : Ops Hidden Logit) (isPrompt : Bool) (data : Nat → SequenceData Logit)
    (groups : List (SeqGroup Logit)) (logits : List (List Logit)) (indices : List Nat)
    (t : SamplingType) : Option (List (Nat × SampleResult)) :=
  if indices.isEmpty then some []
  else do
    let rows ← gather indices logits
    let results ← sampleType ops isPrompt data t (groupsOf t groups) rows
    return (categorizedIds t groups).zip results

/-- `_sample` -/
def sample (ops : Ops Hidden Logit) (isPrompt : Bool) (data : Nat → SequenceData Logit)
    (groups : List (SeqGroup Logit)) (logits : List (List Logit))
    (indices : SamplingType → List Nat) : Option (List SampleResult) := do
  let greedy ← sampleCategory ops isPrompt data groups logits (indices .greedy) .greedy
  let random ← sampleCategory ops isPrompt data groups logits (indices .random) .random
  let beam ← sampleCategory ops isPrompt data groups logits (indices .beam) .beam
  (List.range groups.length).mapM fun i => (greedy ++ random ++ beam).lookup i

/-! ## The output -/

/-- What the engine gets for a group. -/
structure SequenceGroupOutput (Logit : Type) where
  samples : List (SequenceOutput Logit)
  promptLogprobs : Option (List (Nat × Logit))

/-- The tokens of the prompt whose log probabilities are asked for. -/
def SeqGroup.promptTokens (isPrompt : Bool) (data : Nat → SequenceData Logit)
    (g : SeqGroup Logit) : List Nat :=
  if isPrompt && g.samplingParams.promptLogprobs.isSome then
    g.seqIds.head?.elim [] fun seqId => (data seqId).promptTokenIds.tail
  else []

/-- The first loop of `_get_logprobs`: the rows and the tokens that are asked for, and the number of
rows. -/
def logprobsQuery (isPrompt : Bool) (data : Nat → SequenceData Logit) :
    Nat → List (SeqGroup Logit) → List SampleResult → List Nat × List Nat × Nat
  | sampleIdx, g :: gs, (nextTokenIds, parentIds) :: results =>
    let start := sampleIdx + g.promptRows isPrompt
    let (rows, tokens, count) := logprobsQuery isPrompt data (start + g.seqIds.length) gs results
    (List.range' sampleIdx (g.promptRows isPrompt) ++ parentIds.map (start + ·) ++ rows,
      g.promptTokens isPrompt data ++ nextTokenIds ++ tokens, count)
  | sampleIdx, _, _ => ([], [], sampleIdx)

/-- `logprobs[[rows, tokens]]`; a single index is taken with all of the others. -/
def indexPairs (logprobs : List (List Logit)) (rows tokens : List Nat) : Option (List Logit) :=
  let entry := fun (p : Nat × Nat) => logprobs[p.1]?.bind fun row => row[p.2]?
  if rows.length = tokens.length then (rows.zip tokens).mapM entry
  -- the shapes differ: only an index of length one is broadcast
  else if tokens.length = 1 then (rows.flatMap fun row => tokens.map (row, ·)).mapM entry
  else if rows.length = 1 then (rows.flatMap fun row => tokens.map (row, ·)).mapM entry
  else none

/-- The output of a group from what was asked for, from `queryResultIdx` on. -/
def groupOutput (isPrompt : Bool) (data : Nat → SequenceData Logit) (query : List Logit)
    (queryResultIdx : Nat) (g : SeqGroup Logit) (result : SampleResult) :
    Option (SequenceGroupOutput Logit) := do
  let promptTokens := g.promptTokens isPrompt data
  let promptLogprobs ← (promptTokens.zipIdx queryResultIdx).mapM fun (token, i) =>
    query[i]?.map fun logprob => (token, logprob)
  let samples ← ((result.1.zip result.2).zipIdx (queryResultIdx + promptTokens.length)).mapM
    fun ((token, parent), i) => do
      let logprob ← query[i]?
      let seqId ← g.seqIds[parent]?
      return ⟨seqId, token, [(token, logprob)]⟩
  return ⟨samples,
    if isPrompt && g.samplingParams.promptLogprobs.isSome then some promptLogprobs else none⟩

/-- The second loop of `_get_logprobs`, with `_build_sampler_output`. -/
def buildOutput (isPrompt : Bool) (data : Nat → SequenceData Logit) (query : List Logit) :
    Nat → List (SeqGroup Logit) → List SampleResult → Option (List (SequenceGroupOutput Logit))
  | queryResultIdx, g :: gs, result :: results => do
    let output ← groupOutput isPrompt data query queryResultIdx g result
    let next :=
      queryResultIdx + (g.promptTokens isPrompt data).length + (result.1.zip result.2).length
    let outputs ← buildOutput isPrompt data query next gs results
    return output :: outputs
  | _, _, _ => some []

/-- `_get_logprobs` and `_build_sampler_output`, with the assertion that all rows have been
counted. -/
def getLogprobs (isPrompt : Bool) (data : Nat → SequenceData Logit) (logprobs : List (List Logit))
    (groups : List (SeqGroup Logit)) (results : List SampleResult) :
    Option (List (SequenceGroupOutput Logit)) :=
  let (rows, tokens, count) := logprobsQuery isPrompt data 0 groups results
  if count = logprobs.length then
    (indexPairs logprobs rows tokens).bind fun query =>
      buildOutput isPrompt data query 0 groups results
  else none

/-- `Sampler.forward` with `_prepare_sample`; `hiddenStates` has the positions of all sequences one
after the other, with the padding of the batch. -/
def forward (ops : Ops Hidden Logit) (isPrompt : Bool) (data : Nat → SequenceData Logit)
    (groups : List (SeqGroup Logit)) (hiddenStates : List Hidden) :
    Option (List (SequenceGroupOutput Logit)) := do
  let prepared ← prepareSample isPrompt groups
  let hidden ← gather prepared.selectedTokenIndices hiddenStates
  let logits ← applyLogitsProcessors data groups (hidden.map ops.logits)
  let flags := batchFlags ops.vocabSize groups
  let tensors := samplingTensors ops.vocabSize isPrompt data groups
  let logits ← applyBatchPenalties ops flags.doPenalties tensors logits
  let logits := List.zipWith (ops.scaleRow flags) tensors logits
  let results ← sample ops isPrompt data groups logits prepared.categorizedSampleIndices
  getLogprobs isPrompt data (logits.map ops.logSoftmax) groups results

end Mil.Sampler
