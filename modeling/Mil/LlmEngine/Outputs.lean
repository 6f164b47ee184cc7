import Mathlib.Data.List.Sort
import Mathlib.Data.Rat.Defs
import Mil.Requests.Scheduler

/-!
# The outputs of a step

`_process_sequence_group_outputs` of `vllm/engine/llm_engine.py`: the sampled tokens of a group are
appended to the sequences they continue, a sequence with several samples is forked, the stopping
criteria are checked, and beam search keeps the best sequences only.

A sequence of a group is a value here, so a change of a sequence is one of the group (`setSeq`), and
the entries of `child_seqs` carry the sequence and its data. What is computed with floats (the sum of
the log probabilities and the score of a beam) and the tokenizer are parameters. Left out:
`prompt_logprobs` and the text, which is read by `_check_stop` only.
-/

set_option autoImplicit false

/-! ## Groups -/

namespace Mil.Blocks.SequenceGroup

/-- `get_finished_seqs` -/
def getFinishedSeqs (g : SequenceGroup) : List Sequence :=
  g.seqs.filter fun q => q.status.isFinished

def add (q : Sequence) (g : SequenceGroup) : Option SequenceGroup :=
  if g.seqs.any (·.seqId = q.seqId) then none else some { g with seqs := g.seqs ++ [q] }

def remove (seqId : Nat) (g : SequenceGroup) : Option SequenceGroup :=
  if g.seqs.any (·.seqId = seqId) then
    some { g with seqs := g.seqs.filter (·.seqId ≠ seqId) }
  else none

/-- The sequence object with this id has changed. -/
def setSeq (q : Sequence) (g : SequenceGroup) : SequenceGroup :=
  { g with seqs := g.seqs.map fun q' => if q'.seqId = q.seqId then q else q' }

end Mil.Blocks.SequenceGroup

namespace Mil.Requests

open Mil.Lib Mil.Blocks

/-! ## Sequences and sampling parameters -/

/-- `SequenceData` -/
structure SequenceData (Logprob : Type) where
  promptTokenIds : List Nat
  outputTokenIds : List Nat
  cumulativeLogprob : Logprob

inductive EarlyStopping
  | yes
  | no
  | never
deriving DecidableEq, Repr

/-- The `SamplingParams` that decide when a sequence stops; `best_of` and `use_beam_search` are those
of the group. -/
structure SamplingParams where
  lengthPenalty : Rat
  earlyStopping : EarlyStopping
  stop : List String
  stopTokenIds : List Nat
  ignoreEos : Bool
  maxTokens : Option Nat

/-- The parameters of the requests, the tokenizer, with the text that it gives for a prompt and an
output, and the arithmetic of the scores: `score` is `cumulative_logprob / seq_len ** penalty`. -/
structure Sampling (Logprob Score : Type) where
  samplingParams : Nat → SamplingParams
  eosTokenId : Option Nat
  outputText : List Nat → List Nat → String
  zero : Logprob
  add : Logprob → Logprob → Logprob
  score : Logprob → Nat → Rat → Score

/-- A `SequenceOutput` -/
structure SequenceOutput (Logprob : Type) where
  parentSeqId : Nat
  outputToken : Nat
  logprobs : List (Nat × Logprob)

variable {Logprob Score : Type}

namespace SequenceData

def getTokenIds (d : SequenceData Logprob) : List Nat := d.promptTokenIds ++ d.outputTokenIds

def getLen (d : SequenceData Logprob) : Nat := d.outputTokenIds.length + d.promptTokenIds.length

def getPromptLen (d : SequenceData Logprob) : Nat := d.promptTokenIds.length

def getOutputLen (d : SequenceData Logprob) : Nat := d.outputTokenIds.length

def getLastTokenId (d : SequenceData Logprob) : Option Nat :=
  if d.outputTokenIds.isEmpty then d.promptTokenIds.getLast? else d.outputTokenIds.getLast?

/-- `SequenceData.append_token_id` -/
def append (S : Sampling Logprob Score) (token : Nat) (logprob : Logprob)
    (d : SequenceData Logprob) : SequenceData Logprob :=
  { d with
    outputTokenIds := d.outputTokenIds ++ [token]
    cumulativeLogprob := S.add d.cumulativeLogprob logprob }

/-- `Sequence.append_token_id`, with the assertion that the token has a log probability. -/
def appendTokenId (S : Sampling Logprob Score) (sample : SequenceOutput Logprob)
    (d : SequenceData Logprob) : Option (SequenceData Logprob) :=
  (sample.logprobs.lookup sample.outputToken).map fun logprob =>
    d.append S sample.outputToken logprob

/-- `get_beam_search_score`; a length that is not given leaves the last token out if it ends the
sequence. -/
def getBeamSearchScore (S : Sampling Logprob Score) (lengthPenalty : Rat) (seqLen : Option Nat)
    (d : SequenceData Logprob) : Score :=
  let ends := S.eosTokenId.isSome && d.getLastTokenId = S.eosTokenId
  S.score d.cumulativeLogprob (seqLen.getD (d.getLen - if ends then 1 else 0)) lengthPenalty

end SequenceData

/-- `_check_stop`: the status that a sequence gets, if it stops. -/
def checkStop (cfg : Config) (S : Sampling Logprob Score) (p : SamplingParams)
    (d : SequenceData Logprob) : Option SequenceStatus :=
  if p.stop.any fun s => (S.outputText d.promptTokenIds d.outputTokenIds).endsWith s then
    some .finishedStopped
  else if d.getLastTokenId.any (· ∈ p.stopTokenIds) then some .finishedStopped
  else if cfg.maxModelLen < d.getLen then some .finishedLengthCapped
  else if p.maxTokens = some d.getOutputLen then some .finishedLengthCapped
  else if !p.ignoreEos && S.eosTokenId.isSome && d.getLastTokenId = S.eosTokenId then
    some .finishedStopped
  else none

/-! ## The samples of a group -/

/-- An entry of `child_seqs`; `isParent` says that the sequence is the parent itself. -/
structure Child (Logprob : Type) where
  seq : Sequence
  data : SequenceData Logprob
  parent : Nat
  isParent : Bool

/-- What processing a group changes. -/
structure Processing (Logprob : Type) where
  manager : BlockManager
  group : SequenceGroup
  data : Nat → SequenceData Logprob
  seqCounter : Nat
  childSeqs : List (Child Logprob)

namespace Processing

/-- A sample that is not the last one of its parent: the parent is forked. -/
def forkChild (S : Sampling Logprob Score) (parent : Sequence) (st : Processing Logprob)
    (sample : SequenceOutput Logprob) : Option (Processing Logprob) :=
  ((st.data parent.seqId).appendTokenId S sample).map fun data =>
    { st with
      seqCounter := st.seqCounter + 1
      childSeqs := st.childSeqs ++
        [⟨{ parent with seqId := st.seqCounter, len := parent.len + 1 }, data, parent.seqId,
          false⟩] }

/-- The last sample of a parent is its own. -/
def appendParent (S : Sampling Logprob Score) (parent : Sequence) (st : Processing Logprob)
    (sample : SequenceOutput Logprob) : Option (Processing Logprob) :=
  ((st.data parent.seqId).appendTokenId S sample).map fun data =>
    let parent := { parent with len := parent.len + 1 }
    { st with
      group := st.group.setSeq parent
      data := Function.update st.data parent.seqId data
      childSeqs := st.childSeqs ++ [⟨parent, data, parent.seqId, true⟩] }

/-- `seq_group.remove(seq.seq_id)` and `free_seq`. -/
def removeAndFree (seqId : Nat) (st : Processing Logprob) : Option (Processing Logprob) := do
  let group ← st.group.remove seqId
  let manager ← st.manager.free seqId
  return { st with group := group, manager := manager }

/-- A turn of the loop over `parent_seqs`. -/
def takeSamples (S : Sampling Logprob Score) (samples : List (SequenceOutput Logprob))
    (st : Processing Logprob) (parent : Sequence) : Option (Processing Logprob) :=
  let childSamples := samples.filter (·.parentSeqId = parent.seqId)
  match childSamples.getLast? with
  | none => st.removeAndFree parent.seqId
  | some last => do
    let st ← childSamples.dropLast.foldlM (forkChild S parent) st
    st.appendParent S parent last

/-- The loop with `_check_stop`; the parents are sequences of the group. -/
def checkStops (cfg : Config) (S : Sampling Logprob Score) (st : Processing Logprob) :
    Processing Logprob :=
  let childSeqs := st.childSeqs.map fun c =>
    let status := (checkStop cfg S (S.samplingParams st.group.requestId) c.data).getD c.seq.status
    { c with seq := { c.seq with status := status } }
  { st with
    group := { st.group with
      seqs := st.group.seqs.map fun q =>
        ((childSeqs.find? fun c => c.isParent && c.seq.seqId = q.seqId).map Child.seq).getD q }
    childSeqs := childSeqs }

/-- `fork_seq`, unless the child is finished. -/
def forkUnfinished (m : BlockManager) (c : Child Logprob) : Option BlockManager :=
  if c.seq.status.isFinished then some m else m.fork c.parent c.seq.seqId

/-- A child joins the group. -/
def addChild (st : Processing Logprob) (c : Child Logprob) : Option (Processing Logprob) :=
  if c.isParent then some st
  else do
    let group ← st.group.add c.seq
    let manager ← forkUnfinished st.manager c
    return { st with
      group := group
      manager := manager
      data := Function.update st.data c.seq.seqId c.data }

/-- A parent that is finished is freed. -/
def freeFinished (st : Processing Logprob) (c : Child Logprob) : Option (Processing Logprob) :=
  if c.isParent && c.seq.status.isFinished then
    (st.manager.free c.seq.seqId).map fun m => { st with manager := m }
  else some st

/-- A parent that is not selected is removed. -/
def dropUnselected (st : Processing Logprob) (c : Child Logprob) : Option (Processing Logprob) :=
  if c.isParent then st.removeAndFree c.seq.seqId else some st

/-- What happens to the selected children and the others. -/
def select (selected unselected : List (Child Logprob)) (st : Processing Logprob) :
    Option (Processing Logprob) := do
  let st ← selected.foldlM addChild st
  let st ← selected.foldlM freeFinished st
  unselected.foldlM dropUnselected st

end Processing

/-! ## Beam search -/

section BeamSearch

variable [LinearOrder Score]

/-- The best score first; `sort` is stable. -/
def sortByScore {α : Type} (score : α → Score) (xs : List α) : List α :=
  xs.insertionSort fun a b => score b ≤ score a

/-- `_check_beam_search_early_stopping` -/
def checkBeamSearchEarlyStopping (cfg : Config) (S : Sampling Logprob Score) (p : SamplingParams)
    (bestRunning currentWorst : SequenceData Logprob) : Option Bool :=
  let currentWorstScore := currentWorst.getBeamSearchScore S p.lengthPenalty none
  match p.earlyStopping with
  | .yes => some true
  | .no =>
    some (bestRunning.getBeamSearchScore S p.lengthPenalty none ≤ currentWorstScore)
  | .never =>
    if 0 < p.lengthPenalty then
      p.maxTokens.map fun maxTokens =>
        let maxPossibleLength := max (bestRunning.getPromptLen + maxTokens) cfg.maxModelLen
        bestRunning.getBeamSearchScore S p.lengthPenalty maxPossibleLength ≤ currentWorstScore
    else some (bestRunning.getBeamSearchScore S p.lengthPenalty none ≤ currentWorstScore)

/-- A finished sequence: one that the group had before, or a new one. -/
abbrev Finished (Logprob : Type) := (Sequence × SequenceData Logprob) ⊕ Child Logprob

def Finished.data : Finished Logprob → SequenceData Logprob
  | .inl p => p.2
  | .inr c => c.data

/-- `all_finished_seqs`, the best first. -/
def allFinishedSeqs (S : Sampling Logprob Score) (p : SamplingParams)
    (existing : List (Sequence × SequenceData Logprob)) (childSeqs : List (Child Logprob)) :
    List (Finished Logprob) :=
  sortByScore (fun f => f.data.getBeamSearchScore S p.lengthPenalty none)
    (existing.map .inl ++ (childSeqs.filter fun c => c.seq.status.isFinished).map .inr)

/-- `running_child_seqs`, the best first. -/
def runningChildSeqs (S : Sampling Logprob Score) (p : SamplingParams)
    (childSeqs : List (Child Logprob)) : List (Child Logprob) :=
  sortByScore (fun c => c.data.getBeamSearchScore S p.lengthPenalty none)
    (childSeqs.filter fun c => !c.seq.status.isFinished)

/-- `stop_beam_search` -/
def stopBeamSearch (cfg : Config) (S : Sampling Logprob Score) (p : SamplingParams)
    (beamWidth : Nat) (finished : List (Finished Logprob)) (running : List (Child Logprob)) :
    Option Bool :=
  match running with
  | [] => some true
  | best :: _ =>
    if finished.length < beamWidth then some false
    else finished[beamWidth - 1]?.bind fun worst =>
      checkBeamSearchEarlyStopping cfg S p best.data worst.data

/-- The rest of the function for beam search. -/
def Processing.beamSearch (cfg : Config) (S : Sampling Logprob Score)
    (existing : List (Sequence × SequenceData Logprob)) (st : Processing Logprob) :
    Option (Processing Logprob) := do
  let p := S.samplingParams st.group.requestId
  let beamWidth := st.group.bestOf
  let finished := allFinishedSeqs S p existing st.childSeqs
  let group ← ((finished.drop beamWidth).filterMap Sum.getLeft?).foldlM
    (fun g (q : Sequence × SequenceData Logprob) => g.remove q.1.seqId) st.group
  let running := runningChildSeqs S p st.childSeqs
  let stop ← stopBeamSearch cfg S p beamWidth finished running
  let kept := if stop then 0 else beamWidth
  { st with group := group }.select
    ((finished.take beamWidth).filterMap Sum.getRight? ++ running.take kept)
    ((finished.drop beamWidth).filterMap Sum.getRight? ++ running.drop kept)

/-- `_process_sequence_group_outputs`; a sample whose parent does not run raises. -/
def processSequenceGroupOutputs (cfg : Config) (S : Sampling Logprob Score)
    (samples : List (SequenceOutput Logprob)) (m : BlockManager) (g : SequenceGroup)
    (data : Nat → SequenceData Logprob) (seqCounter : Nat) : Option (Processing Logprob) :=
  let parentSeqs := g.getSeqs .running
  let existing := g.getFinishedSeqs.map fun q => (q, data q.seqId)
  if samples.all fun o => parentSeqs.any fun q => q.seqId = o.parentSeqId then do
    let st ← parentSeqs.foldlM (Processing.takeSamples S samples) ⟨m, g, data, seqCounter, []⟩
    let st := st.checkStops cfg S
    if g.useBeamSearch then st.beamSearch cfg S existing
    else st.select st.childSeqs []
  else none

end BeamSearch

end Mil.Requests
