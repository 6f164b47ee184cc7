import Mathlib.Data.List.Lex
import Mathlib.Data.List.Sort
import Mil.Blocks.Chains
import Mil.Weights.Residency

/-!
# The request scheduler

`Scheduler` of `vllm/core/scheduler.py` over the block manager: the three queues of sequence groups,
`_schedule` with the admission of prompts, the preemption of running groups and the return of
swapped ones, and `schedule`, which may retire blocks first. An assertion that fails, a
`RuntimeError` and what the manager raises give `none`.

A group is a value here, so a change of the status of its sequences makes a new group in the queue
it moves to. Left out: LoRA (`lora_enabled` is `False`), the prefix pool and the logger.
`load_more_layer_on_card_num`, which the engine sets back after each step, is written by
`reorganize_gpu_blocks` before it is read.
-/

set_option autoImplicit false

namespace Mil.Requests

open Mil.Lib Mil.Blocks

/-- `SchedulerConfig`, what the block manager is built with, the number of layers of the model, the
arrival times of the requests and what their ids are compared by: a number, or the characters of a
string. -/
structure Config where
  maxNumBatchedTokens : Nat
  maxNumSeqs : Nat
  maxModelLen : Nat
  maxPaddings : Nat
  dynamicIncreaseOncardWeights : Bool
  layerNum : Nat
  arrivalTime : Nat → Int
  requestKey : Nat → List Nat
  blocks : Blocks.Config

def Config.promptLimit (cfg : Config) : Nat := min cfg.maxModelLen cfg.maxNumBatchedTokens

structure Scheduler where
  manager : BlockManager
  waiting : List SequenceGroup
  running : List SequenceGroup
  swapped : List SequenceGroup

def Scheduler.init (cfg : Config) (cachedLayerNum : Int) : Scheduler :=
  ⟨BlockManager.init cfg.blocks cachedLayerNum, [], [], []⟩

structure SchedulerOutputs where
  scheduledSeqGroups : List SequenceGroup
  promptRun : Bool
  numBatchedTokens : Nat
  blocksToSwapIn : List (Nat × Nat)
  blocksToSwapOut : List (Nat × Nat)
  blocksToCopy : List (Nat × List Nat)
  ignoredSeqGroups : List SequenceGroup
  /-- The chains and their lengths, when blocks are retired. -/
  blocksToReorganize : Option (List Int × List Nat)

/-- `seq.status = new` for the sequences that `get_seqs(status=old)` gives. -/
def setStatus (old new : SequenceStatus) (g : SequenceGroup) : SequenceGroup :=
  { g with seqs := g.seqs.map fun s => if s.status = old then { s with status := new } else s }

/-- The FCFS policy: the priority of a group is its age, and the sort is stable. -/
def sortByPriority (cfg : Config) (seqGroups : List SequenceGroup) : List SequenceGroup :=
  seqGroups.insertionSort fun g g' => cfg.arrivalTime g.requestId ≤ cfg.arrivalTime g'.requestId

/-- `_sort_by_lora_ids`: without LoRA the key of a group is `(0, request_id)`. The outputs are sorted
whenever they have a group. -/
def sortByRequestId (cfg : Config) (seqGroups : List SequenceGroup) : List SequenceGroup :=
  seqGroups.insertionSort fun g g' => cfg.requestKey g.requestId ≤ cfg.requestKey g'.requestId

/-! ## Prompts -/

/-- What the loop over `waiting` changes. -/
structure Prompts where
  manager : BlockManager
  scheduled : List SequenceGroup
  ignoredSeqGroups : List SequenceGroup
  seqLens : List Nat
  numCurrSeqs : Nat

/-- A prompt that can never be run leaves the queue. -/
def Prompts.ignore (st : Prompts) (g : SequenceGroup) : Prompts :=
  { st with ignoredSeqGroups := st.ignoredSeqGroups ++ [setStatus .waiting .finishedIgnored g] }

/-- `num_batched_tokens` of the prompts so far: all are padded to the longest one. -/
def numBatchedTokens (seqLens : List Nat) : Nat := seqLens.length * seqLens.foldl max 0

/-- One more prompt fits into the batch. -/
def fitsBatch (cfg : Config) (st : Prompts) (g : SequenceGroup) (numPromptTokens : Nat) : Bool :=
  let newSeqLens := st.seqLens ++ [numPromptTokens]
  numBatchedTokens newSeqLens ≤ cfg.maxNumBatchedTokens &&
    st.numCurrSeqs + g.getMaxNumRunningSeqs ≤ cfg.maxNumSeqs &&
    numBatchedTokens newSeqLens - newSeqLens.sum ≤ cfg.maxPaddings

/-- The loop over `waiting`, with what is left of the queue. -/
def admitPrompts (cfg : Config) :
    List SequenceGroup → Prompts → Option (List SequenceGroup × Prompts)
  | [], st => some ([], st)
  | g :: waiting, st =>
    match g.getSeqs .waiting with
    | [seq] =>
      if cfg.promptLimit < seq.len then admitPrompts cfg waiting (st.ignore g)
      else
        match st.manager.canAllocate cfg.blocks g with
        | none => none
        | some .later => some (g :: waiting, st)
        | some .never => admitPrompts cfg waiting (st.ignore g)
        | some .ok =>
          if fitsBatch cfg st g seq.len then
            (st.manager.allocate cfg.blocks g).bind fun m => admitPrompts cfg waiting
              { st with
                manager := m
                scheduled := st.scheduled ++ [setStatus .waiting .running g]
                seqLens := st.seqLens ++ [seq.len]
                numCurrSeqs := st.numCurrSeqs + g.getMaxNumRunningSeqs }
          else some (g :: waiting, st)
    -- a waiting group has one prompt sequence
    | _ => none

/-! ## Running groups -/

/-- What the rest of `_schedule` changes. -/
structure Decode where
  manager : BlockManager
  waiting : List SequenceGroup
  swapped : List SequenceGroup
  preempted : List SequenceGroup
  blocksToSwapIn : List (Nat × Nat)
  blocksToSwapOut : List (Nat × Nat)
  blocksToCopy : List (Nat × List Nat)

def maxNumRunningSeqs (seqGroups : List SequenceGroup) : Nat :=
  (seqGroups.map SequenceGroup.getMaxNumRunningSeqs).sum

/-- A copy joins the copies of the same block. -/
def addCopy (blocksToCopy : List (Nat × List Nat)) (ret : Nat × Nat) : List (Nat × List Nat) :=
  Dict.set ret.1 ((blocksToCopy.lookup ret.1).getD [] ++ [ret.2]) blocksToCopy

/-- `append_slot` for one sequence. -/
def Decode.appendSeq (cfg : Config) (st : Decode) (s : Sequence) : Option Decode :=
  (st.manager.appendSlot cfg.blocks s).map fun (ret, m) =>
    { st with manager := m, blocksToCopy := ret.elim st.blocksToCopy (addCopy st.blocksToCopy) }

/-- `_append_slot`. -/
def Decode.appendSlot (cfg : Config) (st : Decode) (g : SequenceGroup) : Option Decode :=
  (g.getSeqs .running).foldlM (Decode.appendSeq cfg) st

/-- `_preempt_by_recompute`: the only running sequence gives up its blocks, and the group waits
again, before all others. -/
def Decode.preemptByRecompute (st : Decode) (g : SequenceGroup) : Option Decode :=
  match g.getSeqs .running with
  | [seq] => (st.manager.free seq.seqId).map fun m =>
      { st with manager := m, waiting := setStatus .running .waiting g :: st.waiting }
  | _ => none

/-- `_preempt_by_swap` with `_swap_out`. -/
def Decode.preemptBySwap (st : Decode) (g : SequenceGroup) : Option Decode := do
  let canSwapOut ← st.manager.canSwapOut g
  if canSwapOut then
    let (mapping, m) ← st.manager.swapOut g
    return { st with
      manager := m
      blocksToSwapOut := Dict.update st.blocksToSwapOut mapping
      swapped := st.swapped ++ [setStatus .running .swapped g] }
  else none

/-- `_preempt` without a given mode, and the note of the group. -/
def Decode.preempt (st : Decode) (g : SequenceGroup) : Option Decode :=
  (if g.getMaxNumRunningSeqs = 1 then st.preemptByRecompute g else st.preemptBySwap g).map
    fun st => { st with preempted := st.preempted ++ [g] }

/-- The inner `while`: groups are preempted from the last one on until `g` gets its slots, or `g`
itself is preempted. The queue is given from its end; what is left of it and whether `g` stays. -/
def makeRoom (g : SequenceGroup) : List SequenceGroup → Decode →
    Option (List SequenceGroup × Bool × Decode)
  | [], st =>
    if st.manager.canAppendSlot g then some ([], true, st)
    else (st.preempt g).map fun st => ([], false, st)
  | victim :: rest, st =>
    if st.manager.canAppendSlot g then some (victim :: rest, true, st)
    else (st.preempt victim).bind fun st => makeRoom g rest st

/-- The outer `while`: the groups that keep running. Each round takes at least one group. -/
def keepRunning (cfg : Config) : Nat → List SequenceGroup → Decode →
    Option (List SequenceGroup × Decode)
  | _, [], st => some ([], st)
  | 0, _ :: _, _ => none
  | fuel + 1, g :: rest, st => do
    let (left, stays, st) ← makeRoom g rest.reverse st
    if stays then
      let st ← st.appendSlot cfg g
      let (running, st) ← keepRunning cfg fuel left.reverse st
      return (g :: running, st)
    else keepRunning cfg fuel left.reverse st

/-- The loop over `swapped`: the groups that run again, the ones left and the copies. -/
def resumeSwapped (cfg : Config) : List SequenceGroup → Nat → Decode →
    Option (List SequenceGroup × Decode)
  | [], _, st => some ([], { st with swapped := [] })
  | g :: swapped, numCurrSeqs, st => do
    let canSwapIn ← st.manager.canSwapIn cfg.blocks g
    if canSwapIn && numCurrSeqs + g.getMaxNumRunningSeqs ≤ cfg.maxNumSeqs then
      let (mapping, m) ← st.manager.swapIn g
      let g' := setStatus .swapped .running g
      let st := { st with
        manager := m
        blocksToSwapIn := Dict.update st.blocksToSwapIn mapping }
      let st ← st.appendSlot cfg g'
      let (resumed, st) ← resumeSwapped cfg swapped (numCurrSeqs + g.getMaxNumRunningSeqs) st
      return (g' :: resumed, st)
    else return ([], { st with swapped := g :: swapped })

/-- Swapped groups come back only when none was preempted. -/
def Decode.resume (cfg : Config) (st : Decode) (running : List SequenceGroup) :
    Option (List SequenceGroup × Decode) :=
  let swapped := sortByPriority cfg st.swapped
  if st.preempted.isEmpty then
    (resumeSwapped cfg swapped (maxNumRunningSeqs running) st).map
      fun (resumed, st) => (running ++ resumed, st)
  else some (running, { st with swapped := swapped })

/-! ## A call of the scheduler -/

namespace Scheduler

/-- The second half of `_schedule`: one more token for the running groups. -/
def scheduleDecode (cfg : Config) (s : Scheduler) : Option (SchedulerOutputs × Scheduler) := do
  let running := sortByPriority cfg s.running
  let (running, st) ← keepRunning cfg running.length running
    ⟨s.manager, s.waiting, s.swapped, [], [], [], []⟩
  let (running, st) ← st.resume cfg running
  -- the assertion of `SchedulerOutputs.__init__`
  if !st.blocksToSwapIn.isEmpty && !st.blocksToSwapOut.isEmpty then none
  else
    let outputs : SchedulerOutputs :=
      { scheduledSeqGroups := sortByRequestId cfg running
        promptRun := false
        numBatchedTokens := (running.map fun g => (g.getSeqs .running).length).sum
        blocksToSwapIn := st.blocksToSwapIn
        blocksToSwapOut := st.blocksToSwapOut
        blocksToCopy := st.blocksToCopy
        ignoredSeqGroups := []
        blocksToReorganize := none }
    return (outputs, ⟨st.manager, st.waiting, running, st.swapped⟩)

/-- `_schedule`. -/
def scheduleQueues (cfg : Config) (s : Scheduler) : Option (SchedulerOutputs × Scheduler) :=
  if s.swapped.isEmpty then
    (admitPrompts cfg s.waiting ⟨s.manager, [], [], [], maxNumRunningSeqs s.running⟩).bind
      fun (waiting, st) =>
        let s : Scheduler := ⟨st.manager, waiting, s.running ++ st.scheduled, s.swapped⟩
        if st.scheduled.isEmpty && st.ignoredSeqGroups.isEmpty then s.scheduleDecode cfg
        else
          some ({ scheduledSeqGroups := sortByRequestId cfg st.scheduled
                  promptRun := true
                  numBatchedTokens := numBatchedTokens st.seqLens
                  blocksToSwapIn := []
                  blocksToSwapOut := []
                  blocksToCopy := []
                  ignoredSeqGroups := st.ignoredSeqGroups
                  blocksToReorganize := none }, s)
  else s.scheduleDecode cfg

/-- The number of layers to load that the scheduler decides on. -/
def layersToLoad (cfg : Config) (s : Scheduler) : Option Int :=
  Weights.layersToLoad
    ⟨cfg.blocks.blkNumPerLayer, s.manager.cachedLayerNum, s.manager.loadMoreLayerOnCardNum⟩
    s.waiting.length (s.manager.getNumFreeBlocks .gpu)

/-- `increase_layer_weight_on_comp_gpu`, with `blocks_to_reorganize`. The number of layers is never
negative (`layersToLoad_nonneg`). -/
def increaseLayerWeightOnCompGpu (cfg : Config) (s : Scheduler) :
    Option (Option (List Int × List Nat) × Scheduler) :=
  match s.layersToLoad cfg with
  | none => some (none, s)
  | some n => do
    let (mapping, m) ← s.manager.reorganizeGpuBlocks cfg.blocks n.toNat
    let chains ← getDependentBlkMovingChains cfg.blocks m cfg.layerNum mapping
    return (some chains, { s with manager := m })

/-- The first lines of `schedule`. -/
def retireBlocks (cfg : Config) (s : Scheduler) :
    Option (Option (List Int × List Nat) × Scheduler) :=
  if cfg.dynamicIncreaseOncardWeights then s.increaseLayerWeightOnCompGpu cfg else some (none, s)

/-- The block tables of the metadata: those of the running sequences of the scheduled groups. -/
def blockTables (s : Scheduler) (seqGroups : List SequenceGroup) :
    Option (List (Nat × List Nat)) :=
  (seqGroups.flatMap fun g => g.getSeqs .running).mapM fun q =>
    (s.manager.getBlockTable q.seqId).map fun table => (q.seqId, table)

/-- `schedule`: the metadata (the block tables), the outputs and the new state. -/
def schedule (cfg : Config) (s : Scheduler) :
    Option (List (Nat × List Nat) × SchedulerOutputs × Scheduler) := do
  let (blocksToReorganize, s) ← s.retireBlocks cfg
  let (outputs, s) ← s.scheduleQueues cfg
  let tables ← s.blockTables outputs.scheduledSeqGroups
  return (tables, { outputs with blocksToReorganize := blocksToReorganize }, s)

end Scheduler

/-! ## Requests that are aborted -/

/-- The groups of a queue with one of the ids, what is left of the queue and the ids not found. -/
def takeAborted : List Nat → List SequenceGroup →
    List SequenceGroup × List SequenceGroup × List Nat
  | requestIds, [] => ([], [], requestIds)
  | requestIds, g :: gs =>
    if g.requestId ∈ requestIds then
      let (aborted, left, requestIds) := takeAborted (requestIds.filter (· ≠ g.requestId)) gs
      (g :: aborted, left, requestIds)
    else
      let (aborted, left, requestIds) := takeAborted requestIds gs
      (aborted, g :: left, requestIds)

/-- `free_seq` for the sequences of a group that are not finished. -/
def freeUnfinished (m : BlockManager) (g : SequenceGroup) : Option BlockManager :=
  (g.seqs.filter fun q => !q.status.isFinished).foldlM (fun m q => m.free q.seqId) m

/-- `abort_seq_group`. -/
def Scheduler.abortSeqGroup (requestIds : List Nat) (s : Scheduler) : Option Scheduler :=
  let (abortedWaiting, waiting, requestIds) := takeAborted requestIds s.waiting
  let (abortedRunning, running, requestIds) := takeAborted requestIds s.running
  let (abortedSwapped, swapped, _) := takeAborted requestIds s.swapped
  ((abortedWaiting ++ abortedRunning ++ abortedSwapped).foldlM freeUnfinished s.manager).map
    fun m => ⟨m, waiting, running, swapped⟩

/-! ## Runs -/

/-- What the engine does to a running group and the manager when it takes in the outputs of a step
(`_process_sequence_group_outputs`), one sequence at a time: a token is appended; a child that is
finished already joins the group; a running sequence is forked; a sequence finishes and is freed;
a sequence is removed and freed. New ids come from a counter and are not `used`. -/
inductive GroupStep (used : List Nat) (m : BlockManager) (g : SequenceGroup) :
    BlockManager → SequenceGroup → Prop
  | appendToken {before after : List Sequence} {q : Sequence}
      (hseqs : g.seqs = before ++ q :: after) (hq : q.status = .running) :
      GroupStep used m g m { g with seqs := before ++ { q with len := q.len + 1 } :: after }
  | addFinished {child : Sequence} (hnew : child.seqId ∉ used) (hfin : child.status.isFinished) :
      GroupStep used m g m { g with seqs := g.seqs ++ [child] }
  | fork {parent : Sequence} {child : Nat} {m' : BlockManager} (hparent : parent ∈ g.getSeqs .running)
      (hnew : child ∉ used) (hcall : m.fork parent.seqId child = some m') :
      GroupStep used m g m' { g with seqs := g.seqs ++ [{ parent with seqId := child }] }
  | finish {before after : List Sequence} {q : Sequence} {status : SequenceStatus}
      {m' : BlockManager} (hseqs : g.seqs = before ++ q :: after) (hfin : status.isFinished)
      (hcall : m.free q.seqId = some m') :
      GroupStep used m g m' { g with seqs := before ++ { q with status := status } :: after }
  | remove {before after : List Sequence} {q : Sequence} {m' : BlockManager}
      (hseqs : g.seqs = before ++ q :: after) (hcall : m.free q.seqId = some m') :
      GroupStep used m g m' { g with seqs := before ++ after }

/-- The ids of the sequences of some groups. -/
def seqIds (seqGroups : List SequenceGroup) : List Nat :=
  seqGroups.flatMap fun g => g.seqs.map Sequence.seqId

/-- The ids of all sequences in the queues. -/
def Scheduler.seqIds (s : Scheduler) : List Nat :=
  Requests.seqIds (s.waiting ++ s.running ++ s.swapped)

/-- A request that comes in: one waiting sequence with a new id, no prefix, and as many sequences
as the limits allow. -/
structure NewRequest (cfg : Config) (s : Scheduler) (g : SequenceGroup) : Prop where
  single : ∃ q : Sequence, g.seqs = [q] ∧ q.status = .waiting ∧ q.seqId ∉ s.seqIds
  pre_eq : g.pre = none
  best_of_pos : 0 < g.bestOf
  best_of_le : g.bestOf ≤ cfg.maxNumSeqs

/-- What happens to the scheduler. -/
inductive Step (cfg : Config) (s : Scheduler) : Scheduler → Prop
  | addSeqGroup {g : SequenceGroup} (hnew : NewRequest cfg s g) :
      Step cfg s { s with waiting := s.waiting ++ [g] }
  | abortSeqGroup {s' : Scheduler} (requestIds : List Nat)
      (hcall : s.abortSeqGroup requestIds = some s') : Step cfg s s'
  | schedule {s' : Scheduler} {tables : List (Nat × List Nat)} {outputs : SchedulerOutputs}
      (hcall : s.schedule cfg = some (tables, outputs, s')) : Step cfg s s'
  | group {before after : List SequenceGroup} {g g' : SequenceGroup} {m' : BlockManager}
      (hrunning : s.running = before ++ g :: after)
      (hstep : GroupStep s.seqIds s.manager g m' g') :
      Step cfg s { s with manager := m', running := before ++ g' :: after }
  | freeFinishedSeqGroups :
      Step cfg s { s with running := s.running.filter fun g => !g.isFinished }

/-- The states reached by steps from states that meet a condition. A model of `degree` pipeline
slots starts with all its layers but two cached elsewhere. -/
inductive Reach (cfg : Config) (meets : Scheduler → Prop) : Scheduler → Prop
  | init {cachedLayerNum : Int} (hcached : -2 ≤ cachedLayerNum) :
      Reach cfg meets (Scheduler.init cfg cachedLayerNum)
  | step {s s' : Scheduler} (h : Reach cfg meets s) (hmeets : meets s) (hstep : Step cfg s s') :
      Reach cfg meets s'

end Mil.Requests
