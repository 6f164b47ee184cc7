import Mil.Lib.Csr
import Mil.Lib.Ranges

/-!
# The FCFS simulator

`_fake_FCFS_schedule_NO_continuous_model_level_pipeline` of `benchmarks/fake_scheduling.py`: given
the input and output lengths of the requests, it plays first-come-first-served scheduling under a
batch budget and a cache budget, and records which iterations each request takes part in.

Requests wait in three arrays with a common `pointer`; those behind it have been admitted. A
request is admitted by a prefill step, which generates one token, and then runs: decode steps
advance all running requests, as many at once as the cache allows. When the cache is too full the
youngest running requests are killed: they are written back over the slots just behind the
pointer, with the length they have reached as their new input.

`none` is a Python exception: `max` of an empty sequence, or a failed assertion. Only the first
`running_seqs_num` columns of `running_seqs` are kept. Lengths are natural numbers, and output
lengths are at least 1 wherever they are decremented. The watermark `0.01 * max_block_num` is only
ever compared with integers, so it is given as the least integer that passes the comparison.
Logs are kept because the function returns them and counts them at the end.
-/

set_option autoImplicit false

namespace Mil.Fcfs

open Mil.Lib

structure Config where
  maxSeqNum : Nat
  maxBlockNum : Nat
  maxNumBatchedTokens : Nat
  blockSize : Nat
  watermarkBlocks : Nat
deriving Repr, DecidableEq

/-- A column of `running_seqs`: the request, its length up to and including the token generated
last, and the number of tokens it still has to generate. -/
structure Seq where
  id : Nat
  len : Nat
  rem : Nat
deriving Repr, DecidableEq

/-- What `update_prefill_logs` writes: a log is
`(seqnum, tot_token_num, attention_sum, max_seqlen)`. -/
structure Progress where
  prefillLogs : List (Nat × Nat × Nat × Nat)
  validPrefillLogs : List (Int × Int)
  inferProgress : List (List Rng)
  totIterNum : Nat
deriving Repr, DecidableEq

structure Sched where
  inpLens : List Nat
  outLens : List Nat
  seqIds : List Nat
  pointer : Nat
  runningSeqs : List Seq
  blockNumUsed : Nat
  unfinishedReqnum : Nat
  logs : List (Nat × Nat × Nat × Nat)
  isPrefillSteps : List Bool
  progress : Progress
deriving Repr, DecidableEq

/-! ## Recording -/

/-- `_store_infer_state`. -/
def storeInferState (start last : Nat) (inferProgress : List (List Rng)) (seqIds : List Nat) :
    List (List Rng) :=
  seqIds.foldl (fun p id => p.modify id fun rngs => addRange rngs start last) inferProgress

/-- `get_prefill_step`, for prompts `(length, id)`. -/
def getPrefillStep (inferProgress : List (List Rng)) (seqs : List (Nat × Nat)) :
    Option ((Nat × Nat × Nat × Nat) × (Int × Int)) := do
  let lens := seqs.map Prod.fst
  let maxSeqlen ← lens.max?
  let totTokenNum := lens.sum
  let attentionSum := (lens.map fun si => (1 + si) * si).sum
  let notStarted : List Int :=
    (seqs.filter fun seq => (inferProgress.getD seq.2 []).length = 0).map fun seq => (seq.1 : Int)
  return ((seqs.length, totTokenNum, attentionSum, maxSeqlen),
    (seqs.length + (notStarted.map fun s => s - 1).sum,
      totTokenNum + (notStarted.map fun s => s * (s - 1)).sum / 2))

/-- One prefill step with the prompts `seqs`. -/
def recordPrefill (p : Progress) (seqs : List (Nat × Nat)) : Option Progress := do
  let (log, validLog) ← getPrefillStep p.inferProgress seqs
  return {
    prefillLogs := p.prefillLogs ++ [log]
    validPrefillLogs := p.validPrefillLogs ++ [validLog]
    inferProgress :=
      storeInferState p.totIterNum p.totIterNum p.inferProgress (seqs.map Prod.snd)
    totIterNum := p.totIterNum + 1 }

/-- The loop body of `update_prefill_logs`: batch the prompt with the ones before it, or start a
new batch. Prompts in a batch are padded to the longest. -/
def batchPrompt (maxNumBatchedTokens : Nat) (s : Progress × List (Nat × Nat))
    (prompt : Nat × Nat) : Option (Progress × List (Nat × Nat)) :=
  if ((s.2.map Prod.fst).foldr max prompt.1) * (s.2.length + 1) ≤ maxNumBatchedTokens then
    some (s.1, s.2 ++ [prompt])
  else do
    let p ← recordPrefill s.1 s.2
    return (p, [prompt])

/-- `update_prefill_logs`, with no prompts left over from an earlier iteration. -/
def updatePrefillLogs (maxNumBatchedTokens : Nat) (prompts : List (Nat × Nat)) (p : Progress) :
    Option Progress :=
  if prompts = [] then some p
  else do
    let (p, seqs) ← prompts.foldlM (batchPrompt maxNumBatchedTokens) (p, [])
    recordPrefill p seqs

/-! ## The cache -/

/-- `(token_num + block_size - 1) // block_size`. -/
def ceilBlocks (blockSize tokenNum : Nat) : Nat := (tokenNum + blockSize - 1) / blockSize

/-- `has_enough_cache(…, consider_watermark=True)`. -/
def hasEnoughCache (cfg : Config) (blockNumUsed newTokenNum : Nat) : Bool :=
  blockNumUsed + ceilBlocks cfg.blockSize newTokenNum + cfg.watermarkBlocks ≤ cfg.maxBlockNum

/-- The blocks a running request holds: its last token is not in the cache yet. -/
def Seq.blocks (blockSize : Nat) (q : Seq) : Nat := ceilBlocks blockSize (q.len - 1)

def blocksOf (blockSize : Nat) (seqs : List Seq) : Nat := (seqs.map (Seq.blocks blockSize)).sum

/-! ## Admission -/

/-- The inner `while` of the scheduling loop; the second component collects `new_prompt_lens` and
`new_prompt_ids`. Every iteration moves the pointer, so the length of the arrays is enough fuel. -/
def admitWaiting (cfg : Config) : Nat → Sched → List (Nat × Nat) → Sched × List (Nat × Nat)
  | 0, s, prompts => (s, prompts)
  | fuel + 1, s, prompts =>
    if s.pointer < s.inpLens.length ∧ hasEnoughCache cfg s.blockNumUsed 1 ∧
        s.runningSeqs.length < cfg.maxSeqNum then
      let inpLen := s.inpLens.getD s.pointer 0
      let outLen := s.outLens.getD s.pointer 0
      let seqId := s.seqIds.getD s.pointer 0
      if hasEnoughCache cfg s.blockNumUsed inpLen then
        let prompts := prompts ++ [(inpLen, seqId)]
        if outLen = 1 then
          admitWaiting cfg fuel { s with
            unfinishedReqnum := s.unfinishedReqnum - 1
            pointer := s.pointer + 1 } prompts
        else
          admitWaiting cfg fuel { s with
            runningSeqs := s.runningSeqs ++ [⟨seqId, inpLen + 1, outLen - 1⟩]
            blockNumUsed := s.blockNumUsed + ceilBlocks cfg.blockSize inpLen
            pointer := s.pointer + 1 } prompts
      else (s, prompts)
    else (s, prompts)

/-! ## Killing -/

/-- `approx_tot_block_nums`: what the cache would hold if the requests up to each one ran for
another step. `acc` is the cumulated sum of `new_block_nums`. -/
def approxTotBlockNums (blockSize : Nat) : Nat → List Seq → List Nat
  | _, [] => []
  | acc, q :: rest =>
    (q.blocks blockSize + 1 + acc) ::
      approxTotBlockNums blockSize (acc + ceilBlocks blockSize q.len) rest

/-- `kill_seqs_for_more_cache_space`. -/
def killSeqsForMoreCacheSpace (cfg : Config) (s : Sched) : Option Sched := do
  let approx := approxTotBlockNums cfg.blockSize 0 s.runningSeqs
  let most ← approx.max?
  let num :=
    if cfg.maxBlockNum < most then approx.findIdx (cfg.maxBlockNum < ·) else s.runningSeqs.length
  let killed := s.runningSeqs.drop num
  let start := s.pointer - killed.length
  return { s with
    seqIds := writeSlice s.seqIds start s.pointer (killed.map Seq.id)
    inpLens := writeSlice s.inpLens start s.pointer (killed.map Seq.len)
    outLens := writeSlice s.outLens start s.pointer (killed.map Seq.rem)
    pointer := start
    runningSeqs := s.runningSeqs.take num
    blockNumUsed := blocksOf cfg.blockSize (s.runningSeqs.take num) }

/-! ## Decoding -/

/-- `u[np.nonzero(np.cumsum(counts) > left)[0][0]]`, for `counts` the number of occurrences in `l`
of each element of `u`; `acc` is the sum so far. -/
def firstExceeding (l : List Nat) (left : Nat) : Nat → List Nat → Option Nat
  | _, [] => none
  | acc, v :: rest =>
    if left < acc + l.count v then some v else firstExceeding l left (acc + l.count v) rest

/-- The tokens until a request needs a new block, that one included. -/
def extraIterNum (blockSize : Nat) (q : Seq) : Nat :=
  (((1 - (q.len : Int)) % (blockSize : Int)).toNat) + 1

/-- `get_max_iter_num`: how many decode steps the cache has room for, or until a request
finishes. -/
def getMaxIterNum (cfg : Config) (s : Sched) : Option Nat := do
  let num := s.runningSeqs.length
  let free := cfg.maxBlockNum - s.blockNumUsed
  let extraIterNums := s.runningSeqs.map (extraIterNum cfg.blockSize)
  let extra ← firstExceeding extraIterNums (free % num) 0 (unique extraIterNums)
  let least ← (s.runningSeqs.map Seq.rem).min?
  return min least (free / num * cfg.blockSize + (extra - 1))

/-- Decode steps for all running requests. -/
def decode (iterNum : Nat) (s : Sched) : Option Sched := do
  let num := s.runningSeqs.length
  let totTokenNum := (s.runningSeqs.map Seq.len).sum
  let currMaxSeqlen ← (s.runningSeqs.map Seq.len).max?
  return { s with
    logs := s.logs ++ (List.range iterNum).map fun i =>
      (num, totTokenNum + num * i, totTokenNum + num * i, currMaxSeqlen + i)
    progress := { s.progress with
      inferProgress := storeInferState s.progress.totIterNum
        (s.progress.totIterNum + iterNum - 1) s.progress.inferProgress
        (s.runningSeqs.map Seq.id)
      totIterNum := s.progress.totIterNum + iterNum }
    isPrefillSteps := s.isPrefillSteps ++ List.replicate iterNum false
    runningSeqs := s.runningSeqs.map fun q =>
      { q with len := q.len + iterNum, rem := q.rem - iterNum } }

/-- `remove_finished_seqs`. -/
def removeFinishedSeqs (cfg : Config) (s : Sched) : Sched :=
  let running := s.runningSeqs.filter fun q => q.rem ≠ 0
  { s with
    runningSeqs := running
    unfinishedReqnum := s.unfinishedReqnum - (s.runningSeqs.length - running.length)
    blockNumUsed := blocksOf cfg.blockSize running }

/-! ## The simulator -/

/-- The body of the scheduling loop. -/
def scheduleRound (cfg : Config) (s : Sched) : Option Sched := do
  let (s, prompts) := admitWaiting cfg s.inpLens.length s []
  let progress ← updatePrefillLogs cfg.maxNumBatchedTokens prompts s.progress
  let s := { s with
    progress := progress
    isPrefillSteps := s.isPrefillSteps ++
      List.replicate (progress.totIterNum - s.isPrefillSteps.length) true }
  if s.unfinishedReqnum = 0 then
    if s.runningSeqs.length = 0 then return s else none
  else
    let s ← killSeqsForMoreCacheSpace cfg s
    let iterNum ← getMaxIterNum cfg s
    let s ← decode iterNum s
    return removeFinishedSeqs cfg s

/-- `while unfinished_reqnum`. -/
def scheduleLoop (cfg : Config) : Nat → Sched → Option Sched
  | 0, _ => none
  | fuel + 1, s =>
    if s.unfinishedReqnum = 0 then some s
    else (scheduleRound cfg s).bind (scheduleLoop cfg fuel)

def Sched.init (inpLens outLens : List Nat) : Sched where
  inpLens := inpLens
  outLens := outLens
  seqIds := List.range inpLens.length
  pointer := 0
  runningSeqs := []
  blockNumUsed := 0
  unfinishedReqnum := inpLens.length
  logs := []
  isPrefillSteps := []
  progress := ⟨[], [], List.replicate inpLens.length [], 0⟩

/-- What the simulator returns. -/
structure Schedule where
  logs : List (Nat × Nat × Nat × Nat)
  prefillLogs : List (Nat × Nat × Nat × Nat)
  isPrefillSteps : List Bool
  inferProgress : List (List Rng)
  validPrefillLogs : List (Int × Int)
deriving Repr, DecidableEq

/-- `_fake_FCFS_schedule_NO_continuous_model_level_pipeline`, with the assertion it ends with. -/
def fakeFCFSSchedule (cfg : Config) (fuel : Nat) (inpLens outLens : List Nat) :
    Option Schedule := do
  let s ← scheduleLoop cfg fuel (Sched.init inpLens outLens)
  if s.progress.totIterNum = s.logs.length + s.progress.prefillLogs.length then
    return ⟨s.logs, s.progress.prefillLogs, s.isPrefillSteps, s.progress.inferProgress,
      s.progress.validPrefillLogs⟩
  else none

end Mil.Fcfs
