import Mathlib.Algebra.Order.Ring.Rat
import Mil.Lib.Dict
import Mil.Fcfs.Simulator

/-!
# The arrival-aware simulators

`_fake_FCFS_schedule_continuous_model_level_pipeline` of `benchmarks/fake_scheduling.py` plays the
same scheduling as the plain simulator, but requests arrive over time: from time to time the loop
looks for requests that have arrived (`_check_new_input_requests`), and the decode steps in between
are cut to `check_gap`. `_fake_FCFS_schedule_continuous_model_level_pipeline_vertical_fuse` is a copy of
it for a chain of models that run as one: a request of a later level is known only when the request
with the same id is neither running nor waiting any more
(`_update_seq_info_with_known_arrive_time_fast_version`).

The two differ in what a check does and in when one is due. What they share, from admission to the
removal of finished requests, is `arrivalRound`; there `slot` says where the iterations of a request
are recorded, which is its own number in the first simulator and the entry of the `infer_progress`
dictionary in the second one. The lists of `full_infer_progress` are kept one after the other.

Times are rational. The cost of an iteration is a function of its log. `update_prefill_logs` never
leaves prompts over, so `last_iter_seqs` is empty; `finished_seq_ids`, which nothing reads, is left out.
`none` is an exception or a loop that has used up its fuel.
-/

set_option autoImplicit false

namespace Mil.Fcfs

open Mil.Lib

/-! ## State -/

structure ArrivalConfig extends Config where
  checkGap : Nat
  sortInput : Bool
  prefillCost : (Nat × Nat × Nat × Nat) × (Int × Int) → ℚ
  decodeCost : Nat × Nat × Nat × Nat → ℚ

/-- The variables of both loops. In `sched`, `seqIds` has the requests received so far only. -/
structure Arriving where
  sched : Sched
  arriveTimes : List ℚ
  totInferenceTime : ℚ
  cumsumLatencys : List ℚ
  needQuery : Bool
  mustRecord : Bool

/-- `np.cumsum(costs) + start`. -/
def cumsumFrom : ℚ → List ℚ → List ℚ
  | _, [] => []
  | start, cost :: costs => (start + cost) :: cumsumFrom (start + cost) costs

/-! ## Receiving requests -/

/-- `l[start:][order]` written back over `l[start:]`. -/
def permuteFrom {α : Type} (start : Nat) (order : List Nat) (l : List α) : List α :=
  l.take start ++ order.filterMap (fun i => (l.drop start)[i]?) ++ l.drop (start + order.length)

/-- `np.argsort(-lens, kind='stable')`. -/
def longestFirst (lens : List Nat) : List Nat :=
  (List.range lens.length).insertionSort fun i j => lens.getD j 0 ≤ lens.getD i 0

/-- `np.argsort(times, kind='stable')`. -/
def earliestFirst (times : List ℚ) : List Nat :=
  (List.range times.length).insertionSort fun i j => times.getD i 0 ≤ times.getD j 0

/-- The time of the check and `new_inp_end`, if there are requests to receive. -/
def Arriving.newRequests (s : Arriving) : Option (ℚ × Nat) :=
  let received := s.sched.seqIds.length
  let next := s.arriveTimes.getD received 0
  if received = s.sched.inpLens.length then none
  else if 0 < s.sched.runningSeqs.length ∧ s.totInferenceTime < next then none
  else
    let time := if s.totInferenceTime < next then next else s.totInferenceTime
    some (time, received + (s.arriveTimes.drop received).findIdx (time < ·))

/-- The waiting requests in the order in which they will be admitted. -/
def Arriving.reorder {α : Type} (cfg : ArrivalConfig) (s : Arriving) (newInpEnd : Nat) (l : List α) :
    List α :=
  if cfg.sortInput then
    permuteFrom s.sched.pointer
      (longestFirst (slice s.sched.inpLens s.sched.pointer newInpEnd)) l
  else l

/-- Receive the requests before `newInpEnd`, whose numbers are `ids`. -/
def Arriving.receive (cfg : ArrivalConfig) (s : Arriving) (time : ℚ) (newInpEnd : Nat)
    (ids : List Nat) : Arriving :=
  { s with
    sched := { s.sched with
      seqIds := s.reorder cfg newInpEnd (s.sched.seqIds ++ ids)
      inpLens := s.reorder cfg newInpEnd s.sched.inpLens
      outLens := s.reorder cfg newInpEnd s.sched.outLens }
    arriveTimes := s.reorder cfg newInpEnd s.arriveTimes
    totInferenceTime := time }

/-- `_check_new_input_requests`. -/
def checkNewInputRequests (cfg : ArrivalConfig) (s : Arriving) : Arriving :=
  match s.newRequests with
  | none => s
  | some (time, newInpEnd) =>
    s.receive cfg time newInpEnd
      (List.range' s.sched.pointer (newInpEnd - s.sched.pointer))

/-- Whether the requests are checked in this round. -/
def Arriving.checks (cfg : ArrivalConfig) (s : Arriving) : Option Bool :=
  if s.sched.runningSeqs.length = 0 ∧ s.sched.pointer = s.sched.seqIds.length then some true
  else if s.needQuery then
    if cfg.checkGap = 0 then none else some (s.sched.progress.totIterNum % cfg.checkGap = 0)
  else some false

/-! ## One round -/

/-- The inner `while` of the loop. -/
def admitReceived (cfg : Config) : Nat → Sched → List (Nat × Nat) → Sched × List (Nat × Nat)
  | 0, s, prompts => (s, prompts)
  | fuel + 1, s, prompts =>
    if s.pointer < s.seqIds.length ∧ hasEnoughCache cfg s.blockNumUsed 1 ∧
        s.runningSeqs.length < cfg.maxSeqNum then
      let inpLen := s.inpLens.getD s.pointer 0
      let outLen := s.outLens.getD s.pointer 0
      let seqId := s.seqIds.getD s.pointer 0
      if hasEnoughCache cfg s.blockNumUsed inpLen then
        let prompts := prompts ++ [(inpLen, seqId)]
        if outLen = 1 then
          admitReceived cfg fuel { s with
            unfinishedReqnum := s.unfinishedReqnum - 1
            pointer := s.pointer + 1 } prompts
        else
          admitReceived cfg fuel { s with
            runningSeqs := s.runningSeqs ++ [⟨seqId, inpLen + 1, outLen - 1⟩]
            blockNumUsed := s.blockNumUsed + ceilBlocks cfg.blockSize inpLen
            pointer := s.pointer + 1 } prompts
      else (s, prompts)
    else (s, prompts)

/-- Admission, prefill steps and their cost; `more` says whether requests may still be received. -/
def arrivalPrefill (cfg : ArrivalConfig) (slot : Nat → Nat) (more : Bool) (s : Arriving) :
    Option Arriving := do
  let (sched, prompts) := admitReceived cfg.toConfig s.sched.seqIds.length s.sched []
  let needQuery := more && sched.pointer = sched.seqIds.length &&
    hasEnoughCache cfg.toConfig sched.blockNumUsed 1 && sched.runningSeqs.length < cfg.maxSeqNum
  let progress ← updatePrefillLogs cfg.maxNumBatchedTokens
    (prompts.map fun prompt => (prompt.1, slot prompt.2)) sched.progress
  let done := sched.progress.prefillLogs.length
  let latencys :=
    ((progress.prefillLogs.drop done).zip (progress.validPrefillLogs.drop done)).map cfg.prefillCost
  let cumsumLatencys := s.cumsumLatencys ++ cumsumFrom s.totInferenceTime latencys
  return { s with
    sched := { sched with
      progress := progress
      isPrefillSteps := sched.isPrefillSteps ++
        List.replicate (progress.totIterNum - sched.isPrefillSteps.length) true }
    totInferenceTime := cumsumLatencys.getLastD s.totInferenceTime
    cumsumLatencys := cumsumLatencys
    needQuery := needQuery
    mustRecord := prompts = [] && s.mustRecord }

/-- Decode steps for all running requests, recorded at their slots. -/
def decodeAt (slot : Nat → Nat) (iterNum : Nat) (s : Sched) : Option Sched := do
  let num := s.runningSeqs.length
  let totTokenNum := (s.runningSeqs.map Seq.len).sum
  let currMaxSeqlen ← (s.runningSeqs.map Seq.len).max?
  return { s with
    logs := s.logs ++ (List.range iterNum).map fun i =>
      (num, totTokenNum + num * i, totTokenNum + num * i, currMaxSeqlen + i)
    progress := { s.progress with
      inferProgress := storeInferState s.progress.totIterNum
        (s.progress.totIterNum + iterNum - 1) s.progress.inferProgress
        (s.runningSeqs.map fun q => slot q.id)
      totIterNum := s.progress.totIterNum + iterNum }
    isPrefillSteps := s.isPrefillSteps ++ List.replicate iterNum false
    runningSeqs := s.runningSeqs.map fun q =>
      { q with len := q.len + iterNum, rem := q.rem - iterNum } }

/-- Decode steps, the removal of finished requests and the cost: `logs[-iter_num:]` are all logs if
there was no step. -/
def arrivalDecode (cfg : ArrivalConfig) (slot : Nat → Nat) (iterNum : Nat) (s : Arriving) :
    Option Arriving := do
  let sched ← decodeAt slot iterNum s.sched
  let sched := removeFinishedSeqs cfg.toConfig sched
  let steps := if iterNum = 0 then sched.logs else sched.logs.drop (sched.logs.length - iterNum)
  let cumsumLatencys := s.cumsumLatencys ++ cumsumFrom s.totInferenceTime (steps.map cfg.decodeCost)
  let time ← cumsumLatencys.getLast?
  return { s with
    sched := sched
    totInferenceTime := time
    cumsumLatencys := cumsumLatencys }

/-- The steps until the next check: up to a multiple of `check_gap`. -/
def stepsToCheck (cfg : ArrivalConfig) (s : Arriving) : Nat :=
  (s.sched.progress.totIterNum + s.mustRecord.toNat + cfg.checkGap - 1) / cfg.checkGap *
    cfg.checkGap - s.sched.progress.totIterNum

/-- The decode steps of a round that can run for `iterNum` steps. -/
def arrivalSteps (cfg : ArrivalConfig) (slot : Nat → Nat) (iterNum : Nat) (s : Arriving) :
    Option Arriving :=
  if s.needQuery then
    if cfg.checkGap = 0 then none
    else if min iterNum (stepsToCheck cfg s) = 0 then some { s with mustRecord := true }
    else arrivalDecode cfg slot (min iterNum (stepsToCheck cfg s)) { s with mustRecord := false }
  else arrivalDecode cfg slot iterNum s

/-- After requests have been killed. -/
def Arriving.killed (s : Arriving) (sched : Sched) : Arriving :=
  { s with
    sched := sched
    needQuery := s.needQuery && !decide (sched.pointer < sched.seqIds.length) }

/-- The loop body after the check. -/
def arrivalRound (cfg : ArrivalConfig) (slot : Nat → Nat) (more : Bool) (s : Arriving) :
    Option Arriving := do
  let s ← arrivalPrefill cfg slot more s
  if s.sched.runningSeqs.length = 0 then return s
  else
    let sched ← killSeqsForMoreCacheSpace cfg.toConfig s.sched
    let iterNum ← getMaxIterNum cfg.toConfig sched
    arrivalSteps cfg slot iterNum (s.killed sched)

/-! ## The first simulator -/

/-- The body of the loop. -/
def pipelineRound (cfg : ArrivalConfig) (s : Arriving) : Option Arriving := do
  let check ← s.checks cfg
  let s := if check then checkNewInputRequests cfg s else s
  arrivalRound cfg id (s.sched.seqIds.length < s.sched.inpLens.length) s

/-- `while unfinished_reqnum`. -/
def pipelineLoop (cfg : ArrivalConfig) : Nat → Arriving → Option Arriving
  | 0, _ => none
  | fuel + 1, s =>
    if s.sched.unfinishedReqnum = 0 then some s
    else (pipelineRound cfg s).bind (pipelineLoop cfg fuel)

/-- What both simulators start with; `unfinished` counts the requests, of all levels. -/
def Arriving.init (inpLens outLens : List Nat) (arriveTimes : List ℚ) (unfinished : Nat) : Arriving where
  sched := {
    inpLens := inpLens
    outLens := outLens
    seqIds := []
    pointer := 0
    runningSeqs := []
    blockNumUsed := 0
    unfinishedReqnum := unfinished
    logs := []
    isPrefillSteps := []
    progress := ⟨[], [], List.replicate unfinished [], 0⟩ }
  arriveTimes := arriveTimes
  totInferenceTime := 0
  cumsumLatencys := []
  needQuery := true
  mustRecord := false

/-- What the simulators return; the second one has `inferProgress` for each level. -/
structure Simulation (α : Type) where
  cumsumLatencys : List ℚ
  isPrefillSteps : List Bool
  inferProgress : α
  prefillLogs : List (Nat × Nat × Nat × Nat)
  logs : List (Nat × Nat × Nat × Nat)
  validPrefillLogs : List (Int × Int)
deriving DecidableEq

/-- The result of a run, with the assertion it ends with. -/
def Arriving.result {α : Type} (s : Arriving) (full : List (List Rng) → α) : Option (Simulation α) :=
  if s.sched.progress.totIterNum = s.sched.logs.length + s.sched.progress.prefillLogs.length then
    some ⟨s.cumsumLatencys, s.sched.isPrefillSteps, full s.sched.progress.inferProgress,
      s.sched.progress.prefillLogs, s.sched.logs, s.sched.progress.validPrefillLogs⟩
  else none

/-- `_fake_FCFS_schedule_continuous_model_level_pipeline`. -/
def fakeFCFSSchedulePipeline (cfg : ArrivalConfig) (fuel : Nat) (inpLens outLens : List Nat)
    (arriveTimes : List ℚ) : Option (Simulation (List (List Rng))) :=
  (pipelineLoop cfg fuel (.init inpLens outLens arriveTimes inpLens.length)).bind
    (·.result id)

/-! ## The simulator of fused models -/

/-- The requests of one level, in parallel lists. -/
structure Level where
  inpLens : List Nat
  outLens : List Nat
  arriveTimes : List ℚ
  seqIds : List Nat
deriving DecidableEq

/-- An entry of `unknown_seq_info`; `slot` is where its iterations will be recorded. -/
structure SeqInfo where
  inpLen : Nat
  outLen : Nat
  arriveTime : ℚ
  slot : Nat

/-- The variables of the loop for fused models; `slots` is the dictionary `infer_progress`. -/
structure Fused extends Arriving where
  refSeqIds : List Nat
  unknown : List (Nat × List SeqInfo)
  slots : List (Nat × Nat)

def Fused.slot (s : Fused) (seqId : Nat) : Nat := (s.slots.lookup seqId).getD 0

/-- The requests to add: their ids are neither running nor waiting. -/
def Fused.toAdd (s : Fused) : List (Nat × SeqInfo) :=
  let runningOrPending := s.sched.runningSeqs.map Seq.id ++ s.refSeqIds.drop s.sched.pointer
  (((Dict.keys s.unknown).filter (· ∉ runningOrPending)).insertionSort (· ≤ ·)).filterMap fun seqId =>
    ((s.unknown.lookup seqId).bind List.head?).map (seqId, ·)

/-- `_update_seq_info_with_known_arrive_time_fast_version`. -/
def updateSeqInfo (s : Fused) : Fused :=
  let added := s.toAdd
  let ids := added.map Prod.fst
  let start := s.sched.pointer
  let arriveTimes :=
    s.arriveTimes ++ added.map fun e => max e.2.arriveTime s.totInferenceTime
  let order := earliestFirst (arriveTimes.drop start)
  { s with
    sched := { s.sched with
      inpLens := permuteFrom start order (s.sched.inpLens ++ added.map fun e => e.2.inpLen)
      outLens := permuteFrom start order (s.sched.outLens ++ added.map fun e => e.2.outLen) }
    arriveTimes := permuteFrom start order arriveTimes
    refSeqIds := permuteFrom start order (s.refSeqIds ++ ids)
    slots := added.foldl (fun slots e => Dict.set e.1 e.2.slot slots) s.slots
    unknown := s.unknown.filterMap fun e =>
      if e.1 ∈ ids then if e.2.tail = [] then none else some (e.1, e.2.tail) else some e }

/-- `_check_new_input_requests_support_vertical_fuse`. -/
def checkNewInputRequestsVerticalFuse (cfg : ArrivalConfig) (s : Fused) : Fused :=
  match s.newRequests with
  | none => s
  | some (time, newInpEnd) => { s with
      toArriving := s.receive cfg time newInpEnd
        (slice s.refSeqIds s.sched.pointer newInpEnd)
      refSeqIds := s.reorder cfg newInpEnd s.refSeqIds }

/-- The body of the loop; `reqNum` is the number of requests of all levels. -/
def fusedRound (cfg : ArrivalConfig) (reqNum : Nat) (s : Fused) : Option Fused := do
  let check ← s.checks cfg
  let s := if check then checkNewInputRequestsVerticalFuse cfg (updateSeqInfo s) else s
  let round ← arrivalRound cfg s.slot
    (s.sched.seqIds.length < reqNum && s.sched.seqIds.length < s.refSeqIds.length) s.toArriving
  return { s with toArriving := round }

def fusedLoop (cfg : ArrivalConfig) (reqNum : Nat) : Nat → Fused → Option Fused
  | 0, _ => none
  | fuel + 1, s =>
    if s.sched.unfinishedReqnum = 0 then some s
    else (fusedRound cfg reqNum s).bind (fusedLoop cfg reqNum fuel)

/-- The requests of a level with their ids, the first one recorded at `start`. -/
def Level.infos (l : Level) (start : Nat) : List (Nat × SeqInfo) :=
  (l.seqIds.zip (l.inpLens.zip (l.outLens.zip l.arriveTimes))).zipIdx.map fun e =>
    (e.1.1, ⟨e.1.2.1, e.1.2.2.1, e.1.2.2.2, start + e.2⟩)

/-- The requests of the levels, the first one recorded at `start`. -/
def levelInfos : Nat → List Level → List (Nat × SeqInfo)
  | _, [] => []
  | start, l :: later => l.infos start ++ levelInfos (start + l.inpLens.length) later

/-- `unknown_seq_info`. -/
def unknownSeqInfo (infos : List (Nat × SeqInfo)) : List (Nat × List SeqInfo) :=
  (unique (infos.map Prod.fst)).map fun seqId =>
    (seqId, (infos.filter (·.1 = seqId)).map Prod.snd)

/-- The number of requests of all levels. -/
def reqNum (levels : List Level) : Nat := (levels.map fun l => l.inpLens.length).sum

def Fused.init (first : Level) (later : List Level) : Fused where
  toArriving := .init first.inpLens first.outLens first.arriveTimes (reqNum (first :: later))
  refSeqIds := first.seqIds
  unknown := unknownSeqInfo (levelInfos first.inpLens.length later)
  slots := first.seqIds.zipIdx

/-- `full_infer_progress`: the lists of each level. -/
def splitLevels {α : Type} : List Nat → List α → List (List α)
  | [], _ => []
  | n :: ns, l => l.take n :: splitLevels ns (l.drop n)

/-- `_fake_FCFS_schedule_continuous_model_level_pipeline_vertical_fuse`; without a later level
`np.concatenate` has nothing to join. -/
def fakeFCFSScheduleVerticalFuse (cfg : ArrivalConfig) (fuel : Nat) (first : Level)
    (later : List Level) : Option (Simulation (List (List (List Rng)))) :=
  if later = [] then none
  else (fusedLoop cfg (reqNum (first :: later)) fuel (.init first later)).bind
    (·.result (splitLevels ((first :: later).map fun l => l.inpLens.length)))

end Mil.Fcfs
