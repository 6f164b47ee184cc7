import Mil.Fcfs.Simulator

/-!
# Restarting a schedule

`_update_fake_FCFS_schedule_metadata` of `benchmarks/fake_scheduling.py`: given the metadata of a
schedule and the iteration it is stopped after, the metadata of the schedule that continues from
there. The requests that are running at the stop have to be prefilled again; the prefill generates
a token, which the first decode step of each of them generated before, so that step is dropped.

The ranges of all requests are in two arrays, cut into requests by a third one of cumulated
counts. `rng_starts - (stop_iter_i + 1)` is only used through `np.maximum(…, 0)`, which is
subtraction on natural numbers; `new_rng_ends >= 0` is the comparison before the subtraction.
Latencies and throughputs are values of an arbitrary type with the arithmetic the code does on
them, and the cost table is a parameter: it gives one value for each iteration it is asked about.
`none` is a failed assertion.
-/

set_option autoImplicit false

namespace Mil.Fcfs

open Mil.Lib

/-- `cum_rng_nums`, `rng_starts` and `rng_ends`. -/
structure RngArrays where
  cumRngNums : List Nat
  rngStarts : List Nat
  rngEnds : List Nat
deriving Repr, DecidableEq

structure Metadata (L : Type) where
  cumsumLatencys : List L
  rngs : RngArrays
  isPrefillSteps : List Bool
  throughput : List L
deriving Repr, DecidableEq

abbrev Log := Nat × Nat × Nat × Nat

/-- The cost table: `estimate_cost_from_predicted_logs` for prefill and decode logs, and
`comp_throughput_for_each_iteration_given_logs` for prefill logs, decode logs, flags and cumulated
latencies. -/
structure CostTable (L : Type) where
  prefillLatencys : List Log → List (Int × Int) → List L
  decodeLatencys : List Log → List L
  throughput : List Log → List (Int × Int) → List Log → List Bool → List L → List L
  prefillLatencys_length : ∀ logs valid, (prefillLatencys logs valid).length = logs.length
  decodeLatencys_length : ∀ logs, (decodeLatencys logs).length = logs.length
  throughput_length : ∀ prefill valid decode flags (latencys : List L),
    latencys.length = flags.length →
    (throughput prefill valid decode flags latencys).length = flags.length

/-- `get_info_at_stop_time`: how many tokens each request has generated when iteration
`stopIter` ends. -/
def getInfoAtStopTime (a : RngArrays) (stopIter : Nat) : List Nat :=
  let finishedLens := List.zipWith
    (fun s e => if s ≤ stopIter then min stopIter e - s + 1 else 0) a.rngStarts a.rngEnds
  segDiff (cumsum0 finishedLens) a.cumRngNums

/-! ## The ranges after the stop -/

/-- Ranges that end before iteration `start` are left out, the others are counted from there. The
first component is the number of ranges left of each request. -/
def aliveRngs (a : RngArrays) (start : Nat) : List Nat × RngArrays :=
  let alive := a.rngEnds.map fun e => decide (start ≤ e)
  let aliveRngNums := segDiff (cumsum0 (alive.map Bool.toNat)) a.cumRngNums
  (aliveRngNums,
    { cumRngNums := cumsum0 aliveRngNums
      rngStarts := mask (a.rngStarts.map (· - start)) alive
      rngEnds := mask (a.rngEnds.map (· - start)) alive })

/-- The requests whose next iteration is a decode step. -/
def runningSeqIds (isPrefillSteps : List Bool) (start : Nat) (aliveRngNums : List Nat)
    (a : RngArrays) : List Nat :=
  let alive := aliveRngNums.map fun num => decide (0 < num)
  let startFromPrefillstep := (mask a.cumRngNums.dropLast alive).map fun i =>
    isPrefillSteps.getD (a.rngStarts.getD i 0 + start) false
  mask (mask (List.range aliveRngNums.length) alive) (startFromPrefillstep.map not)

/-- `new_rng_starts[running_seq_first_rng_ids] += 1`, and the removal of the ranges that become
empty. The second component is `first_decode_iter_is`. -/
def dropFirstDecode (running : List Nat) (a : RngArrays) : RngArrays × List Nat :=
  let firstRngIds := running.map fun id => a.cumRngNums.getD id 0
  let firstDecodeIters := firstRngIds.map fun i => a.rngStarts.getD i 0
  let starts := firstRngIds.foldl (fun l i => l.modify i (· + 1)) a.rngStarts
  let invalid := List.zipWith (fun s e => decide (e < s)) starts a.rngEnds
  let reduceRngNums := segDiff (cumsum0 (invalid.map Bool.toNat)) a.cumRngNums
  let keep := List.zipWith (fun s e => decide (s ≤ e)) starts a.rngEnds
  ({ cumRngNums := a.cumRngNums.head?.toList ++
      List.zipWith (· - ·) a.cumRngNums.tail (cumsum reduceRngNums)
     rngStarts := mask starts keep
     rngEnds := mask a.rngEnds keep }, firstDecodeIters)

/-! ## Iterations that disappear -/

/-- `l[i:-1] = l[i+1:]`, then `l = l[:-1]`. -/
def removeAt {β : Type} (i : Nat) (l : List β) : List β :=
  (l.take i ++ l.drop (i + 1)).take (l.length - 1)

/-- `((i >= new_rng_starts) * (i <= new_rng_ends)).any()`. -/
def attendedBy (a : RngArrays) (i : Nat) : Bool :=
  (List.zipWith (fun s e => decide (s ≤ i ∧ i ≤ e)) a.rngStarts a.rngEnds).any id

/-- The body of the loop over the unique `first_decode_iter_is`. -/
def removeIfUnattended {L : Type} (prefillNum : Nat) (m : Metadata L) (i : Nat) : Metadata L :=
  if attendedBy m.rngs i then m
  else
    { cumsumLatencys := removeAt (i + prefillNum) m.cumsumLatencys
      rngs := { m.rngs with
        rngStarts := m.rngs.rngStarts.map fun s => if i ≤ s then s - 1 else s
        rngEnds := m.rngs.rngEnds.map fun e => if i ≤ e then e - 1 else e }
      isPrefillSteps := removeAt (i + prefillNum) m.isPrefillSteps
      throughput := removeAt (i + prefillNum) m.throughput }

/-! ## The prefill ranges -/

/-- `need_add_rng`: whether the prefill iteration of a request is a range of its own. A running
request without ranges left needs one, and one whose next range does not follow the prefill. -/
def needAddRng (running : List Nat) (inferProgress : List (List Rng)) (a : RngArrays) (id : Nat) :
    Bool :=
  let first := a.cumRngNums.getD id 0
  if id ∈ running then
    if first < a.cumRngNums.getD (id + 1) 0 then
      decide (((inferProgress.getD id []).headD (0, 0)).2 + 1 < a.rngStarts.getD first 0)
    else true
  else false

/-- The body of the loop that fills `tmp_rng_starts` and `tmp_rng_ends`, for the request `id`:
`cum` is `alive_cum_rng_nums`, and `a` has the ranges to copy. -/
def fillRngs (inferProgress : List (List Rng)) (a : RngArrays) (cum : List Nat)
    (needAdd : List Bool) (tmp : List Nat × List Nat) (id : Nat) : List Nat × List Nat :=
  let i := cum.getD id 0
  let j := cum.getD (id + 1) 0
  if i = j then tmp
  else
    let starts := slice a.rngStarts (a.cumRngNums.getD id 0) (a.cumRngNums.getD (id + 1) 0)
    let ends := slice a.rngEnds (a.cumRngNums.getD id 0) (a.cumRngNums.getD (id + 1) 0)
    let prefill := inferProgress.getD id []
    if needAdd.getD id false then
      ((writeSlice tmp.1 (i + 1) j starts).set i (prefill.headD (0, 0)).1,
        (writeSlice tmp.2 (i + 1) j ends).set i (prefill.headD (0, 0)).2)
    else
      let tmp := (writeSlice tmp.1 i j starts, writeSlice tmp.2 i j ends)
      if prefill.length = 0 then tmp
      else (tmp.1.set i (prefill.headD (0, 0)).1, tmp.2)

def addPrefillRngs (num : Nat) (running : List Nat) (inferProgress : List (List Rng))
    (a : RngArrays) : RngArrays :=
  let needAdd := (List.range num).map (needAddRng running inferProgress a)
  let cum := a.cumRngNums.head?.toList ++
    List.zipWith (· + ·) a.cumRngNums.tail (cumsum (needAdd.map Bool.toNat))
  let size := a.rngStarts.length + (needAdd.map Bool.toNat).sum
  let tmp := (List.range num).foldl (fillRngs inferProgress a cum needAdd)
    (List.replicate size 0, List.replicate size 0)
  ⟨cum, tmp.1, tmp.2⟩

/-! ## The update -/

/-- `np.unique(l, return_index=True)`. -/
def uniqueIndex (l : List Nat) : List Nat × List Nat := (unique l, (unique l).map l.idxOf)

/-- The requests that are left, renumbered, and the assertions at the end. -/
def finishUpdate {L : Type} (m : Metadata L) : Option (Metadata L × List Nat) := do
  let (cum, indices) := uniqueIndex m.rngs.cumRngNums
  let validIndices := indices.tail.map (· - 1)
  let lastIter ← m.rngs.rngEnds.max?
  if m.rngs.rngStarts.length = m.rngs.rngEnds.length ∧
      m.cumsumLatencys.length = m.isPrefillSteps.length ∧
      lastIter + 1 = m.isPrefillSteps.length ∧
      cum.getLast? = some m.rngs.rngStarts.length then
    return ({ m with rngs := { m.rngs with cumRngNums := cum } }, validIndices)
  else none

section

variable {L : Type} [Zero L] [Add L] [Sub L] [Mul L] [Div L]

/-- `np.cumsum(l)`, of latencies. -/
def cumsumLatency (l : List L) : List L := (l.scanl (· + ·) 0).tail

/-- Latencies, flags and throughputs of the prefill steps `p` followed by the iterations of `m`
from `start` on, `start > 0`. -/
def prependPrefill (cost : CostTable L) (m : Metadata L) (start : Nat) (p : Progress)
    (rngs : RngArrays) : Metadata L :=
  let isPrefillSteps := List.replicate p.prefillLogs.length true ++ m.isPrefillSteps.drop start
  let prefillLatencys := cost.prefillLatencys p.prefillLogs p.validPrefillLogs
  let cumPrefillLatencys := cumsumLatency prefillLatencys
  let stopLatency := m.cumsumLatencys.getD (start - 1) 0
  let remainingLatencys := (m.cumsumLatencys.drop start).map fun l =>
    prefillLatencys.foldl (· + ·) 0 + (l - stopLatency)
  let prefillThroughput := cost.throughput p.prefillLogs p.validPrefillLogs []
    (isPrefillSteps.take p.prefillLogs.length) cumPrefillLatencys
  let cumFlops := List.zipWith (· * ·) (m.throughput.drop (start - 1))
    (m.cumsumLatencys.drop (start - 1))
  let remainingCumFlops := cumFlops.tail.map (· - cumFlops.headD 0)
  let remainingThroughput :=
    if cumPrefillLatencys.length = 0 then List.zipWith (· / ·) remainingCumFlops remainingLatencys
    else
      let prefillFlops := prefillThroughput.getLastD 0 * cumPrefillLatencys.getLastD 0
      List.zipWith (fun flops l => (prefillFlops + flops) / l) remainingCumFlops remainingLatencys
  { cumsumLatencys := cumPrefillLatencys ++ remainingLatencys
    rngs := rngs
    isPrefillSteps := isPrefillSteps
    throughput := prefillThroughput ++ remainingThroughput }

/-- `_update_fake_FCFS_schedule_metadata`. -/
def updateMetadata (cost : CostTable L) (maxNumBatchedTokens : Nat) (oldInpLens : List Nat)
    (m : Metadata L) (stopIter : Nat) : Option (Metadata L × List Nat) := do
  let (aliveRngNums, alive) := aliveRngs m.rngs (stopIter + 1)
  let running := runningSeqIds m.isPrefillSteps (stopIter + 1) aliveRngNums alive
  let finishedLens := getInfoAtStopTime m.rngs stopIter
  let prompts := running.map fun id => (oldInpLens.getD id 0 + finishedLens.getD id 0, id)
  let p ← updatePrefillLogs maxNumBatchedTokens prompts
    ⟨[], [], List.replicate oldInpLens.length [], 0⟩
  let (rngs, firstDecodeIters) := dropFirstDecode running alive
  let m := prependPrefill cost m (stopIter + 1) p rngs
  if m.rngs.cumRngNums.getLast? = some m.rngs.rngStarts.length then
    let prefillNum := p.prefillLogs.length
    let m := (unique firstDecodeIters).foldl (removeIfUnattended prefillNum) m
    let rngs := { m.rngs with
      rngStarts := m.rngs.rngStarts.map (· + prefillNum)
      rngEnds := m.rngs.rngEnds.map (· + prefillNum) }
    finishUpdate { m with
      rngs := addPrefillRngs oldInpLens.length running p.inferProgress rngs }
  else none

/-! ## From a schedule to its metadata -/

/-- `latencys[is_prefill_steps==True] = prefill_latencys` and the same for decode steps. -/
def mergeLatencys : List Bool → List L → List L → Option (List L)
  | [], [], [] => some []
  | true :: flags, l :: prefill, decode => (mergeLatencys flags prefill decode).map (l :: ·)
  | false :: flags, prefill, l :: decode => (mergeLatencys flags prefill decode).map (l :: ·)
  | _, _, _ => none

/-- `get_cumLatency_inferRng_info` and the throughputs, for what the simulator returns. -/
def Schedule.metadata (cost : CostTable L) (r : Schedule) : Option (Metadata L) := do
  let latencys ← mergeLatencys r.isPrefillSteps
    (cost.prefillLatencys r.prefillLogs r.validPrefillLogs) (cost.decodeLatencys r.logs)
  let cumsumLatencys := cumsumLatency latencys
  return {
    cumsumLatencys := cumsumLatencys
    rngs :=
      { cumRngNums := cumLens r.inferProgress
        rngStarts := r.inferProgress.flatten.map Prod.fst
        rngEnds := r.inferProgress.flatten.map Prod.snd }
    isPrefillSteps := r.isPrefillSteps
    throughput := cost.throughput r.prefillLogs r.validPrefillLogs r.logs r.isPrefillSteps
      cumsumLatencys }

end

end Mil.Fcfs
