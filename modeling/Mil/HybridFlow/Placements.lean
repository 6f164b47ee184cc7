import Mathlib.Data.Rat.Defs
import Mathlib.Algebra.Order.Ring.Rat
import Mathlib.Data.Nat.Log
import Mil.Lib.Dict
import Mil.Lib.SetPartition

/-!
# Placements and allocations

The helpers of `get_candidate_plan_groups_HybridFlow` of `benchmarks/search_exec_plans.py`. A
placement puts the models into sets; the models of one set are held by the same GPUs. Then every set
gets the least number of GPUs its models fit on, and what is left is given to the sets in multiples
of these numbers.

The memory test is `_GPU_mem_is_enough` for the models with the given ids, all with the same number
of workers. All that is known of it is that a set fits where a larger one does; the test of the
source, which compares the largest demand with a bound, has this property (`gpuMemTest`).
-/

set_option autoImplicit false

namespace Mil.HybridFlow

open Mil.Lib

/-! ## The memory test -/

structure MemTest where
  isEnough : List Nat → Nat → Bool
  mono : ∀ {modelIds modelIds' : List Nat} {numWorker : Nat}, modelIds ⊆ modelIds' →
    isEnough modelIds' numWorker = true → isEnough modelIds numWorker = true

/-- `_GPU_mem_is_enough`, given what every model demands on a GPU with that many workers; without a
value the demand is infinite. -/
def gpuMemIsEnough (memDemand : Nat → Nat → Option ℚ) (bytePerGpu : ℚ) (modelIds : List Nat)
    (numWorker : Nat) : Bool :=
  modelIds.all fun modelId =>
    match memDemand modelId numWorker with
    | some demand => !decide (9 / 10 * bytePerGpu < demand)
    | none => false

def gpuMemTest (memDemand : Nat → Nat → Option ℚ) (bytePerGpu : ℚ) : MemTest where
  isEnough := gpuMemIsEnough memDemand bytePerGpu
  mono hsub hall := List.all_eq_true.mpr fun m hm => List.all_eq_true.mp hall m (hsub hm)

section

variable (test : MemTest) (fullyConnectedGpuUnit totGpuNum : Nat)

/-! ## Placements -/

/-- `smaller[:n] + [cand_modelset] + smaller[n+1:]`, with `first` in front of the set at `n`. -/
def joinAt (first : Nat) (smaller : List (List Nat)) (n : Nat) : List (List Nat) :=
  smaller.take n ++ [first :: smaller.getD n []] ++ smaller.drop (n + 1)

/-- What the generator yields for one placement of the other models. -/
def extendPlacement (first : Nat) (smaller : List (List Nat)) : List (List (List Nat)) :=
  ((List.range smaller.length).filter fun n =>
      test.isEnough (first :: smaller.getD n []) fullyConnectedGpuUnit).map (joinAt first smaller) ++
    if totGpuNum ≤ smaller.length then [] else [[first] :: smaller]

/-- `_get_placements`. Of an empty collection it takes the first element, which is an exception. -/
def getPlacements : List Nat → List (List (List Nat))
  | [] => []
  | [m] => [[[m]]]
  | first :: second :: rest =>
    (getPlacements (second :: rest)).flatMap
      (extendPlacement test fullyConnectedGpuUnit totGpuNum first)

/-! ## The least allocation -/

/-- The loop over the powers of two. For the GPU numbers there are, `int(math.log(n, 2) + 1)` is one
more than the binary logarithm rounded down. -/
def minAllocOf (modelIds : List Nat) : Option Nat :=
  (((List.range (Nat.log 2 totGpuNum + 1)).map (2 ^ ·)).takeWhile (· ≤ fullyConnectedGpuUnit)).find?
    fun numWorker => test.isEnough modelIds numWorker

/-- `min_alloc_cache`, which only this function writes. -/
structure MinAllocCache where
  entries : List (List Nat × Option Nat)
  own : ∀ e ∈ entries, e.2 = minAllocOf test fullyConnectedGpuUnit totGpuNum e.1

variable {test fullyConnectedGpuUnit totGpuNum}

/-- The value of a set, from the cache or computed and stored. -/
def MinAllocCache.get (cache : MinAllocCache test fullyConnectedGpuUnit totGpuNum)
    (modelIds : List Nat) : Option Nat × MinAllocCache test fullyConnectedGpuUnit totGpuNum :=
  match @List.lookup _ _ instBEqOfDecidableEq modelIds cache.entries with
  | some minAlloc => (minAlloc, cache)
  | none =>
    (minAllocOf test fullyConnectedGpuUnit totGpuNum modelIds,
      { entries :=
          Dict.set modelIds (minAllocOf test fullyConnectedGpuUnit totGpuNum modelIds) cache.entries
        own := fun e he => by
          rcases Dict.eq_or_mem_of_mem_set he with rfl | he
          · rfl
          · exact cache.own e he })

/-- The loop over the sets of the placement. -/
def minAllocLoop : List (List Nat) → List Nat →
    MinAllocCache test fullyConnectedGpuUnit totGpuNum →
    Option (List Nat) × MinAllocCache test fullyConnectedGpuUnit totGpuNum
  | [], minAllocs, cache => (if totGpuNum < minAllocs.sum then none else some minAllocs, cache)
  | modelIds :: placement, minAllocs, cache =>
    match cache.get modelIds with
    | (none, cache) => (none, cache)
    | (some minAlloc, cache) => minAllocLoop placement (minAllocs ++ [minAlloc]) cache

/-- `_get_min_alloc`. -/
def getMinAlloc (placement : List (List Nat))
    (cache : MinAllocCache test fullyConnectedGpuUnit totGpuNum) :
    Option (List Nat) × MinAllocCache test fullyConnectedGpuUnit totGpuNum :=
  if totGpuNum < placement.length then (none, cache) else minAllocLoop placement [] cache

end

/-! ## Additional allocations -/

/-- `backtrack`, with the entries of `min_allocs` the assignment has no value for yet. -/
def backtrack (oriRemainingGpuNum : Int) : List Nat → List Nat → Int → List (List Nat)
  | [], currentAssignment, _ =>
    if (currentAssignment.sum : Int) ≤ oriRemainingGpuNum then [currentAssignment] else []
  | minAlloc :: minAllocs, currentAssignment, remainingMachines =>
    ((List.range (remainingMachines + 1).toNat).filter fun machines =>
      machines % minAlloc = 0).flatMap fun machines : Nat =>
        backtrack oriRemainingGpuNum minAllocs (currentAssignment ++ [machines])
          (remainingMachines - (machines : Int))

/-- `enum_allocs`. -/
def enumAllocs (totGpuNum : Nat) (minAllocs : List Nat) : List (List Nat) :=
  let remainingGpuNum : Int := totGpuNum - (minAllocs.sum : Int)
  backtrack remainingGpuNum minAllocs [] remainingGpuNum

end Mil.HybridFlow
