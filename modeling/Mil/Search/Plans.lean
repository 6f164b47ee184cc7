import Mathlib.Algebra.GroupWithZero.Nat
import Mathlib.Algebra.Order.Ring.Rat
import Mathlib.Data.List.Sort
import Mathlib.Data.Rat.Defs
import Mil.Fusion.Graph

/-!
# Execution plans and when they fit together

`MyExecPlan` of `benchmarks/search_exec_plans.py` as far as the enumeration of plan groups reads it,
and the test `is_valid_exec_plan_combination`. A plan belongs to a model, given by its id: what the
model reads from and what it is fused of is in a table that all plans share, as they share the model
object. Copying a plan makes a new object with the same arguments of the constructor. The memory
shares are rational numbers.
-/

set_option autoImplicit false

namespace Mil.Search

open Mil.Fusion Mil.Lib

/-! ## Plans -/

/-- `get_key`. -/
structure PlanKey where
  numWorker : Nat
  memPerCompGpu : ℚ
  wldDegree : Nat
  cacheGpuNum : Nat
  dpSize : Nat
deriving DecidableEq, Repr

/-- `MyExecPlan`, with the fields the enumeration reads. -/
structure ExecPlan where
  modelId : Nat
  numWorker : Nat
  wldDegree : Nat
  cacheGpuNum : Nat
  memPerCompGpu : ℚ
  dpSize : Nat
  paramBytePerCacheGpu : ℚ
  numWorker_pos : 0 < numWorker
  dpSize_pos : 0 < dpSize

namespace ExecPlan

def getKey (p : ExecPlan) : PlanKey :=
  ⟨p.numWorker, p.memPerCompGpu, p.wldDegree, p.cacheGpuNum, p.dpSize⟩

def copyThePlan (p : ExecPlan) : ExecPlan :=
  { modelId := p.modelId
    numWorker := p.numWorker
    wldDegree := p.wldDegree
    cacheGpuNum := p.cacheGpuNum
    memPerCompGpu := p.memPerCompGpu
    dpSize := p.dpSize
    paramBytePerCacheGpu := p.paramBytePerCacheGpu
    numWorker_pos := p.numWorker_pos
    dpSize_pos := p.dpSize_pos }

/-- What a plan is told apart by. -/
def ident (p : ExecPlan) : Nat × PlanKey := (p.modelId, p.getKey)

end ExecPlan

/-- `get_tot_worker_num`. -/
def getTotWorkerNum (plans : List ExecPlan) : Nat :=
  (plans.map fun p => p.numWorker * p.dpSize).sum

/-! ## The memory test -/

/-- `itertools.combinations`. -/
def combinations {α : Type} : Nat → List α → List (List α)
  | 0, _ => [[]]
  | _ + 1, [] => []
  | k + 1, a :: l => (combinations k l).map (a :: ·) ++ combinations (k + 1) l

/-- `resources[choice] = resources[choice] - request`. -/
def takeResources (request resources : List ℚ) (choice : List Nat) : List ℚ :=
  (choice.zip request).foldl (fun l x => l.modify x.1 (· - x.2)) resources

/-- `fail_ratio`, or nothing if it is a division by zero, the result of which is never below another
ratio. -/
def failRatio (requests : List (List ℚ)) (resources : List ℚ) : Option ℚ :=
  if resources.sum = 0 then none
  else some ((requests.map fun r =>
    (resources.map fun m => if m < r.headD 0 then m else 0).sum).sum / resources.sum)

/-- `select_best_gpus_for_cache_request`: the first of the choices with the smallest ratio. -/
def selectBestGpusForCacheRequest (request resources : List ℚ) (requests : List (List ℚ)) :
    Option (List Nat) :=
  let choices := combinations request.length (List.range resources.length)
  let best := choices.foldl (fun best choice =>
    if (choice.zip request).any fun x => resources.getD x.1 0 < x.2 then best
    else
      match failRatio requests (takeResources request resources choice), best with
      | none, best => best
      | some ratio, none => some (choice, ratio)
      | some ratio, some old => if ratio < old.2 then some (choice, ratio) else some old)
    (none : Option (List Nat × ℚ))
  best.map Prod.fst

/-- The loop over the requests for cache, and the test of what is left. -/
def serveCacheRequests (bytePerGpu : ℚ) : List (List ℚ) → List ℚ → Bool
  | [], resources => !resources.any fun m => decide (1 / 10 * bytePerGpu < m)
  | request :: requests, resources =>
    match selectBestGpusForCacheRequest request resources requests with
    | none => false
    | some choice =>
      serveCacheRequests bytePerGpu requests (takeResources request resources choice)

/-- The part of `is_valid_exec_plan_combination` that is about memory. -/
def hasValidMemory (plans : List ExecPlan) (bytePerGpu : ℚ) : Bool :=
  let cacheGpuRequiredBytes := plans.flatMap fun p =>
    if 0 < p.cacheGpuNum then
      List.replicate (p.numWorker * p.dpSize) (List.replicate p.cacheGpuNum p.paramBytePerCacheGpu)
    else []
  let cacheGpuRemainingBytes := plans.flatMap fun p =>
    if 0 < p.cacheGpuNum then []
    else List.replicate (p.numWorker * p.dpSize) (bytePerGpu * (1 - p.memPerCompGpu))
  let requests := cacheGpuRequiredBytes.insertionSort fun a b => b.headD 0 ≤ a.headD 0
  serveCacheRequests bytePerGpu requests cacheGpuRemainingBytes

/-- `is_valid_exec_plan_combination`. -/
def isValidExecPlanCombination (plans : List ExecPlan) (totGpuNum : Nat) (bytePerGpu : ℚ) : Bool :=
  if totGpuNum < getTotWorkerNum plans then false else hasValidMemory plans bytePerGpu

/-! ## Plans with equal keys -/

theorem getTotWorkerNum_append (plans plans' : List ExecPlan) :
    getTotWorkerNum (plans ++ plans') = getTotWorkerNum plans + getTotWorkerNum plans' := by
  rw [getTotWorkerNum, List.map_append, List.sum_append]
  rfl

theorem getTotWorkerNum_singleton_pos (p : ExecPlan) : 0 < getTotWorkerNum [p] := by
  show 0 < (p.numWorker * p.dpSize) + 0
  exact Nat.mul_pos p.numWorker_pos p.dpSize_pos

theorem getTotWorkerNum_congr {plans plans' : List ExecPlan}
    (h : plans.map ExecPlan.ident = plans'.map ExecPlan.ident) :
    getTotWorkerNum plans = getTotWorkerNum plans' := by
  have hread : ∀ plans : List ExecPlan, getTotWorkerNum plans =
      ((plans.map ExecPlan.ident).map fun i => i.2.numWorker * i.2.dpSize).sum := fun plans => by
    rw [List.map_map]
    rfl
  rw [hread, hread, h]

/-- Without plans that use cache GPUs the test goes through the plans one by one. -/
theorem hasValidMemory_of_noCache {plans : List ExecPlan} {bytePerGpu : ℚ}
    (hcache : ∀ p ∈ plans, p.cacheGpuNum = 0) : hasValidMemory plans bytePerGpu =
      plans.all fun p => !decide (1 / 10 * bytePerGpu < bytePerGpu * (1 - p.memPerCompGpu)) := by
  have hrequests : (plans.flatMap fun p =>
      if 0 < p.cacheGpuNum then
        List.replicate (p.numWorker * p.dpSize)
          (List.replicate p.cacheGpuNum p.paramBytePerCacheGpu)
      else []) = [] :=
    List.flatMap_eq_nil_iff.mpr fun p hp => by rw [hcache p hp, if_neg (lt_irrefl 0)]
  rw [hasValidMemory, hrequests, List.insertionSort_nil, serveCacheRequests]
  rw [Bool.eq_iff_iff, Bool.not_eq_true', List.any_eq_false, List.all_eq_true]
  simp only [List.mem_flatMap, Bool.not_eq_true', decide_eq_true_eq, decide_eq_false_iff_not]
  constructor
  · intro hall p hp
    refine hall _ ⟨p, hp, ?_⟩
    rw [hcache p hp, if_neg (lt_irrefl 0), List.mem_replicate]
    exact ⟨(Nat.mul_pos p.numWorker_pos p.dpSize_pos).ne', rfl⟩
  · rintro hall m ⟨p, hp, hm⟩
    rw [hcache p hp, if_neg (lt_irrefl 0), List.mem_replicate] at hm
    rw [hm.2]
    exact hall p hp

theorem hasValidMemory_congr {plans plans' : List ExecPlan} {bytePerGpu : ℚ}
    (h : plans.map ExecPlan.ident = plans'.map ExecPlan.ident)
    (hcache : ∀ p ∈ plans, p.cacheGpuNum = 0) :
    hasValidMemory plans bytePerGpu = hasValidMemory plans' bytePerGpu := by
  have hcache' : ∀ p ∈ plans', p.cacheGpuNum = 0 := fun p hp => by
    have hmem : p.ident ∈ plans.map ExecPlan.ident := h ▸ List.mem_map_of_mem hp
    obtain ⟨q, hq, heq⟩ := List.mem_map.mp hmem
    have hkey : q.cacheGpuNum = p.cacheGpuNum := congrArg (fun i => i.2.cacheGpuNum) heq
    rw [← hkey, hcache q hq]
  have hread : ∀ plans : List ExecPlan,
      (plans.all fun p => !decide (1 / 10 * bytePerGpu < bytePerGpu * (1 - p.memPerCompGpu))) =
      (plans.map ExecPlan.ident).all fun i =>
        !decide (1 / 10 * bytePerGpu < bytePerGpu * (1 - i.2.memPerCompGpu)) := fun plans => by
    rw [List.all_map]
    rfl
  rw [hasValidMemory_of_noCache hcache, hasValidMemory_of_noCache hcache', hread, hread, h]

end Mil.Search
