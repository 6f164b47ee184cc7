import Mil.InferStage.Credit
import Mil.InferStage.Partition

/-!
# A worker at the stop

What a worker's simulation says of the requests it was run for, and what the worker reports at a
stop time: for each request the tokens of the iterations up to the stop iteration, taken off its
output length. The cache does not show, and putting the levels of a fused plan into one array and
cutting it again gives each level its own tokens.
-/

set_option autoImplicit false

namespace Mil.InferStage

open Mil.Lib Mil.Fcfs

variable {τ : Type}

/-- The simulation `w` was run for `requests`, with the ranges `rows`: iterations end one after the
other from `0` on, and every request takes part in as many as it has tokens left. -/
structure SimulatedBy [LinearOrder τ] [Zero τ] (w : WorkerProgress τ)
    (requests : List (List Request)) (rows : List (List (List Rng))) : Prop where
  rngs_eq : w.rngs = rows.map RngArrays.ofRows
  tokens : rows.map (·.map iterNum) = requests.map (·.map Request.outLen)
  increasing : ∀ level ∈ rows, ∀ row ∈ level, Increasing 0 row
  ends : ∀ level ∈ rows, ∀ row ∈ level, EndsBefore row w.cumsumLatencys.length
  sorted : w.cumsumLatencys.Pairwise (· ≤ ·)
  nonneg : ∀ t ∈ w.cumsumLatencys, 0 ≤ t

/-- The iterations request `i` of level `k` takes part in. -/
def WorkerProgress.row (w : WorkerProgress τ) (k i : Nat) : List Rng :=
  (w.rngs.getD k ⟨[], [], []⟩).row i

section

variable [LinearOrder τ]

/-- `finished_lens` of a worker, level by level; a worker without iterations has none. -/
def WorkerProgress.finishedAt (w : WorkerProgress τ) (stageStopTime : τ) : List (List Nat) :=
  match w.cumsumLatencys.getLast? with
  | none => []
  | some last => w.finishedLens (stopIter w.cumsumLatencys last stageStopTime)

variable [Zero τ] {w : WorkerProgress τ} {requests : List (List Request)}
  {rows : List (List (List Rng))}

theorem SimulatedBy.length_eq (h : SimulatedBy w requests rows) : rows.length = requests.length := by
  have := congrArg List.length h.tokens
  rwa [List.length_map, List.length_map] at this

theorem SimulatedBy.level (h : SimulatedBy w requests rows) (k : Nat) :
    (rows.getD k []).map iterNum = (requests.getD k []).map Request.outLen := by
  have := congrArg (fun l => l.getD k []) h.tokens
  simp only [List.getD_eq_getElem?_getD, List.getElem?_map] at this ⊢
  cases hr : rows[k]? <;> cases hq : requests[k]? <;> simp_all

theorem SimulatedBy.length_level (h : SimulatedBy w requests rows) (k : Nat) :
    (rows.getD k []).length = (requests.getD k []).length := by
  have := congrArg List.length (h.level k)
  rwa [List.length_map, List.length_map] at this

omit [LinearOrder τ] [Zero τ] in
theorem mem_of_mem_getD {α : Type} {l : List (List α)} {k : Nat} {a : α} (h : a ∈ l.getD k []) :
    ∃ level ∈ l, a ∈ level := by
  rw [List.getD_eq_getElem?_getD] at h
  cases hk : l[k]? with
  | none => simp [hk] at h
  | some level => exact ⟨level, List.mem_of_getElem? hk, by simpa [hk] using h⟩

theorem SimulatedBy.row_eq (h : SimulatedBy w requests rows) {k i : Nat} {row : List Rng}
    (hrow : (rows.getD k [])[i]? = some row) : w.row k i = row := by
  rw [WorkerProgress.row, h.rngs_eq]
  rw [List.getD_eq_getElem?_getD] at hrow ⊢
  rw [List.getElem?_map]
  cases hk : rows[k]? with
  | none => simp [hk] at hrow
  | some level =>
    rw [hk, Option.getD_some] at hrow
    exact row_ofRows hrow

/-- A worker without iterations has no requests that want tokens. -/
theorem SimulatedBy.eq_nil (h : SimulatedBy w requests rows) (hnil : w.cumsumLatencys = [])
    (hpos : ∀ level ∈ requests, ∀ r ∈ level, 0 < r.outLen) (k : Nat) : requests.getD k [] = [] := by
  refine List.eq_nil_iff_forall_not_mem.mpr fun r hr => ?_
  have hlevel := h.level k
  obtain ⟨level, hl, hrl⟩ := mem_of_mem_getD hr
  have hout := List.mem_map_of_mem (f := Request.outLen) hr
  rw [← hlevel] at hout
  obtain ⟨row, hrow, heq⟩ := List.mem_map.mp hout
  obtain ⟨rl, hrl', hrowl⟩ := mem_of_mem_getD hrow
  have hends := h.ends rl hrl' row hrowl
  have hempty : row = [] := List.eq_nil_iff_forall_not_mem.mpr fun q hq => by
    have := hends q hq
    rw [hnil] at this
    exact Nat.not_lt_zero _ this
  rw [hempty, iterNum_nil] at heq
  exact Nat.lt_irrefl 0 (heq ▸ hpos level hl r hrl)

theorem SimulatedBy.finishedLens (h : SimulatedBy w requests rows) (i k : Nat) :
    (w.finishedLens i).getD k [] = (rows.getD k []).map (doneBy i) := by
  rw [WorkerProgress.finishedLens, h.rngs_eq, List.map_map]
  simp only [List.getD_eq_getElem?_getD, List.getElem?_map]
  cases rows[k]? with
  | none => rfl
  | some level => exact getInfoAtStopTime_ofRows level i

/-- A request is not credited with more tokens than it wants. -/
theorem SimulatedBy.finished_le (h : SimulatedBy w requests rows) {i k j : Nat} {r : Request}
    (hr : (requests.getD k [])[j]? = some r) :
    ∃ row, (rows.getD k [])[j]? = some row ∧
      ((w.finishedLens i).getD k [])[j]? = some (doneBy i row) ∧ doneBy i row ≤ r.outLen := by
  have hlevel := congrArg (·[j]?) (h.level k)
  simp only [List.getElem?_map, hr, Option.map_some] at hlevel
  obtain ⟨row, hrow, hout⟩ := Option.map_eq_some_iff.mp hlevel
  obtain ⟨level, hl, hrl⟩ := mem_of_mem_getD (List.mem_of_getElem? hrow)
  refine ⟨row, hrow, ?_, ?_⟩
  · rw [h.finishedLens, List.getElem?_map, hrow, Option.map_some]
  · rw [← hout, ← iterNum_restFrom (h.increasing level hl row hrl) i]
    exact Nat.le_add_left _ _

/-! ## The update of a fused plan -/

omit [LinearOrder τ] [Zero τ] in
theorem splitLengths_flatten {α : Type} (rows : List (List α)) :
    (rows.map List.length).splitLengths rows.flatten = rows := by
  induction rows with
  | nil => rfl
  | cons row rows ih =>
    rw [List.map_cons, List.flatten_cons, List.splitLengths_cons, List.take_left', List.drop_left',
      ih] <;> rfl

omit [LinearOrder τ] [Zero τ] in
theorem zipWith_flatten {α β γ : Type} (f : α → β → γ) {xs : List (List α)} {ys : List (List β)}
    (h : xs.map List.length = ys.map List.length) :
    List.zipWith f xs.flatten ys.flatten = (List.zipWith (List.zipWith f) xs ys).flatten := by
  induction xs generalizing ys with
  | nil => simp
  | cons x xs ih =>
    cases ys with
    | nil => simp at h
    | cons y ys =>
      obtain ⟨hxy, hrest⟩ := List.cons.inj h
      rw [List.flatten_cons, List.flatten_cons, List.zipWith_append hxy, ih hrest,
        List.zipWith_cons_cons, List.flatten_cons]

omit [LinearOrder τ] [Zero τ] in
/-- One array for all levels, cut again, is as good as an array for each level. -/
theorem newInpOutLensForModels_eq {i : Nat}
    (hlengths : requests.map List.length = (w.finishedLens i).map List.length) :
    newInpOutLensForModels w requests i = newInpOutLens w requests i := by
  have hcut : requests.map List.length =
      (List.zipWith (List.zipWith Request.advance) requests (w.finishedLens i)).map List.length := by
    have hlen := congrArg List.length hlengths
    simp only [List.length_map] at hlen
    refine List.ext_getElem? fun k => ?_
    have hk := congrArg (·[k]?) hlengths
    simp only [List.getElem?_map, List.getElem?_zipWith] at hk ⊢
    cases hr : requests[k]? <;> cases hf : (w.finishedLens i)[k]? <;> simp_all
  rw [newInpOutLensForModels, newInpOutLens]
  simp only [zipWith_flatten _ hlengths]
  rw [hcut, splitLengths_flatten, List.map_zipWith]
  rfl

/-! ## The cache -/

variable {p : ExecPlan τ} {dpId : Nat}

/-- What a worker reports at a stop iteration. -/
def ExecPlan.infoAt (p : ExecPlan τ) (requests : List (List Request)) (dpId i : Nat) :
    List (List Request) :=
  if p.fused then newInpOutLensForModels (p.progress dpId) requests i
  else newInpOutLens (p.progress dpId) requests i

/-- The cache holds what would be computed. -/
def CacheOk (p : ExecPlan τ) (requests : List (List Request)) (dpId : Nat)
    (cache : StopTimeInfo) : Prop :=
  ∀ i info, cache.lookup i = some info → info = p.infoAt requests dpId i

omit [Zero τ] in
/-- The worker's report, whatever is in the cache. -/
theorem updateWorker_eq {cache : StopTimeInfo} (hcache : CacheOk p requests dpId cache) (stop : τ) :
    (p.updateWorker requests dpId stop cache).1 =
        (match (p.progress dpId).cumsumLatencys.getLast? with
        | none => requests.map fun _ => []
        | some last => p.infoAt requests dpId (stopIter (p.progress dpId).cumsumLatencys last stop)) ∧
      CacheOk p requests dpId (p.updateWorker requests dpId stop cache).2 := by
  rw [ExecPlan.updateWorker]
  cases hlast : (p.progress dpId).cumsumLatencys.getLast? with
  | none => exact ⟨rfl, hcache⟩
  | some last =>
    simp only
    set i := stopIter (p.progress dpId).cumsumLatencys last stop
    cases hhit : cache.lookup i with
    | some info => exact ⟨hcache i info hhit, hcache⟩
    | none =>
      refine ⟨rfl, fun j info hj => ?_⟩
      rw [List.lookup_cons] at hj
      by_cases hji : j = i
      · subst hji
        simp only [beq_self_eq_true] at hj
        exact (Option.some.inj hj).symm
      · rw [beq_false_of_ne hji] at hj
        exact hcache j info hj

omit [Zero τ] in
theorem cacheOk_cacheStopTimeInfo : CacheOk p requests dpId (p.cacheStopTimeInfo requests dpId) := by
  rw [ExecPlan.cacheStopTimeInfo]
  generalize hinit : ([] : StopTimeInfo) = cache
  have hcache : CacheOk p requests dpId cache := by
    subst hinit
    exact fun _ _ h => absurd h (by simp)
  clear hinit
  induction p.earlierStops generalizing cache with
  | nil => exact hcache
  | cons stop stops ih => exact ih _ (updateWorker_eq hcache stop).2

/-- What is left of the requests of a level, as the worker reports it. -/
theorem newInpOutLensOf_getD [Sub τ] {s : ModelStates} {stop : τ}
    (h : SimulatedBy (p.progress dpId) (p.dpRequests s dpId) rows)
    (hpos : ∀ level ∈ p.dpRequests s dpId, ∀ r ∈ level, 0 < r.outLen) (k : Nat) :
    (p.newInpOutLensOf s stop dpId).getD k [] =
      remaining ((p.dpRequests s dpId).getD k [])
        (((p.progress dpId).finishedAt stop).getD k []) := by
  rw [ExecPlan.newInpOutLensOf, (updateWorker_eq cacheOk_cacheStopTimeInfo stop).1,
    WorkerProgress.finishedAt]
  cases hlast : (p.progress dpId).cumsumLatencys.getLast? with
  | none =>
    rw [h.eq_nil (List.getLast?_eq_none_iff.mp hlast) hpos]
    simp only [List.getD_eq_getElem?_getD, List.getElem?_map]
    cases (p.dpRequests s dpId)[k]? <;> rfl
  | some last =>
    simp only
    set i := stopIter (p.progress dpId).cumsumLatencys last stop
    have hinfo : p.infoAt (p.dpRequests s dpId) dpId i =
        newInpOutLens (p.progress dpId) (p.dpRequests s dpId) i := by
      rw [ExecPlan.infoAt]
      split
      · refine newInpOutLensForModels_eq (List.ext_getElem? fun j => ?_)
        have hj := h.length_level j
        have hf := congrArg List.length (h.finishedLens i j)
        have hlen := h.length_eq
        have hw : ((p.progress dpId).finishedLens i).length = rows.length := by
          rw [WorkerProgress.finishedLens, h.rngs_eq, List.length_map, List.length_map]
        rw [List.length_map, hj] at hf
        simp only [List.getElem?_map]
        rcases Nat.lt_or_ge j (p.dpRequests s dpId).length with hlt | hge
        · have hlt' : j < ((p.progress dpId).finishedLens i).length := by omega
          rw [List.getD_eq_getElem?_getD, List.getD_eq_getElem?_getD,
            List.getElem?_eq_getElem hlt, List.getElem?_eq_getElem hlt'] at hf
          rw [List.getElem?_eq_getElem hlt, List.getElem?_eq_getElem hlt']
          exact congrArg some hf.symm
        · rw [List.getElem?_eq_none hge, List.getElem?_eq_none (by omega)]
          rfl
      · rfl
    rw [hinfo, newInpOutLens]
    have hlen : ((p.progress dpId).finishedLens i).length = (p.dpRequests s dpId).length := by
      rw [WorkerProgress.finishedLens, h.rngs_eq, List.length_map, List.length_map, h.length_eq]
    simp only [List.getD_eq_getElem?_getD, List.getElem?_zipWith]
    rcases Nat.lt_or_ge k (p.dpRequests s dpId).length with hlt | hge
    · rw [List.getElem?_eq_getElem hlt, List.getElem?_eq_getElem (hlen.symm ▸ hlt)]
      rfl
    · rw [List.getElem?_eq_none hge]
      rfl

end

end Mil.InferStage
