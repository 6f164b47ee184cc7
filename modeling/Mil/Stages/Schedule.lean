import Mil.Stages.Refine

/-!
# When the stages of a non-preemptive schedule are right

A task that reads from another one is kept running until that one ends, on GPUs which the solver has
given to later tasks by then. If a stage ends in between, such a later task comes into a stage with the
prolonged one, or its end has passed before it was started and it never runs (`task_left_out`).
Otherwise the stages are right, and this is exact: `staged_iff_separated`.
-/

set_option autoImplicit false

namespace Mil.Stages

open Mil.Lib

namespace LpResult

variable (lp : LpResult)

/-! ## The assumptions on the solver -/

/-- Tasks that share a GPU do not overlap in time. -/
def NonOverlapping : Prop :=
  ∀ e ∈ lp.selection, ∀ e' ∈ lp.selection, e.1 ≠ e'.1 → ∀ g ∈ e.2.selectedGpus,
    g ∈ e'.2.selectedGpus → lp.plannedEnd e.1 ≤ e'.2.startTime ∨ lp.plannedEnd e'.1 ≤ e.2.startTime

/-- No task starts before its input tasks. -/
def InputsStartFirst : Prop :=
  ∀ model ∈ lp.models, ∀ inp ∈ model.inputModelIds,
    (lp.info (lp.taskOf inp)).startTime ≤ (lp.info (lp.taskOf model.modelId)).startTime

/-! ## The property and the condition -/

/-- Every task runs in stages that follow each other, the tasks of a GPU start in the order of their
start times, and no two tasks of a stage share a GPU. -/
structure Staged (stages : List (List ExecPlan)) : Prop where
  run : ∀ e ∈ lp.selection, ∃ first last : Nat, first ≤ last ∧
    ∀ k, (∃ stage, stages[k]? = some stage ∧ e.2.plan ∈ stage) ↔ first ≤ k ∧ k ≤ last
  ordered : ∀ e ∈ lp.selection, ∀ e' ∈ lp.selection, ∀ g ∈ e.2.selectedGpus,
    g ∈ e'.2.selectedGpus → e.2.startTime < e'.2.startTime →
    stages.findIdx (e.2.plan ∈ ·) < stages.findIdx (e'.2.plan ∈ ·)
  nodup : ∀ stage ∈ stages, stage.Nodup
  exclusive : ∀ stage ∈ stages, ∀ e ∈ lp.selection, ∀ e' ∈ lp.selection, e.2.plan ∈ stage →
    e'.2.plan ∈ stage → ∀ g ∈ e.2.selectedGpus, g ∈ e'.2.selectedGpus → e = e'

/-- No task ends at the beginning, and when a task comes after another one on a GPU, then it starts
after the beginning, ends later, and no task ends between its start and the end of the other one. -/
structure Separated : Prop where
  end_pos : ∀ e ∈ lp.selection, 0 < lp.latestEnd e.1
  later : ∀ e ∈ lp.selection, ∀ e' ∈ lp.selection, ∀ g ∈ e.2.selectedGpus,
    g ∈ e'.2.selectedGpus → lp.comesBefore e.1 e'.1 →
    lp.latestEnd e.1 < lp.latestEnd e'.1 ∧ 0 < e'.2.startTime ∧
      ∀ w ∈ lp.selection, lp.latestEnd w.1 < e'.2.startTime ∨ lp.latestEnd e.1 ≤ lp.latestEnd w.1

variable {lp} (h : lp.WellFormed)

include h

theorem timeline_separated_iff : (lp.timeline h).Separated ↔ lp.Separated := by
  have hgpus {e : Nat × Selected} (he : e ∈ lp.selection) :
      (lp.timeline h).gpus e.1 = e.2.selectedGpus := congrArg Selected.selectedGpus (h.info_eq he)
  have hstart {e : Nat × Selected} (he : e ∈ lp.selection) :
      (lp.timeline h).start e.1 = e.2.startTime := congrArg Selected.startTime (h.info_eq he)
  have hkey {e : Nat × Selected} (he : e ∈ lp.selection) : e.1 ∈ (lp.timeline h).tasks :=
    List.mem_map_of_mem he
  constructor
  · intro hsep
    refine ⟨fun e he => hsep.finish_pos e.1 (hkey he), fun e he e' he' g hg hg' hbefore => ?_⟩
    rw [← hgpus he] at hg
    rw [← hgpus he'] at hg'
    rw [← hstart he']
    exact ⟨hsep.finish_lt _ (hkey he) _ (hkey he') g hg hg' hbefore,
      hsep.start_pos _ (hkey he) _ (hkey he') g hg hg' hbefore,
      fun w hw => hsep.gap _ (hkey he) _ (hkey he') g hg hg' hbefore _ (hkey hw)⟩
  · intro hsep
    have hlater {u v g : Nat} (hu : u ∈ (lp.timeline h).tasks) (hv : v ∈ (lp.timeline h).tasks)
        (hgu : g ∈ (lp.timeline h).gpus u) (hgv : g ∈ (lp.timeline h).gpus v)
        (hbefore : lp.comesBefore u v) := hsep.later _ (h.mem hu) _ (h.mem hv) g hgu hgv hbefore
    constructor
    case finish_pos => exact fun t ht => hsep.end_pos _ (h.mem ht)
    case finish_lt => exact fun u hu v hv g hgu hgv hb => (hlater hu hv hgu hgv hb).1
    case start_pos => exact fun u hu v hv g hgu hgv hb => (hlater hu hv hgu hgv hb).2.1
    case gap => exact fun u hu v hv g hgu hgv hb w hw => (hlater hu hv hgu hgv hb).2.2 _ (h.mem hw)

/-! ## Costs and plans -/

omit h in
theorem le_prolong (ends : Nat → ℚ) (model : Model) (t : Nat) : ends t ≤ lp.prolong ends model t := by
  rw [prolong]
  cases model.inputModelIds with
  | nil => exact le_rfl
  | cons inp inps =>
    show ends t ≤ Function.update ends (lp.taskOf model.modelId)
      (max (ends (lp.taskOf model.modelId)) (ends (lp.taskOf inp))) t
    by_cases ht : t = lp.taskOf model.modelId
    · subst ht
      rw [Function.update_self]
      exact le_max_left _ _
    · rw [Function.update_of_ne ht]

omit h in
theorem plannedEnd_le_latestEnd (t : Nat) : lp.plannedEnd t ≤ lp.latestEnd t := by
  have hfold (models : List Model) (ends : Nat → ℚ) : ends t ≤ models.foldl lp.prolong ends t := by
    induction models generalizing ends with
    | nil => exact le_rfl
    | cons model models ih => exact (le_prolong ends model t).trans (ih _)
  exact hfold lp.models lp.plannedEnd

theorem startTime_le_latestEnd {t : Nat} (ht : t ∈ Dict.keys lp.selection) :
    (lp.info t).startTime ≤ lp.latestEnd t := by
  refine le_trans ?_ (plannedEnd_le_latestEnd t)
  have hcost := h.extraCost_nonneg _ (h.mem ht)
  have hlatency : 0 ≤ (lp.info t).plan.totalLatencyList.max?.getD 0 := by
    cases hmax : (lp.info t).plan.totalLatencyList.max? with
    | none => exact le_rfl
    | some l => exact h.latency_nonneg _ (h.mem ht) l (List.max?_mem hmax)
  rw [plannedEnd]
  exact (le_add_of_nonneg_right hlatency).trans (le_add_of_nonneg_right hcost)

/-- Two tasks have different plans: those of their models. -/
theorem plan_inj {t t' : Nat} (ht : t ∈ Dict.keys lp.selection) (ht' : t' ∈ Dict.keys lp.selection)
    (heq : lp.plan t = lp.plan t') : t = t' := by
  have horder := h.order_eq _ (h.mem ht)
  have horder' := h.order_eq _ (h.mem ht')
  show t = t'
  rw [show (lp.info t).plan = (lp.info t').plan from heq, horder'] at horder
  exact (Option.some.inj horder).symm

theorem plan_mem_stage {e : Nat × Selected} (he : e ∈ lp.selection) (k : Nat) :
    e.2.plan ∈ ((lp.timeline h).stage k).map lp.plan ↔ e.1 ∈ (lp.timeline h).stage k := by
  have hkey : e.1 ∈ Dict.keys lp.selection := List.mem_map_of_mem he
  have hplan : lp.plan e.1 = e.2.plan := congrArg Selected.plan (h.info_eq he)
  rw [← hplan, List.mem_map]
  constructor
  · rintro ⟨t, ht, heq⟩
    rwa [← plan_inj h (Timeline.mem_tasks_of_mem_stage ht) hkey heq]
  · exact fun hmem => ⟨e.1, hmem, rfl⟩

/-! ## The stages of the timeline -/

section

variable {n : Nat}

/-- The plans of the first `n` stages. -/
def stagePlans (n : Nat) : List (List ExecPlan) :=
  (List.range n).map fun k => ((lp.timeline h).stage k).map lp.plan

theorem getElem?_stagePlans {k : Nat} (hk : k < n) :
    (stagePlans h n)[k]? = some (((lp.timeline h).stage k).map lp.plan) := by
  rw [stagePlans, List.getElem?_map, List.getElem?_range hk]
  rfl

theorem exists_stage_iff {e : Nat × Selected} (he : e ∈ lp.selection) (k : Nat) :
    (∃ stage, (stagePlans h n)[k]? = some stage ∧ e.2.plan ∈ stage) ↔
      k < n ∧ e.1 ∈ (lp.timeline h).stage k := by
  by_cases hk : k < n
  · rw [getElem?_stagePlans h hk]
    simp only [Option.some.injEq, exists_eq_left', plan_mem_stage h he, hk, true_and]
  · have hnone : (stagePlans h n)[k]? = none := by
      rw [List.getElem?_eq_none_iff, stagePlans, List.length_map, List.length_range]
      exact Nat.not_lt.mp hk
    simp [hnone, hk]

/-- The first stage of a task. -/
theorem findIdx_stagePlans {e : Nat × Selected} (he : e ∈ lp.selection) {k : Nat} (hk : k < n)
    (hmem : e.1 ∈ (lp.timeline h).stage k) (hfirst : ¬ (lp.timeline h).Started k e.1) :
    (stagePlans h n).findIdx (e.2.plan ∈ ·) = k := by
  have hlen : (stagePlans h n).length = n := by
    rw [stagePlans, List.length_map, List.length_range]
  have hget {j : Nat} (hj : j < (stagePlans h n).length) : (stagePlans h n)[j] =
      ((lp.timeline h).stage j).map lp.plan := by
    simp only [stagePlans, List.getElem_map, List.getElem_range]
  rw [List.findIdx_eq (hlen.symm ▸ hk)]
  constructor
  · rw [hget]
    exact decide_eq_true ((plan_mem_stage h he k).mpr hmem)
  · intro j hj
    rw [hget]
    exact decide_eq_false fun hj' => hfirst ⟨j, hj, (plan_mem_stage h he j).mp hj'⟩

theorem allStaged_of_staged (hstaged : lp.Staged (stagePlans h n)) :
    (lp.timeline h).AllStaged n where
  exists_stage := by
    intro t ht
    obtain ⟨first, last, hle, hiff⟩ := hstaged.run _ (h.mem ht)
    exact ⟨first, (exists_stage_iff h (h.mem ht) first).mp ((hiff first).mpr ⟨le_rfl, hle⟩)⟩
  exclusive := by
    intro k hk u hu v hv g hgu hgv
    have hu' := h.mem (Timeline.mem_tasks_of_mem_stage hu)
    have hv' := h.mem (Timeline.mem_tasks_of_mem_stage hv)
    have hstage := List.mem_of_getElem? (getElem?_stagePlans h hk)
    have heq := hstaged.exclusive _ hstage _ hu' _ hv' ((plan_mem_stage h hu' k).mpr hu)
      ((plan_mem_stage h hv' k).mpr hv) g hgu hgv
    exact congrArg Prod.fst heq

variable (hrun : ∀ k < n, (lp.timeline h).stage k ≠ []) (hlast : (lp.timeline h).stage n = [])

include hrun hlast

theorem staged_of_allStaged (hall : (lp.timeline h).AllStaged n) : lp.Staged (stagePlans h n) where
  run := by
    intro e he
    have hkey : e.1 ∈ (lp.timeline h).tasks := List.mem_map_of_mem he
    obtain ⟨last, hlast_lt, hmem_last, htime⟩ := hall.exists_time hlast hkey
    obtain ⟨first, hle, hmem_first, hfirst⟩ := Timeline.exists_first_of_mem hmem_last
    -- from the stage in which the task is started to the one that ends when the task does
    refine ⟨first, last, hle, fun k => (exists_stage_iff h he k).trans ⟨?_, ?_⟩⟩
    · rintro ⟨hk, hmem⟩
      refine ⟨not_lt.mp fun hlt => hfirst ⟨k, hlt, hmem⟩, ?_⟩
      exact Nat.le_of_lt_succ (Timeline.lt_of_mem_stage hrun hk.le hmem htime.ge)
    · rintro ⟨hfirst_le, hle_last⟩
      have hk := hle_last.trans_lt hlast_lt
      refine ⟨hk, Timeline.mem_stage_of_le hrun hfirst_le hk.le hmem_first ?_⟩
      exact (Timeline.time_le hrun hle_last hlast_lt.le).trans_lt (Timeline.time_lt_finish hmem_last)
  ordered := by
    intro e he e' he' g hg hg' hlt
    have hsep := hall.separated hrun hlast fun t ht => startTime_le_latestEnd h ht
    obtain ⟨j', hj', hmem'⟩ := hall.exists_stage e'.1 (List.mem_map_of_mem he')
    obtain ⟨j, hj, hmem, hfirst⟩ := Timeline.exists_first_of_mem hmem'
    have hbefore : lp.comesBefore e.1 e'.1 := by
      refine .inl ?_
      rw [h.info_eq he, h.info_eq he']
      exact hlt
    -- The earlier task has been started before the first stage of the later one.
    obtain ⟨i', hi', hmem_i'⟩ := hsep.started_of_before hrun (hj.trans hj'.le)
      (List.mem_map_of_mem he) (by rwa [← h.info_eq he] at hg) (by rwa [← h.info_eq he'] at hg')
      hbefore hmem
    obtain ⟨i, hi, hmem_i, hfirst_i⟩ := Timeline.exists_first_of_mem hmem_i'
    have hij := hi.trans_lt hi'
    have hjn := hj.trans_lt hj'
    rw [findIdx_stagePlans h he (hij.trans hjn) hmem_i hfirst_i,
      findIdx_stagePlans h he' hjn hmem hfirst]
    exact hij
  nodup := by
    intro stage hstage
    obtain ⟨k, -, rfl⟩ := List.mem_map.mp hstage
    refine List.Nodup.map_on (fun t ht t' ht' heq => ?_) (h.nodup.filter _)
    exact plan_inj h (List.mem_of_mem_filter ht) (List.mem_of_mem_filter ht') heq
  exclusive := by
    intro stage hstage e he e' he' hmem hmem' g hg hg'
    obtain ⟨k, hk, rfl⟩ := List.mem_map.mp hstage
    -- two tasks of a stage that share a GPU are one, and a task has one entry
    have heq := hall.exclusive k (List.mem_range.mp hk) e.1 ((plan_mem_stage h he k).mp hmem) e'.1
      ((plan_mem_stage h he' k).mp hmem') g (by rwa [← h.info_eq he] at hg)
      (by rwa [← h.info_eq he'] at hg')
    refine Prod.ext heq ?_
    rw [← h.info_eq he, ← h.info_eq he', heq]

end

end LpResult

/-- The stages that are extracted are right if and only if the tasks of a GPU are separated. -/
theorem staged_iff_separated (lp : LpResult) (h : lp.WellFormed) :
    ∃ stages, getCompleteNonPreemptiveSchedule lp (lp.selection.length + 1) lp.gpuModelOrder =
      some stages ∧ (lp.Staged stages ↔ lp.Separated) := by
  obtain ⟨n, hn, hlast, hrun⟩ := (lp.timeline h).exists_empty_stage
  have hlen : (lp.timeline h).tasks.length = lp.selection.length := List.length_map _
  refine ⟨_, getCompleteNonPreemptiveSchedule_eq h (hlen ▸ hn) hrun hlast, ?_⟩
  rw [← LpResult.timeline_separated_iff h,
    ← Timeline.allStaged_iff (fun t ht => LpResult.startTime_le_latestEnd h ht) hrun hlast]
  exact ⟨LpResult.allStaged_of_staged h, LpResult.staged_of_allStaged h hrun hlast⟩

/-- A chain of three tasks on three GPUs, and a fourth task on the GPU of the last one, after its own
end and after that of the task it reads from. -/
def readerChain : LpResult where
  models := [⟨10, []⟩, ⟨11, [10]⟩, ⟨12, [11]⟩, ⟨13, []⟩]
  modelId2Order := [(10, 0), (11, 1), (12, 2), (13, 3)]
  selection := [(0, ⟨[0], 0, ⟨10, [9], 1⟩⟩), (1, ⟨[1], 0, ⟨11, [2], 1⟩⟩), (2, ⟨[2], 0, ⟨12, [2], 1⟩⟩),
    (3, ⟨[2], 3, ⟨13, [4], 1⟩⟩)]
  totGpuNum := 3

theorem readerChain_wellFormed : readerChain.WellFormed := by
  constructor <;> decide

/-- Queues that are in the order of the start times are not changed by sorting. -/
theorem getCompleteNonPreemptiveSchedule_of_sorted {lp : LpResult} (fuel : Nat)
    (hsorted : ∀ gpu ∈ lp.gpuModelOrder,
      gpu.Pairwise fun info info' => decide (info.2 ≤ info'.2) = true) :
    getCompleteNonPreemptiveSchedule lp fuel lp.gpuModelOrder =
      (addPlanGroups lp fuel ⟨lp.gpuModelOrder.map fun gpu => gpu.map Prod.fst, [[]]⟩).map
        fun planGroupList => planGroupList.filter fun planGroup => 0 < planGroup.length := by
  have hqueues : (lp.gpuModelOrder.map fun gpu =>
      (gpu.mergeSort fun info info' => info.2 ≤ info'.2).map Prod.fst) =
      lp.gpuModelOrder.map fun gpu => gpu.map Prod.fst :=
    List.map_congr_left fun gpu hgpu => by rw [List.mergeSort_of_pairwise (hsorted gpu hgpu)]
  rw [getCompleteNonPreemptiveSchedule, hqueues, Option.map_eq_bind]
  rfl

theorem readerChain_run :
    getCompleteNonPreemptiveSchedule readerChain 5 readerChain.gpuModelOrder =
      some [[⟨10, [9], 1⟩, ⟨11, [2], 1⟩, ⟨12, [2], 1⟩]] := by
  rw [getCompleteNonPreemptiveSchedule_of_sorted 5 (by decide)]
  decide +kernel

/-- The last task of the chain is kept running until the end of the first one, and by then the time of
the fourth task has passed: it is in no stage. -/
theorem task_left_out :
    readerChain.WellFormed ∧ readerChain.NonOverlapping ∧ readerChain.InputsStartFirst ∧
      ∃ stages, getCompleteNonPreemptiveSchedule readerChain 5 readerChain.gpuModelOrder =
        some stages ∧ ¬ readerChain.Staged stages := by
  refine ⟨readerChain_wellFormed, ?_, ?_, _, readerChain_run, fun hstaged => ?_⟩
  · unfold LpResult.NonOverlapping
    decide +kernel
  · unfold LpResult.InputsStartFirst
    decide
  · obtain ⟨first, last, hle, hiff⟩ :=
      hstaged.run (3, ⟨[2], 3, ⟨13, [4], 1⟩⟩) (.tail _ (.tail _ (.tail _ (.head _))))
    obtain ⟨stage, hstage, hmem⟩ := (hiff first).mpr ⟨le_rfl, hle⟩
    have hnot : ∀ stage ∈ [[(⟨10, [9], 1⟩ : ExecPlan), ⟨11, [2], 1⟩, ⟨12, [2], 1⟩]],
        ⟨13, [4], 1⟩ ∉ stage := by
      decide
    exact hnot stage (List.mem_of_getElem? hstage) hmem

/-- The chain, with tasks on two of its GPUs that start at or after the end of its first task. -/
def followedChain : LpResult where
  models := [⟨10, []⟩, ⟨11, [10]⟩, ⟨12, [11]⟩, ⟨13, []⟩, ⟨14, []⟩]
  modelId2Order := [(10, 0), (11, 1), (12, 2), (13, 3), (14, 4)]
  selection := [(0, ⟨[0], 0, ⟨10, [9], 1⟩⟩), (1, ⟨[1], 0, ⟨11, [2], 1⟩⟩), (2, ⟨[2], 0, ⟨12, [2], 1⟩⟩),
    (3, ⟨[2], 10, ⟨13, [4], 1⟩⟩), (4, ⟨[0, 1], 12, ⟨14, [7], 1⟩⟩)]
  totGpuNum := 3

theorem followedChain_wellFormed : followedChain.WellFormed := by
  constructor <;> decide

theorem followedChain_separated : followedChain.Separated := by
  constructor
  · decide +kernel
  · unfold LpResult.comesBefore
    decide +kernel

theorem followedChain_run :
    getCompleteNonPreemptiveSchedule followedChain 6 followedChain.gpuModelOrder =
      some [[⟨10, [9], 1⟩, ⟨11, [2], 1⟩, ⟨12, [2], 1⟩], [⟨13, [4], 1⟩, ⟨14, [7], 1⟩],
        [⟨14, [7], 1⟩]] := by
  rw [getCompleteNonPreemptiveSchedule_of_sorted 6 (by decide)]
  decide +kernel

/-- The fifth task is started in advance, in the second of three stages. -/
theorem staged_iff_separated_followedChain : followedChain.Staged
    [[⟨10, [9], 1⟩, ⟨11, [2], 1⟩, ⟨12, [2], 1⟩], [⟨13, [4], 1⟩, ⟨14, [7], 1⟩],
      [⟨14, [7], 1⟩]] := by
  obtain ⟨stages, hrun, hiff⟩ := staged_iff_separated followedChain followedChain_wellFormed
  obtain rfl := Option.some.inj (hrun.symm.trans followedChain_run)
  exact hiff.mpr followedChain_separated

end Mil.Stages
