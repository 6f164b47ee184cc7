import Mil.Schedule.Capacity

/-!
# The stage barrier without runtime adjustment

Without adjustment the running plans are always the unfinished plans of one stage, the one before
the target (`OneStage`). As long as one of them is the last plan of its model, a round keeps them
all. When none is, every model whose last plan is in that stage has finished, and the plans of the
next stage are launched, all together.

A round can still stop a model that runs its last plan: the adjustment of the GPUs moves a plan
whose workers lie across two GPU groups, which is then stopped and launched again.
-/

set_option autoImplicit false

namespace Mil.Schedule

open Mil.Lib

/-- The load costs of all plans together stay below the value that marks a closed GPU group. -/
def LoadsBelowSentinel (seq : ExecPlanGroupSeq) : Prop :=
  (seq.planGroupSeq.flatten.map ExecPlan.loadCostJustForRefer).sum < sentinel

variable {cfg : Config} {groups : List (List PlanState)} {fin fin' : Nat → Bool} {s s' : State}

theorem sum_loadCost_lt {seq : ExecPlanGroupSeq} (hcost : LoadsBelowSentinel seq)
    {plans : List PlanState} (hnodup : plans.Nodup)
    (hmem : ∀ ps ∈ plans, ∃ i, ps ∈ stage (prepareExecPlanStates seq) i) :
    (plans.map fun q => q.execPlan.loadCostJustForRefer).sum < sentinel := by
  refine Nat.lt_of_le_of_lt ?_ hcost
  have hsub : plans ⊆ (prepareExecPlanStates seq).flatten := fun ps hps => by
    obtain ⟨i, hi⟩ := hmem ps hps
    obtain ⟨hlt, hin⟩ := mem_getD_nil.mp hi
    exact List.mem_flatten_of_mem (List.getElem_mem hlt) hin
  have hflat : (prepareExecPlanStates seq).flatten.map PlanState.execPlan =
      seq.planGroupSeq.flatten := by
    rw [List.map_flatten, map_prepareExecPlanStates]
  rw [← hflat, List.map_map]
  exact sum_map_le_of_subset _ hnodup hsub

/-! ## The invariant -/

/-- The running plans belong to the stage before the target, and all its unfinished plans run; the
models whose last plan is in an earlier stage have finished. -/
structure OneStage (groups : List (List PlanState)) (fin : Nat → Bool) (s : State) : Prop where
  target_pos : 0 < s.target
  nodup : s.launched.Nodup
  sub : ∀ ps ∈ s.launched, ps ∈ stage groups (s.target - 1)
  all : ∀ ps ∈ stage groups (s.target - 1), fin ps.modelId = false → ps ∈ s.launched
  past : ∀ j, j + 1 < s.target → ∀ ps ∈ stage groups j, ps.lastExecPlanForTheModel = true →
    fin ps.modelId = true
  flags : ∀ ps ∈ s.launched, (s.cells ps).launched = true
  later_flag : ∀ j, s.target ≤ j → ∀ ps ∈ stage groups j, (s.cells ps).launched = false
  length_le : ∀ ps ∈ s.launched, (gpus s.cells ps).length ≤ ps.gpuNum

namespace OneStage

/-- More models may have finished. -/
theorem mono (h : OneStage groups fin s) (hfin : ∀ m, fin m → fin' m) : OneStage groups fin' s :=
  { h with
    all := fun ps hps hnot => h.all ps hps <| by
      cases heq : fin ps.modelId with
      | false => rfl
      | true => rw [hfin _ heq] at hnot; cases hnot
    past := fun j hj ps hps hlast => hfin _ (h.past j hj ps hps hlast) }

theorem stageI_eq (hs : Stages groups) (h : OneStage groups fin s) {ps : PlanState}
    (hps : ps ∈ s.launched) : ps.stageI = s.target - 1 := hs.stageI (h.sub ps hps)

theorem stageI_lt (hs : Stages groups) (h : OneStage groups fin s) {ps : PlanState}
    (hps : ps ∈ s.launched) : ps.stageI < s.target := by
  rw [h.stageI_eq hs hps]
  exact Nat.sub_lt h.target_pos Nat.one_pos

theorem models (hs : Stages groups) (h : OneStage groups fin s) :
    (s.launched.map PlanState.modelId).Nodup :=
  (List.nodup_map_iff_inj_on h.nodup).mpr fun _ ha _ hb heq =>
    hs.eq_of_modelId (h.sub _ ha) (h.sub _ hb) heq

/-- What is kept is the last plan of its model. -/
theorem mem_keptPlans (hs : Stages groups) (h : OneStage groups fin s) {ps : PlanState} :
    ps ∈ keptPlans fin s ↔
      ps ∈ s.launched ∧ fin ps.modelId = false ∧ ps.lastExecPlanForTheModel = true := by
  rw [Schedule.mem_keptPlans]
  refine and_congr_right fun hps => and_congr_right fun _ => ?_
  exact or_iff_right (Nat.not_le_of_lt (h.stageI_lt hs hps))

/-- Everything else that is unfinished is handed to the second loading. -/
theorem mem_earlierPlans (hs : Stages groups) (h : OneStage groups fin s) {ps : PlanState} :
    ps ∈ earlierPlans fin s ↔
      ps ∈ s.launched ∧ fin ps.modelId = false ∧ ps.lastExecPlanForTheModel = false := by
  rw [Schedule.mem_earlierPlans]
  refine and_congr_right fun hps => and_congr_right fun _ => ?_
  exact and_iff_right (h.stageI_lt hs hps)

end OneStage

/-! ## A stage that goes on -/

/-- What a level does while a last plan is running. -/
theorem loadTaken_nil (cfg : Config) (kept : List PlanState) (cells : Cells) :
    loadTaken cfg ⟨kept, [], cells⟩ = .ok ⟨kept, [], availableGpus cfg cells kept, cells⟩ := by
  have hnil : candOrder cfg [] = [] := List.Perm.eq_nil (candOrder_perm cfg [])
  rw [loadTaken, hnil]
  rfl

/-- The only exception of loading is a cycle among the candidates. -/
theorem tryToLoad_error {fuel : Nat} {cands : List PlanState} {l : Load} {e : Raised}
    (h : tryToLoad cfg fuel cands l = .error e) : e = .noRoot := by
  induction fuel generalizing cands l with
  | zero => cases h
  | succ fuel ih =>
    rw [tryToLoad] at h
    split at h
    · cases h
    · split at h
      · exact (Except.error.inj h).symm
      · exact ih h

/-- The plans of a stage that fits, of which each holds no more GPUs than it needs, leave enough
GPUs for the others. -/
theorem room_of_fits {kept order : List PlanState} {cells : Cells}
    (hlength : ∀ ps ∈ kept, (gpus cells ps).length ≤ ps.gpuNum)
    (hfits : ((kept ++ order).map PlanState.gpuNum).sum ≤ cfg.totGpuNum) :
    (order.map PlanState.gpuNum).sum ≤ (availableGpus cfg cells kept).length := by
  have hcount := length_le_length_filter_notMem (kept.flatMap (gpus cells))
    (List.nodup_range (n := cfg.totGpuNum))
  have hheld : (kept.flatMap (gpus cells)).length ≤ (kept.map PlanState.gpuNum).sum := by
    rw [List.length_flatMap]
    exact List.sum_le_sum hlength
  rw [List.length_range] at hcount
  rw [List.map_append, List.sum_append] at hfits
  show (order.map PlanState.gpuNum).sum ≤ ((List.range cfg.totGpuNum).filter
    (· ∉ kept.flatMap (gpus cells))).length
  omega

/-- The plans that are kept and the others that are unfinished make up a sublist of the stage. -/
theorem OneStage.sum_gpuNum_le (h : OneStage groups fin s)
    (hfits : ((stage groups (s.target - 1)).map PlanState.gpuNum).sum ≤ cfg.totGpuNum)
    {plans : List PlanState} (hnodup : plans.Nodup) (hsub : plans ⊆ s.launched) :
    (plans.map PlanState.gpuNum).sum ≤ cfg.totGpuNum := by
  refine Nat.le_trans ?_ hfits
  exact sum_map_le_of_subset PlanState.gpuNum hnodup fun ps hps => h.sub ps (hsub hps)

/-- A round in which a last plan is running: all unfinished plans go on with their GPUs. -/
theorem readmit_of_kept (hs : Stages groups) (h : OneStage groups fin s)
    (hfits : ((stage groups (s.target - 1)).map PlanState.gpuNum).sum ≤ cfg.totGpuNum) {l : Load}
    (hl : readmit cfg fin s
      ⟨keptPlans fin s, [], availableGpus cfg s.cells (keptPlans fin s), s.cells⟩ = .ok l) :
    OneStage groups fin ⟨l.toLaunch, l.newCandidates, s.target, l.cells⟩ ∧
      (∀ ps ∈ l.toLaunch, ps ∈ s.launched ∧ fin ps.modelId = false) ∧ l.cells = s.cells := by
  have hearlier : (earlierPlans fin s).Nodup := h.nodup.filter _
  obtain ⟨horder, rfl⟩ := tryToLoadExecPlans_ok hearlier hl
  set order := loadOrder cfg (earlierPlans fin s)
  have hmem : ∀ ps, ps ∈ keptPlans fin s ++ order ↔ ps ∈ s.launched ∧ fin ps.modelId = false := by
    intro ps
    rw [List.mem_append, horder.mem_iff, h.mem_keptPlans hs, h.mem_earlierPlans hs]
    cases ps.lastExecPlanForTheModel <;> simp
  have hnodup : (keptPlans fin s ++ order).Nodup := by
    refine (h.nodup.filter _).append (horder.nodup_iff.mpr hearlier) ?_
    intro ps hkept hmore
    have hlast := ((h.mem_keptPlans hs).mp hkept).2.2
    rw [((h.mem_earlierPlans hs).mp (horder.subset hmore)).2.2] at hlast
    cases hlast
  have hin : keptPlans fin s ++ order ⊆ s.launched := fun ps hps => ((hmem ps).mp hps).1
  have hmodels : ((keptPlans fin s ++ order).map PlanState.modelId).Nodup :=
    (List.nodup_map_iff_inj_on hnodup).mpr fun _ ha _ hb heq =>
      hs.eq_of_modelId (h.sub _ (hin ha)) (h.sub _ (hin hb)) heq
  obtain ⟨hlaunch, hnew, hcells⟩ := foldl_consider_all
    (l := ⟨keptPlans fin s, [], availableGpus cfg s.cells (keptPlans fin s), s.cells⟩) hmodels
    (fun ps hps => h.flags ps (hin (List.mem_append_right _ hps)))
    (fun ps hps => h.length_le ps (hin (List.mem_append_right _ hps)))
    (List.nodup_range.filter _)
    (room_of_fits (fun ps hps => h.length_le ps (hin (List.mem_append_left _ hps)))
      (h.sum_gpuNum_le hfits hnodup hin))
  rw [hlaunch, hcells]
  refine ⟨⟨h.target_pos, hnodup, fun ps hps => h.sub ps (hin hps), fun ps hps hnot => ?_, h.past,
    fun ps hps => h.flags ps (hin hps), h.later_flag, fun ps hps => h.length_le ps (hin hps)⟩,
    fun ps hps => (hmem ps).mp hps, rfl⟩
  exact (hmem ps).mpr ⟨h.all ps hps hnot, hnot⟩

/-! ## The next stage -/

/-- Loading the next stage is a level that keeps no plan. -/
theorem loadStage_eq (cfg : Config) (groups : List (List PlanState)) (fin : Nat → Bool)
    (s : State) : loadStage cfg groups fin s = (do
      let l ← takeAndLoad cfg fin s [] (stage groups s.target)
      if l.newCandidates ≠ [] then throw .stateError2
      pure l) := by
  rw [loadStage, takeAndLoad]
  cases takeCandidates fin (gpusOf s.cells s.launched) (groups.getD s.target []) ⟨[], [], s.cells⟩
  · rfl
  · rfl

theorem OneStage.levelReady (hs : Stages groups) (h : OneStage groups fin s) :
    LevelReady fin s [] (stage groups s.target) where
  base_sub := fun ps hps => absurd hps List.not_mem_nil
  cands_new ps hps hin := by
    have hlt := h.stageI_lt hs hin
    rw [hs.stageI hps] at hlt
    exact lt_irrefl _ hlt
  models := hs.distinct s.target
  unlaunched ps hps _ := h.later_flag s.target (Nat.le_refl _) ps hps

/-- A plan that needs no preparation finds the running plan with its key. -/
theorem OneStage.gpusOf_unchanged (hs : Stages groups) (h : OneStage groups fin s)
    {ps : PlanState} (hps : ps ∈ stage groups s.target) (hu : unchanged fin ps = true) :
    ∃ comp, gpusOf s.cells s.launched ps.modelKey = some comp := by
  rw [unchanged, Bool.and_eq_true, Bool.not_eq_true', Bool.not_eq_true'] at hu
  rcases hs.need hps hu.2 with hzero | ⟨q, hq, hkey⟩
  · exact absurd hzero h.target_pos.ne'
  · rw [← hkey]
    refine exists_gpusOf s.cells (h.all q hq ?_)
    rw [modelId_eq_of_modelKey hkey]
    exact hu.1

/-- The next stage, loaded while no last plan is running, is launched as a whole. -/
theorem OneStage.next (hs : Stages groups) (h : OneStage groups fin s)
    (hfits : ((stage groups s.target).map PlanState.gpuNum).sum ≤ cfg.totGpuNum)
    (hkept : keptPlans fin s = []) {loaded : List PlanState} {l : Load}
    (hl : LevelLoad cfg fin s [] (stage groups s.target) loaded l) (cands : List PlanState) :
    l.newCandidates = [] ∧ OneStage groups fin ⟨l.toLaunch, cands, s.target + 1, l.cells⟩ ∧
      ∀ ps ∈ l.toLaunch, fin ps.modelId = false := by
  have hstage := h.levelReady hs
  have hsplit : ((stage groups s.target).filter (unchanged fin) ++
      (stage groups s.target).filter (isPending fin)).Nodup := by
    have hmodels := hstage.split_models (List.Perm.refl _)
    rw [List.nil_append] at hmodels
    exact hmodels.of_map
  have hunchanged : ∀ ps ∈ (stage groups s.target).filter (unchanged fin),
      (l.cells ps).launched = true ∧ (gpus l.cells ps).length ≤ ps.gpuNum := by
    intro ps hps
    obtain ⟨p, hp, hkey, hcell⟩ := hl.unchanged_cell ps hps
    refine ⟨by rw [hcell], ?_⟩
    rw [gpus, hcell, ← gpuNum_eq_of_modelKey hkey]
    exact h.length_le p hp
  have hnew : l.newCandidates = [] :=
    hl.newCandidates_eq_nil_of_subset hstage (List.nil_subset _) (List.Subset.refl _) hfits
      fun ps hps => (hunchanged ps hps).2
  have hperm : loaded.Perm ((stage groups s.target).filter (isPending fin)) := by
    have := hl.perm
    rwa [hnew, List.append_nil] at this
  have hmem : ∀ ps, ps ∈ l.toLaunch ↔ ps ∈ stage groups s.target ∧ fin ps.modelId = false := by
    intro ps
    rw [hl.toLaunch, List.nil_append, List.mem_append, hperm.mem_iff, List.mem_filter,
      List.mem_filter, unchanged, isPending]
    cases fin ps.modelId <;> cases ps.needPrepareInferEnv <;> simp
  have hcell : ∀ ps ∈ l.toLaunch,
      (l.cells ps).launched = true ∧ (gpus l.cells ps).length ≤ ps.gpuNum := by
    intro ps hps
    rw [hl.toLaunch, List.nil_append] at hps
    rcases List.mem_append.mp hps with hps | hps
    · exact hunchanged ps hps
    · exact ⟨(hl.loaded_cell ps hps).1, (hl.loaded_cell ps hps).2.le⟩
  refine ⟨hnew, ⟨Nat.succ_pos _, ?_, fun ps hps => ((hmem ps).mp hps).1,
    fun ps hps hnot => (hmem ps).mpr ⟨hps, hnot⟩, fun j hj ps hps hlast => ?_,
    fun ps hps => (hcell ps hps).1, fun j hj ps hps => ?_, fun ps hps => (hcell ps hps).2⟩,
    fun ps hps => ((hmem ps).mp hps).2⟩
  · show l.toLaunch.Nodup
    rw [hl.toLaunch, List.nil_append]
    exact (hperm.append_left _).nodup_iff.mpr hsplit
  · rcases Nat.lt_or_ge (j + 1) s.target with hlt | hge
    · exact h.past j hlt ps hps hlast
    · -- an unfinished last plan of the stage before would be kept
      have hj' : j + 1 < s.target + 1 := hj
      obtain rfl : j = s.target - 1 := by omega
      cases hfin : fin ps.modelId with
      | true => rfl
      | false =>
        have hin : ps ∈ keptPlans fin s :=
          (h.mem_keptPlans hs).mpr ⟨h.all ps hps hfin, hfin, hlast⟩
        rw [hkept] at hin
        exact absurd hin List.not_mem_nil
  · have hout : ps ∉ stage groups s.target := fun hin => by
      have h₁ := hs.stageI hin
      have h₂ := hs.stageI hps
      have hj' : s.target + 1 ≤ j := hj
      omega
    show (l.cells ps).launched = false
    rw [hl.frame ps hout]
    exact h.later_flag j (Nat.le_of_succ_le hj) ps hps

/-! ## The choice of the next plans -/

/-- What the choice gives: the unfinished plans of a stage, of the same stage as before while a
last plan is running. The plans of the stages before are left alone. -/
structure Chosen (cfg : Config) (groups : List (List PlanState)) (fin : Nat → Bool)
    (s next : State) : Prop where
  oneStage : OneStage groups fin next
  unfinished : ∀ ps ∈ next.launched, fin ps.modelId = false
  same : keptPlans fin s ≠ [] → next.target = s.target
  target_le : s.target ≤ next.target
  frame : ∀ q : PlanState, q.stageI < s.target → next.cells q = s.cells q
  oldOk : OldOk cfg s.launched s.cells → OldOk cfg next.launched next.cells

/-- Nothing runs only behind the last stage, or behind a stage without plans. -/
def Halts (groups : List (List PlanState)) (s : State) : Prop :=
  s.launched = [] → groups.length ≤ s.target ∨ stage groups (s.target - 1) = []

/-- Of what the choice raises, only a cycle among the candidates is left. -/
def ChoiceOk (cfg : Config) (groups : List (List PlanState)) (fin : Nat → Bool) (s : State) :
    Except Raised State → Prop
  | .error e => e = .noRoot
  | .ok next => Chosen cfg groups fin s next ∧ Halts groups next

theorem nextRoundNoAdjustment_kept (hs : Stages groups) (h : OneStage groups fin s)
    (hkept : keptPlans fin s ≠ []) (later : List (List PlanState)) :
    nextRoundNoAdjustment cfg groups fin later s = (do
      let l ← readmit cfg fin s
        ⟨keptPlans fin s, [], availableGpus cfg s.cells (keptPlans fin s), s.cells⟩
      pure ⟨l.toLaunch, l.newCandidates, s.target, l.cells⟩) := by
  have hpast : ∀ ps ∈ keptPlans fin s, ps.stageI < s.target := fun ps hps =>
    h.stageI_lt hs (Schedule.mem_keptPlans.mp hps).1
  have hlevel : nextRoundNoAdjustment cfg groups fin later s = (do
      let l ← loadTaken cfg ⟨keptPlans fin s, [], s.cells⟩
      let l ← readmit cfg fin s l
      pure ⟨l.toLaunch, l.newCandidates, s.target, l.cells⟩) := by
    cases later with
    | nil =>
      rw [nextRoundNoAdjustment]
      exact (if_neg (not_not.mpr hpast)).trans (if_pos hkept)
    | cons next later =>
      rw [nextRoundNoAdjustment]
      exact (if_neg (not_not.mpr hpast)).trans (if_pos hkept)
  rw [hlevel, loadTaken_nil]
  exact rfl

section

variable (hkept : keptPlans fin s = [])
include hkept

theorem forall_keptPlans_lt : ∀ ps ∈ keptPlans fin s, ps.stageI < s.target := by
  intro ps hps
  rw [hkept] at hps
  exact absurd hps List.not_mem_nil

theorem nextRoundNoAdjustment_nil :
    nextRoundNoAdjustment cfg groups fin [] s = (do
      let l ← loadStage cfg groups fin s
      pure ⟨l.toLaunch, [], s.target + 1, l.cells⟩) := by
  rw [nextRoundNoAdjustment]
  exact (if_neg (not_not.mpr (forall_keptPlans_lt hkept))).trans (if_neg (not_not.mpr hkept))

theorem nextRoundNoAdjustment_cons (next : List PlanState) (later : List (List PlanState)) :
    nextRoundNoAdjustment cfg groups fin (next :: later) s = (do
      let l ← loadStage cfg groups fin s
      if hasModelFinished groups fin s.target then
        nextRoundNoAdjustment cfg groups fin later ⟨l.toLaunch, next, s.target + 1, l.cells⟩
      else pure ⟨l.toLaunch, next, s.target + 1, l.cells⟩) := by
  rw [nextRoundNoAdjustment]
  exact (if_neg (not_not.mpr (forall_keptPlans_lt hkept))).trans (if_neg (not_not.mpr hkept))

end

/-- While a last plan is running, its stage goes on. -/
theorem choiceOk_kept (hs : Stages groups) (h : OneStage groups fin s)
    (hfits : ((stage groups (s.target - 1)).map PlanState.gpuNum).sum ≤ cfg.totGpuNum)
    (hkept : keptPlans fin s ≠ []) (later : List (List PlanState)) :
    ChoiceOk cfg groups fin s (nextRoundNoAdjustment cfg groups fin later s) := by
  rw [nextRoundNoAdjustment_kept hs h hkept]
  cases hl : readmit cfg fin s
      ⟨keptPlans fin s, [], availableGpus cfg s.cells (keptPlans fin s), s.cells⟩ with
  | error e => exact tryToLoad_error hl
  | ok l =>
    obtain ⟨hnext, hold, hcells⟩ := readmit_of_kept hs h hfits hl
    refine ⟨⟨hnext, fun ps hps => (hold ps hps).2, fun _ => rfl, Nat.le_refl _, fun q _ => ?_,
      fun hok => ?_⟩, fun hnil => ?_⟩
    · show l.cells q = s.cells q
      rw [hcells]
    · have hsub : l.toLaunch ⊆ s.launched := fun ps hps => (hold ps hps).1
      show OldOk cfg l.toLaunch l.cells
      rw [hcells]
      exact ⟨hok.exclusive.mono (List.subperm_of_subset hnext.nodup hsub) (List.Subperm.refl _),
        fun ps hps => hok.length ps (hsub hps)⟩
    · obtain ⟨ps, hps⟩ := List.exists_mem_of_ne_nil _ hkept
      obtain ⟨hin, hunfinished, -⟩ := (h.mem_keptPlans hs).mp hps
      have hmem := hnext.all ps (h.sub ps hin) hunfinished
      rw [hnil] at hmem
      exact absurd hmem List.not_mem_nil

/-- A level that keeps no plan raises nothing else either. -/
theorem takeAndLoad_error (hs : Stages groups) (h : OneStage groups fin s) {e : Raised}
    (he : takeAndLoad cfg fin s [] (stage groups s.target) = .error e) : e = .noRoot := by
  obtain ⟨t, ht⟩ := exists_takeCandidates
    (fun (ps : PlanState) hps hu => h.gpusOf_unchanged hs hps hu) ⟨[], [], s.cells⟩
  rw [takeAndLoad, ht] at he
  exact tryToLoad_error he

/-- Loading the next stage launches it as a whole, or there is a cycle among its plans. -/
theorem loadStage_cases (hs : Stages groups) (h : OneStage groups fin s)
    (hfits : ((stage groups s.target).map PlanState.gpuNum).sum ≤ cfg.totGpuNum)
    (hkept : keptPlans fin s = []) :
    loadStage cfg groups fin s = .error .noRoot ∨
      ∃ l, loadStage cfg groups fin s = .ok l ∧ ∀ cands,
        Chosen cfg groups fin s ⟨l.toLaunch, cands, s.target + 1, l.cells⟩ := by
  rw [loadStage_eq]
  cases hl : takeAndLoad cfg fin s [] (stage groups s.target) with
  | error e =>
    obtain rfl := takeAndLoad_error hs h hl
    exact .inl rfl
  | ok l =>
    obtain ⟨loaded, hload⟩ := takeAndLoad_ok (h.levelReady hs) hl
    have hnew := (h.next hs hfits hkept hload []).1
    refine .inr ⟨l, ?_, fun cands => ?_⟩
    · show (if l.newCandidates ≠ [] then _ else _) = _
      rw [if_neg (not_not.mpr hnew)]
      rfl
    · obtain ⟨-, hnext, hold⟩ := h.next hs hfits hkept hload cands
      refine ⟨hnext, hold, fun hne => absurd hkept hne, Nat.le_succ _, fun q hq => ?_,
        fun hok => ⟨?_, ?_⟩⟩
      · refine hload.frame q fun hmem => ?_
        rw [hs.stageI hmem] at hq
        exact lt_irrefl _ hq
      · exact (hload.exclusive hok.exclusive).mono (List.Subperm.refl _) List.nil_subperm
      · intro ps hps
        replace hps : ps ∈ l.toLaunch := hps
        rw [hload.toLaunch, List.nil_append] at hps
        rcases List.mem_append.mp hps with hps | hps
        · obtain ⟨p, hp, hkey, hcell⟩ := hload.unchanged_cell ps hps
          show (gpus l.cells ps).length = _
          rw [gpus, hcell, ← gpuNum_eq_of_modelKey hkey]
          exact hok.length p hp
        · exact (hload.loaded_cell ps hps).2

/-- A choice after a stage of which nothing was left. -/
theorem ChoiceOk.trans {mid : State} (h : Chosen cfg groups fin s mid)
    (htarget : mid.target = s.target + 1) (hkept : keptPlans fin s = [])
    {x : Except Raised State} (hx : ChoiceOk cfg groups fin mid x) :
    ChoiceOk cfg groups fin s x := by
  cases x with
  | error e => exact hx
  | ok next =>
    obtain ⟨hx, hhalts⟩ := hx
    refine ⟨⟨hx.oneStage, hx.unfinished, fun hne => absurd hkept hne,
      Nat.le_trans h.target_le hx.target_le, fun q hq => ?_, fun hok => hx.oldOk (h.oldOk hok)⟩,
      hhalts⟩
    rw [hx.frame q (htarget ▸ Nat.lt_succ_of_lt hq), h.frame q hq]

/-- A stage none of whose models has finished is not empty once it is launched. -/
theorem Chosen.halts {next : State} (h : Chosen cfg groups fin s next)
    (htarget : next.target = s.target + 1)
    (hunfinished : hasModelFinished groups fin s.target = false) : Halts groups next := by
  intro hnil
  right
  rw [htarget]
  refine List.eq_nil_iff_forall_not_mem.mpr fun ps hps => ?_
  have hmem := h.oneStage.all ps (htarget ▸ hps)
    (Bool.eq_false_of_not_eq_true (List.any_eq_false.mp hunfinished ps hps))
  rw [hnil] at hmem
  exact List.not_mem_nil hmem

theorem choiceOk (hs : Stages groups)
    (hfits : ∀ i, ((stage groups i).map PlanState.gpuNum).sum ≤ cfg.totGpuNum)
    {later : List (List PlanState)} (hlater : later = groups.drop (s.target + 1))
    (h : OneStage groups fin s) :
    ChoiceOk cfg groups fin s (nextRoundNoAdjustment cfg groups fin later s) := by
  induction later generalizing s with
  | nil =>
    by_cases hkept : keptPlans fin s = []
    · rw [nextRoundNoAdjustment_nil hkept]
      rcases loadStage_cases hs h (hfits _) hkept with hl | ⟨l, hl, hchosen⟩
      · rw [hl]
        exact rfl
      · rw [hl]
        exact ⟨hchosen [], fun _ => .inl (List.drop_eq_nil_iff.mp hlater.symm)⟩
    · exact choiceOk_kept hs h (hfits _) hkept []
  | cons next later ih =>
    have hrest : later = groups.drop (s.target + 1 + 1) := by
      rw [← List.drop_drop, ← hlater, List.drop_one, List.tail_cons]
    by_cases hkept : keptPlans fin s = []
    · rw [nextRoundNoAdjustment_cons hkept]
      rcases loadStage_cases hs h (hfits _) hkept with hl | ⟨l, hl, hchosen⟩
      · rw [hl]
        exact rfl
      · rw [hl]
        show ChoiceOk cfg groups fin s (if hasModelFinished groups fin s.target then _ else _)
        by_cases hfinished : hasModelFinished groups fin s.target = true
        · rw [if_pos hfinished]
          exact ChoiceOk.trans (hchosen next) rfl hkept (ih hrest (hchosen next).oneStage)
        · rw [if_neg hfinished]
          exact ⟨hchosen next, (hchosen next).halts rfl (Bool.eq_false_of_not_eq_true hfinished)⟩
    · exact choiceOk_kept hs h (hfits _) hkept _

/-! ## The adjustment of the GPUs -/

/-- The two assertions on the state of the scheduler, and the lookup of the GPUs of a plan that
needs no preparation. -/
def Raised.internal : Raised → Bool
  | .stateError | .stateError2 | .planGpusMissing => true
  | _ => false

theorem keepCompGpus_error {newLaunch plans : List PlanState}
    {oldGpus : ModelKey → Option (List Nat)} {k : Keeping} {e : Raised}
    (h : keepCompGpus cfg newLaunch oldGpus plans k = .error e) : e.internal = false := by
  induction plans generalizing k with
  | nil => cases h
  | cons ps plans ih =>
    rw [keepCompGpus] at h
    split at h
    · exact ih h
    · split at h
      · rw [← Except.error.inj h]
        rfl
      · dsimp only at h
        split at h
        · rw [← Except.error.inj h]
          rfl
        · split at h
          · split at h
            · exact ih h
            · rw [← Except.error.inj h]
              rfl
          · exact ih h

theorem reassignCompGpus_error {newLaunch plans : List PlanState} {r : Reassign} {e : Raised}
    (h : reassignCompGpus cfg newLaunch plans r = .error e) : e.internal = false := by
  induction plans generalizing r with
  | nil => cases h
  | cons ps plans ih =>
    rw [reassignCompGpus] at h
    split at h
    · exact ih h
    · dsimp only at h
      split at h
      · split at h
        · rw [← Except.error.inj h]
          rfl
        · exact ih h
        · exact ih h
      · exact ih h

theorem adjustCompGpus_error {launched newLaunch old : List PlanState} {cells : Cells} {e : Raised}
    (h : adjustCompGpus cfg launched newLaunch old cells = .error e) : e.internal = false := by
  rw [adjustCompGpus] at h
  split at h
  · rw [← Except.error.inj h]
    rfl
  · cases hk : keepCompGpus cfg newLaunch (gpusOf cells old) (keepOrder launched)
        ⟨fun _ => 0, [], [], cells⟩ with
    | error e' =>
      rw [hk] at h
      obtain rfl := Except.error.inj h
      exact keepCompGpus_error hk
    | ok k =>
      rw [hk] at h
      change (if sortedGpuGroupIds cfg k = [] then _ else _) = _ at h
      split at h
      · rw [← Except.error.inj h]
        rfl
      · cases hr : reassignCompGpus cfg newLaunch
            (sortedReverse (reassignKey cfg newLaunch) k.toReassign)
            ⟨candGpus cfg k, [], k.cells⟩ with
        | error e' =>
          rw [hr] at h
          obtain rfl := Except.error.inj h
          exact reassignCompGpus_error hr
        | ok r =>
          rw [hr] at h
          cases h

theorem error_of_bind {α β : Type} {x : Except Raised α} {f : α → Except Raised β} {e : Raised}
    (h : x >>= f = .error e) : x = .error e ∨ ∃ a, x = .ok a ∧ f a = .error e := by
  cases x with
  | error e' =>
    obtain rfl := Except.error.inj h
    exact .inl rfl
  | ok a => exact .inr ⟨a, rfl, h⟩

theorem exists_ok_of_any {α : Type} {x : Except Raised α} {p : α → Bool}
    (h : x.toOption.any p = true) : ∃ a, x = .ok a ∧ p a = true := by
  cases x with
  | error e => cases h
  | ok a => exact ⟨a, rfl, h⟩

/-- Only the choice of the next plans and the adjustment of their GPUs can raise. -/
theorem getTheNextRound_error {e : Raised} (h : getTheNextRound cfg groups fin s = .error e) :
    chooseNext cfg groups fin s = .error e ∨ e.internal = false := by
  rw [getTheNextRound_eq] at h
  refine (error_of_bind h).imp_right ?_
  rintro ⟨next, -, h⟩
  rcases error_of_bind h with h | ⟨p, -, h⟩
  · exact adjustCompGpus_error h
  · cases h

/-! ## A round -/

namespace OneStage

/-- The GPUs of the running plans may change, as long as nobody gets too many. -/
theorem congr {t : State} (h : OneStage groups fin s) (hlaunched : t.launched = s.launched)
    (htarget : t.target = s.target)
    (hflags : ∀ q, (t.cells q).launched = (s.cells q).launched)
    (hlength : ∀ ps ∈ s.launched, (gpus t.cells ps).length ≤ ps.gpuNum) :
    OneStage groups fin t := by
  obtain ⟨launched, candidates, target, cells⟩ := t
  simp only at hlaunched htarget hflags hlength
  subst hlaunched htarget
  exact ⟨h.target_pos, h.nodup, h.sub, h.all, h.past,
    fun ps hps => (hflags ps).trans (h.flags ps hps),
    fun j hj ps hps => (hflags ps).trans (h.later_flag j hj ps hps), hlength⟩

end OneStage

theorem Started.oneStage (hs : Stages groups) (h : Started cfg groups s) :
    OneStage groups fin s := by
  have hb := h.bookkept hs
  have htarget : s.target - 1 = 0 := by rw [h.target]
  refine ⟨h.target ▸ Nat.one_pos, hb.models.of_map, fun ps hps => ?_, fun ps hps _ => ?_,
    fun j hj => ?_, hb.flags, fun j hj ps hps => ?_, h.placed.length_le⟩
  · rw [htarget]
    exact h.perm.subset hps
  · rw [htarget] at hps
    exact h.perm.symm.subset hps
  · rw [h.target] at hj
    exact absurd (Nat.lt_of_succ_lt_succ hj) (Nat.not_lt_zero j)
  · rcases Nat.lt_or_eq_of_le hj with hlt | rfl
    · exact hb.later_flag j hlt ps hps
    · refine hb.cands_flag ps ?_
      rwa [h.candidates, ← h.target]

section

variable {r : Round} {next : State} {extra : List PlanState}

theorem RoundOk.chosen (h : RoundOk cfg groups fin s r next extra)
    (hadjust : cfg.noRuntimeAdjustment = true) (hs : Stages groups)
    (hfits : ∀ i, ((stage groups i).map PlanState.gpuNum).sum ≤ cfg.totGpuNum)
    (hone : OneStage groups fin s) : Chosen cfg groups fin s next ∧ Halts groups next := by
  have hnext := h.next_ok
  rw [chooseNext, if_pos hadjust] at hnext
  have hchoice := choiceOk hs hfits rfl hone
  rwa [hnext] at hchoice

theorem Chosen.gpus_eq (hs : Stages groups) (hone : OneStage groups fin s)
    (h : Chosen cfg groups fin s next) {ps : PlanState} (hps : ps ∈ s.launched) :
    gpus next.cells ps = gpus s.cells ps :=
  congrArg Cell.compGpus (h.frame ps (hone.stageI_lt hs hps))

theorem RoundOk.oneStage (h : RoundOk cfg groups fin s r next extra) (hs : Stages groups)
    (hone : OneStage groups fin s) (hchosen : Chosen cfg groups fin s next) :
    OneStage groups fin r.state := by
  have hnext := hchosen.oneStage
  obtain ⟨k, re, hadj⟩ := adjustCompGpus_ok hnext.nodup h.adjust_ok
  refine hnext.congr h.launched h.target (hadj.flags hnext.nodup) fun ps hps => ?_
  refine hadj.length_le hnext.nodup (fun p hp => ?_) hnext.length_le hps
  rw [hchosen.gpus_eq hs hone hp]
  exact hone.length_le p hp

/-- The old placement, on the heap the choice leaves. -/
theorem Chosen.oldOk_launched (hs : Stages groups) (hone : OneStage groups fin s)
    (h : Chosen cfg groups fin s next) (hold : OldOk cfg s.launched s.cells) :
    OldOk cfg s.launched next.cells :=
  ⟨hold.exclusive.congr fun _ hps => h.gpus_eq hs hone hps, fun ps hps =>
    (congrArg _ (h.gpus_eq hs hone hps)).trans (hold.length ps hps)⟩

theorem OneStage.sum_loadCost_lt {seq : ExecPlanGroupSeq} (hcost : LoadsBelowSentinel seq)
    (h : OneStage (prepareExecPlanStates seq) fin s) :
    (s.launched.map fun q => q.execPlan.loadCostJustForRefer).sum < sentinel :=
  Schedule.sum_loadCost_lt hcost h.nodup fun ps hps => ⟨_, h.sub ps hps⟩

theorem RoundOk.oldOk_oneStage {seq : ExecPlanGroupSeq}
    (h : RoundOk cfg (prepareExecPlanStates seq) fin s r next extra)
    (hfits : seq.Fits cfg.totGpuNum) (hcost : LoadsBelowSentinel seq)
    (hone : OneStage (prepareExecPlanStates seq) fin s)
    (hchosen : Chosen cfg (prepareExecPlanStates seq) fin s next)
    (hold : OldOk cfg s.launched s.cells) : OldOk cfg r.state.launched r.state.cells := by
  have hs := stages_prepareExecPlanStates seq
  have hnext := hchosen.oneStage
  obtain ⟨k, re, hadj⟩ := adjustCompGpus_ok hnext.nodup h.adjust_ok
  rw [h.launched]
  exact hadj.exclusive (hnext.models hs) (hchosen.oldOk_launched hs hone hold)
    (hnext.sum_gpuNum_le (sum_gpuNum_stage_le hfits _) hnext.nodup (List.Subset.refl _))
    (hnext.sum_loadCost_lt hcost)

/-- The workers of the running plans that fit into a GPU group lie in one group each. -/
def WorkersInGroups (cfg : Config) (s : State) : Prop :=
  ∀ ps ∈ s.launched, ps.numWorker < cfg.fullyConnectedGpuUnit →
    workersInUnits cfg ps (gpus s.cells ps) = some true

/-- While a stage goes on and its workers sit well, no plan is moved. -/
theorem RoundOk.extra_eq_nil {seq : ExecPlanGroupSeq}
    (h : RoundOk cfg (prepareExecPlanStates seq) fin s r next extra) (hcost : LoadsBelowSentinel seq)
    (hone : OneStage (prepareExecPlanStates seq) fin s)
    (hchosen : Chosen cfg (prepareExecPlanStates seq) fin s next)
    (hold : OldOk cfg s.launched s.cells) (hsub : next.launched ⊆ s.launched)
    (hworkers : WorkersInGroups cfg s) : extra = [] := by
  have hs := stages_prepareExecPlanStates seq
  have hnext := hchosen.oneStage
  have hold' := hchosen.oldOk_launched hs hone hold
  have hnew : newlyLaunched s next = [] := List.filter_eq_nil_iff.mpr fun ps hps => by
    simpa using ⟨ps, hsub hps, rfl⟩
  have hadjust := h.adjust_ok
  rw [hnew] at hadjust
  obtain ⟨k, re, hadj⟩ := adjustCompGpus_ok hnext.nodup hadjust
  -- The first loop gives every plan its own GPUs back.
  have hback : ∀ ps ∈ next.launched, gpus k.cells ps = gpus s.cells ps := by
    intro ps hps
    obtain ⟨p, hp, hkey, heq⟩ := hadj.origin hps List.not_mem_nil
    obtain rfl := List.inj_on_of_nodup_map (hone.models hs) hp (hsub hps)
      (modelId_eq_of_modelKey hkey)
    rw [heq, hchosen.gpus_eq hs hone hp]
  have hheld : ∀ ps ∈ next.launched, (gpus k.cells ps).length = ps.gpuNum := fun ps hps =>
    (hadj.held hold' hps List.not_mem_nil).2.1
  have htake : ∀ ps ∈ next.launched, (gpus k.cells ps).take ps.gpuNum = gpus k.cells ps :=
    fun ps hps => List.take_of_length_le (Nat.le_of_eq (hheld ps hps))
  have hexcl := hadj.exclusive_kept (hnext.models hs) hold' hnext.nodup
    fun ps hps => ⟨hps, List.not_mem_nil⟩
  have hsplit := hadj.split.nodup_iff.mpr hnext.nodup
  set served := sortedReverse (reassignKey cfg []) k.toReassign with hserved
  have hin : served ⊆ next.launched := fun ps hps =>
    hadj.split.subset (List.mem_append_right _ hps)
  have hlarge : ∀ ps ∈ served, largeKept cfg [] ps = false := fun ps hps => by
    simpa using (List.mem_filter.mp (hadj.toReassign.subset hps)).2
  have hsmall : ∀ ps ∈ served, ps.numWorker < cfg.fullyConnectedGpuUnit := fun ps hps => by
    simpa [largeKept] using hlarge ps hps
  have hkept : ∀ ps ∈ served, smallKept cfg [] ps := fun ps hps => by
    simpa [smallKept] using hsmall ps hps
  obtain ⟨left, hkeep⟩ := reassignCompGpus_keep (r := ⟨candGpus cfg k, [], k.cells⟩) hkept
    (fun ps hps => hheld ps (hin hps))
    ((hexcl.mono (List.subperm_of_subset (List.nodup_append.mp hsplit).2.1 hin)
      (List.Subperm.refl _)).pairwise_disjoint List.nodup_range)
    (fun ps hps => offer_of_kept hadj.unit_pos hadj.unit_dvd
      (fun q hq hl g hg => by
        have hfull := hadj.kept.full q ((sortedBy_perm _ _).mem_iff.mpr hq) hl
        rw [htake q hq] at hfull
        exact hfull g hg)
      (fun i hi => by
        obtain ⟨q, hq, hl, g, hg, heq⟩ := hadj.exists_large (hnext.sum_loadCost_lt hcost) hi
        rw [htake q hq] at hg
        exact ⟨q, hq, hl, g, hg, heq⟩)
      hexcl (hin hps) (hlarge ps hps))
    (fun ps hps => by
      show workersInUnits cfg ps (gpus k.cells ps) = some true
      rw [hback ps (hin hps)]
      exact hworkers ps (hsub (hin hps)) (hsmall ps hps))
  have heq := Except.ok.inj (hkeep.symm.trans hadj.reassign)
  rw [hadj.extra_eq, ← heq]

/-- A plan that was not running is of a later stage. -/
theorem Chosen.target_lt (hone : OneStage groups fin s) (h : Chosen cfg groups fin s next)
    {ps : PlanState} (hps : ps ∈ next.launched) (hout : ps ∉ s.launched) :
    s.target < next.target := by
  refine Nat.lt_of_le_of_ne h.target_le fun heq => hout (hone.all ps ?_ (h.unfinished ps hps))
  rw [heq]
  exact h.oneStage.sub ps hps

/-- While a last plan is running, exactly the unfinished plans go on. -/
theorem Chosen.mem_launched (hone : OneStage groups fin s) (h : Chosen cfg groups fin s next)
    (hkept : keptPlans fin s ≠ []) {ps : PlanState} :
    ps ∈ next.launched ↔ ps ∈ s.launched ∧ fin ps.modelId = false := by
  have hstage := h.same hkept
  constructor
  · intro hps
    have hunfinished := h.unfinished ps hps
    have hmem := h.oneStage.sub ps hps
    rw [hstage] at hmem
    exact ⟨hone.all ps hmem hunfinished, hunfinished⟩
  · rintro ⟨hps, hunfinished⟩
    refine h.oneStage.all ps ?_ hunfinished
    rw [hstage]
    exact hone.sub ps hps

/-- Whoever is moved is a plan that fits into a GPU group. -/
theorem Adjusted.numWorker_lt {launched newLaunch old : List PlanState} {cells cells' : Cells}
    {k : Keeping} {re : Reassign}
    (h : Adjusted cfg launched newLaunch old extra cells cells' k re) (hnodup : launched.Nodup)
    {ps : PlanState} (hps : ps ∈ extra) : ps.numWorker < cfg.fullyConnectedGpuUnit := by
  rw [h.extra_eq] at hps
  rcases (h.reassigned hnodup).extra ps hps with hin | ⟨hin, hout⟩
  · exact absurd hin List.not_mem_nil
  · have hsmall := (List.mem_filter.mp (h.toReassign.subset hin)).2
    simpa [largeKept, hout] using hsmall

/-- A running last plan goes on, and its model is only stopped when it is one of those that are
moved. -/
theorem RoundOk.last_goes_on (h : RoundOk cfg groups fin s r next extra) (hs : Stages groups)
    (hone : OneStage groups fin s) (hchosen : Chosen cfg groups fin s next) {ps : PlanState}
    (hps : ps ∈ s.launched) (hunfinished : fin ps.modelId = false)
    (hlast : ps.lastExecPlanForTheModel = true) :
    (∀ q, q ∈ next.launched ↔ q ∈ s.launched ∧ fin q.modelId = false) ∧
      (ps.modelId ∈ r.modelIdsToStop → ps ∈ extra) := by
  have hin : ps ∈ keptPlans fin s := (hone.mem_keptPlans hs).mpr ⟨hps, hunfinished, hlast⟩
  have hmem : ∀ q, q ∈ next.launched ↔ q ∈ s.launched ∧ fin q.modelId = false := fun q =>
    hchosen.mem_launched hone (List.ne_nil_of_mem hin)
  refine ⟨hmem, fun hstop => ?_⟩
  rw [h.toStop] at hstop
  rcases List.mem_append.mp hstop with hstop | hstop
  · obtain ⟨q, hq, hmodel⟩ := List.mem_map.mp hstop
    obtain ⟨hq, hkey⟩ := List.mem_filter.mp hq
    obtain rfl := List.inj_on_of_nodup_map (hone.models hs) hq hps hmodel
    exact absurd (List.mem_map_of_mem ((hmem q).mpr ⟨hps, hunfinished⟩)) (of_decide_eq_true hkey)
  · obtain ⟨q, hq, hmodel⟩ := List.mem_map.mp hstop
    obtain ⟨k, re, hadj⟩ := adjustCompGpus_ok hchosen.oneStage.nodup h.adjust_ok
    have hlaunched := (hadj.extra_sub hchosen.oneStage.nodup hq).1
    obtain rfl := List.inj_on_of_nodup_map (hone.models hs) ((hmem q).mp hlaunched).1 hps hmodel
    exact hq

end

/-! ## Runs -/

/-- What a round of the scheduler without runtime adjustment gives. -/
structure StageBarrier (cfg : Config) (seq : ExecPlanGroupSeq) (fin : Nat → Bool) (s : State)
    (r : Round) : Prop where
  /-- all unfinished plans of one stage run, and no others -/
  complete : ∃ i, ∀ ps, ps ∈ r.state.launched ↔
    ps ∈ stage (prepareExecPlanStates seq) i ∧ fin ps.modelId = false
  newLaunch_sub : ∀ ps ∈ r.newLaunch, ps ∈ r.state.launched
  /-- no plan of the stage of a new plan was running before the round -/
  together : ∀ ps ∈ r.newLaunch, ps ∉ s.launched → ∀ q ∈ s.launched, q.stageI < ps.stageI
  released : ∀ ps ∈ r.newLaunch, ∀ j < ps.stageI, ∀ q ∈ stage (prepareExecPlanStates seq) j,
    q.lastExecPlanForTheModel = true → fin q.modelId = true
  /-- a running last plan goes on; it is only stopped to be launched again on other GPUs -/
  goesOn : ∀ ps ∈ s.launched, ps.lastExecPlanForTheModel = true → fin ps.modelId = false →
    ps ∈ r.state.launched ∧ (ps.modelId ∈ r.modelIdsToStop →
      ps ∈ r.newLaunch ∧ ps.numWorker < cfg.fullyConnectedGpuUnit ∧
        (LoadsBelowSentinel seq → ¬ WorkersInGroups cfg s))

/-- What a round leaves: only unfinished plans run, and there are some unless the stages are over. -/
structure Quiet (groups : List (List PlanState)) (fin : Nat → Bool) (s : State) : Prop where
  unfinished : ∀ ps ∈ s.launched, fin ps.modelId = false
  halts : Halts groups s

/-- The invariant of the runs: the placement is only known to be good when the load costs do not
close GPU groups. -/
theorem reach_oneStage {seq : ExecPlanGroupSeq} (hadjust : cfg.noRuntimeAdjustment = true)
    (hfits : seq.Fits cfg.totGpuNum)
    (h : Reach cfg (prepareExecPlanStates seq) (fun _ _ => True) fin s) :
    OneStage (prepareExecPlanStates seq) fin s ∧ Quiet (prepareExecPlanStates seq) fin s ∧
      (LoadsBelowSentinel seq → OldOk cfg s.launched s.cells) := by
  have hs := stages_prepareExecPlanStates seq
  induction h with
  | start hstart =>
    have hstarted := initializeSharedContect_ok hs hstart
    refine ⟨hstarted.oneStage hs, ⟨fun _ _ => rfl, fun hnil => .inr ?_⟩,
      fun _ => hstarted.oldOk hfits⟩
    rw [hstarted.target]
    exact List.Perm.nil_eq (hnil ▸ hstarted.perm) |>.symm
  | round _ hfin _ hround ih =>
    obtain ⟨next, extra, hok⟩ := getTheNextRound_ok hround
    have hone := ih.1.mono hfin
    obtain ⟨hchosen, hhalts⟩ := hok.chosen hadjust hs (sum_gpuNum_stage_le hfits) hone
    refine ⟨hok.oneStage hs hone hchosen, ⟨hok.launched ▸ hchosen.unfinished, ?_⟩, fun hcost =>
      hok.oldOk_oneStage hfits hcost hone hchosen (ih.2.2 hcost)⟩
    rwa [Halts, hok.launched, hok.target]

/-- In every round of every run the stages are launched one after the other, each as a whole and
only when the ones before have let go, and neither of the assertions nor the lookup fails. -/
theorem stageBarrier (cfg : Config) (hadjust : cfg.noRuntimeAdjustment = true)
    (seq : ExecPlanGroupSeq) (hfits : seq.Fits cfg.totGpuNum) {fin fin' : Nat → Bool} {s : State}
    (h : Reach cfg (prepareExecPlanStates seq) (fun _ _ => True) fin s)
    (hfin : ∀ m, fin m → fin' m) :
    (∀ e, getTheNextRound cfg (prepareExecPlanStates seq) fin' s = .error e →
      e ≠ .stateError ∧ e ≠ .stateError2 ∧ e ≠ .planGpusMissing) ∧
    ∀ r, getTheNextRound cfg (prepareExecPlanStates seq) fin' s = .ok r →
      StageBarrier cfg seq fin' s r := by
  have hs := stages_prepareExecPlanStates seq
  obtain ⟨hone, -, hold⟩ := reach_oneStage hadjust hfits h
  replace hone := hone.mono hfin
  constructor
  · intro e he
    have hinternal : e.internal = false := by
      rcases getTheNextRound_error he with he | he
      · have hchoice := choiceOk hs (sum_gpuNum_stage_le hfits) rfl hone
        rw [chooseNext, if_pos hadjust] at he
        rw [he] at hchoice
        obtain rfl : e = .noRoot := hchoice
        rfl
      · exact he
    refine ⟨?_, ?_, ?_⟩ <;> rintro rfl <;> cases hinternal
  · intro r hround
    obtain ⟨next, extra, hok⟩ := getTheNextRound_ok hround
    have hchosen := (hok.chosen hadjust hs (sum_gpuNum_stage_le hfits) hone).1
    have hnext := hchosen.oneStage
    have hmem : ∀ ps ∈ r.newLaunch, ps ∈ next.launched := fun ps hps => by
      rw [hok.newLaunch] at hps
      rcases List.mem_append.mp hps with hps | hps
      · exact List.mem_of_mem_filter hps
      · obtain ⟨k, re, hadj⟩ := adjustCompGpus_ok hnext.nodup hok.adjust_ok
        exact (hadj.extra_sub hnext.nodup hps).1
    refine ⟨⟨next.target - 1, fun ps => ?_⟩, fun ps hps => ?_, fun ps hps hout q hq => ?_,
      fun ps hps j hj => ?_, fun ps hps hlast hunfinished => ?_⟩
    · rw [hok.launched]
      exact ⟨fun hps => ⟨hnext.sub ps hps, hchosen.unfinished ps hps⟩,
        fun hps => hnext.all ps hps.1 hps.2⟩
    · rw [hok.launched]
      exact hmem ps hps
    · rw [hone.stageI_eq hs hq, hnext.stageI_eq hs (hmem ps hps)]
      exact Nat.sub_lt_sub_right hone.target_pos (hchosen.target_lt hone (hmem ps hps) hout)
    · rw [hnext.stageI_eq hs (hmem ps hps)] at hj
      exact hnext.past j (Nat.add_lt_of_lt_sub hj)
    · obtain ⟨hlaunched, hstop⟩ := hok.last_goes_on hs hone hchosen hps hunfinished hlast
      refine ⟨hok.launched ▸ (hlaunched ps).mpr ⟨hps, hunfinished⟩, fun hstopped => ?_⟩
      have hextra := hstop hstopped
      obtain ⟨k, re, hadj⟩ := adjustCompGpus_ok hnext.nodup hok.adjust_ok
      refine ⟨hok.newLaunch ▸ List.mem_append_right _ hextra, hadj.numWorker_lt hnext.nodup hextra,
        fun hcost hworkers => ?_⟩
      rw [hok.extra_eq_nil hcost hone hchosen (hold hcost)
        (fun q hq => ((hlaunched q).mp hq).1) hworkers] at hextra
      exact absurd hextra List.not_mem_nil

/-- Six GPUs in two groups of three. In the first stage model 0 runs two workers of two GPUs each,
of which the second one lies across the groups. -/
def acrossSeq : ExecPlanGroupSeq where
  planGroupSeq := [
    [⟨0, [], 2, 9, 2, 0, 2, 1, Nat.two_pos, Nat.two_pos⟩,
      ⟨1, [], 1, 9, 2, 0, 2, 1, Nat.one_pos, Nat.two_pos⟩],
    [⟨2, [], 2, 9, 2, 0, 2, 1, Nat.two_pos, Nat.two_pos⟩]]
  distinct := by decide

def acrossConfig : Config := ⟨6, 3, false, true, stableArgsort⟩

theorem acrossSeq_fits : acrossSeq.Fits acrossConfig.totGpuNum := by
  show ∀ group ∈ acrossSeq.planGroupSeq, (group.map ExecPlan.gpuNum).sum ≤ 6
  decide

/-- Model 1 finishes, then model 0: the second stage is launched. -/
theorem stageBarrier_across : ∃ s r,
    runFromStart acrossConfig (prepareExecPlanStates acrossSeq) (fun _ _ => true) [[1]] = some s ∧
      getTheNextRound acrossConfig (prepareExecPlanStates acrossSeq)
        (fun m => decide (m ∈ [1, 0])) s = .ok r ∧
      StageBarrier acrossConfig acrossSeq (fun m => decide (m ∈ [1, 0])) s r := by
  have hrun : (runFromStart acrossConfig (prepareExecPlanStates acrossSeq) (fun _ _ => true)
      [[1]]).any (fun s => (getTheNextRound acrossConfig (prepareExecPlanStates acrossSeq)
        (fun m => decide (m ∈ [1, 0])) s).toOption.any fun _ => true) = true := by
    decide +kernel
  obtain ⟨s, hs, hround⟩ := (Option.any_eq_true _ _).mp hrun
  obtain ⟨r, hr, -⟩ := exists_ok_of_any hround
  have hreach : Reach acrossConfig (prepareExecPlanStates acrossSeq) (fun _ _ => True) _ s :=
    (reach_of_runFromStart hs).mono fun _ _ _ => trivial
  refine ⟨s, r, hs, hr, (stageBarrier acrossConfig rfl acrossSeq acrossSeq_fits hreach
    fun m hm => ?_).2 r hr⟩
  exact decide_eq_true (List.mem_append_left [0] (of_decide_eq_true hm))

/-- Model 1 finishes, and model 0, which runs its last plan, is stopped to be moved. -/
theorem not_kept_across : ¬ ∀ (cfg : Config) (seq : ExecPlanGroupSeq),
    cfg.noRuntimeAdjustment = true → seq.Fits cfg.totGpuNum → ∀ (fin fin' : Nat → Bool) (s : State),
      Reach cfg (prepareExecPlanStates seq) (fun _ _ => True) fin s → (∀ m, fin m → fin' m) →
      ∀ r, getTheNextRound cfg (prepareExecPlanStates seq) fin' s = .ok r →
        ∀ ps ∈ s.launched, ps.lastExecPlanForTheModel = true → fin' ps.modelId = false →
          ps.modelId ∉ r.modelIdsToStop := by
  intro h
  have hrun : (runFromStart acrossConfig (prepareExecPlanStates acrossSeq) (fun _ _ => true)
      []).any (fun s => (getTheNextRound acrossConfig (prepareExecPlanStates acrossSeq)
        (fun m => decide (m = 1)) s).toOption.any fun r => s.launched.any fun ps =>
          ps.lastExecPlanForTheModel && decide (ps.modelId ≠ 1) &&
            decide (ps.modelId ∈ r.modelIdsToStop)) = true := by
    decide +kernel
  obtain ⟨s, hs, hround⟩ := (Option.any_eq_true _ _).mp hrun
  obtain ⟨r, hr, hany⟩ := exists_ok_of_any hround
  obtain ⟨ps, hps, hcase⟩ := List.any_eq_true.mp hany
  rw [Bool.and_eq_true, Bool.and_eq_true, decide_eq_true_eq, decide_eq_true_eq] at hcase
  refine h acrossConfig acrossSeq rfl acrossSeq_fits _ (fun m => decide (m = 1)) s
    ((reach_of_runFromStart hs).mono fun _ _ _ => trivial) (fun m hm => ?_) r hr ps hps
    hcase.1.1 (decide_eq_false hcase.1.2) hcase.2
  exact absurd (of_decide_eq_true hm) List.not_mem_nil

end Mil.Schedule
