import Mil.Schedule.Barrier

/-!
# No deadlock between stages

A model waits for the requests of its input models. The scheduler stops plans of earlier stages
whose models have not finished, so a model can be left waiting for one that is not running. Two
things keep the running plans going: a plan that is the last one of its model is not stopped, and a
stage is launched as a whole before the next one is. When no input of a model is planned behind the
model's own last plan, the last plans of earlier stages find their inputs finished or running.
-/

set_option autoImplicit false

namespace Mil.Schedule

open Mil.Lib

/-! ## Sequences -/

/-- The model has a plan in the stage. -/
def ExecPlanGroupSeq.PlannedIn (seq : ExecPlanGroupSeq) (i m : Nat) : Prop :=
  m ∈ (seq.planGroupSeq.getD i []).map ExecPlan.modelId

/-- Every input of a model that is planned in a stage is planned in the same stage, or has its last
plan in an earlier one. -/
def ExecPlanGroupSeq.InputsPlanned (seq : ExecPlanGroupSeq) : Prop :=
  ∀ i, ∀ p ∈ seq.planGroupSeq.getD i [], ∀ m ∈ p.inputModelIds,
    seq.PlannedIn i m ∨ ∃ j < i, seq.PlannedIn j m ∧ ∀ k, j < k → ¬ seq.PlannedIn k m

/-- No input of a model is planned behind the last plan of the model. -/
def ExecPlanGroupSeq.InputsNotBehind (seq : ExecPlanGroupSeq) : Prop :=
  ∀ i, ∀ p ∈ seq.planGroupSeq.getD i [], (∀ k, i < k → ¬ seq.PlannedIn k p.modelId) →
    ∀ m ∈ p.inputModelIds, ∀ k, i < k → ¬ seq.PlannedIn k m

def ExecPlanGroupSeq.NoEmptyStage (seq : ExecPlanGroupSeq) : Prop :=
  ∀ group ∈ seq.planGroupSeq, group ≠ []

variable {seq : ExecPlanGroupSeq}

theorem plannedIn_iff {i m : Nat} :
    seq.PlannedIn i m ↔ ∃ q ∈ stage (prepareExecPlanStates seq) i, q.modelId = m := by
  rw [ExecPlanGroupSeq.PlannedIn, ← map_modelId_stage, List.mem_map]

theorem execPlan_mem {i : Nat} {ps : PlanState} (hps : ps ∈ stage (prepareExecPlanStates seq) i) :
    ps.execPlan ∈ seq.planGroupSeq.getD i [] := by
  rw [← map_stage]
  exact List.mem_map_of_mem hps

/-- A plan behind which its model is not planned is the last one. -/
theorem last_of_not_plannedIn {i m : Nat} {q : PlanState}
    (hq : q ∈ stage (prepareExecPlanStates seq) i) (hmodel : q.modelId = m)
    (hbehind : ∀ k, i < k → ¬ seq.PlannedIn k m) : q.lastExecPlanForTheModel = true := by
  refine ((stages_prepareExecPlanStates seq).last hq).mpr fun j hj p hp heq => ?_
  exact hbehind j hj (plannedIn_iff.mpr ⟨p, hp, heq.trans hmodel⟩)

/-- All inputs are planned in the same stage. -/
theorem inputsPlanned_of_same
    (h : ∀ group ∈ seq.planGroupSeq, ∀ p ∈ group, ∀ m ∈ p.inputModelIds,
      m ∈ group.map ExecPlan.modelId) : seq.InputsPlanned := by
  intro i p hp m hm
  obtain ⟨hi, hin⟩ := mem_getD_nil.mp hp
  refine .inl ?_
  rw [ExecPlanGroupSeq.PlannedIn, List.getD_eq_getElem _ _ hi]
  exact h _ (List.getElem_mem hi) p hin m hm

theorem not_plannedIn {k m : Nat} (hk : seq.planGroupSeq.length ≤ k) : ¬ seq.PlannedIn k m := by
  rw [ExecPlanGroupSeq.PlannedIn, List.getD_eq_default _ _ hk]
  exact List.not_mem_nil

/-- Where the inputs of the plans are planned. -/
structure Supplied (groups : List (List PlanState)) : Prop where
  planned : ∀ i, ∀ ps ∈ stage groups i, ∀ m ∈ ps.inputModelIds,
    (∃ q ∈ stage groups i, q.modelId = m) ∨
      ∃ j < i, ∃ q ∈ stage groups j, q.lastExecPlanForTheModel = true ∧ q.modelId = m
  notBehind : ∀ i, ∀ ps ∈ stage groups i, ps.lastExecPlanForTheModel = true →
    ∀ m ∈ ps.inputModelIds, ∃ j ≤ i, ∃ q ∈ stage groups j,
      q.lastExecPlanForTheModel = true ∧ q.modelId = m
  nonempty : ∀ i < groups.length, stage groups i ≠ []

theorem supplied_prepareExecPlanStates (hplanned : seq.InputsPlanned)
    (hbehind : seq.InputsNotBehind) (hne : seq.NoEmptyStage) :
    Supplied (prepareExecPlanStates seq) := by
  have hs := stages_prepareExecPlanStates seq
  have hsplit : ∀ i, ∀ ps ∈ stage (prepareExecPlanStates seq) i, ∀ m ∈ ps.inputModelIds,
      (∃ q ∈ stage (prepareExecPlanStates seq) i, q.modelId = m) ∨
        ∃ j < i, ∃ q ∈ stage (prepareExecPlanStates seq) j,
          q.lastExecPlanForTheModel = true ∧ q.modelId = m := by
    intro i ps hps m hm
    refine (hplanned i ps.execPlan (execPlan_mem hps) m hm).imp plannedIn_iff.mp ?_
    rintro ⟨j, hj, hin, hlast⟩
    obtain ⟨q, hq, hmodel⟩ := plannedIn_iff.mp hin
    exact ⟨j, hj, q, hq, last_of_not_plannedIn hq hmodel hlast, hmodel⟩
  refine ⟨hsplit, fun i ps hps hlast m hm => ?_, fun i hi hnil => ?_⟩
  · rcases hsplit i ps hps m hm with ⟨q, hq, hmodel⟩ | ⟨j, hj, q, hq, hqlast, hmodel⟩
    · refine ⟨i, Nat.le_refl _, q, hq, last_of_not_plannedIn hq hmodel ?_, hmodel⟩
      refine hbehind i ps.execPlan (execPlan_mem hps) (fun k hk hin => ?_) m hm
      obtain ⟨p, hp, heq⟩ := plannedIn_iff.mp hin
      exact (hs.last hps).mp hlast k hk p hp heq
    · exact ⟨j, Nat.le_of_lt hj, q, hq, hqlast, hmodel⟩
  · have hmap := map_stage seq i
    rw [length_prepareExecPlanStates] at hi
    rw [hnil, List.getD_eq_getElem _ _ hi] at hmap
    exact hne _ (List.getElem_mem hi) hmap.symm

variable {cfg : Config} {groups : List (List PlanState)} {fin fin' : Nat → Bool} {s s' : State}

/-- Every planned model has a last plan. -/
theorem Stages.exists_last (hs : Stages groups) {i : Nat} {ps : PlanState}
    (hps : ps ∈ stage groups i) : ∃ j < groups.length, ∃ q ∈ stage groups j,
      q.lastExecPlanForTheModel = true ∧ q.modelId = ps.modelId := by
  have hi : i < groups.length := (mem_getD_nil.mp hps).1
  induction hn : groups.length - i using Nat.strong_induction_on generalizing i ps with
  | _ n ih =>
    by_cases hlast : ps.lastExecPlanForTheModel = true
    · exact ⟨i, hi, ps, hps, hlast, rfl⟩
    · rw [hs.last hps] at hlast
      simp only [not_forall, not_not] at hlast
      obtain ⟨j, hj, p, hp, hmodel⟩ := hlast
      have hjlt : j < groups.length := (mem_getD_nil.mp hp).1
      obtain ⟨k, hk, q, hq, hqlast, heq⟩ := ih (groups.length - j) (by omega) hp hjlt rfl
      exact ⟨k, hk, q, hq, hqlast, heq.trans hmodel⟩

/-! ## Progress -/

/-- An unfinished model is running, and so are all its unfinished inputs. -/
def Progresses (fin : Nat → Bool) (s : State) : Prop :=
  ∃ p ∈ s.launched, fin p.modelId = false ∧ ∀ m ∈ p.inputModelIds, fin m = false →
    ∃ q ∈ s.launched, q.modelId = m

/-- Some model of the sequence has not finished. -/
def Unfinished (groups : List (List PlanState)) (fin : Nat → Bool) : Prop :=
  ∃ i, ∃ ps ∈ stage groups i, fin ps.modelId = false

/-! ## Without runtime adjustment -/

/-- A stage that runs alone has all it needs. -/
theorem OneStage.progresses (hs : Stages groups) (hsup : Supplied groups)
    (h : OneStage groups fin s) (hquiet : Quiet groups fin s) (hunf : Unfinished groups fin) :
    Progresses fin s := by
  have hlaunched : s.launched ≠ [] := by
    intro hnil
    -- All stages are over, and the last plan of the unfinished model is in one of them.
    have hover : groups.length ≤ s.target := by
      refine (hquiet.halts hnil).elim id fun hempty => ?_
      by_contra hlt
      exact hsup.nonempty _ (by omega) hempty
    obtain ⟨i, ps, hps, hnot⟩ := hunf
    obtain ⟨j, hj, q, hq, hlast, hmodel⟩ := hs.exists_last hps
    rw [← hmodel] at hnot
    rcases Nat.lt_or_ge (j + 1) s.target with hlt | hge
    · rw [h.past j hlt q hq hlast] at hnot
      cases hnot
    · obtain rfl : j = s.target - 1 := by omega
      have hmem := h.all q hq hnot
      rw [hnil] at hmem
      exact List.not_mem_nil hmem
  obtain ⟨p, hp⟩ := List.exists_mem_of_ne_nil _ hlaunched
  refine ⟨p, hp, hquiet.unfinished p hp, fun m hm hnot => ?_⟩
  rcases hsup.planned _ p (h.sub p hp) m hm with ⟨q, hq, rfl⟩ | ⟨j, hj, q, hq, hlast, rfl⟩
  · exact ⟨q, h.all q hq hnot, rfl⟩
  · rw [h.past j (Nat.add_lt_of_lt_sub hj) q hq hlast] at hnot
    cases hnot

/-! ## With runtime adjustment -/

/-- The last plans of earlier stages run until their models finish, and the plans of the target
stage are running or still candidates. -/
structure Covered (groups : List (List PlanState)) (fin : Nat → Bool) (s : State) : Prop where
  past : ∀ i < s.target, ∀ q ∈ stage groups i, q.lastExecPlanForTheModel = true →
    fin q.modelId = true ∨ q ∈ s.launched
  here : ∀ q ∈ stage groups s.target, fin q.modelId = true ∨ q ∈ s.launched ∨ q ∈ s.candidates
  length_le : ∀ ps ∈ s.launched, (gpus s.cells ps).length ≤ ps.gpuNum

theorem Covered.mono (h : Covered groups fin s) (hfin : ∀ m, fin m → fin' m) :
    Covered groups fin' s where
  past i hi q hq hlast := (h.past i hi q hq hlast).imp_left (hfin _)
  here q hq := (h.here q hq).imp_left (hfin _)
  length_le := h.length_le

/-- Where a round ends: a last plan of an earlier stage is running, or the stage before the target
runs as a whole, and unless it was the last one none of its models has finished. -/
inductive Ended (groups : List (List PlanState)) (fin : Nat → Bool) (s : State) : Prop
  | outlived (p : PlanState) : p ∈ s.launched → fin p.modelId = false → p.stageI < s.target →
      p.lastExecPlanForTheModel = true → Ended groups fin s
  | complete (i : Nat) : s.target = i + 1 →
      (∀ q ∈ stage groups i, fin q.modelId = true ∨ q ∈ s.launched) →
      (s.target < groups.length → ∀ q ∈ stage groups i, fin q.modelId = false) →
      Ended groups fin s

/-- A last plan of an earlier stage that is running does not wait for a model that is not. -/
theorem Covered.progresses_of_last (hsup : Supplied groups) (hb : Bookkept groups s)
    (h : Covered groups fin s) {p : PlanState} (hp : p ∈ s.launched)
    (hunfinished : fin p.modelId = false) (hstage : p.stageI < s.target)
    (hlast : p.lastExecPlanForTheModel = true) : Progresses fin s := by
  refine ⟨p, hp, hunfinished, fun m hm hnot => ?_⟩
  obtain ⟨j, hj, q, hq, hqlast, rfl⟩ := hsup.notBehind _ p (hb.member p hp).1 hlast m hm
  rcases h.past j (Nat.lt_of_le_of_lt hj hstage) q hq hqlast with hfinished | hin
  · rw [hfinished] at hnot
    cases hnot
  · exact ⟨q, hin, rfl⟩

theorem Ended.progresses (hs : Stages groups) (hsup : Supplied groups) (hb : Bookkept groups s)
    (hc : Covered groups fin s) (h : Ended groups fin s) (hunf : Unfinished groups fin) :
    Progresses fin s := by
  cases h with
  | outlived p hp hunfinished hstage hlast =>
    exact hc.progresses_of_last hsup hb hp hunfinished hstage hlast
  | complete i htarget hruns hnone =>
    by_cases hlt : s.target < groups.length
    · -- The whole stage is running.
      obtain ⟨p, hp⟩ := List.exists_mem_of_ne_nil _ (hsup.nonempty i (by omega))
      have hmem : ∀ q ∈ stage groups i, q ∈ s.launched := fun q hq =>
        (hruns q hq).resolve_left (by rw [hnone hlt q hq]; exact Bool.false_ne_true)
      refine ⟨p, hmem p hp, hnone hlt p hp, fun m hm hnot => ?_⟩
      rcases hsup.planned i p hp m hm with ⟨q, hq, rfl⟩ | ⟨j, hj, q, hq, hlast, rfl⟩
      · exact ⟨q, hmem q hq, rfl⟩
      · rcases hc.past j (by omega) q hq hlast with hfinished | hin
        · rw [hfinished] at hnot
          cases hnot
        · exact ⟨q, hin, rfl⟩
    · -- All stages are over.
      obtain ⟨k, ps, hps, hnot⟩ := hunf
      obtain ⟨j, hj, q, hq, hlast, hmodel⟩ := hs.exists_last hps
      rw [← hmodel] at hnot
      have hjt : j < s.target := Nat.lt_of_lt_of_le hj (Nat.le_of_not_lt hlt)
      have hin : q ∈ s.launched := (hc.past j hjt q hq hlast).resolve_left
        (by rw [hnot]; exact Bool.false_ne_true)
      exact hc.progresses_of_last hsup hb hin hnot (hs.stageI hq ▸ hjt) hlast

section

variable {loaded : List PlanState} {l l' : Load}

theorem Covered.past_level (h : Covered groups fin s)
    (hl : LevelLoad cfg fin s (keptPlans fin s) s.candidates loaded l) {i : Nat}
    (hi : i < s.target) {q : PlanState} (hq : q ∈ stage groups i)
    (hlast : q.lastExecPlanForTheModel = true) : fin q.modelId = true ∨ q ∈ l.toLaunch := by
  cases hfin : fin q.modelId with
  | true => exact .inl rfl
  | false =>
    have hin : q ∈ s.launched := (h.past i hi q hq hlast).resolve_left
      (by rw [hfin]; exact Bool.false_ne_true)
    refine .inr ?_
    rw [hl.toLaunch, List.append_assoc]
    exact List.mem_append_left _ (mem_keptPlans.mpr ⟨hin, hfin, .inr hlast⟩)

/-- The plans of the target stage that are not launched are postponed. -/
theorem Covered.here_level (hs : Stages groups) (h : Covered groups fin s)
    (hl : LevelLoad cfg fin s (keptPlans fin s) s.candidates loaded l) {q : PlanState}
    (hq : q ∈ stage groups s.target) :
    fin q.modelId = true ∨ q ∈ l.toLaunch ∨ q ∈ l.newCandidates := by
  cases hfin : fin q.modelId with
  | true => exact .inl rfl
  | false =>
    refine .inr ?_
    rw [hl.toLaunch, List.mem_append, List.mem_append]
    rcases (h.here q hq).resolve_left (by rw [hfin]; exact Bool.false_ne_true) with hin | hin
    · refine .inl (.inl (.inl (mem_keptPlans.mpr ⟨hin, hfin, .inl ?_⟩)))
      rw [hs.stageI hq]
    · cases hneed : q.needPrepareInferEnv with
      | false =>
        refine .inl (.inl (.inr (List.mem_filter.mpr ⟨hin, ?_⟩)))
        rw [unchanged, hfin, hneed]
        rfl
      | true =>
        have hpending : q ∈ s.candidates.filter (isPending fin) :=
          List.mem_filter.mpr ⟨hin, by rw [isPending, hfin, hneed]; rfl⟩
        exact (List.mem_append.mp (hl.perm.symm.subset hpending)).imp_left .inr

theorem Covered.length_le_level (hb : Bookkept groups s) (h : Covered groups fin s)
    (hl : LevelLoad cfg fin s (keptPlans fin s) s.candidates loaded l) {ps : PlanState}
    (hps : ps ∈ l.toLaunch) : (gpus l.cells ps).length ≤ ps.gpuNum := by
  rcases hl.mem_toLaunch hps with hps | hps | hps
  · have hin := (mem_keptPlans.mp hps).1
    rw [gpus, hl.frame ps fun hmem => hb.cands_new ps hmem hin]
    exact h.length_le ps hin
  · obtain ⟨p, hp, hkey, hcell⟩ := hl.unchanged_cell ps hps
    rw [gpus, hcell, ← gpuNum_eq_of_modelKey hkey]
    exact h.length_le p hp
  · exact (hl.loaded_cell ps hps).2.le

/-- A stage is only postponed while a last plan of an earlier one is running. -/
theorem Covered.exists_outlived (hs : Stages groups)
    (hfits : ((stage groups s.target).map PlanState.gpuNum).sum ≤ cfg.totGpuNum)
    (hb : Bookkept groups s) (h : Covered groups fin s)
    (hl : LevelLoad cfg fin s (keptPlans fin s) s.candidates loaded l)
    (hnew : l.newCandidates ≠ []) :
    ∃ p ∈ keptPlans fin s, p.stageI < s.target ∧ p.lastExecPlanForTheModel = true := by
  by_contra hnone
  simp only [not_exists, not_and] at hnone
  -- Otherwise all that is kept or to be launched belongs to the target stage, which fits.
  have hkept : ∀ p ∈ keptPlans fin s, p ∈ stage groups s.target := by
    intro p hp
    obtain ⟨hin, -, hwhy⟩ := mem_keptPlans.mp hp
    obtain ⟨hmem, hle⟩ := hb.member p hin
    have hge : s.target ≤ p.stageI := hwhy.elim id fun hlast => by
      by_contra hlt
      exact hnone p hp (Nat.lt_of_not_le hlt) hlast
    rwa [Nat.le_antisymm hle hge] at hmem
  refine hnew (hl.newCandidates_eq_nil_of_subset (hb.levelReady hs) hkept hb.cands_sub hfits
    fun p hp => h.length_le_level hb hl ?_)
  rw [hl.toLaunch]
  exact List.mem_append_left _ hp

theorem Covered.advance (hs : Stages groups) (hb : Bookkept groups s) (h : Covered groups fin s)
    (hl : LevelLoad cfg fin s (keptPlans fin s) s.candidates loaded l)
    (hnew : l.newCandidates = []) : Covered groups fin (s.advance groups l) where
  past i hi q hq hlast := by
    rcases Nat.lt_succ_iff_lt_or_eq.mp hi with hlt | rfl
    · exact h.past_level hl hlt hq hlast
    · refine (h.here_level hs hl hq).imp_right (Or.resolve_right · ?_)
      rw [hnew]
      exact List.not_mem_nil
  here q hq := .inr (.inr hq)
  length_le ps hps := h.length_le_level hb hl hps

theorem Covered.stall (hs : Stages groups) (hb : Bookkept groups s) (h : Covered groups fin s)
    (hl : LevelLoad cfg fin s (keptPlans fin s) s.candidates loaded l)
    (hl' : readmit cfg fin s l = .ok l') :
    Covered groups fin ⟨l'.toLaunch, l'.newCandidates, s.target, l'.cells⟩ := by
  obtain ⟨back, horder, -, hback⟩ := readmit_ok hb hl hl'
  have hsub : l.toLaunch ⊆ l'.toLaunch := fun ps hps =>
    hback.toLaunch ▸ List.mem_append_left _ hps
  refine ⟨fun i hi q hq hlast => (h.past_level hl hi hq hlast).imp_right (hsub ·),
    fun q hq => ?_, fun ps hps => ?_⟩
  · exact (h.here_level hs hl hq).imp_right (Or.imp (hsub ·) (hback.newCandidates ▸ ·))
  · show (gpus l'.cells ps).length ≤ ps.gpuNum
    rw [hback.cells]
    replace hps : ps ∈ l'.toLaunch := hps
    rw [hback.toLaunch] at hps
    rcases List.mem_append.mp hps with hps | hps
    · exact h.length_le_level hb hl hps
    · have hin := (mem_earlierPlans.mp (horder.subset (hback.sublist.subset hps))).1
      rw [gpus, hl.frame ps fun hmem => hb.cands_new ps hmem hin]
      exact h.length_le ps hin

end

theorem Levels.covered (hs : Stages groups)
    (hfits : ∀ i, ((stage groups i).map PlanState.gpuNum).sum ≤ cfg.totGpuNum)
    (h : Levels cfg groups fin s s') (hb : Bookkept groups s) (hc : Covered groups fin s) :
    Covered groups fin s' ∧ Ended groups fin s' := by
  induction h with
  | @stalled s l l' hl hnew hl' =>
    obtain ⟨loaded, hload⟩ := loadCandidates_ok hs hb hl
    obtain ⟨back, -, -, hback⟩ := readmit_ok hb hload hl'
    obtain ⟨p, hp, hstage, hlast⟩ := hc.exists_outlived hs (hfits _) hb hload hnew
    refine ⟨hc.stall hs hb hload hl', .outlived p ?_ (mem_keptPlans.mp hp).2.1 hstage hlast⟩
    show p ∈ l'.toLaunch
    rw [hback.toLaunch, hload.toLaunch, List.append_assoc, List.append_assoc]
    exact List.mem_append_left _ hp
  | @advanced s l hl hnew hnone =>
    obtain ⟨loaded, hload⟩ := loadCandidates_ok hs hb hl
    refine ⟨hc.advance hs hb hload hnew, .complete s.target rfl (fun q hq => ?_) fun hlt q hq => ?_⟩
    · refine (hc.here_level hs hload hq).imp_right (Or.resolve_right · ?_)
      rw [hnew]
      exact List.not_mem_nil
    · exact Bool.eq_false_of_not_eq_true (List.any_eq_false.mp (hnone hlt) q hq)
  | passed hl hnew _ _ _ ih =>
    obtain ⟨loaded, hload⟩ := loadCandidates_ok hs hb hl
    exact ih (hb.advance hs hload) (hc.advance hs hb hload hnew)

theorem Started.covered (h : Started cfg groups s) :
    Covered groups fin s ∧ Ended groups (fun _ => false) s := by
  have hfirst : ∀ q ∈ stage groups 0, q ∈ s.launched := fun q hq => h.perm.symm.subset hq
  refine ⟨⟨fun i hi q hq _ => ?_, fun q hq => ?_, h.placed.length_le⟩,
    .complete 0 h.target (fun q hq => .inr (hfirst q hq)) fun _ _ _ => rfl⟩
  · rw [h.target, Nat.lt_one_iff] at hi
    subst hi
    exact .inr (hfirst q hq)
  · rw [h.candidates, ← h.target]
    exact .inr (.inr hq)

theorem RoundOk.covered {r : Round} {next : State} {extra : List PlanState}
    (h : RoundOk cfg groups fin s r next extra) (hadjust : cfg.noRuntimeAdjustment = false)
    (hs : Stages groups) (hfits : ∀ i, ((stage groups i).map PlanState.gpuNum).sum ≤ cfg.totGpuNum)
    (hb : Bookkept groups s) (hc : Covered groups fin s) :
    Covered groups fin r.state ∧ Ended groups fin r.state := by
  have hlevels := h.levels hadjust
  obtain ⟨hnext, hended⟩ := hlevels.covered hs hfits hb hc
  have hnodup := (hlevels.bookkept hs hb).models.of_map
  obtain ⟨k, re, hadj⟩ := adjustCompGpus_ok hnodup h.adjust_ok
  refine ⟨⟨?_, ?_, fun ps hps => ?_⟩, ?_⟩
  · rw [h.target, h.launched]
    exact hnext.past
  · rw [h.target, h.launched, h.candidates]
    exact hnext.here
  · refine hadj.length_le hnodup (fun p hp => ?_) hnext.length_le (h.launched ▸ hps)
    rw [gpus, hlevels.frame_launched hs hb hp]
    exact hc.length_le p hp
  · cases hended with
    | outlived p hp hunfinished hstage hlast =>
      exact .outlived p (h.launched ▸ hp) hunfinished (h.target ▸ hstage) hlast
    | complete i htarget hruns hnone =>
      exact .complete i (h.target.trans htarget) (h.launched ▸ hruns) (h.target ▸ hnone)

/-! ## Runs -/

/-- After every round of every run, while some model has not finished, an unfinished model runs
together with all its unfinished inputs. -/
theorem reach_progresses (cfg : Config) (seq : ExecPlanGroupSeq) (hfits : seq.Fits cfg.totGpuNum)
    (hplanned : seq.InputsPlanned) (hbehind : seq.InputsNotBehind) (hne : seq.NoEmptyStage)
    {fin : Nat → Bool} {s : State}
    (h : Reach cfg (prepareExecPlanStates seq) (fun _ _ => True) fin s)
    (hunf : Unfinished (prepareExecPlanStates seq) fin) : Progresses fin s := by
  have hs := stages_prepareExecPlanStates seq
  have hsup := supplied_prepareExecPlanStates hplanned hbehind hne
  cases hadjust : cfg.noRuntimeAdjustment with
  | true =>
    obtain ⟨hone, hquiet, -⟩ := reach_oneStage hadjust hfits h
    exact hone.progresses hs hsup hquiet hunf
  | false =>
    suffices hinv : Bookkept (prepareExecPlanStates seq) s ∧
        Covered (prepareExecPlanStates seq) fin s ∧ Ended (prepareExecPlanStates seq) fin s from
      hinv.2.2.progresses hs hsup hinv.1 hinv.2.1 hunf
    clear hunf
    induction h with
    | start hstart =>
      have hstarted := initializeSharedContect_ok hs hstart
      exact ⟨hstarted.bookkept hs, hstarted.covered⟩
    | round _ hfin _ hround ih =>
      obtain ⟨next, extra, hok⟩ := getTheNextRound_ok hround
      exact ⟨hok.bookkept hs hadjust ih.1,
        hok.covered hadjust hs (sum_gpuNum_stage_le hfits) ih.1 (ih.2.1.mono hfin)⟩

/-- Two stages for four GPUs. Models 0 and 1 go on in the second stage, and model 0 takes its
requests from model 1. -/
def suppliedSeq : ExecPlanGroupSeq where
  planGroupSeq := [
    [⟨0, [1], 2, 9, 2, 0, 1, 1, Nat.two_pos, Nat.one_pos⟩,
      ⟨1, [], 1, 9, 2, 0, 1, 1, Nat.one_pos, Nat.one_pos⟩,
      ⟨2, [], 1, 9, 2, 0, 1, 1, Nat.one_pos, Nat.one_pos⟩],
    [⟨0, [1], 2, 9, 2, 0, 1, 1, Nat.two_pos, Nat.one_pos⟩,
      ⟨1, [], 1, 9, 2, 0, 2, 1, Nat.one_pos, Nat.two_pos⟩]]
  distinct := by decide

def suppliedConfig : Config := ⟨4, 2, false, false, stableArgsort⟩

theorem suppliedSeq_fits : suppliedSeq.Fits suppliedConfig.totGpuNum := by
  show ∀ group ∈ suppliedSeq.planGroupSeq, (group.map ExecPlan.gpuNum).sum ≤ 4
  decide

theorem suppliedSeq_inputsNotBehind : suppliedSeq.InputsNotBehind := by
  intro i p hp hlast m hm k hk
  rcases i with _ | i
  · rcases List.mem_cons.mp hp with rfl | hp
    · exact absurd (show (0 : Nat) ∈ [0, 1] by decide) (hlast 1 Nat.one_pos)
    · rcases List.mem_cons.mp hp with rfl | hp
      · exact absurd hm List.not_mem_nil
      · obtain rfl := List.mem_singleton.mp hp
        exact absurd hm List.not_mem_nil
  · exact not_plannedIn (show 2 ≤ k by omega)

/-- Model 2 finishes, and the second stage is launched. -/
theorem reach_progresses_supplied : ∃ s,
    runFromStart suppliedConfig (prepareExecPlanStates suppliedSeq) (fun _ _ => true) [[2]] =
        some s ∧ s.target = 2 ∧ Progresses (fun m => decide (m ∈ [[2]].flatten)) s := by
  have hrun : (runFromStart suppliedConfig (prepareExecPlanStates suppliedSeq) (fun _ _ => true)
      [[2]]).any (fun s => decide (s.target = 2)) = true := by
    decide
  obtain ⟨s, hs, htarget⟩ := (Option.any_eq_true _ _).mp hrun
  refine ⟨s, hs, of_decide_eq_true htarget, reach_progresses suppliedConfig suppliedSeq
    suppliedSeq_fits (inputsPlanned_of_same (by decide)) suppliedSeq_inputsNotBehind
    (fun group hgroup => ?_) ((reach_of_runFromStart hs).mono fun _ _ _ => trivial)
    ⟨0, ⟨⟨0, [1], 2, 9, 2, 0, 1, 1, Nat.two_pos, Nat.one_pos⟩, 0, 0, false, false⟩, ?_, ?_⟩⟩
  · revert group
    decide
  · decide
  · decide

theorem four_pos : 0 < 4 := Nat.succ_pos 3

theorem five_pos : 0 < 5 := Nat.succ_pos 4

theorem three_pos : 0 < 3 := Nat.succ_pos 2

/-- Two stages for eight GPUs. Models 0 and 3 take their requests from model 1, whose plan of the
second stage needs five GPUs. -/
def starvedSeq : ExecPlanGroupSeq where
  planGroupSeq := [
    [⟨0, [1], 4, 9, 2, 0, 1, 1, four_pos, Nat.one_pos⟩,
      ⟨1, [], 2, 9, 2, 0, 1, 1, Nat.two_pos, Nat.one_pos⟩,
      ⟨2, [], 2, 9, 2, 0, 1, 1, Nat.two_pos, Nat.one_pos⟩],
    [⟨1, [], 1, 9, 2, 0, 5, 1, Nat.one_pos, five_pos⟩,
      ⟨3, [1], 1, 9, 2, 0, 3, 1, Nat.one_pos, three_pos⟩]]
  distinct := by decide

/-- Model 0 runs in the first stage and in the third one, and there is nothing in between. -/
def gapSeq : ExecPlanGroupSeq where
  planGroupSeq := [
    [⟨0, [], 1, 9, 2, 0, 1, 1, Nat.one_pos, Nat.one_pos⟩], [],
    [⟨0, [], 1, 9, 2, 0, 1, 1, Nat.one_pos, Nat.one_pos⟩]]
  distinct := by decide

def starvedConfig : Config := ⟨8, 4, false, false, stableArgsort⟩

/-- Whether some running model that has not finished has all its unfinished inputs running. -/
def progresses (fin : Nat → Bool) (s : State) : Bool :=
  s.launched.any fun p => !fin p.modelId && p.inputModelIds.all fun m =>
    fin m || s.launched.any fun q => decide (q.modelId = m)

theorem not_progresses {fin : Nat → Bool} {s : State} (h : progresses fin s = false) :
    ¬ Progresses fin s := by
  rintro ⟨p, hp, hunfinished, hinputs⟩
  refine List.any_eq_false.mp h p hp ?_
  rw [hunfinished, Bool.not_false, Bool.true_and, List.all_eq_true]
  intro m hm
  cases hfin : fin m with
  | true => rfl
  | false =>
    obtain ⟨q, hq, hmodel⟩ := hinputs m hm hfin
    exact List.any_eq_true.mpr ⟨q, hq, decide_eq_true hmodel⟩

/-- Model 2 finishes. The second stage gets the four GPUs that model 0 leaves: model 3 is launched,
the new plan of model 1 does not fit, and its old plan is stopped. Both models that run wait for
model 1. A stage without plans stops everything as well. -/
theorem not_progresses_starved :
    (¬ ∀ (cfg : Config) (seq : ExecPlanGroupSeq), seq.Fits cfg.totGpuNum → seq.InputsPlanned →
      seq.NoEmptyStage → ∀ (fin : Nat → Bool) (s : State),
        Reach cfg (prepareExecPlanStates seq) (fun _ _ => True) fin s →
        Unfinished (prepareExecPlanStates seq) fin → Progresses fin s) ∧
    ¬ ∀ (cfg : Config) (seq : ExecPlanGroupSeq), seq.Fits cfg.totGpuNum → seq.InputsPlanned →
      seq.InputsNotBehind → ∀ (fin : Nat → Bool) (s : State),
        Reach cfg (prepareExecPlanStates seq) (fun _ _ => True) fin s →
        Unfinished (prepareExecPlanStates seq) fin → Progresses fin s := by
  constructor
  · intro h
    have hrun : (runFromStart starvedConfig (prepareExecPlanStates starvedSeq) (fun _ _ => true)
        [[2]]).any (fun s => !progresses (fun m => decide (m ∈ [[2]].flatten)) s) = true := by
      decide
    obtain ⟨s, hs, hstuck⟩ := (Option.any_eq_true _ _).mp hrun
    refine not_progresses ((Bool.not_eq_true' _).mp hstuck) (h starvedConfig starvedSeq ?_
      (inputsPlanned_of_same (by decide)) ?_ _ s
      ((reach_of_runFromStart hs).mono fun _ _ _ => trivial)
      ⟨0, ⟨⟨0, [1], 4, 9, 2, 0, 1, 1, four_pos, Nat.one_pos⟩, 0, 0, true, false⟩, ?_, ?_⟩)
    · show ∀ group ∈ starvedSeq.planGroupSeq, (group.map ExecPlan.gpuNum).sum ≤ 8
      decide
    · show ∀ group ∈ starvedSeq.planGroupSeq, group ≠ []
      decide
    · decide
    · decide
  · intro h
    have hrun : (runFromStart starvedConfig (prepareExecPlanStates gapSeq) (fun _ _ => true)
        [[]]).any (fun s => !progresses (fun m => decide (m ∈ [[]].flatten)) s) = true := by
      decide
    obtain ⟨s, hs, hstuck⟩ := (Option.any_eq_true _ _).mp hrun
    refine not_progresses ((Bool.not_eq_true' _).mp hstuck) (h starvedConfig gapSeq ?_
      (inputsPlanned_of_same (by decide)) (fun i p hp _ m hm => ?_) _ s
      ((reach_of_runFromStart hs).mono fun _ _ _ => trivial)
      ⟨0, ⟨⟨0, [], 1, 9, 2, 0, 1, 1, Nat.one_pos, Nat.one_pos⟩, 0, 0, false, false⟩, ?_, ?_⟩)
    · show ∀ group ∈ gapSeq.planGroupSeq, (group.map ExecPlan.gpuNum).sum ≤ 8
      decide
    · have hnone : ∀ group ∈ gapSeq.planGroupSeq, ∀ p ∈ group, p.inputModelIds = [] := by decide
      obtain ⟨hi, hin⟩ := mem_getD_nil.mp hp
      rw [hnone _ (List.getElem_mem hi) p hin] at hm
      exact absurd hm List.not_mem_nil
    · decide
    · decide

end Mil.Schedule
