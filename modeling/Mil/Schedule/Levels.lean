import Mil.Schedule.Adjust

/-!
# A round with runtime adjustment, level by level

`Levels` is what `_get_the_next_round_exec_plan_schedule` does, as a relation: a round passes
through stages that can be launched completely and of which a model has finished, and ends at a
stage that stalls, or behind a stage whose models are all still running. `Bookkept` is what holds
of the scheduler's lists and flags at every level and between rounds.
-/

set_option autoImplicit false

namespace Mil.Schedule

open Mil.Lib

/-- The state behind a stage that has been launched completely. -/
def State.advance (groups : List (List PlanState)) (s : State) (l : Load) : State :=
  ⟨l.toLaunch, stage groups (s.target + 1), s.target + 1, l.cells⟩

inductive Levels (cfg : Config) (groups : List (List PlanState)) (fin : Nat → Bool) :
    State → State → Prop
  | stalled {s : State} {l l' : Load} : loadCandidates cfg fin s = .ok l →
      l.newCandidates ≠ [] → readmit cfg fin s l = .ok l' →
      Levels cfg groups fin s ⟨l'.toLaunch, l'.newCandidates, s.target, l'.cells⟩
  | advanced {s : State} {l : Load} : loadCandidates cfg fin s = .ok l → l.newCandidates = [] →
      (s.target + 1 < groups.length → hasModelFinished groups fin s.target = false) →
      Levels cfg groups fin s (s.advance groups l)
  | passed {s s' : State} {l : Load} : loadCandidates cfg fin s = .ok l → l.newCandidates = [] →
      s.target + 1 < groups.length → hasModelFinished groups fin s.target = true →
      Levels cfg groups fin (s.advance groups l) s' → Levels cfg groups fin s s'

variable {cfg : Config} {groups : List (List PlanState)} {fin : Nat → Bool} {s s' : State}

theorem drop_eq_nil_or_cons (groups : List (List PlanState)) (i : Nat) :
    groups.drop i = [] ∧ groups.length ≤ i ∧ stage groups i = [] ∨
      groups.drop i = stage groups i :: groups.drop (i + 1) ∧ i < groups.length := by
  by_cases hi : i < groups.length
  · right
    rw [stage, List.getD_eq_getElem _ _ hi]
    exact ⟨List.drop_eq_getElem_cons hi, hi⟩
  · have hle := Nat.le_of_not_lt hi
    exact .inl ⟨List.drop_eq_nil_of_le hle, hle, List.getD_eq_default _ _ hle⟩

theorem nextRound_levels {later : List (List PlanState)} {s s' : State}
    (hlater : later = groups.drop (s.target + 1))
    (h : nextRound cfg groups fin later s = .ok s') : Levels cfg groups fin s s' := by
  induction later generalizing s with
  | nil =>
    rcases drop_eq_nil_or_cons groups (s.target + 1) with ⟨-, hlength, hstage⟩ | ⟨hdrop, -⟩
    · rw [nextRound] at h
      obtain ⟨l, hl, h⟩ := exists_of_bind_ok h
      by_cases hnew : l.newCandidates ≠ []
      · rw [if_pos hnew] at h
        obtain ⟨l', hl', h⟩ := exists_of_bind_ok h
        obtain rfl := Except.ok.inj h
        exact .stalled hl hnew hl'
      · rw [if_neg hnew] at h
        obtain rfl := Except.ok.inj h
        have hadvanced : Levels cfg groups fin s (s.advance groups l) :=
          .advanced hl (not_not.mp hnew) fun hlt => absurd hlt (Nat.not_lt_of_le hlength)
        rwa [State.advance, hstage] at hadvanced
    · rw [hdrop] at hlater
      cases hlater
  | cons next later ih =>
    rcases drop_eq_nil_or_cons groups (s.target + 1) with ⟨hdrop, -, -⟩ | ⟨hdrop, hlt⟩
    · rw [hdrop] at hlater
      cases hlater
    · rw [hdrop] at hlater
      obtain ⟨rfl, hrest⟩ := List.cons.inj hlater
      rw [nextRound] at h
      obtain ⟨l, hl, h⟩ := exists_of_bind_ok h
      by_cases hnew : l.newCandidates ≠ []
      · rw [if_pos hnew] at h
        obtain ⟨l', hl', h⟩ := exists_of_bind_ok h
        obtain rfl := Except.ok.inj h
        exact .stalled hl hnew hl'
      · rw [if_neg hnew] at h
        dsimp only at h
        by_cases hfinished : hasModelFinished groups fin s.target = true
        · rw [if_pos hfinished] at h
          exact .passed hl (not_not.mp hnew) hlt hfinished (ih hrest h)
        · rw [if_neg hfinished] at h
          obtain rfl := Except.ok.inj h
          exact .advanced hl (not_not.mp hnew) fun _ => Bool.eq_false_of_not_eq_true hfinished

/-! ## Bookkeeping -/

structure Bookkept (groups : List (List PlanState)) (s : State) : Prop where
  member : ∀ ps ∈ s.launched, ps ∈ stage groups ps.stageI ∧ ps.stageI ≤ s.target
  models : (s.launched.map PlanState.modelId).Nodup
  flags : ∀ ps ∈ s.launched, (s.cells ps).launched = true
  cands_sub : ∀ ps ∈ s.candidates, ps ∈ stage groups s.target
  cands_nodup : s.candidates.Nodup
  cands_new : ∀ ps ∈ s.candidates, ps ∉ s.launched
  cands_flag : ∀ ps ∈ s.candidates, (s.cells ps).launched = false
  later_flag : ∀ j, s.target < j → ∀ ps ∈ stage groups j, (s.cells ps).launched = false

theorem mem_keptPlans {ps : PlanState} : ps ∈ keptPlans fin s ↔
    ps ∈ s.launched ∧ fin ps.modelId = false ∧
      (s.target ≤ ps.stageI ∨ ps.lastExecPlanForTheModel = true) := by
  simp [keptPlans]

theorem mem_earlierPlans {ps : PlanState} : ps ∈ earlierPlans fin s ↔
    ps ∈ s.launched ∧ fin ps.modelId = false ∧
      ps.stageI < s.target ∧ ps.lastExecPlanForTheModel = false := by
  simp [earlierPlans]

theorem Bookkept.cands_models (hs : Stages groups) (h : Bookkept groups s) :
    (s.candidates.map PlanState.modelId).Nodup :=
  (List.nodup_map_iff_inj_on h.cands_nodup).mpr fun _ ha _ hb heq =>
    hs.eq_of_modelId (h.cands_sub _ ha) (h.cands_sub _ hb) heq

theorem Bookkept.levelReady (hs : Stages groups) (h : Bookkept groups s) :
    LevelReady fin s (keptPlans fin s) s.candidates where
  base_sub ps hps := (mem_keptPlans.mp hps).1
  cands_new := h.cands_new
  models := by
    rw [List.map_append]
    refine (h.models.sublist (List.filter_sublist.map _)).append (h.cands_models hs) ?_
    -- A kept plan is the last one of its model, or belongs to the target stage itself.
    intro m hkept hcand
    obtain ⟨p, hp, rfl⟩ := List.mem_map.mp hkept
    obtain ⟨c, hc, hmodel⟩ := List.mem_map.mp hcand
    obtain ⟨hin, -, hwhy⟩ := mem_keptPlans.mp hp
    obtain ⟨hmem, hle⟩ := h.member p hin
    have hcstage := h.cands_sub c hc
    by_cases hlt : p.stageI < s.target
    · have hlast := hwhy.resolve_left (Nat.not_le_of_lt hlt)
      exact hs.modelId_ne_of_last hmem hlast hcstage hlt hmodel
    · have heq : p.stageI = s.target := by omega
      rw [heq] at hmem
      obtain rfl := hs.eq_of_modelId hcstage hmem hmodel
      exact h.cands_new c hc hin
  unlaunched ps hps _ := h.cands_flag ps hps

theorem loadCandidates_ok (hs : Stages groups) (h : Bookkept groups s) {l : Load}
    (hl : loadCandidates cfg fin s = .ok l) :
    ∃ loaded, LevelLoad cfg fin s (keptPlans fin s) s.candidates loaded l :=
  takeAndLoad_ok (h.levelReady hs) hl

section

variable {loaded : List PlanState} {l : Load}

theorem LevelLoad.mem_toLaunch (hl : LevelLoad cfg fin s (keptPlans fin s) s.candidates loaded l)
    {ps : PlanState} (hps : ps ∈ l.toLaunch) :
    ps ∈ keptPlans fin s ∨ ps ∈ s.candidates.filter (unchanged fin) ∨ ps ∈ loaded := by
  rw [hl.toLaunch, List.mem_append, List.mem_append] at hps
  exact or_assoc.mp hps

theorem LevelLoad.mem_loaded (hl : LevelLoad cfg fin s (keptPlans fin s) s.candidates loaded l)
    {ps : PlanState} (hps : ps ∈ loaded ∨ ps ∈ l.newCandidates) :
    ps ∈ s.candidates ∧ isPending fin ps :=
  List.mem_filter.mp (hl.perm.subset (List.mem_append.mpr hps))

/-- Whoever is to run at a level belongs to the target stage or an earlier one, and is flagged. -/
theorem LevelLoad.member (h : Bookkept groups s)
    (hl : LevelLoad cfg fin s (keptPlans fin s) s.candidates loaded l) (hs : Stages groups)
    {ps : PlanState} (hps : ps ∈ l.toLaunch) :
    ps ∈ stage groups ps.stageI ∧ ps.stageI ≤ s.target ∧ (l.cells ps).launched = true := by
  have hcand : ∀ q ∈ s.candidates, q ∈ stage groups q.stageI ∧ q.stageI ≤ s.target :=
    fun q hq => by
      have hmem := h.cands_sub q hq
      rw [hs.stageI hmem]
      exact ⟨hmem, Nat.le_refl _⟩
  rcases hl.mem_toLaunch hps with hps | hps | hps
  · have hin := (mem_keptPlans.mp hps).1
    rw [hl.frame ps fun hmem => h.cands_new ps hmem hin]
    exact ⟨(h.member ps hin).1, (h.member ps hin).2, h.flags ps hin⟩
  · obtain ⟨p, -, -, hcell⟩ := hl.unchanged_cell ps hps
    obtain ⟨hmem, hle⟩ := hcand ps (List.mem_of_mem_filter hps)
    exact ⟨hmem, hle, by rw [hcell]⟩
  · obtain ⟨hmem, hle⟩ := hcand ps (hl.mem_loaded (.inl hps)).1
    exact ⟨hmem, hle, (hl.loaded_cell ps hps).1⟩

theorem LevelLoad.later_flag (h : Bookkept groups s)
    (hl : LevelLoad cfg fin s (keptPlans fin s) s.candidates loaded l) (hs : Stages groups) {j : Nat}
    (hj : s.target < j) {ps : PlanState} (hps : ps ∈ stage groups j) :
    (l.cells ps).launched = false := by
  have hout : ps ∉ s.candidates := fun hmem => by
    have h₁ := hs.stageI (h.cands_sub ps hmem)
    have h₂ := hs.stageI hps
    omega
  rw [hl.frame ps hout]
  exact h.later_flag j hj ps hps

theorem Bookkept.advance (hs : Stages groups) (h : Bookkept groups s)
    (hl : LevelLoad cfg fin s (keptPlans fin s) s.candidates loaded l) :
    Bookkept groups (s.advance groups l) where
  member ps hps := by
    obtain ⟨hmem, hle, -⟩ := hl.member h hs hps
    exact ⟨hmem, Nat.le_succ_of_le hle⟩
  models := hl.models (h.levelReady hs)
  flags ps hps := (hl.member h hs hps).2.2
  cands_sub ps hps := hps
  cands_nodup := hs.nodup _
  cands_new ps hps hin := by
    have h₁ := (hl.member h hs hin).2.1
    have h₂ := hs.stageI hps
    omega
  cands_flag ps hps := hl.later_flag h hs (Nat.lt_succ_self _) hps
  later_flag j hj ps hps := hl.later_flag h hs (Nat.lt_of_succ_lt hj) hps

/-- What readmission does at a stalled level. -/
theorem readmit_ok (h : Bookkept groups s)
    (hl : LevelLoad cfg fin s (keptPlans fin s) s.candidates loaded l) {l' : Load}
    (hl' : readmit cfg fin s l = .ok l') :
    ∃ back, (loadOrder cfg (earlierPlans fin s)).Perm (earlierPlans fin s) ∧
      l' = (loadOrder cfg (earlierPlans fin s)).foldl Load.consider l ∧
      Readmitted l (loadOrder cfg (earlierPlans fin s)) back l' := by
  have hnodup : (earlierPlans fin s).Nodup := h.models.of_map.filter _
  obtain ⟨horder, hfold⟩ := tryToLoadExecPlans_ok hnodup hl'
  obtain ⟨back, hback⟩ := exists_readmitted _ (l := l) fun q hq => by
    have hin := (mem_earlierPlans.mp (horder.subset hq)).1
    rw [hl.frame q fun hmem => h.cands_new q hmem hin]
    exact h.flags q hin
  exact ⟨back, horder, hfold, hfold ▸ hback⟩

theorem Bookkept.stall (hs : Stages groups) (h : Bookkept groups s)
    (hl : LevelLoad cfg fin s (keptPlans fin s) s.candidates loaded l) {l' : Load}
    (hl' : readmit cfg fin s l = .ok l') :
    Bookkept groups ⟨l'.toLaunch, l'.newCandidates, s.target, l'.cells⟩ := by
  obtain ⟨back, horder, -, hback⟩ := readmit_ok h hl hl'
  have hearlier : ∀ ps ∈ back, ps ∈ s.launched := fun ps hps =>
    (mem_earlierPlans.mp (horder.subset (hback.sublist.subset hps))).1
  have hcells : ∀ ps ∈ back, l.cells ps = s.cells ps := fun ps hps =>
    hl.frame ps fun hmem => h.cands_new ps hmem (hearlier ps hps)
  have hpostponed : ∀ ps ∈ l.newCandidates, ps ∈ s.candidates := fun ps hps =>
    (hl.mem_loaded (.inr hps)).1
  have hnodup : (loaded ++ l.newCandidates).Nodup :=
    hl.perm.nodup_iff.mpr (h.cands_nodup.filter _)
  refine ⟨fun ps hps => ?_, hback.models (hl.models (h.levelReady hs)), fun ps hps => ?_,
    fun ps hps => ?_, ?_, fun ps hps hin => ?_, fun ps hps => ?_, fun j hj ps hps => ?_⟩
  · rw [hback.toLaunch] at hps
    rcases List.mem_append.mp hps with hps | hps
    · exact ⟨(hl.member h hs hps).1, (hl.member h hs hps).2.1⟩
    · exact h.member ps (hearlier ps hps)
  · rw [hback.toLaunch] at hps
    rw [hback.cells]
    rcases List.mem_append.mp hps with hps | hps
    · exact (hl.member h hs hps).2.2
    · exact (congrArg Cell.launched (hcells ps hps)).trans (h.flags ps (hearlier ps hps))
  · rw [hback.newCandidates] at hps
    exact h.cands_sub ps (hpostponed ps hps)
  · rw [hback.newCandidates]
    exact (List.nodup_append.mp hnodup).2.1
  · rw [hback.newCandidates] at hps
    rw [hback.toLaunch] at hin
    have hnew := h.cands_new ps (hpostponed ps hps)
    rcases List.mem_append.mp hin with hin | hin
    · rcases hl.mem_toLaunch hin with hin | hin | hin
      · exact hnew (mem_keptPlans.mp hin).1
      · have hu := (List.mem_filter.mp hin).2
        have hp := (hl.mem_loaded (.inr hps)).2
        rw [unchanged, Bool.and_eq_true] at hu
        rw [isPending, Bool.and_eq_true] at hp
        simp [hp.2] at hu
      · exact (List.nodup_append'.mp hnodup).2.2 hin hps
    · exact hnew (hearlier ps hin)
  · rw [hback.newCandidates] at hps
    rw [hback.cells]
    exact (congrArg Cell.launched (hl.postponed_cell ps hps)).trans
      (h.cands_flag ps (hpostponed ps hps))
  · rw [hback.cells]
    exact hl.later_flag h hs hj hps

end

theorem Levels.bookkept (hs : Stages groups) (h : Levels cfg groups fin s s')
    (hb : Bookkept groups s) : Bookkept groups s' := by
  induction h with
  | stalled hl _ hl' =>
    obtain ⟨loaded, hload⟩ := loadCandidates_ok hs hb hl
    exact hb.stall hs hload hl'
  | advanced hl _ _ =>
    obtain ⟨loaded, hload⟩ := loadCandidates_ok hs hb hl
    exact hb.advance hs hload
  | passed hl _ _ _ _ ih =>
    obtain ⟨loaded, hload⟩ := loadCandidates_ok hs hb hl
    exact ih (hb.advance hs hload)

/-- A round leaves the plans alone that were running or are past. -/
theorem Levels.frame (hs : Stages groups) (h : Levels cfg groups fin s s') (hb : Bookkept groups s)
    {q : PlanState} (hq : q ∉ s.candidates) (hle : q.stageI ≤ s.target) :
    s'.cells q = s.cells q := by
  induction h with
  | stalled hl _ hl' =>
    obtain ⟨loaded, hload⟩ := loadCandidates_ok hs hb hl
    obtain ⟨_, -, -, hback⟩ := readmit_ok hb hload hl'
    exact (congrFun hback.cells q).trans (hload.frame q hq)
  | advanced hl _ _ =>
    obtain ⟨loaded, hload⟩ := loadCandidates_ok hs hb hl
    exact hload.frame q hq
  | @passed s _ _ hl _ _ _ _ ih =>
    obtain ⟨loaded, hload⟩ := loadCandidates_ok hs hb hl
    refine (ih (hb.advance hs hload) (fun hmem => ?_) (Nat.le_succ_of_le hle)).trans
      (hload.frame q hq)
    have : q.stageI = s.target + 1 := hs.stageI hmem
    omega

theorem Levels.frame_launched (hs : Stages groups) (h : Levels cfg groups fin s s')
    (hb : Bookkept groups s) {q : PlanState} (hq : q ∈ s.launched) : s'.cells q = s.cells q :=
  h.frame hs hb (fun hmem => hb.cands_new q hmem hq) (hb.member q hq).2

/-- Only the GPUs of the plans are adjusted between two rounds. -/
theorem Bookkept.congr {t : State} (h : Bookkept groups s) (hlaunched : t.launched = s.launched)
    (hcands : t.candidates = s.candidates) (htarget : t.target = s.target)
    (hflags : ∀ q, (t.cells q).launched = (s.cells q).launched) : Bookkept groups t := by
  obtain ⟨launched, candidates, target, cells⟩ := t
  simp only at hlaunched hcands htarget hflags
  subst hlaunched hcands htarget
  exact ⟨h.member, h.models, fun ps hps => (hflags ps).trans (h.flags ps hps), h.cands_sub,
    h.cands_nodup, h.cands_new, fun ps hps => (hflags ps).trans (h.cands_flag ps hps),
    fun j hj ps hps => (hflags ps).trans (h.later_flag j hj ps hps)⟩

end Mil.Schedule
