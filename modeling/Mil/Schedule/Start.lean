import Mil.Schedule.Levels

/-!
# The first stage, and a round from outside

`initialize_SHARED_CONTECT` places the plans of the first stage one behind the other. A round is
the choice of the next plans followed by the adjustment of their GPUs.
-/

set_option autoImplicit false

namespace Mil.Schedule

open Mil.Lib

variable {cfg : Config} {groups : List (List PlanState)} {fin : Nat → Bool} {s : State}

/-! ## The first stage -/

structure Placed (plans : List PlanState) (avail : List Nat) (cells cells' : Cells) : Prop where
  frame : ∀ q, q ∉ plans → cells' q = cells q
  flags : ∀ q ∈ plans, (cells' q).launched = true
  length_le : ∀ q ∈ plans, (gpus cells' q).length ≤ q.gpuNum
  length : (plans.map PlanState.gpuNum).sum ≤ avail.length →
    ∀ q ∈ plans, (gpus cells' q).length = q.gpuNum
  exclusive : ∀ pool users, (users ++ plans).Nodup → Exclusive pool (gpus cells) users avail →
    ∃ free, Exclusive pool (gpus cells') (users ++ plans) free

theorem placeFirstStage_ok {plans : List PlanState} (hnodup : plans.Nodup) {avail : List Nat}
    {cells cells' : Cells} (h : placeFirstStage plans avail cells = .ok cells') :
    Placed plans avail cells cells' := by
  induction plans generalizing avail cells with
  | nil =>
    obtain rfl := Except.ok.inj h
    exact ⟨fun _ _ => rfl, by simp, by simp, by simp, fun pool users _ hexcl =>
      ⟨avail, by rwa [List.append_nil]⟩⟩
  | cons ps plans ih =>
    obtain ⟨hps, hnodup'⟩ := List.nodup_cons.mp hnodup
    rw [placeFirstStage] at h
    split at h
    · cases h
    · have ih := ih hnodup' h
      set cells₁ := (cells.setCompGpus ps (avail.take ps.gpuNum)).setLaunched ps with hcells₁
      have hself : cells₁ ps = ⟨true, avail.take ps.gpuNum⟩ := by
        rw [hcells₁, Cells.setLaunched_self, Cells.setCompGpus_self]
      have hother : ∀ q, q ≠ ps → cells₁ q = cells q := fun q hq => by
        rw [hcells₁, Cells.setLaunched_of_ne hq, Cells.setCompGpus_of_ne hq]
      have hlast : cells' ps = ⟨true, avail.take ps.gpuNum⟩ := (ih.frame ps hps).trans hself
      refine ⟨fun q hq => ?_, fun q hq => ?_, fun q hq => ?_, fun hsum q hq => ?_,
        fun pool users hdistinct hexcl => ?_⟩
      · rw [List.mem_cons, not_or] at hq
        rw [ih.frame q hq.2, hother q hq.1]
      · rcases List.mem_cons.mp hq with rfl | hq
        · rw [hlast]
        · exact ih.flags q hq
      · rcases List.mem_cons.mp hq with rfl | hq
        · rw [gpus, hlast]
          exact List.length_take_le _ _
        · exact ih.length_le q hq
      · rw [List.map_cons, List.sum_cons] at hsum
        rcases List.mem_cons.mp hq with rfl | hq
        · rw [gpus, hlast]
          exact List.length_take_of_le (by omega)
        · exact ih.length (by rw [List.length_drop]; omega) q hq
      · have hgpus : gpus cells₁ = Function.update (gpus cells) ps (avail.take ps.gpuNum) := by
          rw [hcells₁, gpus_setLaunched, gpus_setCompGpus]
        have hsplit : users ++ ps :: plans = users ++ [ps] ++ plans := by simp
        rw [hsplit] at hdistinct ⊢
        refine ih.exclusive pool (users ++ [ps]) hdistinct ?_
        rw [hgpus]
        rw [← List.take_append_drop ps.gpuNum avail] at hexcl
        exact hexcl.grant fun hmem => (List.nodup_append'.mp
          (List.nodup_append.mp hdistinct).1).2.2 hmem (.head _)

/-- The state `initialize_SHARED_CONTECT` leaves. -/
structure Started (cfg : Config) (groups : List (List PlanState)) (s : State) : Prop where
  target : s.target = 1
  candidates : s.candidates = stage groups 1
  perm : s.launched.Perm (stage groups 0)
  nonempty : groups ≠ []
  placed : Placed s.launched (List.range cfg.totGpuNum) (fun _ => ⟨false, []⟩) s.cells

theorem initializeSharedContect_ok (hs : Stages groups)
    (h : initializeSharedContect cfg groups = .ok s) : Started cfg groups s := by
  cases groups with
  | nil => cases h
  | cons first later =>
    obtain ⟨cells, hcells, h⟩ := exists_of_bind_ok h
    obtain rfl := Except.ok.inj h
    have hperm : (sortedReverse (firstStageKey cfg) first).Perm first := sortedReverse_perm _ _
    refine ⟨rfl, ?_, hperm, List.cons_ne_nil _ _, placeFirstStage_ok ?_ hcells⟩
    · cases later <;> rfl
    · exact hperm.nodup_iff.mpr (hs.nodup 0)

/-! ## A round -/

/-- `new_launch`, before the plans whose GPUs change are added. -/
def newlyLaunched (s next : State) : List PlanState :=
  next.launched.filter fun ps => ps.modelKey ∉ s.launched.map PlanState.modelKey

/-- The running plans that are not to go on. -/
def noLonger (s next : State) : List PlanState :=
  s.launched.filter fun ps => ps.modelKey ∉ next.launched.map PlanState.modelKey

/-- `_get_the_next_round_exec_plan_schedule_to_use`. -/
def chooseNext (cfg : Config) (groups : List (List PlanState)) (fin : Nat → Bool) (s : State) :
    Except Raised State :=
  if cfg.noRuntimeAdjustment then nextRoundNoAdjustment cfg groups fin (groups.drop (s.target + 1)) s
  else nextRound cfg groups fin (groups.drop (s.target + 1)) s

/-- A round that returns chooses the next plans and adjusts their GPUs. -/
structure RoundOk (cfg : Config) (groups : List (List PlanState)) (fin : Nat → Bool) (s : State)
    (r : Round) (next : State) (extra : List PlanState) : Prop where
  next_ok : chooseNext cfg groups fin s = .ok next
  adjust_ok : adjustCompGpus cfg next.launched (newlyLaunched s next) s.launched next.cells =
    .ok (extra, r.state.cells)
  launched : r.state.launched = next.launched
  candidates : r.state.candidates = next.candidates
  target : r.state.target = next.target
  toStop : r.modelIdsToStop = (noLonger s next).map PlanState.modelId ++ extra.map PlanState.modelId
  newLaunch : r.newLaunch = newlyLaunched s next ++ extra

theorem getTheNextRound_eq : getTheNextRound cfg groups fin s = (do
    let next ← chooseNext cfg groups fin s
    let (extra, cells) ←
      adjustCompGpus cfg next.launched (newlyLaunched s next) s.launched next.cells
    pure {
      state := { next with cells := cells }
      modelIdsToStop := (noLonger s next).map PlanState.modelId ++ extra.map PlanState.modelId
      newLaunch := newlyLaunched s next ++ extra }) := by
  rw [getTheNextRound, chooseNext]
  cases cfg.noRuntimeAdjustment <;> rfl

theorem getTheNextRound_ok {r : Round} (h : getTheNextRound cfg groups fin s = .ok r) :
    ∃ next extra, RoundOk cfg groups fin s r next extra := by
  rw [getTheNextRound_eq] at h
  obtain ⟨next, hnext, h⟩ := exists_of_bind_ok h
  obtain ⟨⟨extra, cells⟩, hadjust, h⟩ := exists_of_bind_ok h
  obtain rfl := Except.ok.inj h
  exact ⟨next, extra, hnext, hadjust, rfl, rfl, rfl, rfl, rfl⟩

/-! ## Bookkeeping between rounds -/

theorem Started.bookkept (hs : Stages groups) (h : Started cfg groups s) : Bookkept groups s := by
  have hstage : ∀ {ps}, ps ∈ s.launched → ps ∈ stage groups 0 := fun hps => h.perm.subset hps
  have hflag : ∀ j, 0 < j → ∀ ps ∈ stage groups j, (s.cells ps).launched = false :=
    fun j hj ps hps => by
      rw [h.placed.frame ps fun hmem => by
        have h₁ := hs.stageI (hstage hmem)
        have h₂ := hs.stageI hps
        omega]
  refine ⟨fun ps hps => ?_, ?_, h.placed.flags, fun ps hps => ?_, ?_, fun ps hps hin => ?_,
    fun ps hps => ?_, fun j hj => hflag j (by omega)⟩
  · have hmem := hstage hps
    rw [hs.stageI hmem]
    exact ⟨hmem, Nat.zero_le _⟩
  · exact (h.perm.map _).nodup_iff.mpr (hs.distinct 0)
  · rwa [h.target, ← h.candidates]
  · rw [h.candidates]
    exact hs.nodup 1
  · have h₁ := hs.stageI (hstage hin)
    have h₂ := hs.stageI (h.candidates ▸ hps)
    omega
  · exact hflag 1 Nat.one_pos ps (h.candidates ▸ hps)

section

variable {r : Round} {next : State} {extra : List PlanState}

theorem RoundOk.levels (h : RoundOk cfg groups fin s r next extra)
    (hadjust : cfg.noRuntimeAdjustment = false) : Levels cfg groups fin s next := by
  have hnext := h.next_ok
  rw [chooseNext, hadjust] at hnext
  exact nextRound_levels rfl hnext

theorem RoundOk.bookkept (h : RoundOk cfg groups fin s r next extra) (hs : Stages groups)
    (hadjust : cfg.noRuntimeAdjustment = false) (hb : Bookkept groups s) :
    Bookkept groups r.state := by
  have hnext := (h.levels hadjust).bookkept hs hb
  obtain ⟨k, re, hadj⟩ := adjustCompGpus_ok hnext.models.of_map h.adjust_ok
  exact hnext.congr h.launched h.candidates h.target (hadj.flags hnext.models.of_map)

end

/-! ## Running the scheduler -/

theorem Reach.mono {Meets Meets' : (Nat → Bool) → State → Prop}
    (hmono : ∀ fin s, Meets fin s → Meets' fin s) (h : Reach cfg groups Meets fin s) :
    Reach cfg groups Meets' fin s := by
  induction h with
  | start hstart => exact .start hstart
  | round _ hfin hmeets hround ih => exact .round ih hfin (hmono _ _ hmeets) hround

/-- An `argsort` that keeps the order of equal values. -/
def stableArgsort : Argsort where
  run xs := (List.range xs.length).insertionSort fun i j => xs.getD i 0 ≤ xs.getD j 0
  perm _ := List.perm_insertionSort _ _
  sorted xs := by
    have : Std.Total fun i j => xs.getD i 0 ≤ xs.getD j 0 := ⟨fun _ _ => Nat.le_total _ _⟩
    have : IsTrans Nat fun i j => xs.getD i 0 ≤ xs.getD j 0 := ⟨fun _ _ _ => Nat.le_trans⟩
    exact List.pairwise_insertionSort _ _

/-- Rounds one after the other, each after some more models have finished. -/
def runRounds (cfg : Config) (groups : List (List PlanState))
    (meets : (Nat → Bool) → State → Bool) : List Nat → List (List Nat) → State → Option State
  | _, [], s => some s
  | done, new :: rest, s =>
    let fin := fun m => decide (m ∈ done ++ new)
    if meets fin s then match getTheNextRound cfg groups fin s with
      | .error _ => none
      | .ok r => runRounds cfg groups meets (done ++ new) rest r.state
    else none

/-- The scheduling loop from the start. -/
def runFromStart (cfg : Config) (groups : List (List PlanState))
    (meets : (Nat → Bool) → State → Bool) (finishes : List (List Nat)) : Option State :=
  match initializeSharedContect cfg groups with
  | .error _ => none
  | .ok s => runRounds cfg groups meets [] finishes s

theorem reach_of_runRounds {meets : (Nat → Bool) → State → Bool} {done : List Nat}
    {finishes : List (List Nat)} {s' : State}
    (hreach : Reach cfg groups (fun fin s => meets fin s = true) (fun m => decide (m ∈ done)) s)
    (h : runRounds cfg groups meets done finishes s = some s') :
    Reach cfg groups (fun fin s => meets fin s = true)
      (fun m => decide (m ∈ done ++ finishes.flatten)) s' := by
  induction finishes generalizing done s with
  | nil =>
    obtain rfl := Option.some.inj h
    simpa using hreach
  | cons new rest ih =>
    rw [runRounds] at h
    split at h
    · rename_i hmeets
      split at h
      · cases h
      · rename_i r hround
        rw [List.flatten_cons, ← List.append_assoc]
        refine ih (hreach.round (fun m hm => ?_) hmeets hround) h
        exact decide_eq_true (List.mem_append_left _ (of_decide_eq_true hm))
    · cases h

theorem reach_of_runFromStart {meets : (Nat → Bool) → State → Bool} {finishes : List (List Nat)}
    (h : runFromStart cfg groups meets finishes = some s) :
    Reach cfg groups (fun fin s => meets fin s = true)
      (fun m => decide (m ∈ finishes.flatten)) s := by
  rw [runFromStart] at h
  split at h
  · cases h
  · rename_i s₀ hstart
    have hreach : Reach cfg groups (fun fin s => meets fin s = true)
        (fun m => decide (m ∈ [])) s₀ := by simpa using Reach.start hstart
    exact reach_of_runRounds hreach h

end Mil.Schedule
