import Mathlib.Algebra.BigOperators.Ring.List
import Mil.Schedule.Start

/-!
# GPU capacity and exclusivity

With runtime adjustment, after every round the running plans belong to different models, hold as
many GPUs as they need and no GPU twice, and fit the machine. There is one way to break this: a
plan of an earlier stage is admitted again although one of its GPUs has been given to a new plan in
the same round. It is then counted as if it took fewer GPUs than it needs, and the plans that run
can need more GPUs than there are. `Roomy` says of the arguments of a call that this cannot happen.
-/

set_option autoImplicit false

namespace Mil.Schedule

open Mil.Lib

/-! ## The condition -/

/-- A running plan whose GPUs are not free at a level: it is kept, or a candidate takes it over. -/
def stays (fin : Nat → Bool) (s : State) (ps : PlanState) : Bool :=
  decide (ps ∈ keptPlans fin s) ||
    s.candidates.any fun q => unchanged fin q && decide (q.modelKey = ps.modelKey)

/-- The GPUs that the other candidates can get. -/
def freeGpus (cfg : Config) (fin : Nat → Bool) (s : State) : List Nat :=
  (List.range cfg.totGpuNum).filter (· ∉ (s.launched.filter (stays fin s)).flatMap (gpus s.cells))

/-- The other candidates, in the order in which they are tried. -/
def waitingPlans (cfg : Config) (fin : Nat → Bool) (s : State) : List PlanState :=
  loadOrder cfg (s.candidates.filter (isPending fin))

/-- Those of them that fit; they get the first of the free GPUs. -/
def servedPlans (cfg : Config) (fin : Nat → Bool) (s : State) : List PlanState :=
  fitting (freeGpus cfg fin s).length (waitingPlans cfg fin s)

def servedGpus (cfg : Config) (fin : Nat → Bool) (s : State) : List Nat :=
  (freeGpus cfg fin s).take ((servedPlans cfg fin s).map PlanState.gpuNum).sum

def leftGpus (cfg : Config) (fin : Nat → Bool) (s : State) : List Nat :=
  (freeGpus cfg fin s).drop ((servedPlans cfg fin s).map PlanState.gpuNum).sum

/-- Running plans that have neither been kept nor replaced, in the order in which they are tried when
a candidate does not fit. -/
def demotedPlans (cfg : Config) (fin : Nat → Bool) (s : State) : List PlanState :=
  (loadOrder cfg (earlierPlans fin s)).filter fun ps =>
    !stays fin s ps && decide (ps.modelId ∉ (servedPlans cfg fin s).map PlanState.modelId)

/-- The condition on the arguments of a call: all candidates fit; or the demoted plans fit beside
those that do; or the demoted plans that fit hold none of the GPUs that are given away. -/
def Roomy (cfg : Config) (fin : Nat → Bool) (s : State) : Prop :=
  (servedPlans cfg fin s).length = (waitingPlans cfg fin s).length ∨
  ((demotedPlans cfg fin s).map PlanState.gpuNum).sum ≤ (leftGpus cfg fin s).length ∨
  ∀ ps ∈ fitting (leftGpus cfg fin s).length (demotedPlans cfg fin s),
    ∀ g ∈ gpus s.cells ps, g ∉ servedGpus cfg fin s

instance (cfg : Config) (fin : Nat → Bool) (s : State) : Decidable (Roomy cfg fin s) :=
  inferInstanceAs (Decidable (_ ∨ _))

/-- `_get_the_next_round_exec_plan_schedule` calls itself for the next stage. -/
inductive CallsItself (cfg : Config) (groups : List (List PlanState)) (fin : Nat → Bool) :
    State → State → Prop
  | mk {s : State} {l : Load} (hload : loadCandidates cfg fin s = .ok l)
      (hnone : l.newCandidates = []) (hlater : s.target + 1 < groups.length)
      (hfinished : hasModelFinished groups fin s.target = true) :
      CallsItself cfg groups fin s (s.advance groups l)

/-- The arguments of every call of a round meet the condition. -/
def RoundRoomy (cfg : Config) (groups : List (List PlanState)) (fin : Nat → Bool) (s : State) :
    Prop :=
  ∀ t, Relation.ReflTransGen (CallsItself cfg groups fin) s t → Roomy cfg fin t

/-- Added up over as many plans as there are GPUs, load costs stay below the value that marks a closed
GPU group. -/
def LoadCostsSmall (cfg : Config) (seq : ExecPlanGroupSeq) : Prop :=
  ∀ plan ∈ seq.planGroupSeq.flatten, cfg.totGpuNum * plan.loadCostJustForRefer < sentinel

/-- What a state of the scheduling loop is to satisfy. -/
structure WithinCapacity (cfg : Config) (s : State) : Prop where
  models : s.launched.Pairwise fun p q => p.modelId ≠ q.modelId
  sum_le : (s.launched.map PlanState.gpuNum).sum ≤ cfg.totGpuNum
  disjoint : s.launched.Pairwise fun p q => (gpus s.cells p).Disjoint (gpus s.cells q)
  inside : ∀ ps ∈ s.launched, ∀ g ∈ gpus s.cells ps, g < cfg.totGpuNum
  nodup : ∀ ps ∈ s.launched, (gpus s.cells ps).Nodup
  length : ∀ ps ∈ s.launched, (gpus s.cells ps).length = ps.gpuNum

variable {cfg : Config} {groups : List (List PlanState)} {fin : Nat → Bool} {s s' : State}

theorem OldOk.sum_gpuNum_le {plans : List PlanState} {cells : Cells} (h : OldOk cfg plans cells) :
    (plans.map PlanState.gpuNum).sum ≤ cfg.totGpuNum := by
  have hsum := h.exclusive.sum_length_le
  rw [List.length_range, List.map_congr_left h.length] at hsum
  exact Nat.le_of_add_right_le hsum

theorem OldOk.withinCapacity (h : OldOk cfg s.launched s.cells)
    (hmodels : (s.launched.map PlanState.modelId).Nodup) : WithinCapacity cfg s where
  models := List.pairwise_map.mp hmodels
  sum_le := h.sum_gpuNum_le
  disjoint := h.exclusive.pairwise_disjoint List.nodup_range
  inside _ hps _ hg := List.mem_range.mp (h.exclusive.held_subset hps hg)
  nodup _ hps := h.exclusive.held_nodup List.nodup_range hps
  length := h.length

/-! ## One level -/

section

variable {loaded : List PlanState} {l l' : Load}

theorem LevelLoad.gpus_length (h : Bookkept groups s) (hold : OldOk cfg s.launched s.cells)
    (hl : LevelLoad cfg fin s (keptPlans fin s) s.candidates loaded l) {ps : PlanState}
    (hps : ps ∈ l.toLaunch) : (gpus l.cells ps).length = ps.gpuNum := by
  rcases hl.mem_toLaunch hps with hps | hps | hps
  · have hin := (mem_keptPlans.mp hps).1
    rw [gpus, hl.frame ps fun hmem => h.cands_new ps hmem hin]
    exact hold.length ps hin
  · obtain ⟨p, hp, hkey, hcell⟩ := hl.unchanged_cell ps hps
    rw [gpus, hcell, ← gpuNum_eq_of_modelKey hkey]
    exact hold.length p hp
  · exact (hl.loaded_cell ps hps).2

theorem OldOk.level (h : Bookkept groups s) (hold : OldOk cfg s.launched s.cells)
    (hl : LevelLoad cfg fin s (keptPlans fin s) s.candidates loaded l) :
    OldOk cfg l.toLaunch l.cells where
  exclusive := (hl.exclusive hold.exclusive).mono (List.Subperm.refl _) List.nil_subperm
  length _ hps := hl.gpus_length h hold hps

/-- Only one plan that runs has this key. -/
theorem eq_of_unchanged (h : Bookkept groups s)
    (hl : LevelLoad cfg fin s (keptPlans fin s) s.candidates loaded l) {q ps : PlanState}
    (hq : q ∈ s.candidates.filter (unchanged fin)) (hps : ps ∈ s.launched)
    (hmodel : q.modelId = ps.modelId) :
    q.modelKey = ps.modelKey ∧ gpus l.cells q = gpus s.cells ps := by
  obtain ⟨p, hp, hkey, hcell⟩ := hl.unchanged_cell q hq
  have heq : p.modelId = ps.modelId := (modelId_eq_of_modelKey hkey).trans hmodel
  obtain rfl := (List.nodup_map_iff_inj_on h.models.of_map).mp h.models _ hp _ hps heq
  exact ⟨hkey.symm, by rw [gpus, hcell]⟩

theorem stays_iff {ps : PlanState} : stays fin s ps = true ↔ ps ∈ keptPlans fin s ∨
    ∃ q ∈ s.candidates.filter (unchanged fin), q.modelKey = ps.modelKey := by
  rw [stays, Bool.or_eq_true, decide_eq_true_eq, List.any_eq_true]
  refine or_congr_right ⟨?_, ?_⟩
  · rintro ⟨q, hq, hboth⟩
    obtain ⟨hu, hkey⟩ := Bool.and_eq_true_iff.mp hboth
    exact ⟨q, List.mem_filter.mpr ⟨hq, hu⟩, of_decide_eq_true hkey⟩
  · rintro ⟨q, hq, hkey⟩
    obtain ⟨hmem, hu⟩ := List.mem_filter.mp hq
    exact ⟨q, hmem, Bool.and_eq_true_iff.mpr ⟨hu, decide_eq_true hkey⟩⟩

/-- What the code hands out are the free GPUs. -/
theorem LevelLoad.availableGpus_eq (h : Bookkept groups s)
    (hl : LevelLoad cfg fin s (keptPlans fin s) s.candidates loaded l) :
    availableGpus cfg l.cells (keptPlans fin s ++ s.candidates.filter (unchanged fin)) =
      freeGpus cfg fin s := by
  have hkept : ∀ ps ∈ keptPlans fin s, gpus l.cells ps = gpus s.cells ps := fun ps hps =>
    congrArg Cell.compGpus (hl.frame ps fun hmem => h.cands_new ps hmem (mem_keptPlans.mp hps).1)
  refine List.filter_congr fun g _ => decide_eq_decide.mpr (not_congr ?_)
  rw [List.mem_flatMap, List.mem_flatMap]
  constructor
  · rintro ⟨ps, hps, hg⟩
    rcases List.mem_append.mp hps with hps | hps
    · refine ⟨ps, List.mem_filter.mpr ⟨(mem_keptPlans.mp hps).1, stays_iff.mpr (.inl hps)⟩, ?_⟩
      exact hkept ps hps ▸ hg
    · obtain ⟨p, hp, hkey, hcell⟩ := hl.unchanged_cell ps hps
      refine ⟨p, List.mem_filter.mpr ⟨hp, stays_iff.mpr (.inr ⟨ps, hps, hkey.symm⟩)⟩, ?_⟩
      rw [hcell] at hg
      exact hg
  · rintro ⟨ps, hps, hg⟩
    obtain ⟨hin, hstays⟩ := List.mem_filter.mp hps
    rcases stays_iff.mp hstays with hk | ⟨q, hq, hkey⟩
    · refine ⟨ps, List.mem_append_left _ hk, ?_⟩
      show g ∈ gpus l.cells ps
      rwa [hkept ps hk]
    · have hgpus := (eq_of_unchanged h hl hq hin (modelId_eq_of_modelKey hkey)).2
      refine ⟨q, List.mem_append_right _ hq, ?_⟩
      show g ∈ gpus l.cells q
      rwa [hgpus]

theorem LevelLoad.served (h : Bookkept groups s)
    (hl : LevelLoad cfg fin s (keptPlans fin s) s.candidates loaded l) :
    loaded = servedPlans cfg fin s ∧ l.availableGpus = leftGpus cfg fin s := by
  have hloaded : loaded = servedPlans cfg fin s := by
    rw [hl.loaded_eq, hl.availableGpus_eq h]
    rfl
  refine ⟨hloaded, ?_⟩
  rw [hl.available, hl.availableGpus_eq h, hloaded]
  rfl

/-- Whom the code asks again. -/
theorem LevelLoad.demoted (h : Bookkept groups s)
    (hl : LevelLoad cfg fin s (keptPlans fin s) s.candidates loaded l)
    (horder : (loadOrder cfg (earlierPlans fin s)).Perm (earlierPlans fin s)) :
    demotedFrom (l.toLaunch.map PlanState.modelId) (loadOrder cfg (earlierPlans fin s)) =
      demotedPlans cfg fin s := by
  refine List.filter_congr fun ps hps => ?_
  have hin := (mem_earlierPlans.mp (horder.subset hps)).1
  -- the code asks by model, `stays` by plan or key; no two running plans are of one model
  have hstays : ps.modelId ∈ (keptPlans fin s ++ s.candidates.filter (unchanged fin)).map
      PlanState.modelId ↔ stays fin s ps = true := by
    rw [stays_iff, List.mem_map]
    constructor
    · rintro ⟨q, hq, hmodel⟩
      rcases List.mem_append.mp hq with hq | hq
      · left
        rwa [← (List.nodup_map_iff_inj_on h.models.of_map).mp h.models _ (mem_keptPlans.mp hq).1 _
          hin hmodel]
      · exact .inr ⟨q, hq, (eq_of_unchanged h hl hq hin hmodel).1⟩
    · rintro (hk | ⟨q, hq, hkey⟩)
      · exact ⟨ps, List.mem_append_left _ hk, rfl⟩
      · exact ⟨q, List.mem_append_right _ hq, modelId_eq_of_modelKey hkey⟩
  rw [hl.toLaunch, List.map_append, (hl.served h).1, Bool.eq_iff_iff, decide_eq_true_eq,
    List.mem_append, hstays, Bool.and_eq_true, decide_eq_true_eq, Bool.not_eq_true', not_or,
    Bool.not_eq_true]

/-- Plans that are demoted hold free GPUs. -/
theorem gpus_subset_freeGpus (hold : OldOk cfg s.launched s.cells) {ps : PlanState}
    (hin : ps ∈ s.launched) (hstays : stays fin s ps = false) :
    gpus s.cells ps ⊆ freeGpus cfg fin s := by
  intro g hg
  refine List.mem_filter.mpr ⟨hold.exclusive.held_subset hin hg, decide_eq_true fun hheld => ?_⟩
  obtain ⟨q, hq, hgq⟩ := List.mem_flatMap.mp hheld
  obtain ⟨hmem, hqstays⟩ := List.mem_filter.mp hq
  have hne : q ≠ ps := by
    rintro rfl
    cases hstays.symm.trans hqstays
  exact hold.exclusive.disjoint_of_ne List.nodup_range hmem hin hne hgq hg

/-- Readmission at a stalled level: the demoted plans that fit are admitted, or one of them is
although it has lost a GPU. -/
theorem LevelLoad.readmit_cases (h : Bookkept groups s) (hold : OldOk cfg s.launched s.cells)
    (hl : LevelLoad cfg fin s (keptPlans fin s) s.candidates loaded l)
    (hl' : readmit cfg fin s l = .ok l') :
    l'.toLaunch = l.toLaunch ++ fitting (leftGpus cfg fin s).length (demotedPlans cfg fin s) ∨
      ∃ ps ∈ fitting (leftGpus cfg fin s).length (demotedPlans cfg fin s),
        ps ∈ l'.toLaunch ∧ ¬ gpus s.cells ps ⊆ leftGpus cfg fin s := by
  obtain ⟨back, horder, hfold, -⟩ := readmit_ok h hl hl'
  set order := loadOrder cfg (earlierPlans fin s) with hdef
  have hin : ∀ ps ∈ order, ps ∈ s.launched := fun ps hps =>
    (mem_earlierPlans.mp (horder.subset hps)).1
  -- loading candidates does not touch the plans that run
  have hcell : ∀ ps ∈ order, l.cells ps = s.cells ps := fun ps hps =>
    hl.frame ps fun hmem => h.cands_new ps hmem (hin ps hps)
  have hgpus : ∀ ps ∈ order, gpus l.cells ps = gpus s.cells ps := fun ps hps =>
    congrArg Cell.compGpus (hcell ps hps)
  have hdisjoint : order.Pairwise fun p q => (gpus l.cells p).Disjoint (gpus l.cells q) := by
    have hheld : (earlierPlans fin s).Pairwise
        fun p q => (gpus s.cells p).Disjoint (gpus s.cells q) :=
      (hold.exclusive.pairwise_disjoint List.nodup_range).sublist List.filter_sublist
    refine (horder.symm.pairwise hheld fun hd => List.Disjoint.symm hd).imp_of_mem ?_
    intro p q hp hq hd
    rw [hgpus p hp, hgpus q hq]
    exact hd
  have hmodels : (order.map PlanState.modelId).Nodup :=
    (horder.map _).nodup_iff.mpr (h.models.sublist (List.filter_sublist.map _))
  have hfree := (hl.exclusive hold.exclusive).free_nodup List.nodup_range
  have hcases := foldl_consider_fitting hmodels
    (fun ps hps => by rw [hcell ps hps]; exact h.flags ps (hin ps hps))
    (fun ps hps => by rw [hgpus ps hps]; exact hold.length ps (hin ps hps))
    (fun ps hps => hgpus ps hps ▸ hold.exclusive.held_nodup List.nodup_range (hin ps hps))
    hdisjoint hfree
  rw [← hfold, hl.demoted h horder, (hl.served h).2] at hcases
  refine hcases.imp_right fun ⟨ps, hps, hmem, hgone⟩ => ⟨ps, hps, hmem, ?_⟩
  have hord : ps ∈ order := List.mem_of_mem_filter ((fitting_sublist _ _).subset hps)
  exact hgpus ps hord ▸ hgone

/-- What a stalled level returns fits the machine when its arguments meet the condition. -/
theorem LevelLoad.sum_gpuNum_le (hs : Stages groups) (h : Bookkept groups s)
    (hold : OldOk cfg s.launched s.cells)
    (hl : LevelLoad cfg fin s (keptPlans fin s) s.candidates loaded l)
    (hnew : l.newCandidates ≠ []) (hl' : readmit cfg fin s l = .ok l')
    (hroomy : Roomy cfg fin s) : (l'.toLaunch.map PlanState.gpuNum).sum ≤ cfg.totGpuNum := by
  obtain ⟨back, horder, -, hback⟩ := readmit_ok h hl hl'
  obtain ⟨hserved, hleft⟩ := hl.served h
  -- it is enough that those admitted again fit into what is left
  have hroom : (l.toLaunch.map PlanState.gpuNum).sum + (leftGpus cfg fin s).length ≤
      cfg.totGpuNum := by
    have hcount := (hl.exclusive hold.exclusive).sum_length_le
    rw [List.map_congr_left (hold.level h hl).length, List.length_range, hleft] at hcount
    exact hcount
  suffices hle : (back.map PlanState.gpuNum).sum ≤ (leftGpus cfg fin s).length by
    rw [hback.toLaunch, List.map_append, List.sum_append]
    omega
  -- all candidates fit, so none is left over and this is no stalled level
  rcases hroomy with hall | hfits | hapart
  · have hlength := hl.perm.length_eq
    have hwaiting : (waitingPlans cfg fin s).length = _ := hl.order_perm.length_eq
    rw [List.length_append, ← hwaiting, ← hall, ← hserved] at hlength
    exact absurd (List.eq_nil_of_length_eq_zero (by omega)) hnew
  · refine Nat.le_trans (sum_map_le_of_subset _ ?_ fun ps hps => ?_) hfits
    · exact (horder.nodup_iff.mpr (h.models.of_map.filter _)).sublist hback.sublist
    · rw [← hl.demoted h horder]
      have hmodels := hback.models (hl.models (h.levelReady hs))
      rw [hback.toLaunch, List.map_append] at hmodels
      refine List.mem_filter.mpr ⟨hback.sublist.subset hps, decide_eq_true fun hmem => ?_⟩
      exact (List.nodup_append'.mp hmodels).2.2 hmem (List.mem_map_of_mem hps)
  · rcases hl.readmit_cases h hold hl' with hall | ⟨ps, hps, -, hgone⟩
    · rw [hback.toLaunch] at hall
      rw [List.append_cancel_left hall]
      exact sum_fitting_le _ _
    · obtain ⟨hmem, hcond⟩ := List.mem_filter.mp ((fitting_sublist _ _).subset hps)
      have hin := (mem_earlierPlans.mp (horder.subset hmem)).1
      have hstays : stays fin s ps = false := by simpa using (Bool.and_eq_true_iff.mp hcond).1
      refine absurd (fun g hg => ?_) hgone
      have hfree := gpus_subset_freeGpus hold hin hstays hg
      rw [← List.take_append_drop ((servedPlans cfg fin s).map PlanState.gpuNum).sum
        (freeGpus cfg fin s)] at hfree
      exact (List.mem_append.mp hfree).resolve_left (hapart ps hps g hg)

/-- Otherwise a plan is admitted again one of whose GPUs has been given away. -/
theorem LevelLoad.exists_gone (h : Bookkept groups s) (hold : OldOk cfg s.launched s.cells)
    (hl : LevelLoad cfg fin s (keptPlans fin s) s.candidates loaded l)
    (hl' : readmit cfg fin s l = .ok l') (hnot : ¬ Roomy cfg fin s) :
    ∃ ps ∈ earlierPlans fin s, ps ∈ l'.toLaunch ∧ ∃ g ∈ gpus s.cells ps, g ∉ l.availableGpus := by
  obtain ⟨-, horder, -, -⟩ := readmit_ok h hl hl'
  have hearlier : ∀ ps ∈ fitting (leftGpus cfg fin s).length (demotedPlans cfg fin s),
      ps ∈ earlierPlans fin s := fun ps hps =>
    horder.subset (List.mem_of_mem_filter ((fitting_sublist _ _).subset hps))
  rw [(hl.served h).2]
  rcases hl.readmit_cases h hold hl' with hall | ⟨ps, hps, hmem, hgone⟩
  · have hapart := (not_or.mp (not_or.mp hnot).2).2
    push Not at hapart
    obtain ⟨ps, hps, g, hg, hgone⟩ := hapart
    refine ⟨ps, hearlier ps hps, hall ▸ List.mem_append_right _ hps, g, hg, fun hleft => ?_⟩
    exact List.disjoint_take_drop (List.nodup_range.filter _) (Nat.le_refl _) hgone hleft
  · refine ⟨ps, hearlier ps hps, hmem, ?_⟩
    by_contra hnone
    exact hgone fun g hg => not_not.mp fun hout => hnone ⟨g, hg, hout⟩

end

/-! ## A round -/

/-- What a round is going to run fits the machine. -/
theorem Levels.sum_gpuNum_le (hs : Stages groups) (h : Levels cfg groups fin s s')
    (hb : Bookkept groups s) (hold : OldOk cfg s.launched s.cells)
    (hroomy : RoundRoomy cfg groups fin s) :
    (s'.launched.map PlanState.gpuNum).sum ≤ cfg.totGpuNum := by
  induction h with
  | stalled hl hnew hl' =>
    obtain ⟨loaded, hload⟩ := loadCandidates_ok hs hb hl
    exact hload.sum_gpuNum_le hs hb hold hnew hl' (hroomy _ .refl)
  | advanced hl _ _ =>
    obtain ⟨loaded, hload⟩ := loadCandidates_ok hs hb hl
    exact (hold.level hb hload).sum_gpuNum_le
  | passed hl hnew hlt hfinished _ ih =>
    obtain ⟨loaded, hload⟩ := loadCandidates_ok hs hb hl
    exact ih (hb.advance hs hload) (hold.level hb hload) fun t ht =>
      hroomy t (.head (.mk hl hnew hlt hfinished) ht)

theorem execPlan_mem_of_stage {seq : ExecPlanGroupSeq} {ps : PlanState} {i : Nat}
    (h : ps ∈ stage (prepareExecPlanStates seq) i) :
    ps.execPlan ∈ seq.planGroupSeq.flatten := by
  obtain ⟨hlt, hin⟩ := mem_getD_nil.mp h
  rw [← map_prepareExecPlanStates, ← List.map_flatten]
  exact List.mem_map_of_mem (List.mem_flatten_of_mem (List.getElem_mem hlt) hin)

/-- There are no more plans than GPUs. -/
theorem LoadCostsSmall.sum_lt {seq : ExecPlanGroupSeq} (hcost : LoadCostsSmall cfg seq)
    {plans : List PlanState} (hsum : (plans.map PlanState.gpuNum).sum ≤ cfg.totGpuNum)
    (hmem : ∀ ps ∈ plans, ∃ i, ps ∈ stage (prepareExecPlanStates seq) i) :
    (plans.map fun q => q.execPlan.loadCostJustForRefer).sum < sentinel := by
  rcases plans.eq_nil_or_concat with rfl | ⟨front, last, rfl⟩
  · exact Nat.succ_pos _
  set plans := front.concat last with hplans
  have hlength : plans.length ≤ cfg.totGpuNum := by
    refine Nat.le_trans ?_ hsum
    rw [← List.length_map (f := PlanState.gpuNum)]
    exact List.length_le_sum_of_one_le _ fun n hn => by
      obtain ⟨ps, -, rfl⟩ := List.mem_map.mp hn
      exact ps.gpuNum_pos
  have hpos : 0 < cfg.totGpuNum := lt_of_lt_of_le (by simp [hplans]) hlength
  have hbound : (plans.map fun q => cfg.totGpuNum * q.execPlan.loadCostJustForRefer).sum ≤
      plans.length • (sentinel - 1) := by
    rw [← List.length_map (f := fun q => cfg.totGpuNum * q.execPlan.loadCostJustForRefer)]
    refine List.sum_le_card_nsmul _ _ fun n hn => ?_
    obtain ⟨ps, hps, rfl⟩ := List.mem_map.mp hn
    obtain ⟨i, hi⟩ := hmem ps hps
    exact Nat.le_sub_one_of_lt (hcost _ (execPlan_mem_of_stage hi))
  rw [List.sum_map_mul_left, nsmul_eq_mul, Nat.cast_id] at hbound
  -- both sides have the factor `totGpuNum`
  have hle := hbound.trans (Nat.mul_le_mul_right _ hlength)
  exact Nat.lt_of_le_pred (Nat.succ_pos _) (Nat.le_of_mul_le_mul_left hle hpos)

theorem Started.oldOk {seq : ExecPlanGroupSeq} (hfits : seq.Fits cfg.totGpuNum)
    (h : Started cfg (prepareExecPlanStates seq) s) : OldOk cfg s.launched s.cells := by
  have hsum : (s.launched.map PlanState.gpuNum).sum ≤ (List.range cfg.totGpuNum).length := by
    rw [(h.perm.map PlanState.gpuNum).sum_nat, List.length_range]
    exact sum_gpuNum_stage_le hfits 0
  obtain ⟨free, hexcl⟩ := h.placed.exclusive (List.range cfg.totGpuNum) []
    (h.perm.nodup_iff.mpr ((stages_prepareExecPlanStates seq).nodup 0)) Exclusive.start
  exact ⟨hexcl.mono (List.Subperm.refl _) List.nil_subperm, h.placed.length hsum⟩

theorem RoundOk.oldOk {seq : ExecPlanGroupSeq} {r : Round} {next : State} {extra : List PlanState}
    (h : RoundOk cfg (prepareExecPlanStates seq) fin s r next extra)
    (hadjust : cfg.noRuntimeAdjustment = false) (hcost : LoadCostsSmall cfg seq)
    (hb : Bookkept (prepareExecPlanStates seq) s) (hold : OldOk cfg s.launched s.cells)
    (hroomy : RoundRoomy cfg (prepareExecPlanStates seq) fin s) :
    OldOk cfg r.state.launched r.state.cells := by
  have hs := stages_prepareExecPlanStates seq
  have hlevels := h.levels hadjust
  have hnext := hlevels.bookkept hs hb
  have hsum := hlevels.sum_gpuNum_le hs hb hold hroomy
  have hgpus : ∀ ps ∈ s.launched, gpus next.cells ps = gpus s.cells ps := fun ps hps =>
    congrArg Cell.compGpus (hlevels.frame_launched hs hb hps)
  have hold' : OldOk cfg s.launched next.cells :=
    ⟨hold.exclusive.congr hgpus, fun ps hps => (congrArg _ (hgpus ps hps)).trans (hold.length ps hps)⟩
  obtain ⟨k, re, hadj⟩ := adjustCompGpus_ok hnext.models.of_map h.adjust_ok
  rw [h.launched]
  exact hadj.exclusive hnext.models hold' hsum
    (hcost.sum_lt hsum fun ps hps => ⟨_, (hnext.member ps hps).1⟩)

/-! ## Runs -/

/-- The arguments of the calls of a round; `later` are the stages after the target. -/
def callsFrom (cfg : Config) (groups : List (List PlanState)) (fin : Nat → Bool) :
    List (List PlanState) → State → List State
  | [], s => [s]
  | next :: later, s => s :: match loadCandidates cfg fin s with
    | .error _ => []
    | .ok l =>
      if l.newCandidates = [] ∧ hasModelFinished groups fin s.target = true then
        callsFrom cfg groups fin later ⟨l.toLaunch, next, s.target + 1, l.cells⟩
      else []

theorem mem_callsFrom {later : List (List PlanState)} {t : State}
    (hlater : later = groups.drop (s.target + 1))
    (h : Relation.ReflTransGen (CallsItself cfg groups fin) s t) :
    t ∈ callsFrom cfg groups fin later s := by
  induction h using Relation.ReflTransGen.head_induction_on generalizing later with
  | refl => cases later <;> exact .head _
  | @head s t' hcall _ ih =>
    obtain ⟨hload, hnone, hlt, hfinished⟩ := hcall
    rcases drop_eq_nil_or_cons groups (s.target + 1) with ⟨-, hlength, -⟩ | ⟨hdrop, -⟩
    · exact absurd hlt (Nat.not_lt_of_le hlength)
    · rw [hlater, hdrop, callsFrom, hload]
      refine .tail _ ?_
      simp only [hnone, hfinished, and_self, if_true]
      exact ih rfl

theorem roundRoomy_of_calls
    (h : ∀ t ∈ callsFrom cfg groups fin (groups.drop (s.target + 1)) s, Roomy cfg fin t) :
    RoundRoomy cfg groups fin s := fun t ht => h t (mem_callsFrom rfl ht)

/-- Capacity and exclusivity after every round of every run whose calls meet the condition. -/
theorem reach_withinCapacity (cfg : Config) (hadjust : cfg.noRuntimeAdjustment = false)
    (seq : ExecPlanGroupSeq) (hfits : seq.Fits cfg.totGpuNum) (hcost : LoadCostsSmall cfg seq)
    {fin : Nat → Bool} {s : State}
    (h : Reach cfg (prepareExecPlanStates seq) (RoundRoomy cfg (prepareExecPlanStates seq)) fin s) :
    WithinCapacity cfg s := by
  have hs := stages_prepareExecPlanStates seq
  suffices hinv : Bookkept (prepareExecPlanStates seq) s ∧ OldOk cfg s.launched s.cells from
    hinv.2.withinCapacity hinv.1.models
  induction h with
  | start hstart =>
    have hstarted := initializeSharedContect_ok hs hstart
    exact ⟨hstarted.bookkept hs, hstarted.oldOk hfits⟩
  | round _ _ hmeets hround ih =>
    obtain ⟨next, extra, hok⟩ := getTheNextRound_ok hround
    exact ⟨hok.bookkept hs hadjust ih.1, hok.oldOk hadjust hcost ih.1 ih.2 hmeets⟩

/-- Model 5 stays, model 3 gets the GPUs of model 0, and model 4 waits: model 0 does not fit any
more, and model 1 goes on. -/
def demotedSeq : ExecPlanGroupSeq where
  planGroupSeq := [
    [⟨0, [], 1, 9, 2, 0, 3, 1, by decide, by decide⟩, ⟨1, [], 1, 9, 2, 0, 1, 1, by decide, by decide⟩,
      ⟨2, [], 1, 9, 2, 0, 1, 1, by decide, by decide⟩,
      ⟨5, [], 1, 9, 2, 0, 1, 1, by decide, by decide⟩],
    [⟨3, [], 1, 9, 2, 0, 3, 1, by decide, by decide⟩,
      ⟨4, [], 1, 9, 2, 0, 3, 1, by decide, by decide⟩],
    [⟨0, [], 1, 9, 2, 0, 3, 1, by decide, by decide⟩,
      ⟨1, [], 1, 9, 2, 0, 1, 1, by decide, by decide⟩]]
  distinct := by decide

def demotedConfig : Config := ⟨6, 2, false, false, stableArgsort⟩

theorem demotedSeq_fits : demotedSeq.Fits demotedConfig.totGpuNum := by
  show ∀ group ∈ demotedSeq.planGroupSeq, (group.map ExecPlan.gpuNum).sum ≤ 6
  decide

/-- Model 2 finishes, then model 3: the second stage is complete, and model 0 of the third one has
to wait. -/
theorem reach_withinCapacity_demoted : ∃ s,
    runFromStart demotedConfig (prepareExecPlanStates demotedSeq) (fun fin s =>
      (callsFrom demotedConfig (prepareExecPlanStates demotedSeq) fin
        ((prepareExecPlanStates demotedSeq).drop (s.target + 1)) s).all
          fun t => decide (Roomy demotedConfig fin t)) [[2], [3]] = some s ∧
      s.target = 2 ∧ WithinCapacity demotedConfig s := by
  have hrun : (runFromStart demotedConfig (prepareExecPlanStates demotedSeq) (fun fin s =>
      (callsFrom demotedConfig (prepareExecPlanStates demotedSeq) fin
        ((prepareExecPlanStates demotedSeq).drop (s.target + 1)) s).all
          fun t => decide (Roomy demotedConfig fin t)) [[2], [3]]).map State.target = some 2 := by
    decide +kernel
  obtain ⟨s, hs, htarget⟩ := Option.map_eq_some_iff.mp hrun
  refine ⟨s, hs, htarget, reach_withinCapacity demotedConfig rfl demotedSeq demotedSeq_fits
    (show ∀ plan ∈ demotedSeq.planGroupSeq.flatten, 6 * plan.loadCostJustForRefer < 1000000000 by
      decide) ((reach_of_runFromStart hs).mono fun fin t hcalls => ?_)⟩
  exact roundRoomy_of_calls fun t' ht' => of_decide_eq_true (List.all_eq_true.mp hcalls t' ht')

/-- Three stages for four GPUs. Models 1 and 2 run in the first stage and again in the last one;
models 4 and 5 of the second stage need two GPUs each. -/
def crowdedSeq : ExecPlanGroupSeq where
  planGroupSeq := [
    [⟨0, [], 1, 9, 2, 0, 1, 1, by decide, by decide⟩, ⟨1, [], 1, 9, 2, 0, 1, 1, by decide, by decide⟩,
      ⟨2, [], 1, 9, 2, 0, 1, 1, by decide, by decide⟩,
      ⟨3, [], 1, 9, 2, 0, 1, 1, by decide, by decide⟩],
    [⟨4, [], 1, 9, 2, 0, 2, 1, by decide, by decide⟩,
      ⟨5, [], 1, 9, 2, 0, 2, 1, by decide, by decide⟩],
    [⟨1, [], 1, 9, 2, 0, 1, 1, by decide, by decide⟩,
      ⟨2, [], 1, 9, 2, 0, 1, 1, by decide, by decide⟩]]
  distinct := by decide

def crowdedConfig : Config := ⟨4, 2, false, false, stableArgsort⟩

theorem crowdedSeq_fits : crowdedSeq.Fits crowdedConfig.totGpuNum := by
  show ∀ group ∈ crowdedSeq.planGroupSeq, (group.map ExecPlan.gpuNum).sum ≤ 4
  decide

/-- Model 3 finishes. Model 4 gets the GPUs of models 1 and 2, and these are admitted again: the
four plans that run need five GPUs. -/
theorem not_withinCapacity_crowded : ¬ ∀ (cfg : Config) (seq : ExecPlanGroupSeq),
    cfg.noRuntimeAdjustment = false → seq.Fits cfg.totGpuNum → ∀ (fin : Nat → Bool) (s : State),
      Reach cfg (prepareExecPlanStates seq) (fun _ _ => True) fin s → WithinCapacity cfg s := by
  intro h
  have hrun : (runFromStart crowdedConfig (prepareExecPlanStates crowdedSeq) (fun _ _ => true)
      [[3]]).map (fun s => (s.launched.map PlanState.gpuNum).sum) = some 5 := by decide +kernel
  obtain ⟨s, hs, hsum⟩ := Option.map_eq_some_iff.mp hrun
  have hle := (h crowdedConfig crowdedSeq rfl crowdedSeq_fits _ s
    ((reach_of_runFromStart hs).mono fun _ _ _ => trivial)).sum_le
  rw [hsum] at hle
  exact absurd hle (by decide)

end Mil.Schedule
