import Mil.Schedule.Align
import Mil.Schedule.Start

/-!
# When the GPU reassignment is right

What `_adjust_comp_gpus_for_current_launched_exec_plans` is for: afterwards the plans hold their
numbers of GPUs, no GPU twice, with every worker in one group or on whole groups; plans that go on
and are not reported keep their GPUs; and the plans reported are those that were given others.

The value `1e9` marks a closed group in the array of cleaning costs, and costs are added up in the
same array: the code counts on load costs that stay far below it. If those of the small plans in a
group reached it, the group would be treated as closed although no large plan holds it, and its GPUs
would be lost for the round. The reassignment is right exactly when the plans that are served fit
the groups that are left, and they do as long as no group costs `1e9` to clean.
-/

set_option autoImplicit false

namespace Mil.Schedule

open Mil.Lib

variable {cfg : Config} {launched newLaunch old extra : List PlanState} {cells cells' : Cells}

/-! ## Before and after -/

/-- GPUs held exclusively, in the right number, with every worker aligned. -/
structure WellPlaced (cfg : Config) (plans : List PlanState) (cells : Cells) : Prop where
  exclusive : OldOk cfg plans cells
  aligned : ∀ ps ∈ plans, Aligned cfg ps (gpus cells ps)

/-- What the adjustment is given: plans that fit the machine, some of them new, and the placement of
the last round. The case that large plans hold every group is left out. -/
structure AdjustInput (cfg : Config) (launched newLaunch old : List PlanState) (cells : Cells) :
    Prop where
  unit_pow : ∃ e, cfg.fullyConnectedGpuUnit = 2 ^ e
  unit_dvd : cfg.fullyConnectedGpuUnit ∣ cfg.totGpuNum
  models : (launched.map PlanState.modelId).Nodup
  workers : ∀ ps ∈ launched, ∃ e, ps.numWorker = 2 ^ e
  sum_le : (launched.map PlanState.gpuNum).sum ≤ cfg.totGpuNum
  new_sub : newLaunch.Sublist launched
  old_placed : WellPlaced cfg old cells
  old_mem : ∀ ps ∈ launched, ps ∉ newLaunch → ps.modelKey ∈ old.map PlanState.modelKey
  exists_open : ∃ i < cfg.totGpuNum / cfg.fullyConnectedGpuUnit,
    closedByLarge cfg newLaunch (gpusOf cells old) launched i = false

/-- What the adjustment is for. -/
structure PlacedAnew (cfg : Config) (launched newLaunch : List PlanState)
    (oldGpus : ModelKey → Option (List Nat)) (extra : List PlanState) (cells' : Cells) : Prop where
  placed : WellPlaced cfg launched cells'
  kept : ∀ ps ∈ launched, ps ∉ newLaunch → ps ∉ extra →
    oldGpus ps.modelKey = some (gpus cells' ps)
  moved : ∀ ps, ps ∈ extra ↔ ps ∈ launched ∧ ps ∉ newLaunch ∧
    ∃ comp, oldGpus ps.modelKey = some comp ∧ ¬ comp.Perm (gpus cells' ps)

/-- The groups that are handed out: no large plan goes on in them, and cleaning them of the small
ones costs less than `1e9`. -/
def openGroups (cfg : Config) (launched newLaunch : List PlanState)
    (oldGpus : ModelKey → Option (List Nat)) : List Nat :=
  (List.range (cfg.totGpuNum / cfg.fullyConnectedGpuUnit)).filter fun i =>
    !closedByLarge cfg newLaunch oldGpus launched i &&
      decide (cleaningCost cfg newLaunch oldGpus launched i < sentinel)

/-- The plans that are served from these groups fit them. -/
def OpenGroupsSuffice (cfg : Config) (launched newLaunch : List PlanState)
    (oldGpus : ModelKey → Option (List Nat)) : Prop :=
  ((launched.filter fun ps => !largeKept cfg newLaunch ps).map PlanState.gpuNum).sum ≤
    cfg.fullyConnectedGpuUnit * (openGroups cfg launched newLaunch oldGpus).length

instance (cfg : Config) (launched newLaunch : List PlanState)
    (oldGpus : ModelKey → Option (List Nat)) :
    Decidable (OpenGroupsSuffice cfg launched newLaunch oldGpus) :=
  inferInstanceAs (Decidable (_ ≤ _))

/-! ## The input -/

theorem numWorker_eq_of_modelKey {ps q : PlanState} (h : ps.modelKey = q.modelKey) :
    ps.numWorker = q.numWorker :=
  congrArg (fun k : ModelKey => k.2.1) h

theorem dpSize_eq_of_modelKey {ps q : PlanState} (h : ps.modelKey = q.modelKey) :
    ps.dpSize = q.dpSize :=
  congrArg (fun k : ModelKey => k.2.2.2.2.2) h

theorem Aligned.of_modelKey {ps q : PlanState} {comp : List Nat} (h : Aligned cfg ps comp)
    (hkey : ps.modelKey = q.modelKey) : Aligned cfg q comp := by
  rw [Aligned, gpuForDps_eq, ← numWorker_eq_of_modelKey hkey, ← dpSize_eq_of_modelKey hkey]
  exact h

theorem min_two_pow (a e : Nat) : min (2 ^ a) (2 ^ e) = 2 ^ min a e := by
  rcases Nat.le_total a e with hle | hle
  · rw [Nat.min_eq_left hle, Nat.min_eq_left (Nat.pow_le_pow_right (by decide) hle)]
  · rw [Nat.min_eq_right hle, Nat.min_eq_right (Nat.pow_le_pow_right (by decide) hle)]

theorem length_candGpus (k : Keeping) :
    (candGpus cfg k).length = cfg.fullyConnectedGpuUnit * (sortedGpuGroupIds cfg k).length := by
  rw [candGpus, List.length_flatMap, Nat.mul_comm]
  have hlen : ∀ i ∈ sortedGpuGroupIds cfg k, ((gpuGroup cfg i).insertionSort fun a b =>
      (decide (a ∈ k.occupiedGpus)).toNat ≤ (decide (b ∈ k.occupiedGpus)).toNat).length =
        cfg.fullyConnectedGpuUnit := fun i _ => by
    rw [(List.perm_insertionSort _ _).length_eq, length_gpuGroup]
  rw [List.map_congr_left hlen, List.map_const', List.sum_replicate_nat]

section

variable (h : AdjustInput cfg launched newLaunch old cells)

include h

theorem AdjustInput.unit_pos : 0 < cfg.fullyConnectedGpuUnit := by
  obtain ⟨e, he⟩ := h.unit_pow
  exact he ▸ Nat.two_pow_pos e

theorem AdjustInput.heldBefore {ps : PlanState} (hps : ps ∈ launched) (hnew : ps ∉ newLaunch) :
    ∃ comp, gpusOf cells old ps.modelKey = some comp ∧ HeldBefore cfg ps comp := by
  obtain ⟨p, hp, hkey⟩ := List.mem_map.mp (h.old_mem ps hps hnew)
  obtain ⟨comp, hcomp⟩ := exists_gpusOf cells hp
  obtain ⟨q, hq, hqkey, rfl⟩ := exists_of_gpusOf hcomp
  have hsame := hqkey.trans hkey
  refine ⟨_, hkey ▸ hcomp, h.old_placed.exclusive.exclusive.held_nodup List.nodup_range hq, ?_,
    (h.old_placed.aligned q hq).of_modelKey hsame⟩
  rw [h.old_placed.exclusive.length q hq, gpuNum_eq_of_modelKey hsame]

theorem AdjustInput.dvd {ps : PlanState} (hps : ps ∈ launched)
    (hlarge : cfg.fullyConnectedGpuUnit ≤ ps.numWorker) :
    cfg.fullyConnectedGpuUnit ∣ ps.numWorker := by
  obtain ⟨e, he⟩ := h.unit_pow
  obtain ⟨d, hd⟩ := h.workers ps hps
  rw [he, hd] at hlarge ⊢
  exact Nat.pow_dvd_pow 2 ((Nat.pow_le_pow_iff_right (a := 2) (by decide)).mp hlarge)

/-- Powers of two, cut off at the size of a group, divide one another. -/
theorem AdjustInput.width_dvd {p q : PlanState} (hp : p ∈ launched) (hq : q ∈ launched)
    (hle : q.numWorker ≤ p.numWorker) : width cfg q ∣ width cfg p := by
  obtain ⟨e, he⟩ := h.unit_pow
  obtain ⟨a, ha⟩ := h.workers p hp
  obtain ⟨b, hb⟩ := h.workers q hq
  rw [ha, hb, Nat.pow_le_pow_iff_right (by decide)] at hle
  rw [width, width, ha, hb, he, min_two_pow, min_two_pow]
  exact Nat.pow_dvd_pow 2 (by omega)

theorem AdjustInput.width_dvd_unit {p : PlanState} (hp : p ∈ launched) :
    width cfg p ∣ cfg.fullyConnectedGpuUnit := by
  obtain ⟨e, he⟩ := h.unit_pow
  obtain ⟨a, ha⟩ := h.workers p hp
  rw [width, ha, he, min_two_pow]
  exact Nat.pow_dvd_pow 2 (Nat.min_le_right _ _)

/-! ## The groups that are handed out -/

omit h in
theorem exists_of_map_ok {α β : Type} {x : Except Raised α} {f : α → β} {b : β}
    (hx : x.map f = .ok b) : ∃ a, x = .ok a ∧ f a = b := by
  cases x with
  | error e => cases hx
  | ok a => exact ⟨a, rfl, Except.ok.inj hx⟩

/-- The closed groups of the code and those of the condition are the same. -/
theorem AdjustInput.keepCompGpus : ∃ k,
    Schedule.keepCompGpus cfg newLaunch (gpusOf cells old) (keepOrder launched)
      ⟨fun _ => 0, [], [], cells⟩ = .ok k ∧
    (sortedGpuGroupIds cfg k).Perm (openGroups cfg launched newLaunch (gpusOf cells old)) := by
  have hperm : (keepOrder launched).Perm launched := sortedBy_perm _ _
  obtain ⟨k, hk, hcost⟩ := keepCompGpus_total h.unit_pos
    (keepOrder launched) (fun ps hps => h.heldBefore (hperm.subset hps))
    ⟨fun _ => 0, [], [], cells⟩
  refine ⟨k, hk, (List.perm_ext_iff_of_nodup (sortedGpuGroupIds_nodup k)
    (List.nodup_range.filter _)).mpr fun i => ?_⟩
  have hlarge : closedByLarge cfg newLaunch (gpusOf cells old) (keepOrder launched) i =
      closedByLarge cfg newLaunch (gpusOf cells old) launched i := hperm.any_eq
  have hclean : cleaningCost cfg newLaunch (gpusOf cells old) (keepOrder launched) i =
      cleaningCost cfg newLaunch (gpusOf cells old) launched i :=
    ((hperm.filter _).map _).sum_nat
  rw [mem_sortedGpuGroupIds, hcost i, hlarge, hclean, Nat.zero_add]
  refine Iff.trans ?_ List.mem_filter.symm
  rw [List.mem_range, Bool.and_eq_true, Bool.not_eq_true', decide_eq_true_eq]

theorem AdjustInput.segmented_candGpus (k : Keeping) :
    Segmented (groupOf cfg) cfg.fullyConnectedGpuUnit (candGpus cfg k) := by
  refine .flatMap (sortedGpuGroupIds_nodup k) (fun i _ => ?_) fun i _ g hg => ?_
  · rw [(List.perm_insertionSort _ _).length_eq, length_gpuGroup]
  · exact (mem_gpuGroup h.unit_pos).mp ((List.perm_insertionSort _ _).subset hg)

/-- When the open groups suffice there is one. -/
theorem AdjustInput.openGroups_ne_nil
    (hroom : OpenGroupsSuffice cfg launched newLaunch (gpusOf cells old)) :
    openGroups cfg launched newLaunch (gpusOf cells old) ≠ [] := by
  intro hnil
  obtain ⟨i, hi, hopen⟩ := h.exists_open
  rw [OpenGroupsSuffice, hnil, List.length_nil, Nat.mul_zero] at hroom
  have hnone : (launched.filter fun ps => smallKept cfg newLaunch ps &&
      decide (i ∈ oldUnits cfg (gpusOf cells old) ps)) = [] := by
    refine List.filter_eq_nil_iff.mpr fun ps hps hsmall => ?_
    have hsmall := (Bool.and_eq_true_iff.mp hsmall).1
    have hmem : ps ∈ launched.filter fun ps => !largeKept cfg newLaunch ps := by
      refine List.mem_filter.mpr ⟨hps, ?_⟩
      rw [smallKept, Bool.and_eq_true, decide_eq_true_eq, decide_eq_true_eq] at hsmall
      simp [largeKept, Nat.not_le_of_lt hsmall.2]
    have hle := List.single_le_sum (fun _ _ => Nat.zero_le _) _
      (List.mem_map_of_mem (f := PlanState.gpuNum) hmem)
    have := ps.gpuNum_pos
    omega
  have hmem : i ∈ openGroups cfg launched newLaunch (gpusOf cells old) := by
    refine List.mem_filter.mpr ⟨List.mem_range.mpr hi, ?_⟩
    rw [hopen, cleaningCost, hnone]
    rfl
  rw [hnil] at hmem
  exact List.not_mem_nil hmem

/-! ## Right when the open groups suffice -/

omit h in
theorem sortedReverse_pairwise (key : PlanState → List Nat) (l : List PlanState) :
    (sortedReverse key l).Pairwise fun p q => key q ≤ key p := by
  have : Std.Total fun p q : PlanState => key q ≤ key p := ⟨fun p q => le_total (key q) (key p)⟩
  have : IsTrans PlanState fun p q => key q ≤ key p := ⟨fun _ _ _ hpq hqr => le_trans hqr hpq⟩
  exact List.pairwise_insertionSort _ l

/-- What the first loop leaves for the second one. -/
theorem AdjustInput.heldAfter {k : Keeping} (hkept : Kept cfg newLaunch (gpusOf cells old)
    (keepOrder launched) ⟨fun _ => 0, [], [], cells⟩ k) {ps : PlanState} (hps : ps ∈ launched)
    (hnew : ps ∉ newLaunch) : gpusOf cells old ps.modelKey = some (gpus k.cells ps) ∧
      HeldBefore cfg ps (gpus k.cells ps) := by
  obtain ⟨comp, hcomp, hbefore⟩ := h.heldBefore hps hnew
  obtain ⟨comp', hcomp', hcell⟩ := hkept.kept_cell ps ((sortedBy_perm _ _).mem_iff.mpr hps) hnew
  obtain rfl := Option.some.inj (hcomp.symm.trans hcomp')
  rw [gpus, hcell]
  exact ⟨hcomp, hbefore⟩

omit h in
theorem Kept.served {k : Keeping} (hkept : Kept cfg newLaunch (gpusOf cells old)
    (keepOrder launched) ⟨fun _ => 0, [], [], cells⟩ k) :
    (sortedReverse (reassignKey cfg newLaunch) k.toReassign).Perm
      (launched.filter fun ps => !largeKept cfg newLaunch ps) := by
  refine (sortedReverse_perm _ _).trans ?_
  rw [hkept.toReassign]
  exact (sortedBy_perm _ _).filter _

/-- The adjustment after its first loop. -/
theorem AdjustInput.adjustCompGpus_eq {k : Keeping}
    (hk : Schedule.keepCompGpus cfg newLaunch (gpusOf cells old) (keepOrder launched)
      ⟨fun _ => 0, [], [], cells⟩ = .ok k) :
    adjustCompGpus cfg launched newLaunch old cells =
      if sortedGpuGroupIds cfg k = [] then .error .noGpuGroup
      else (reassignCompGpus cfg newLaunch (sortedReverse (reassignKey cfg newLaunch) k.toReassign)
        ⟨candGpus cfg k, [], k.cells⟩).map fun r => (r.extraNewLaunch, r.cells) := by
  have hunit : ¬ (cfg.fullyConnectedGpuUnit = 0 ∨
      cfg.totGpuNum % cfg.fullyConnectedGpuUnit ≠ 0) := by
    rw [not_or, not_not]
    exact ⟨Nat.ne_of_gt h.unit_pos, Nat.mod_eq_zero_of_dvd h.unit_dvd⟩
  rw [adjustCompGpus, if_neg hunit, hk]
  rfl

/-- Both loops go through, and the second one leaves the plans it has served settled. -/
theorem AdjustInput.loops (hroom : OpenGroupsSuffice cfg launched newLaunch (gpusOf cells old)) :
    ∃ k r, adjustCompGpus cfg launched newLaunch old cells = .ok (r.extraNewLaunch, r.cells) ∧
      Adjusted cfg launched newLaunch old r.extraNewLaunch cells r.cells k r ∧
      ((sortedReverse (reassignKey cfg newLaunch) k.toReassign).map PlanState.gpuNum).sum ≤
        (candGpus cfg k).length ∧
      Settled cfg newLaunch (sortedReverse (reassignKey cfg newLaunch) k.toReassign)
        ⟨candGpus cfg k, [], k.cells⟩ r := by
  obtain ⟨k, hk, hgroups⟩ := h.keepCompGpus
  have hkept := keepCompGpus_ok
    ((sortedBy_perm (fun ps => [ps.numWorker]) launched).nodup_iff.mpr (h.models.of_map _)) hk
  have hperm := hkept.served
  set served := sortedReverse (reassignKey cfg newLaunch) k.toReassign with hserved
  have hmem : ∀ ps ∈ served, ps ∈ launched := fun ps hps =>
    List.mem_of_mem_filter (hperm.subset hps)
  have hfits : (served.map PlanState.gpuNum).sum ≤ (candGpus cfg k).length := by
    rw [(hperm.map PlanState.gpuNum).sum_nat, length_candGpus, hgroups.length_eq]
    exact hroom
  have hlarge : ∀ ps ∈ served, cfg.fullyConnectedGpuUnit ≤ ps.numWorker → ps ∈ newLaunch := by
    intro ps hps hle
    have := (List.mem_filter.mp (hperm.subset hps)).2
    simpa [largeKept, hle] using this
  -- larger powers of two are served first, so the segments stay aligned
  have hwidth : served.Pairwise fun p q => width cfg q ∣ width cfg p := by
    refine (sortedReverse_pairwise _ _).imp_of_mem fun {p q} hp hq hle => ?_
    refine h.width_dvd (hmem p hp) (hmem q hq) ?_
    rcases lt_or_eq_of_le hle with hlt | heq
    · exact List.head_le_of_lt hlt
    · exact le_of_eq (List.cons.inj heq).1
  obtain ⟨r, hr, hsettled⟩ := reassignCompGpus_total h.unit_pos
    (hperm.nodup_iff.mpr ((h.models.of_map _).filter _)) hwidth
    (fun ps hps => h.dvd (hmem ps hps)) hlarge (r := ⟨candGpus cfg k, [], k.cells⟩)
    (fun ps hps hnew => (h.heldAfter hkept (hmem ps hps) hnew).2) (fun _ _ => List.not_mem_nil)
    (candGpus_nodup k h.unit_pos)
    (fun ps hps => (h.segmented_candGpus k).of_dvd (h.width_dvd_unit (hmem ps hps))) hfits
  refine ⟨k, r, ?_, ⟨h.unit_pos, Nat.mod_eq_zero_of_dvd h.unit_dvd, hkept, hr, rfl, rfl⟩, hfits,
    hsettled⟩
  have hne : sortedGpuGroupIds cfg k ≠ [] := fun hnil =>
    h.openGroups_ne_nil hroom (List.perm_nil.mp (hnil ▸ hgroups.symm))
  rw [h.adjustCompGpus_eq hk, if_neg hne, hr]
  rfl

theorem AdjustInput.placedAnew
    (hroom : OpenGroupsSuffice cfg launched newLaunch (gpusOf cells old)) :
    ∃ extra cells', adjustCompGpus cfg launched newLaunch old cells = .ok (extra, cells') ∧
      PlacedAnew cfg launched newLaunch (gpusOf cells old) extra cells' := by
  have hnodup : launched.Nodup := h.models.of_map _
  obtain ⟨k, r, hadjust, hadj, hfits, hsettled⟩ := h.loops hroom
  have hheld : ∀ ps ∈ launched, ps ∉ newLaunch →
      gpusOf cells old ps.modelKey = some (gpus k.cells ps) ∧
        HeldBefore cfg ps (gpus k.cells ps) := fun _ => h.heldAfter hadj.kept
  set served := sortedReverse (reassignKey cfg newLaunch) k.toReassign with hserved
  -- The plans the second loop does not see keep what the first one has given back.
  have hframe : ∀ ps ∈ launched, ps ∉ served → ps ∉ newLaunch ∧ r.cells ps = k.cells ps := by
    intro ps hps hout
    have hl : largeKept cfg newLaunch ps = true := by
      by_contra hnot
      exact hout (hadj.kept.served.symm.subset (List.mem_filter.mpr ⟨hps, by simpa using hnot⟩))
    exact ⟨by simpa using (Bool.and_eq_true_iff.mp hl).1, (hadj.reassigned hnodup).frame ps hout⟩
  have hback : ∀ ps ∈ launched, ps ∉ newLaunch → ps ∉ r.extraNewLaunch →
      gpus r.cells ps = gpus k.cells ps := by
    intro ps hps hnew hout
    by_cases hin : ps ∈ served
    · exact hsettled.kept ps hin hnew hout
    · rw [gpus, (hframe ps hps hin).2]
  refine ⟨r.extraNewLaunch, r.cells, hadjust,
    ⟨hadj.exclusive_of_room h.models h.old_placed.exclusive hfits, fun ps hps => ?_⟩,
    fun ps hps hnew hout => ?_, fun ps => ⟨fun hin => ?_, ?_⟩⟩
  · by_cases hin : ps ∈ served
    · exact hsettled.aligned ps hin
    · obtain ⟨hnew, hcell⟩ := hframe ps hps hin
      rw [gpus, hcell]
      exact (hheld ps hps hnew).2.aligned
  · rw [(hheld ps hps hnew).1, hback ps hps hnew hout]
  · obtain ⟨hps, hnew⟩ := hadj.extra_sub hnodup hin
    refine ⟨hps, hnew, _, (hheld ps hps hnew).1, fun hsame => ?_⟩
    rcases (hadj.reassigned hnodup).extra ps hin with hnil | ⟨hmem, -⟩
    · exact List.not_mem_nil hnil
    · exact hsettled.moved ps hmem hin hsame.subset
  · rintro ⟨hps, hnew, comp, hcomp, hmoved⟩
    by_contra hout
    obtain rfl := Option.some.inj ((hheld ps hps hnew).1.symm.trans hcomp)
    exact hmoved (List.Perm.of_eq (hback ps hps hnew hout).symm)

/-! ## Wrong when they do not -/

omit h in
/-- The second loop only hands out candidate GPUs. -/
theorem reassignCompGpus_subset {plans : List PlanState} (hnodup : plans.Nodup)
    {r r' : Reassign} (hr : reassignCompGpus cfg newLaunch plans r = .ok r')
    (hlength : ∀ ps ∈ plans, ps ∉ newLaunch → (gpus r.cells ps).length = ps.gpuNum) :
    ∀ ps ∈ plans, gpus r'.cells ps ⊆ r.candGpus := by
  induction plans generalizing r with
  | nil => simp
  | cons ps plans ih =>
    obtain ⟨hps, hnodup'⟩ := List.nodup_cons.mp hnodup
    rcases reassignCompGpus_cons hr with hr | ⟨hsmall, hsub, hr⟩
    · intro q hq
      rcases List.mem_cons.mp hq with rfl | hq
      · rw [gpus, (reassignCompGpus_ok hnodup' hr).frame q hps, assign_cells_self]
        exact List.take_subset _ _
      · refine List.Subset.trans (ih hnodup' hr (fun p hp hout => ?_) q hq)
          (List.drop_subset _ _)
        rw [gpus, assign_cells_of_ne (ne_of_mem_of_not_mem hp hps)]
        exact hlength p (.tail _ hp) hout
    · intro q hq
      have hout : ps ∉ newLaunch := by simpa using (Bool.and_eq_true_iff.mp hsmall).1
      rcases List.mem_cons.mp hq with rfl | hq
      · rw [gpus, (reassignCompGpus_ok hnodup' hr).frame q hps]
        rw [List.take_of_length_le (Nat.le_of_eq (hlength q (.head _) hout))] at hsub
        exact fun g hg => hsub g hg
      · exact List.Subset.trans
          (ih hnodup' hr (fun p hp hout => hlength p (.tail _ hp) hout) q hq)
          List.filter_sublist.subset

/-- A placement in the right numbers is only found when the open groups suffice. -/
theorem AdjustInput.openGroupsSuffice
    (hok : adjustCompGpus cfg launched newLaunch old cells = .ok (extra, cells'))
    (hplaced : OldOk cfg launched cells') :
    OpenGroupsSuffice cfg launched newLaunch (gpusOf cells old) := by
  have hnodup : launched.Nodup := h.models.of_map _
  obtain ⟨k, hk, hgroups⟩ := h.keepCompGpus
  have hkept := keepCompGpus_ok
    ((sortedBy_perm (fun ps => [ps.numWorker]) launched).nodup_iff.mpr hnodup) hk
  have hserved := hkept.served
  rw [h.adjustCompGpus_eq hk] at hok
  set served := sortedReverse (reassignKey cfg newLaunch) k.toReassign with hdef
  split at hok
  · cases hok
  · obtain ⟨r, hr, heq⟩ := exists_of_map_ok hok
    obtain ⟨rfl, rfl⟩ := Prod.mk.inj heq
    have hmem : ∀ ps ∈ served, ps ∈ launched := fun ps hps =>
      List.mem_of_mem_filter (hserved.subset hps)
    have hsnodup : served.Nodup := hserved.nodup_iff.mpr (hnodup.filter _)
    -- what the served plans hold comes from the open groups, without repetition
    have hsub : served.flatMap (gpus r.cells) ⊆ candGpus cfg k := by
      intro g hg
      obtain ⟨ps, hps, hgp⟩ := List.mem_flatMap.mp hg
      exact reassignCompGpus_subset hsnodup hr
        (fun q hq hout => (h.heldAfter hkept (hmem q hq) hout).2.length) ps hps hgp
    have hexcl : Exclusive (List.range cfg.totGpuNum) (gpus r.cells) served [] :=
      hplaced.exclusive.mono (List.subperm_of_subset hsnodup hmem) (List.Subperm.refl _)
    have hdistinct : (served.flatMap (gpus r.cells)).Nodup := by
      simpa using hexcl.nodup List.nodup_range
    have hcount := (List.subperm_of_subset hdistinct hsub).length_le
    rwa [List.length_flatMap, List.map_congr_left fun ps hps => hplaced.length ps (hmem ps hps),
      (hserved.map PlanState.gpuNum).sum_nat, length_candGpus, hgroups.length_eq] at hcount

end

/-! ## Exactly then -/

/-- The reassignment does what it is for exactly when the groups it leaves open suffice. -/
theorem adjustCompGpus_placedAnew_iff (cfg : Config) (launched newLaunch old : List PlanState)
    (cells : Cells) (h : AdjustInput cfg launched newLaunch old cells) :
    (∃ extra cells', adjustCompGpus cfg launched newLaunch old cells = .ok (extra, cells') ∧
        PlacedAnew cfg launched newLaunch (gpusOf cells old) extra cells') ↔
      OpenGroupsSuffice cfg launched newLaunch (gpusOf cells old) := by
  constructor
  · rintro ⟨extra, cells', hok, hplaced⟩
    exact h.openGroupsSuffice hok hplaced.placed.exclusive
  · exact h.placedAnew

/-! ## Below the sentinel -/

/-- GPUs of a closed group are held by the large plans that go on. -/
theorem AdjustInput.mem_held (h : AdjustInput cfg launched newLaunch old cells) {g : Nat}
    (hclosed : closedByLarge cfg newLaunch (gpusOf cells old) launched (groupOf cfg g) = true) :
    g ∈ (launched.filter (largeKept cfg newLaunch)).flatMap fun ps =>
      (gpusOf cells old ps.modelKey).getD [] := by
  obtain ⟨ps, hps, hin⟩ := List.any_eq_true.mp hclosed
  obtain ⟨hlarge, hunit⟩ := Bool.and_eq_true_iff.mp hin
  refine List.mem_flatMap.mpr ⟨ps, List.mem_filter.mpr ⟨hps, hlarge⟩, ?_⟩
  rw [largeKept, Bool.and_eq_true, decide_eq_true_eq, decide_eq_true_eq] at hlarge
  obtain ⟨comp, hcomp, hbefore⟩ := h.heldBefore hps hlarge.1
  rw [oldUnits, hcomp, decide_eq_true_eq] at hunit
  obtain ⟨g', hg', hgroup⟩ := mem_unitsOf.mp hunit
  have hfull := hbefore.aligned.full h.unit_pos hlarge.2 hbefore.nodup hbefore.length hg'
  rw [groupOf, hgroup] at hfull
  rw [hcomp]
  exact mem_of_full h.unit_pos hbefore.nodup hfull

/-- The GPUs that the large plans do not hold are all handed out, so they are enough. -/
theorem AdjustInput.openGroupsSuffice_of_cheap
    (h : AdjustInput cfg launched newLaunch old cells)
    (hcheap : ∀ i < cfg.totGpuNum / cfg.fullyConnectedGpuUnit,
      cleaningCost cfg newLaunch (gpusOf cells old) launched i < sentinel) :
    OpenGroupsSuffice cfg launched newLaunch (gpusOf cells old) := by
  set large := launched.filter (largeKept cfg newLaunch) with hlarge
  set held := fun ps : PlanState => (gpusOf cells old ps.modelKey).getD []
  rw [OpenGroupsSuffice]
  set openIds := openGroups cfg launched newLaunch (gpusOf cells old) with hopen
  -- every GPU is held by a large plan that goes on, or belongs to an open group
  have hcover : List.range cfg.totGpuNum ⊆ large.flatMap held ++ openIds.flatMap (gpuGroup cfg) := by
    intro g hg
    by_cases hclosed : closedByLarge cfg newLaunch (gpusOf cells old) launched (groupOf cfg g)
    · exact List.mem_append_left _ (h.mem_held hclosed)
    · have hi : groupOf cfg g < cfg.totGpuNum / cfg.fullyConnectedGpuUnit :=
        Nat.div_lt_div_of_lt_of_dvd h.unit_dvd (List.mem_range.mp hg)
      refine List.mem_append_right _ (List.mem_flatMap.mpr ⟨groupOf cfg g, ?_, ?_⟩)
      · rw [hopen, openGroups, List.mem_filter]
        simp [hi, hclosed, hcheap _ hi]
      · exact (mem_gpuGroup h.unit_pos).mpr rfl
  have hcount := (List.subperm_of_subset List.nodup_range hcover).length_le
  have hheldLength : ∀ ps ∈ large, (held ps).length = ps.gpuNum := by
    intro ps hps
    obtain ⟨hps, hl⟩ := List.mem_filter.mp hps
    obtain ⟨comp, hcomp, hbefore⟩ :=
      h.heldBefore hps (of_decide_eq_true (Bool.and_eq_true_iff.mp hl).1)
    show ((gpusOf cells old ps.modelKey).getD []).length = ps.gpuNum
    rw [hcomp]
    exact hbefore.length
  have hopenLength : (openIds.flatMap (gpuGroup cfg)).length =
      cfg.fullyConnectedGpuUnit * openIds.length := by
    have hgroup : ∀ i ∈ openIds, (gpuGroup cfg i).length = cfg.fullyConnectedGpuUnit :=
      fun i _ => length_gpuGroup i
    rw [List.length_flatMap, List.map_congr_left hgroup, List.map_const', List.sum_replicate_nat,
      Nat.mul_comm]
  rw [List.length_range, List.length_append, hopenLength, List.length_flatMap,
    List.map_congr_left hheldLength] at hcount
  -- the large plans and the others together need no more than all GPUs
  have hsplit := ((List.filter_append_perm (largeKept cfg newLaunch) launched).map
    PlanState.gpuNum).sum_nat
  rw [List.map_append, List.sum_append, ← hlarge] at hsplit
  have hsum := h.sum_le
  omega

/-- While no group costs `1e9` to clean of its small plans, the reassignment does what it is for. -/
theorem adjustCompGpus_placedAnew (cfg : Config) (launched newLaunch old : List PlanState)
    (cells : Cells) (h : AdjustInput cfg launched newLaunch old cells)
    (hcheap : ∀ i < cfg.totGpuNum / cfg.fullyConnectedGpuUnit,
      cleaningCost cfg newLaunch (gpusOf cells old) launched i < sentinel) :
    ∃ extra cells', adjustCompGpus cfg launched newLaunch old cells = .ok (extra, cells') ∧
      PlacedAnew cfg launched newLaunch (gpusOf cells old) extra cells' :=
  (adjustCompGpus_placedAnew_iff cfg launched newLaunch old cells h).mpr
    (h.openGroupsSuffice_of_cheap hcheap)

/-- A plan of one stage, with `position` for its model. -/
def placedPlan (modelId numWorker dpSize loadCost : Nat) (hw : 0 < numWorker) (hd : 0 < dpSize) :
    PlanState :=
  ⟨⟨modelId, [], numWorker, 9, 2, 0, dpSize, loadCost, hw, hd⟩, 0, modelId, true, true⟩

/-- Four groups of two GPUs. Model 0 goes on with a whole group and model 1 with two workers in
different groups; models 2 and 3 are new. -/
def mixedOld : List PlanState :=
  [placedPlan 0 2 1 7 Nat.two_pos Nat.one_pos, placedPlan 1 1 2 5 Nat.one_pos Nat.two_pos]

def mixedNew : List PlanState :=
  [placedPlan 2 2 1 4 Nat.two_pos Nat.one_pos, placedPlan 3 1 1 3 Nat.one_pos Nat.one_pos]

def mixedConfig : Config := ⟨8, 2, false, false, stableArgsort⟩

def mixedCells : Cells := fun ps =>
  ⟨true, if ps.modelId = 0 then [2, 3] else if ps.modelId = 1 then [0, 5] else []⟩

theorem mixed_adjustInput :
    AdjustInput mixedConfig (mixedOld ++ mixedNew) mixedNew mixedOld mixedCells where
  unit_pow := ⟨1, rfl⟩
  unit_dvd := ⟨4, rfl⟩
  models := by decide
  workers := by
    intro ps hps
    simp only [mixedOld, mixedNew, List.cons_append, List.nil_append, List.mem_cons,
      List.not_mem_nil, or_false] at hps
    rcases hps with rfl | rfl | rfl | rfl
    · exact ⟨1, rfl⟩
    · exact ⟨0, rfl⟩
    · exact ⟨1, rfl⟩
    · exact ⟨0, rfl⟩
  sum_le := by decide
  new_sub := List.sublist_append_right _ _
  old_placed :=
    ⟨⟨show List.Subperm _ _ by decide, by decide⟩, by decide⟩
  old_mem := by decide
  exists_open := ⟨0, by decide, by decide⟩

theorem adjustCompGpus_placedAnew_mixed : ∃ extra cells',
    adjustCompGpus mixedConfig (mixedOld ++ mixedNew) mixedNew mixedOld mixedCells =
        .ok (extra, cells') ∧
      PlacedAnew mixedConfig (mixedOld ++ mixedNew) mixedNew (gpusOf mixedCells mixedOld)
        extra cells' :=
  adjustCompGpus_placedAnew _ _ _ _ _ mixed_adjustInput (by decide)

/-- Two groups of two GPUs. Model 0 goes on with one GPU, and its load cost is `1e9`; model 1 is new
and needs the other three. -/
def dearOld : List PlanState := [placedPlan 0 1 1 1000000000 Nat.one_pos Nat.one_pos]

theorem dearDpSize_pos : 0 < 3 := Nat.succ_pos 2

def dearNew : List PlanState := [placedPlan 1 1 3 1 Nat.one_pos dearDpSize_pos]

def dearConfig : Config := ⟨4, 2, false, false, stableArgsort⟩

def dearCells : Cells := fun ps => ⟨true, if ps.modelId = 0 then [0] else []⟩

theorem dear_adjustInput :
    AdjustInput dearConfig (dearOld ++ dearNew) dearNew dearOld dearCells where
  unit_pow := ⟨1, rfl⟩
  unit_dvd := ⟨2, rfl⟩
  models := by decide
  workers := by
    intro ps hps
    simp only [dearOld, dearNew, List.cons_append, List.nil_append, List.mem_cons,
      List.not_mem_nil, or_false] at hps
    rcases hps with rfl | rfl
    · exact ⟨0, rfl⟩
    · exact ⟨0, rfl⟩
  sum_le := by decide
  new_sub := List.sublist_append_right _ _
  old_placed :=
    ⟨⟨show List.Subperm _ _ by decide, by decide⟩, by decide⟩
  old_mem := by decide
  exists_open := ⟨0, by decide, by decide⟩

/-- At a load cost of `1e9` the group of model 0 counts as closed, and model 1 is left with one
GPU. -/
theorem not_placedAnew_dear : ¬ ∀ (cfg : Config) (launched newLaunch old : List PlanState)
    (cells : Cells), AdjustInput cfg launched newLaunch old cells →
      ∃ extra cells', adjustCompGpus cfg launched newLaunch old cells = .ok (extra, cells') ∧
        PlacedAnew cfg launched newLaunch (gpusOf cells old) extra cells' := by
  intro h
  obtain ⟨extra, cells', hok, hplaced⟩ := h _ _ _ _ _ dear_adjustInput
  exact absurd (dear_adjustInput.openGroupsSuffice hok hplaced.placed.exclusive)
    (by decide)

end Mil.Schedule
