import Mathlib.Algebra.Order.BigOperators.Group.List
import Mathlib.Algebra.Order.Ring.Nat
import Mathlib.Data.List.Dedup
import Mil.Schedule.Level

/-!
# Which GPUs the plans get

`_adjust_comp_gpus_for_current_launched_exec_plans` gives the plans that were running their GPUs
back, closes the GPU groups that large plans fill, and shares the other groups out again: a small
plan keeps its GPUs where it can, everybody else takes the next ones in line.
-/

set_option autoImplicit false

namespace Mil.Schedule

open Mil.Lib

variable {cfg : Config} {newLaunch : List PlanState} {oldGpus : ModelKey → Option (List Nat)}

/-! ## The first loop -/

/-- A plan that goes on and has a whole GPU group for each of its workers. -/
def largeKept (cfg : Config) (newLaunch : List PlanState) (ps : PlanState) : Bool :=
  decide (ps ∉ newLaunch) && decide (cfg.fullyConnectedGpuUnit ≤ ps.numWorker)

/-- A plan that goes on and fits into a GPU group. -/
def smallKept (cfg : Config) (newLaunch : List PlanState) (ps : PlanState) : Bool :=
  decide (ps ∉ newLaunch) && decide (ps.numWorker < cfg.fullyConnectedGpuUnit)

structure Kept (cfg : Config) (newLaunch : List PlanState) (oldGpus : ModelKey → Option (List Nat))
    (plans : List PlanState) (k k' : Keeping) : Prop where
  toReassign : k'.toReassign = k.toReassign ++ plans.filter fun ps => !largeKept cfg newLaunch ps
  frame : ∀ q, q ∉ plans ∨ q ∈ newLaunch → k'.cells q = k.cells q
  kept_cell : ∀ q ∈ plans, q ∉ newLaunch → ∃ comp, oldGpus q.modelKey = some comp ∧
    k'.cells q = { k.cells q with compGpus := comp }
  full : ∀ q ∈ plans, largeKept cfg newLaunch q → ∀ g ∈ (gpus k'.cells q).take q.gpuNum,
    ((gpus k'.cells q).take q.gpuNum).countP (· / cfg.fullyConnectedGpuUnit =
      g / cfg.fullyConnectedGpuUnit) = cfg.fullyConnectedGpuUnit
  closed : ∀ i, sentinel ≤ k.costToCleanModels i ∨ (∃ q ∈ plans, largeKept cfg newLaunch q ∧
    ∃ g ∈ (gpus k'.cells q).take q.gpuNum, g / cfg.fullyConnectedGpuUnit = i) →
    sentinel ≤ k'.costToCleanModels i
  opened : ∀ i, (∀ q ∈ plans, largeKept cfg newLaunch q →
    ∀ g ∈ (gpus k'.cells q).take q.gpuNum, g / cfg.fullyConnectedGpuUnit ≠ i) →
    k'.costToCleanModels i ≤ k.costToCleanModels i +
      ((plans.filter (smallKept cfg newLaunch)).map fun q => q.execPlan.loadCostJustForRefer).sum

theorem mem_unitsOf {comp : List Nat} {i : Nat} :
    i ∈ unitsOf cfg comp ↔ ∃ g ∈ comp, g / cfg.fullyConnectedGpuUnit = i := by
  rw [unitsOf, List.mem_dedup, List.mem_map]

/-- One more plan in front. -/
theorem Kept.cons {ps : PlanState} {plans : List PlanState} {k k₁ k' : Keeping}
    (h : Kept cfg newLaunch oldGpus plans k₁ k') (hps : ps ∉ plans)
    (hre : k₁.toReassign = k.toReassign ++ [ps].filter fun ps => !largeKept cfg newLaunch ps)
    (hcells : ∀ q, q ≠ ps → k₁.cells q = k.cells q)
    (hnew : ps ∈ newLaunch → k₁.cells ps = k.cells ps)
    (hkept : ps ∉ newLaunch → ∃ comp, oldGpus ps.modelKey = some comp ∧
      k₁.cells ps = { k.cells ps with compGpus := comp })
    (hfull : largeKept cfg newLaunch ps → ∀ g ∈ (gpus k₁.cells ps).take ps.gpuNum,
      ((gpus k₁.cells ps).take ps.gpuNum).countP (· / cfg.fullyConnectedGpuUnit =
        g / cfg.fullyConnectedGpuUnit) = cfg.fullyConnectedGpuUnit)
    (hclosed : ∀ i, sentinel ≤ k.costToCleanModels i ∨ (largeKept cfg newLaunch ps ∧
      ∃ g ∈ (gpus k₁.cells ps).take ps.gpuNum, g / cfg.fullyConnectedGpuUnit = i) →
      sentinel ≤ k₁.costToCleanModels i)
    (hopened : ∀ i, (largeKept cfg newLaunch ps →
      ∀ g ∈ (gpus k₁.cells ps).take ps.gpuNum, g / cfg.fullyConnectedGpuUnit ≠ i) →
      k₁.costToCleanModels i ≤ k.costToCleanModels i +
        if smallKept cfg newLaunch ps then ps.execPlan.loadCostJustForRefer else 0) :
    Kept cfg newLaunch oldGpus (ps :: plans) k k' := by
  have hself : k'.cells ps = k₁.cells ps := h.frame ps (.inl hps)
  refine ⟨?_, fun q hq => ?_, fun q hq hout => ?_, fun q hq hl => ?_, fun i hi => ?_,
    fun i hi => ?_⟩
  · rw [h.toReassign, hre, List.append_assoc, ← List.filter_append, List.singleton_append]
  · by_cases heq : q = ps
    · subst heq
      rw [hself, hnew (hq.resolve_left fun hout => hout (.head _))]
    · rw [h.frame q (hq.imp_left fun hout hmem => hout (.tail _ hmem)), hcells q heq]
  · rcases List.mem_cons.mp hq with rfl | hq
    · rw [hself]
      exact hkept hout
    · rw [← hcells q (ne_of_mem_of_not_mem hq hps)]
      exact h.kept_cell q hq hout
  · rcases List.mem_cons.mp hq with rfl | hq
    · rw [gpus, hself]
      exact hfull hl
    · exact h.full q hq hl
  · refine h.closed i ?_
    rcases hi with hi | ⟨q, hq, hl, hg⟩
    · exact .inl (hclosed i (.inl hi))
    · rcases List.mem_cons.mp hq with rfl | hq
      · rw [gpus, hself] at hg
        exact .inl (hclosed i (.inr ⟨hl, hg⟩))
      · exact .inr ⟨q, hq, hl, hg⟩
  · have hrest := h.opened i fun q hq => hi q (.tail _ hq)
    have hfirst := hopened i fun hl g hg => hi ps (.head _) hl g (by rw [gpus, hself]; exact hg)
    rw [List.filter_cons]
    split at hfirst
    · rename_i hsmall
      rw [if_pos hsmall, List.map_cons, List.sum_cons]
      omega
    · rename_i hsmall
      rw [if_neg hsmall]
      omega

theorem keepCompGpus_ok {plans : List PlanState} (hnodup : plans.Nodup) {k k' : Keeping}
    (h : keepCompGpus cfg newLaunch oldGpus plans k = .ok k') :
    Kept cfg newLaunch oldGpus plans k k' := by
  induction plans generalizing k with
  | nil =>
    obtain rfl := Except.ok.inj h
    exact ⟨by simp, fun _ _ => rfl, by simp, by simp, by simp, by simp⟩
  | cons ps plans ih =>
    obtain ⟨hps, hnodup'⟩ := List.nodup_cons.mp hnodup
    rw [keepCompGpus] at h
    by_cases hnew : ps ∈ newLaunch
    · rw [if_pos hnew] at h
      have hlarge : largeKept cfg newLaunch ps = false := by simp [largeKept, hnew]
      exact (ih hnodup' h).cons hps (by simp [hlarge]) (fun _ _ => rfl) (fun _ => rfl)
        (absurd hnew) (by simp [hlarge]) (by simp [hlarge]) (fun i _ => Nat.le_add_right _ _)
    · rw [if_neg hnew] at h
      cases hcomp : oldGpus ps.modelKey with
      | none =>
        rw [hcomp] at h
        cases h
      | some comp =>
        simp only [hcomp] at h
        split at h
        · cases h
        · have hkept : ps ∉ newLaunch → ∃ comp', some comp = some comp' ∧
              k.cells.setCompGpus ps comp ps = { k.cells ps with compGpus := comp' } :=
            fun _ => ⟨comp, rfl, Cells.setCompGpus_self⟩
          have hself : gpus (k.cells.setCompGpus ps comp) ps = comp := by
            rw [gpus, Cells.setCompGpus_self]
          split at h
          · rename_i hunit
            -- a large plan closes the groups it holds, and these must be whole
            have hlarge : largeKept cfg newLaunch ps = true := by simp [largeKept, hnew, hunit]
            have hsmall : smallKept cfg newLaunch ps = false := by
              simp [smallKept, hnew, hunit]
            split at h
            · rename_i hfull
              refine (ih hnodup' h).cons hps (by simp [hlarge])
                (fun q hq => Cells.setCompGpus_of_ne hq) (fun hin => absurd hin hnew)
                (hcomp ▸ hkept) (fun _ g hg => ?_) (fun i hi => ?_) (fun i hi => ?_)
              · rw [hself] at hg ⊢
                exact hfull _ (mem_unitsOf.mpr ⟨g, hg, rfl⟩)
              · rw [hself] at hi
                rcases hi with hi | ⟨-, hg⟩
                · simp only
                  split
                  · exact Nat.le_refl _
                  · exact hi
                · simp only [if_pos (mem_unitsOf.mpr hg)]
                  exact Nat.le_refl _
              · rw [hself] at hi
                have hout : i ∉ unitsOf cfg (comp.take ps.gpuNum) := fun hmem => by
                  obtain ⟨g, hg, heq⟩ := mem_unitsOf.mp hmem
                  exact hi hlarge g hg heq
                simp only [hout, if_false, hsmall]
                exact Nat.le_add_right _ _
            · cases h
          · rename_i hunit
            -- a small plan adds its load cost to the groups it holds GPUs of
            have hlarge : largeKept cfg newLaunch ps = false := by simp [largeKept, hunit]
            have hsmall : smallKept cfg newLaunch ps = true := by
              simp [smallKept, hnew, Nat.lt_of_not_le hunit]
            refine (ih hnodup' h).cons hps (by simp [hlarge])
              (fun q hq => Cells.setCompGpus_of_ne hq) (fun hin => absurd hin hnew)
              (hcomp ▸ hkept) (by simp [hlarge]) (fun i hi => ?_) (fun i _ => ?_)
            · rcases hi with hi | ⟨hl, -⟩
              · simp only
                split <;> omega
              · rw [hlarge] at hl
                cases hl
            · simp only [hsmall, if_true]
              split <;> omega

/-! ## The candidate GPUs -/

theorem mem_gpuGroup {i g : Nat} (hunit : 0 < cfg.fullyConnectedGpuUnit) :
    g ∈ gpuGroup cfg i ↔ g / cfg.fullyConnectedGpuUnit = i := by
  rw [gpuGroup, List.mem_map]
  constructor
  · rintro ⟨a, ha, rfl⟩
    rw [Nat.mul_comm, Nat.mul_add_div hunit, Nat.div_eq_of_lt (List.mem_range.mp ha), Nat.add_zero]
  · rintro rfl
    exact ⟨g % cfg.fullyConnectedGpuUnit, List.mem_range.mpr (Nat.mod_lt _ hunit),
      Nat.div_add_mod' g _⟩

theorem gpuGroup_nodup (i : Nat) : (gpuGroup cfg i).Nodup :=
  List.nodup_range.map fun _ _ h => Nat.add_left_cancel h

theorem length_gpuGroup (i : Nat) : (gpuGroup cfg i).length = cfg.fullyConnectedGpuUnit := by
  rw [gpuGroup, List.length_map, List.length_range]

theorem mem_sortedGpuGroupIds {k : Keeping} {i : Nat} :
    i ∈ sortedGpuGroupIds cfg k ↔
      i < cfg.totGpuNum / cfg.fullyConnectedGpuUnit ∧ k.costToCleanModels i < sentinel := by
  rw [sortedGpuGroupIds, List.mem_filter, (cfg.argsort.perm _).mem_iff, List.mem_range,
    List.length_map, List.length_range, decide_eq_true_eq]

theorem sortedGpuGroupIds_nodup (k : Keeping) : (sortedGpuGroupIds cfg k).Nodup :=
  ((cfg.argsort.perm _).nodup_iff.mpr List.nodup_range).filter _

theorem mem_candGpus {k : Keeping} {g : Nat} (hunit : 0 < cfg.fullyConnectedGpuUnit)
    (hdvd : cfg.totGpuNum % cfg.fullyConnectedGpuUnit = 0) :
    g ∈ candGpus cfg k ↔ g < cfg.totGpuNum ∧
      k.costToCleanModels (g / cfg.fullyConnectedGpuUnit) < sentinel := by
  have hlt : g / cfg.fullyConnectedGpuUnit < cfg.totGpuNum / cfg.fullyConnectedGpuUnit ↔
      g < cfg.totGpuNum := by
    rw [Nat.div_lt_iff_lt_mul hunit, Nat.div_mul_cancel (Nat.dvd_of_mod_eq_zero hdvd)]
  simp only [candGpus, List.mem_flatMap, (List.perm_insertionSort _ _).mem_iff,
    mem_gpuGroup hunit, mem_sortedGpuGroupIds]
  constructor
  · rintro ⟨i, ⟨hi, hcost⟩, rfl⟩
    exact ⟨hlt.mp hi, hcost⟩
  · rintro ⟨hg, hcost⟩
    exact ⟨_, ⟨hlt.mpr hg, hcost⟩, rfl⟩

theorem candGpus_nodup (k : Keeping) (hunit : 0 < cfg.fullyConnectedGpuUnit) :
    (candGpus cfg k).Nodup := by
  refine List.nodup_flatMap.mpr ⟨fun i _ => ?_, ?_⟩
  · exact (List.perm_insertionSort _ _).nodup_iff.mpr (gpuGroup_nodup i)
  · refine (sortedGpuGroupIds_nodup k).imp fun {i j} hne g hi hj => hne ?_
    rw [(List.perm_insertionSort _ _).mem_iff, mem_gpuGroup hunit] at hi hj
    exact hi.symm.trans hj

/-! ## The second loop -/

/-- What the second loop leaves alone. -/
structure Reassigned (newLaunch plans : List PlanState) (r r' : Reassign) : Prop where
  frame : ∀ q, q ∉ plans → r'.cells q = r.cells q
  flags : ∀ q, (r'.cells q).launched = (r.cells q).launched
  extra : ∀ q ∈ r'.extraNewLaunch, q ∈ r.extraNewLaunch ∨ q ∈ plans ∧ q ∉ newLaunch
  length_le : ∀ q ∈ plans, (gpus r.cells q).length ≤ q.gpuNum → (gpus r'.cells q).length ≤ q.gpuNum

section

variable {r : Reassign} {ps q : PlanState} {isNew : Bool}

theorem assign_cells_self : (r.assign ps isNew).cells ps =
    { r.cells ps with compGpus := r.candGpus.take ps.gpuNum } :=
  Cells.setCompGpus_self

theorem assign_cells_of_ne (h : q ≠ ps) : (r.assign ps isNew).cells q = r.cells q :=
  Cells.setCompGpus_of_ne h

end

theorem reassigned_assign (newLaunch : List PlanState) (r : Reassign) (ps : PlanState) :
    Reassigned newLaunch [ps] r (r.assign ps (ps ∈ newLaunch)) := by
  refine ⟨fun q hq => ?_, fun q => ?_, fun q hq => ?_, fun q hq _ => ?_⟩
  · exact assign_cells_of_ne (by simpa using hq)
  · by_cases h : q = ps
    · rw [h, assign_cells_self]
    · rw [assign_cells_of_ne h]
  · by_cases hnew : ps ∈ newLaunch
    · simp only [Reassign.assign, hnew, decide_true, if_true] at hq
      exact .inl hq
    · simp only [Reassign.assign, hnew, decide_false, Bool.false_eq_true, if_false,
        List.mem_append, List.mem_singleton] at hq
      refine hq.imp_right fun heq => ?_
      rw [heq]
      exact ⟨.head _, hnew⟩
  · obtain rfl := List.mem_singleton.mp hq
    rw [gpus, assign_cells_self]
    exact List.length_take_le _ _

theorem Reassigned.cons {ps : PlanState} {plans : List PlanState} {r r₁ r' : Reassign}
    (h₁ : Reassigned newLaunch [ps] r r₁) (h : Reassigned newLaunch plans r₁ r')
    (hps : ps ∉ plans) : Reassigned newLaunch (ps :: plans) r r' := by
  refine ⟨fun q hq => ?_, fun q => (h.flags q).trans (h₁.flags q), fun q hq => ?_,
    fun q hq hle => ?_⟩
  · rw [List.mem_cons, not_or] at hq
    rw [h.frame q hq.2, h₁.frame q (by simpa using hq.1)]
  · rcases h.extra q hq with hin | ⟨hin, hout⟩
    · exact (h₁.extra q hin).imp_right fun hq => ⟨List.mem_cons.mpr (.inl (by simpa using hq.1)), hq.2⟩
    · exact .inr ⟨.tail _ hin, hout⟩
  · rcases List.mem_cons.mp hq with rfl | hin
    · rw [gpus, h.frame q hps]
      exact h₁.length_le q (.head _) hle
    · refine h.length_le q hin ?_
      rwa [gpus, h₁.frame q (by simpa using ne_of_mem_of_not_mem hin hps)]

/-- One turn of the second loop: the plan gets the next candidate GPUs, or it keeps its own. -/
theorem reassignCompGpus_cons {ps : PlanState} {plans : List PlanState} {r r' : Reassign}
    (h : reassignCompGpus cfg newLaunch (ps :: plans) r = .ok r') :
    reassignCompGpus cfg newLaunch plans (r.assign ps (ps ∈ newLaunch)) = .ok r' ∨
      smallKept cfg newLaunch ps ∧
      (∀ g ∈ (gpus r.cells ps).take ps.gpuNum, g ∈ r.candGpus) ∧
      reassignCompGpus cfg newLaunch plans { r with
        candGpus := r.candGpus.filter (· ∉ (gpus r.cells ps).take ps.gpuNum) } = .ok r' := by
  rw [reassignCompGpus] at h
  by_cases hfirst : cfg.fullyConnectedGpuUnit ≤ ps.numWorker ∨ ps ∈ newLaunch
  · rw [if_pos hfirst] at h
    exact .inl h
  · rw [if_neg hfirst] at h
    rw [not_or] at hfirst
    have hnew : decide (ps ∈ newLaunch) = false := decide_eq_false hfirst.2
    have hsmall : smallKept cfg newLaunch ps := by
      simp [smallKept, hfirst.2, Nat.lt_of_not_le hfirst.1]
    rw [hnew]
    dsimp only at h
    split at h
    · rename_i hsub
      split at h
      · cases h
      · exact .inr ⟨hsmall, hsub, h⟩
      · exact .inl h
    · exact .inl h

theorem reassignCompGpus_ok {plans : List PlanState} (hnodup : plans.Nodup) {r r' : Reassign}
    (h : reassignCompGpus cfg newLaunch plans r = .ok r') : Reassigned newLaunch plans r r' := by
  induction plans generalizing r with
  | nil =>
    obtain rfl := Except.ok.inj h
    exact ⟨fun _ _ => rfl, fun _ => rfl, fun _ hq => .inl hq, by simp⟩
  | cons ps plans ih =>
    obtain ⟨hps, hnodup'⟩ := List.nodup_cons.mp hnodup
    rcases reassignCompGpus_cons h with h | ⟨-, -, h⟩
    · exact (reassigned_assign newLaunch r ps).cons (ih hnodup' h) hps
    · refine Reassigned.cons ?_ (ih hnodup' h) hps
      exact ⟨fun _ _ => rfl, fun _ => rfl, fun _ hq => .inl hq, fun _ _ hle => hle⟩

/-- While there are candidate GPUs enough for the plans to come, everybody gets its number of GPUs
and no GPU is given away twice. -/
theorem reassignCompGpus_exclusive {pool : List Nat} (hpool : pool.Nodup)
    {users plans : List PlanState} (hnodup : (users ++ plans).Nodup) {r r' : Reassign}
    (h : reassignCompGpus cfg newLaunch plans r = .ok r')
    (hheld : ∀ ps ∈ plans, ps ∉ newLaunch →
      (gpus r.cells ps).Nodup ∧ (gpus r.cells ps).length = ps.gpuNum)
    (hroom : (plans.map PlanState.gpuNum).sum ≤ r.candGpus.length)
    (hexcl : Exclusive pool (gpus r.cells) users r.candGpus) :
    Exclusive pool (gpus r'.cells) (users ++ plans) r'.candGpus ∧
      ∀ ps ∈ plans, (gpus r'.cells ps).length = ps.gpuNum := by
  induction plans generalizing r users with
  | nil =>
    obtain rfl := Except.ok.inj h
    exact ⟨by rwa [List.append_nil], by simp⟩
  | cons ps plans ih =>
    have hperm : (users ++ ps :: plans) = (users ++ [ps]) ++ plans := by simp
    have hps : ps ∉ plans := (List.nodup_cons.mp (List.nodup_append.mp hnodup).2.1).1
    have hpsu : ps ∉ users := fun hmem =>
      (List.nodup_append'.mp hnodup).2.2 hmem (.head _)
    rw [hperm] at hnodup ⊢
    rw [List.map_cons, List.sum_cons] at hroom
    have hfits : ps.gpuNum ≤ r.candGpus.length := by omega
    rcases reassignCompGpus_cons h with h | ⟨hsmall, hsub, h⟩
    · have hcell : ∀ q, q ≠ ps → (r.assign ps (ps ∈ newLaunch)).cells q = r.cells q :=
        fun q hq => assign_cells_of_ne hq
      have hgpus : gpus (r.assign ps (ps ∈ newLaunch)).cells =
          Function.update (gpus r.cells) ps (r.candGpus.take ps.gpuNum) := gpus_setCompGpus
      obtain ⟨hexcl', hsizes⟩ := ih hnodup h
        (fun q hq hout => by
          rw [gpus, hcell q (ne_of_mem_of_not_mem hq hps)]
          exact hheld q (.tail _ hq) hout)
        (by rw [Reassign.assign, List.length_drop]; omega)
        (by
          rw [hgpus]
          rw [← List.take_append_drop ps.gpuNum r.candGpus] at hexcl
          exact hexcl.grant hpsu)
      refine ⟨hexcl', fun q hq => ?_⟩
      rcases List.mem_cons.mp hq with rfl | hq
      · have hframe := (reassignCompGpus_ok ((List.nodup_append.mp hnodup).2.1) h).frame q hps
        rw [gpus, hframe, assign_cells_self]
        exact List.length_take_of_le hfits
      · exact hsizes q hq
    · have hout : ps ∉ newLaunch := by simpa using (Bool.and_eq_true_iff.mp hsmall).1
      obtain ⟨hself, hlength⟩ := hheld ps (.head _) hout
      have htake : (gpus r.cells ps).take ps.gpuNum = gpus r.cells ps :=
        List.take_of_length_le (Nat.le_of_eq hlength)
      rw [htake] at h hsub
      have hcount := (perm_append_filter_notMem hself (hexcl.free_nodup hpool) hsub).length_eq
      rw [List.length_append] at hcount
      obtain ⟨hexcl', hsizes⟩ := ih hnodup h (fun q hq => hheld q (.tail _ hq))
        (by simp only; omega) (hexcl.admit_held hpool hself hsub)
      refine ⟨hexcl', fun q hq => ?_⟩
      rcases List.mem_cons.mp hq with rfl | hq
      · have hframe := (reassignCompGpus_ok ((List.nodup_append.mp hnodup).2.1) h).frame q hps
        rw [gpus, hframe]
        exact hlength
      · exact hsizes q hq

/-! ## The whole adjustment -/

section

variable {launched old extra : List PlanState} {cells cells' : Cells}

/-- The plans in the order of the first loop. -/
abbrev keepOrder (launched : List PlanState) : List PlanState :=
  sortedBy (fun ps => [ps.numWorker]) launched

/-- The two loops behind a successful adjustment. -/
structure Adjusted (cfg : Config) (launched newLaunch old extra : List PlanState)
    (cells cells' : Cells) (k : Keeping) (r : Reassign) : Prop where
  unit_pos : 0 < cfg.fullyConnectedGpuUnit
  unit_dvd : cfg.totGpuNum % cfg.fullyConnectedGpuUnit = 0
  kept : Kept cfg newLaunch (gpusOf cells old) (keepOrder launched) ⟨fun _ => 0, [], [], cells⟩ k
  reassign : reassignCompGpus cfg newLaunch
    (sortedReverse (reassignKey cfg newLaunch) k.toReassign) ⟨candGpus cfg k, [], k.cells⟩ = .ok r
  extra_eq : extra = r.extraNewLaunch
  cells_eq : cells' = r.cells

theorem adjustCompGpus_ok (hnodup : launched.Nodup)
    (h : adjustCompGpus cfg launched newLaunch old cells = .ok (extra, cells')) :
    ∃ k r, Adjusted cfg launched newLaunch old extra cells cells' k r := by
  rw [adjustCompGpus] at h
  split at h
  · cases h
  · rename_i hunit
    rw [not_or, not_not] at hunit
    cases hk : keepCompGpus cfg newLaunch (gpusOf cells old) (keepOrder launched)
        ⟨fun _ => 0, [], [], cells⟩ with
    | error e =>
      rw [hk] at h
      cases h
    | ok k =>
      rw [hk] at h
      change (if sortedGpuGroupIds cfg k = [] then _ else _) = _ at h
      split at h
      · cases h
      · cases hr : reassignCompGpus cfg newLaunch
            (sortedReverse (reassignKey cfg newLaunch) k.toReassign)
            ⟨candGpus cfg k, [], k.cells⟩ with
        | error e =>
          rw [hr] at h
          cases h
        | ok r =>
          rw [hr] at h
          obtain ⟨rfl, rfl⟩ := Prod.mk.inj (Except.ok.inj h)
          exact ⟨k, r, Nat.pos_of_ne_zero hunit.1, hunit.2,
            keepCompGpus_ok ((sortedBy_perm _ _).nodup_iff.mpr hnodup) hk, hr, rfl, rfl⟩

variable {k : Keeping} {r : Reassign}

theorem Adjusted.toReassign (h : Adjusted cfg launched newLaunch old extra cells cells' k r) :
    (sortedReverse (reassignKey cfg newLaunch) k.toReassign).Perm
      ((keepOrder launched).filter fun ps => !largeKept cfg newLaunch ps) := by
  refine (sortedReverse_perm _ _).trans ?_
  rw [h.kept.toReassign]
  exact .refl _

theorem Adjusted.split (h : Adjusted cfg launched newLaunch old extra cells cells' k r) :
    ((keepOrder launched).filter (largeKept cfg newLaunch) ++
      sortedReverse (reassignKey cfg newLaunch) k.toReassign).Perm launched :=
  (h.toReassign.append_left _).trans
    ((List.filter_append_perm _ _).trans (sortedBy_perm _ _))

theorem Adjusted.reassigned (h : Adjusted cfg launched newLaunch old extra cells cells' k r)
    (hnodup : launched.Nodup) : Reassigned newLaunch
      (sortedReverse (reassignKey cfg newLaunch) k.toReassign) ⟨candGpus cfg k, [], k.cells⟩ r :=
  reassignCompGpus_ok (List.nodup_append.mp (h.split.nodup_iff.mpr hnodup)).2.1 h.reassign

theorem Adjusted.extra_sub (h : Adjusted cfg launched newLaunch old extra cells cells' k r)
    (hnodup : launched.Nodup) {q : PlanState} (hq : q ∈ extra) : q ∈ launched ∧ q ∉ newLaunch := by
  rw [h.extra_eq] at hq
  rcases (h.reassigned hnodup).extra q hq with hin | ⟨hin, hout⟩
  · exact absurd hin List.not_mem_nil
  · exact ⟨h.split.subset (List.mem_append_right _ hin), hout⟩

theorem Adjusted.flags (h : Adjusted cfg launched newLaunch old extra cells cells' k r)
    (hnodup : launched.Nodup) (q : PlanState) : (cells' q).launched = (cells q).launched := by
  rw [h.cells_eq, (h.reassigned hnodup).flags q]
  by_cases hq : q ∉ keepOrder launched ∨ q ∈ newLaunch
  · exact congrArg Cell.launched (h.kept.frame q hq)
  · rw [not_or, not_not] at hq
    obtain ⟨comp, -, hcell⟩ := h.kept.kept_cell q hq.1 hq.2
    show (k.cells q).launched = _
    rw [hcell]

/-- A plan that goes on gets the GPUs back that some running plan with its key had. -/
theorem Adjusted.origin (h : Adjusted cfg launched newLaunch old extra cells cells' k r)
    {q : PlanState} (hq : q ∈ launched) (hout : q ∉ newLaunch) :
    ∃ p ∈ old, p.modelKey = q.modelKey ∧ gpus k.cells q = gpus cells p := by
  obtain ⟨comp, hcomp, hcell⟩ := h.kept.kept_cell q ((sortedBy_perm _ _).mem_iff.mpr hq) hout
  obtain ⟨p, hp, hkey, rfl⟩ := exists_of_gpusOf hcomp
  exact ⟨p, hp, hkey, by rw [gpus, hcell]⟩

theorem Adjusted.length_le (h : Adjusted cfg launched newLaunch old extra cells cells' k r)
    (hnodup : launched.Nodup) (hold : ∀ p ∈ old, (gpus cells p).length ≤ p.gpuNum)
    (hlaunched : ∀ q ∈ launched, (gpus cells q).length ≤ q.gpuNum) {q : PlanState}
    (hq : q ∈ launched) : (gpus cells' q).length ≤ q.gpuNum := by
  have hkept : (gpus k.cells q).length ≤ q.gpuNum := by
    by_cases hout : q ∈ newLaunch
    · have hframe : k.cells q = cells q := h.kept.frame q (.inr hout)
      rw [gpus, hframe]
      exact hlaunched q hq
    · obtain ⟨p, hp, hkey, heq⟩ := h.origin hq hout
      rw [heq, ← gpuNum_eq_of_modelKey hkey]
      exact hold p hp
  rw [h.cells_eq]
  by_cases hin : q ∈ sortedReverse (reassignKey cfg newLaunch) k.toReassign
  · exact (h.reassigned hnodup).length_le q hin hkept
  · rw [gpus, (h.reassigned hnodup).frame q hin]
    exact hkept

/-- A large plan holds every GPU of a group it holds a GPU of. -/
theorem mem_of_full {comp : List Nat} {g : Nat} (hunit : 0 < cfg.fullyConnectedGpuUnit)
    (hnodup : comp.Nodup) (hfull : comp.countP (· / cfg.fullyConnectedGpuUnit =
      g / cfg.fullyConnectedGpuUnit) = cfg.fullyConnectedGpuUnit) : g ∈ comp := by
  have hgroup : (comp.filter (· / cfg.fullyConnectedGpuUnit = g / cfg.fullyConnectedGpuUnit)).Subperm
      (gpuGroup cfg (g / cfg.fullyConnectedGpuUnit)) := by
    refine List.subperm_of_subset (hnodup.filter _) fun a ha => ?_
    exact (mem_gpuGroup hunit).mpr (of_decide_eq_true (List.mem_filter.mp ha).2)
  have hperm := hgroup.perm_of_length_le (by
    rw [← List.countP_eq_length_filter, hfull, length_gpuGroup])
  exact List.mem_of_mem_filter (hperm.symm.subset ((mem_gpuGroup hunit).mpr rfl))

/-- What the old placement says of the plans that go on. -/
structure OldOk (cfg : Config) (old : List PlanState) (cells : Cells) : Prop where
  exclusive : Exclusive (List.range cfg.totGpuNum) (gpus cells) old []
  length : ∀ p ∈ old, (gpus cells p).length = p.gpuNum

theorem Adjusted.held (h : Adjusted cfg launched newLaunch old extra cells cells' k r)
    (hold : OldOk cfg old cells) {q : PlanState} (hq : q ∈ launched) (hout : q ∉ newLaunch) :
    (gpus k.cells q).Nodup ∧ (gpus k.cells q).length = q.gpuNum ∧
      gpus k.cells q ⊆ List.range cfg.totGpuNum := by
  obtain ⟨p, hp, hkey, heq⟩ := h.origin hq hout
  rw [heq, ← gpuNum_eq_of_modelKey hkey]
  exact ⟨hold.exclusive.held_nodup List.nodup_range hp, hold.length p hp,
    hold.exclusive.held_subset hp⟩

/-- Plans that go on hold different GPUs. -/
theorem Adjusted.exclusive_kept (h : Adjusted cfg launched newLaunch old extra cells cells' k r)
    (hmodels : (launched.map PlanState.modelId).Nodup) (hold : OldOk cfg old cells)
    {kept : List PlanState} (hnodup : kept.Nodup) (hkept : ∀ q ∈ kept, q ∈ launched ∧ q ∉ newLaunch) :
    Exclusive (List.range cfg.totGpuNum) (gpus k.cells) kept [] := by
  have horigin : ∀ q : PlanState, ∃ p, q ∈ kept →
      p ∈ old ∧ p.modelKey = q.modelKey ∧ gpus k.cells q = gpus cells p := fun q => by
    by_cases hq : q ∈ kept
    · obtain ⟨p, hp⟩ := h.origin (hkept q hq).1 (hkept q hq).2
      exact ⟨p, fun _ => hp⟩
    · exact ⟨q, fun hmem => absurd hmem hq⟩
  choose origin horigin using horigin
  have hdistinct : (kept.map origin).Nodup := by
    refine (List.nodup_map_iff_inj_on hnodup).mpr fun a ha b hb heq => ?_
    refine List.inj_on_of_nodup_map hmodels (hkept a ha).1 (hkept b hb).1 ?_
    rw [← modelId_eq_of_modelKey (horigin a ha).2.1, ← modelId_eq_of_modelKey (horigin b hb).2.1,
      heq]
  have hsub : kept.map origin ⊆ old := fun p hp => by
    obtain ⟨q, hq, rfl⟩ := List.mem_map.mp hp
    exact (horigin q hq).1
  have hflat : kept.flatMap (gpus k.cells) = (kept.map origin).flatMap (gpus cells) := by
    rw [List.flatMap_map]
    exact List.flatMap_congr fun q hq => (horigin q hq).2.2
  rw [Exclusive, hflat]
  exact hold.exclusive.mono (List.subperm_of_subset hdistinct hsub) (List.Subperm.refl _)

/-- A closed GPU group is held by one of the large plans. -/
theorem Adjusted.exists_large (h : Adjusted cfg launched newLaunch old extra cells cells' k r)
    (hcost : (launched.map fun q => q.execPlan.loadCostJustForRefer).sum < sentinel) {i : Nat}
    (hclosed : sentinel ≤ k.costToCleanModels i) :
    ∃ q ∈ launched, largeKept cfg newLaunch q ∧
      ∃ g ∈ (gpus k.cells q).take q.gpuNum, g / cfg.fullyConnectedGpuUnit = i := by
  by_contra hnone
  have hopened := h.kept.opened i fun q hq hl g hg heq =>
    hnone ⟨q, (sortedBy_perm _ _).subset hq, hl, g, hg, heq⟩
  have hsum : (((keepOrder launched).filter (smallKept cfg newLaunch)).map
      fun q => q.execPlan.loadCostJustForRefer).sum ≤
      (launched.map fun q => q.execPlan.loadCostJustForRefer).sum := by
    rw [← ((sortedBy_perm (fun ps => [ps.numWorker]) launched).map
      fun q => q.execPlan.loadCostJustForRefer).sum_nat]
    exact (List.filter_sublist.map _).sum_le_sum fun _ _ => Nat.zero_le _
  simp only at hopened
  omega

/-- The plans that go on and are not asked again, and the candidate GPUs, are apart. -/
theorem Adjusted.exclusive_large (h : Adjusted cfg launched newLaunch old extra cells cells' k r)
    (hmodels : (launched.map PlanState.modelId).Nodup) (hold : OldOk cfg old cells) :
    Exclusive (List.range cfg.totGpuNum) (gpus k.cells)
      ((keepOrder launched).filter (largeKept cfg newLaunch)) (candGpus cfg k) := by
  set large := (keepOrder launched).filter (largeKept cfg newLaunch) with hlarge
  have hkept : ∀ q ∈ large, q ∈ launched ∧ q ∉ newLaunch := fun q hq => by
    refine ⟨h.split.subset (List.mem_append_left _ hq), ?_⟩
    simpa using (Bool.and_eq_true_iff.mp (List.mem_filter.mp hq).2).1
  have hheld := h.exclusive_kept hmodels hold
    (List.nodup_append.mp (h.split.nodup_iff.mpr (hmodels.of_map _))).1 hkept
  have hdisjoint : (large.flatMap (gpus k.cells)).Disjoint (candGpus cfg k) := fun g hg hcand => by
    obtain ⟨q, hq, hgq⟩ := List.mem_flatMap.mp hg
    have htake : (gpus k.cells q).take q.gpuNum = gpus k.cells q :=
      List.take_of_length_le (Nat.le_of_eq (h.held hold (hkept q hq).1 (hkept q hq).2).2.1)
    have hclosed := h.kept.closed (g / cfg.fullyConnectedGpuUnit) (.inr ⟨q,
      List.mem_of_mem_filter hq, (List.mem_filter.mp hq).2, g, htake.symm ▸ hgq, rfl⟩)
    exact Nat.not_lt_of_le hclosed ((mem_candGpus h.unit_pos h.unit_dvd).mp hcand).2
  refine List.subperm_of_subset (List.nodup_append'.mpr ⟨?_, candGpus_nodup k h.unit_pos,
    hdisjoint⟩) fun g hg => ?_
  · simpa using hheld.nodup List.nodup_range
  · rcases List.mem_append.mp hg with hg | hg
    · exact hheld.subset (List.mem_append_left _ hg)
    · exact List.mem_range.mpr ((mem_candGpus h.unit_pos h.unit_dvd).mp hg).1

/-- When the candidate GPUs are enough, the plans hold as many GPUs as they need after the
adjustment, and no GPU twice. -/
theorem Adjusted.exclusive_of_room
    (h : Adjusted cfg launched newLaunch old extra cells cells' k r)
    (hmodels : (launched.map PlanState.modelId).Nodup) (hold : OldOk cfg old cells)
    (hroom : ((sortedReverse (reassignKey cfg newLaunch) k.toReassign).map PlanState.gpuNum).sum ≤
      (candGpus cfg k).length) : OldOk cfg launched cells' := by
  have hsplit := h.split.nodup_iff.mpr (hmodels.of_map _)
  have hmem : ∀ q ∈ sortedReverse (reassignKey cfg newLaunch) k.toReassign, q ∈ launched :=
    fun q hq => h.split.subset (List.mem_append_right _ hq)
  obtain ⟨hresult, hsizes⟩ := reassignCompGpus_exclusive List.nodup_range hsplit h.reassign
    (fun q hq hout => ⟨(h.held hold (hmem q hq) hout).1, (h.held hold (hmem q hq) hout).2.1⟩)
    hroom (h.exclusive_large hmodels hold)
  rw [h.cells_eq]
  refine ⟨hresult.mono h.split.symm.subperm List.nil_subperm, fun q hq => ?_⟩
  rcases List.mem_append.mp (h.split.symm.subset hq) with hin | hin
  · have hout : q ∉ sortedReverse (reassignKey cfg newLaunch) k.toReassign := fun hmem =>
      (List.nodup_append'.mp hsplit).2.2 hin hmem
    have hnew : q ∉ newLaunch := by
      simpa using (Bool.and_eq_true_iff.mp (List.mem_filter.mp hin).2).1
    rw [gpus, (h.reassigned (hmodels.of_map _)).frame q hout]
    exact (h.held hold hq hnew).2.1
  · exact hsizes q hin

/-- After the adjustment the plans hold as many GPUs as they need, and no GPU twice. -/
theorem Adjusted.exclusive (h : Adjusted cfg launched newLaunch old extra cells cells' k r)
    (hmodels : (launched.map PlanState.modelId).Nodup) (hold : OldOk cfg old cells)
    (hsum : (launched.map PlanState.gpuNum).sum ≤ cfg.totGpuNum)
    (hcost : (launched.map fun q => q.execPlan.loadCostJustForRefer).sum < sentinel) :
    OldOk cfg launched cells' := by
  refine h.exclusive_of_room hmodels hold ?_
  set large := (keepOrder launched).filter (largeKept cfg newLaunch) with hlarge
  have hheld : ∀ q ∈ launched, largeKept cfg newLaunch q → (gpus k.cells q).Nodup ∧
      (gpus k.cells q).length = q.gpuNum := fun q hq hl => by
    have hnew : q ∉ newLaunch := by simpa using (Bool.and_eq_true_iff.mp hl).1
    exact ⟨(h.held hold hq hnew).1, (h.held hold hq hnew).2.1⟩
  -- The groups of the large plans are closed, and no others are.
  have hcover : List.range cfg.totGpuNum ⊆ large.flatMap (gpus k.cells) ++ candGpus cfg k :=
    fun g hg => by
      by_cases hcheap : k.costToCleanModels (g / cfg.fullyConnectedGpuUnit) < sentinel
      · exact List.mem_append_right _
          ((mem_candGpus h.unit_pos h.unit_dvd).mpr ⟨List.mem_range.mp hg, hcheap⟩)
      · obtain ⟨q, hq, hl, g', hg', hunit⟩ := h.exists_large hcost (Nat.le_of_not_lt hcheap)
        have hmem : q ∈ large := List.mem_filter.mpr ⟨(sortedBy_perm _ _).mem_iff.mpr hq, hl⟩
        have hfull := h.kept.full q ((sortedBy_perm _ _).mem_iff.mpr hq) hl g' hg'
        rw [List.take_of_length_le (Nat.le_of_eq (hheld q hq hl).2), hunit] at hfull
        exact List.mem_append_left _ (List.mem_flatMap_of_mem hmem
          (mem_of_full h.unit_pos (hheld q hq hl).1 hfull))
  have hcount := (List.subperm_of_subset List.nodup_range hcover).length_le
  rw [List.length_range, List.length_append, List.length_flatMap] at hcount
  have hsizes : (large.map fun q => (gpus k.cells q).length) = large.map PlanState.gpuNum :=
    List.map_congr_left fun q hq =>
      (hheld q (h.split.subset (List.mem_append_left _ hq)) (List.mem_filter.mp hq).2).2
  have htotal := (h.split.map PlanState.gpuNum).sum_nat
  rw [List.map_append, List.sum_append, ← hlarge] at htotal
  rw [hsizes] at hcount
  omega

/-- Small plans whose GPUs are all on offer, worker by worker inside a group, keep them. -/
theorem reassignCompGpus_keep {plans : List PlanState} {r : Reassign}
    (hsmall : ∀ ps ∈ plans, smallKept cfg newLaunch ps)
    (hlength : ∀ ps ∈ plans, (gpus r.cells ps).length = ps.gpuNum)
    (hdisjoint : plans.Pairwise fun p q => (gpus r.cells p).Disjoint (gpus r.cells q))
    (hoffer : ∀ ps ∈ plans, gpus r.cells ps ⊆ r.candGpus)
    (hworkers : ∀ ps ∈ plans, workersInUnits cfg ps (gpus r.cells ps) = some true) :
    ∃ left, reassignCompGpus cfg newLaunch plans r = .ok { r with candGpus := left } := by
  induction plans generalizing r with
  | nil => exact ⟨r.candGpus, rfl⟩
  | cons ps plans ih =>
    obtain ⟨hps, hdisjoint'⟩ := List.pairwise_cons.mp hdisjoint
    have htake : (r.cells ps).compGpus.take ps.gpuNum = gpus r.cells ps :=
      List.take_of_length_le (Nat.le_of_eq (hlength ps (.head _)))
    have hfirst : ¬ (cfg.fullyConnectedGpuUnit ≤ ps.numWorker ∨ ps ∈ newLaunch) := by
      have := hsmall ps (.head _)
      rw [smallKept, Bool.and_eq_true, decide_eq_true_eq, decide_eq_true_eq] at this
      exact not_or.mpr ⟨Nat.not_le_of_lt this.2, this.1⟩
    rw [reassignCompGpus, if_neg hfirst]
    simp only [htake, hworkers ps (.head _)]
    have hsub : ∀ g ∈ gpus r.cells ps, g ∈ r.candGpus := fun g hg => hoffer ps (.head _) hg
    rw [if_pos hsub]
    refine ih (r := { r with candGpus := r.candGpus.filter (· ∉ gpus r.cells ps) })
      (fun q hq => hsmall q (.tail _ hq)) (fun q hq => hlength q (.tail _ hq)) hdisjoint'
      (fun q hq g hg => ?_) (fun q hq => hworkers q (.tail _ hq))
    exact List.mem_filter.mpr ⟨hoffer q (.tail _ hq) hg, decide_eq_true fun h => hps q hq h hg⟩

/-- When nothing is new and small plans sit well, the adjustment changes nothing: this is what the
second loop is given. -/
theorem offer_of_kept (hunit : 0 < cfg.fullyConnectedGpuUnit)
    (hdvd : cfg.totGpuNum % cfg.fullyConnectedGpuUnit = 0)
    (hfull : ∀ q ∈ launched, largeKept cfg newLaunch q → ∀ g ∈ gpus k.cells q,
      (gpus k.cells q).countP (· / cfg.fullyConnectedGpuUnit = g / cfg.fullyConnectedGpuUnit) =
        cfg.fullyConnectedGpuUnit)
    (hclosed : ∀ i, sentinel ≤ k.costToCleanModels i → ∃ q ∈ launched, largeKept cfg newLaunch q ∧
      ∃ g ∈ gpus k.cells q, g / cfg.fullyConnectedGpuUnit = i)
    (hexcl : Exclusive (List.range cfg.totGpuNum) (gpus k.cells) launched [])
    {ps : PlanState} (hps : ps ∈ launched) (hsmall : largeKept cfg newLaunch ps = false) :
    gpus k.cells ps ⊆ candGpus cfg k := by
  intro g hg
  refine (mem_candGpus hunit hdvd).mpr ⟨List.mem_range.mp (hexcl.held_subset hps hg), ?_⟩
  by_contra hcost
  obtain ⟨q, hq, hlarge, g', hg', hgroup⟩ := hclosed _ (Nat.le_of_not_lt hcost)
  have hcount := hfull q hq hlarge g' hg'
  rw [hgroup] at hcount
  have hmem := mem_of_full hunit (hexcl.held_nodup List.nodup_range hq) hcount
  have hne : q ≠ ps := fun heq => by
    rw [heq, hsmall] at hlarge
    cases hlarge
  exact hexcl.disjoint_of_ne List.nodup_range hq hps hne hmem hg

end

end Mil.Schedule
