import Mil.Lib.Segments
import Mil.Schedule.Adjust

/-!
# GPU groups and data-parallel workers

`_adjust_comp_gpus_for_current_launched_exec_plans` hands the candidate GPUs out from one flat
list, and small plans may keep GPUs out of the middle of it. Still no worker is split: plans come in
decreasing order of `num_worker`, all of them powers of two, and the list stays segmented for the
width of the plan whose turn it is. A plan takes its GPUs from the front, or it takes whole workers
out of single groups.

The cleaning costs decide which groups are in the list at all. A group is closed when a large plan
that goes on holds it, and also when the load costs of the small ones in it reach `1e9`.
-/

set_option autoImplicit false

namespace Mil.Schedule

open Mil.Lib

variable {cfg : Config} {newLaunch : List PlanState} {oldGpus : ModelKey → Option (List Nat)}

/-! ## Aligned workers -/

/-- The group of fully connected GPUs a GPU belongs to. -/
abbrev groupOf (cfg : Config) (g : Nat) : Nat := g / cfg.fullyConnectedGpuUnit

/-- The GPUs of a worker lie in one group, or they form whole groups. -/
def WorkerAligned (cfg : Config) (numWorker : Nat) (worker : List Nat) : Prop :=
  if numWorker < cfg.fullyConnectedGpuUnit then InUnit (groupOf cfg) worker
  else ∀ g ∈ worker, gpuGroup cfg (groupOf cfg g) ⊆ worker

instance (cfg : Config) (numWorker : Nat) (worker : List Nat) :
    Decidable (WorkerAligned cfg numWorker worker) := by
  unfold WorkerAligned
  infer_instance

def Aligned (cfg : Config) (ps : PlanState) (comp : List Nat) : Prop :=
  ∀ worker ∈ gpuForDps ps comp, WorkerAligned cfg ps.numWorker worker

instance (cfg : Config) (ps : PlanState) (comp : List Nat) : Decidable (Aligned cfg ps comp) :=
  inferInstanceAs (Decidable (∀ worker ∈ gpuForDps ps comp, _))

theorem gpuForDps_eq (ps : PlanState) (comp : List Nat) :
    gpuForDps ps comp = chunks ps.numWorker ps.dpSize comp := rfl

theorem gpuNum_eq (ps : PlanState) : ps.gpuNum = ps.dpSize * ps.numWorker := Nat.mul_comm ..

/-- As many GPUs of one group as a group has are the whole group. -/
theorem gpuGroup_subset {comp : List Nat} {g : Nat} (hunit : 0 < cfg.fullyConnectedGpuUnit)
    (hnodup : comp.Nodup) (hin : InUnit (groupOf cfg) comp)
    (hlength : comp.length = cfg.fullyConnectedGpuUnit) (hg : g ∈ comp) :
    gpuGroup cfg (groupOf cfg g) ⊆ comp := by
  have hsub : comp.Subperm (gpuGroup cfg (groupOf cfg g)) :=
    List.subperm_of_subset hnodup fun a ha => (mem_gpuGroup hunit).mpr (hin a ha g hg)
  exact (hsub.perm_of_length_le (by rw [length_gpuGroup, hlength])).symm.subset

theorem countP_of_gpuGroup_subset {comp : List Nat} {i : Nat}
    (hunit : 0 < cfg.fullyConnectedGpuUnit) (hnodup : comp.Nodup) (hsub : gpuGroup cfg i ⊆ comp) :
    comp.countP (· / cfg.fullyConnectedGpuUnit = i) = cfg.fullyConnectedGpuUnit := by
  have hperm : (comp.filter (· / cfg.fullyConnectedGpuUnit = i)).Perm (gpuGroup cfg i) := by
    refine (List.perm_ext_iff_of_nodup (hnodup.filter _) (gpuGroup_nodup i)).mpr fun a => ?_
    rw [List.mem_filter, decide_eq_true_eq, mem_gpuGroup hunit]
    exact ⟨fun h => h.2, fun h => ⟨hsub ((mem_gpuGroup hunit).mpr h), h⟩⟩
  rw [List.countP_eq_length_filter, hperm.length_eq, length_gpuGroup]

/-- A large plan with aligned workers fills the groups it holds GPUs of. -/
theorem Aligned.full {ps : PlanState} {comp : List Nat} (h : Aligned cfg ps comp)
    (hunit : 0 < cfg.fullyConnectedGpuUnit) (hlarge : cfg.fullyConnectedGpuUnit ≤ ps.numWorker)
    (hnodup : comp.Nodup) (hlength : comp.length = ps.gpuNum) {g : Nat} (hg : g ∈ comp) :
    comp.countP (· / cfg.fullyConnectedGpuUnit = groupOf cfg g) = cfg.fullyConnectedGpuUnit := by
  have hflat : (gpuForDps ps comp).flatten = comp :=
    flatten_chunks (hlength.trans (gpuNum_eq ps))
  rw [← hflat] at hg
  obtain ⟨worker, hworker, hgw⟩ := List.mem_flatten.mp hg
  have hwhole := h worker hworker
  rw [WorkerAligned, if_neg (Nat.not_lt_of_le hlarge)] at hwhole
  exact countP_of_gpuGroup_subset hunit hnodup
    (List.Subset.trans (hwhole g hgw) (subset_of_mem_chunks hworker))

/-- The check the code makes before a small plan keeps its GPUs. -/
theorem Aligned.workersInUnits {ps : PlanState} {comp : List Nat} (h : Aligned cfg ps comp)
    (hsmall : ps.numWorker < cfg.fullyConnectedGpuUnit) (hlength : comp.length = ps.gpuNum) :
    workersInUnits cfg ps comp = some true := by
  have hworkers : ∀ worker ∈ gpuForDps ps comp, worker ≠ [] ∧ InUnit (groupOf cfg) worker := by
    intro worker hworker
    have hlen : worker.length = ps.numWorker :=
      length_of_mem_chunks (Nat.le_of_eq (hlength.trans (gpuNum_eq ps)).symm) hworker
    have hin := h worker hworker
    rw [WorkerAligned, if_pos hsmall] at hin
    exact ⟨List.ne_nil_of_length_pos (hlen ▸ ps.execPlan.numWorker_pos), hin⟩
  rw [Schedule.workersInUnits]
  generalize gpuForDps ps comp = workers at hworkers
  induction workers with
  | nil => rfl
  | cons worker workers ih =>
    obtain ⟨hne, hin⟩ := hworkers worker (.head _)
    obtain ⟨least, hleast⟩ := Option.isSome_iff_exists.mp (List.isSome_min?_of_ne_nil hne)
    obtain ⟨most, hmost⟩ := Option.isSome_iff_exists.mp (List.isSome_max?_of_ne_nil hne)
    have hsame := hin least (List.min?_mem hleast) most (List.max?_mem hmost)
    rw [List.foldr_cons, ih fun other hother => hworkers other (.tail _ hother), hleast, hmost]
    simp only [Option.bind_eq_bind, Option.bind_some, hsame, decide_true, Bool.and_true]

/-! ## The cleaning costs -/

/-- The groups a plan held GPUs of in the last round. -/
def oldUnits (cfg : Config) (oldGpus : ModelKey → Option (List Nat)) (ps : PlanState) : List Nat :=
  unitsOf cfg ((oldGpus ps.modelKey).getD [])

/-- The group is held by a large plan that goes on. -/
def closedByLarge (cfg : Config) (newLaunch : List PlanState)
    (oldGpus : ModelKey → Option (List Nat)) (plans : List PlanState) (i : Nat) : Bool :=
  plans.any fun ps => largeKept cfg newLaunch ps && decide (i ∈ oldUnits cfg oldGpus ps)

/-- What it costs to clean a group of the small plans that go on. -/
def cleaningCost (cfg : Config) (newLaunch : List PlanState)
    (oldGpus : ModelKey → Option (List Nat)) (plans : List PlanState) (i : Nat) : Nat :=
  ((plans.filter fun ps => smallKept cfg newLaunch ps && decide (i ∈ oldUnits cfg oldGpus ps)).map
    fun ps => ps.execPlan.loadCostJustForRefer).sum

/-- A plan that goes on has its GPUs, and its workers are aligned. -/
structure HeldBefore (cfg : Config) (ps : PlanState) (comp : List Nat) : Prop where
  nodup : comp.Nodup
  length : comp.length = ps.gpuNum
  aligned : Aligned cfg ps comp

/-- The first loop does not raise, and it leaves open the groups that are not held by large plans
and that are cheap to clean. -/
theorem keepCompGpus_total (hunit : 0 < cfg.fullyConnectedGpuUnit) (plans : List PlanState)
    (hheld : ∀ ps ∈ plans, ps ∉ newLaunch →
      ∃ comp, oldGpus ps.modelKey = some comp ∧ HeldBefore cfg ps comp) (k : Keeping) :
    ∃ k', keepCompGpus cfg newLaunch oldGpus plans k = .ok k' ∧ ∀ i,
      k'.costToCleanModels i < sentinel ↔ closedByLarge cfg newLaunch oldGpus plans i = false ∧
        k.costToCleanModels i + cleaningCost cfg newLaunch oldGpus plans i < sentinel := by
  induction plans generalizing k with
  | nil => exact ⟨k, rfl, fun i => by simp [closedByLarge, cleaningCost]⟩
  | cons ps plans ih =>
    have hrest := fun q hq => hheld q (.tail _ hq)
    rw [keepCompGpus]
    by_cases hnew : ps ∈ newLaunch
    · obtain ⟨k', hk', hcost⟩ := ih hrest { k with toReassign := k.toReassign ++ [ps] }
      refine ⟨k', by rw [if_pos hnew, hk'], fun i => ?_⟩
      rw [hcost i]
      simp [closedByLarge, cleaningCost, largeKept, smallKept, hnew]
    · obtain ⟨comp, hcomp, hbefore⟩ := hheld ps (.head _) hnew
      have htake : comp.take ps.gpuNum = comp :=
        List.take_of_length_le (Nat.le_of_eq hbefore.length)
      have hne : comp ≠ [] := List.ne_nil_of_length_pos (hbefore.length ▸ ps.gpuNum_pos)
      have hold : oldUnits cfg oldGpus ps = unitsOf cfg comp := by rw [oldUnits, hcomp, Option.getD]
      simp only [if_neg hnew, hcomp, htake, if_neg hne]
      by_cases hlarge : cfg.fullyConnectedGpuUnit ≤ ps.numWorker
      · have hfull : ∀ i ∈ unitsOf cfg comp,
            comp.countP (· / cfg.fullyConnectedGpuUnit = i) = cfg.fullyConnectedGpuUnit := by
          intro i hi
          obtain ⟨g, hg, rfl⟩ := mem_unitsOf.mp hi
          exact hbefore.aligned.full hunit hlarge hbefore.nodup hbefore.length hg
        rw [if_pos hlarge, if_pos hfull]
        obtain ⟨k', hk', hcost⟩ := ih hrest _
        refine ⟨k', hk', fun i => ?_⟩
        rw [hcost i]
        by_cases hi : i ∈ unitsOf cfg comp
        · simp [closedByLarge, largeKept, hnew, hlarge, hold, hi]
        · simp [closedByLarge, cleaningCost, largeKept, smallKept, hnew, hlarge, hold, hi]
      · rw [if_neg hlarge]
        obtain ⟨k', hk', hcost⟩ := ih hrest _
        refine ⟨k', hk', fun i => ?_⟩
        rw [hcost i]
        have hsmall := Nat.lt_of_not_le hlarge
        by_cases hi : i ∈ unitsOf cfg comp
        · simp [closedByLarge, cleaningCost, largeKept, smallKept, hnew, hlarge, hsmall, hold, hi,
            Nat.add_assoc]
        · simp [closedByLarge, cleaningCost, largeKept, smallKept, hnew, hlarge, hsmall, hold, hi]

/-! ## The second loop -/

/-- What a list of candidate GPUs is segmented for when a plan's turn comes. -/
def width (cfg : Config) (ps : PlanState) : Nat := min ps.numWorker cfg.fullyConnectedGpuUnit

/-- The next candidate GPUs are aligned for a plan whose turn it is, and stay segmented. -/
theorem aligned_serve {ps : PlanState} {cand : List Nat} (hunit : 0 < cfg.fullyConnectedGpuUnit)
    (hdvd : cfg.fullyConnectedGpuUnit ≤ ps.numWorker → cfg.fullyConnectedGpuUnit ∣ ps.numWorker)
    (hnodup : cand.Nodup) (hseg : Segmented (groupOf cfg) (width cfg ps) cand)
    (hroom : ps.gpuNum ≤ cand.length) :
    Aligned cfg ps (cand.take ps.gpuNum) ∧
      Segmented (groupOf cfg) (width cfg ps) (cand.drop ps.gpuNum) := by
  rw [Aligned, gpuForDps_eq, gpuNum_eq, chunks_take]
  rw [gpuNum_eq] at hroom
  by_cases hsmall : ps.numWorker < cfg.fullyConnectedGpuUnit
  · rw [width, Nat.min_eq_left (Nat.le_of_lt hsmall)] at hseg ⊢
    obtain ⟨hworkers, hdrop⟩ := hseg.serve hroom
    refine ⟨fun worker hworker => ?_, hdrop⟩
    rw [WorkerAligned, if_pos hsmall]
    exact hworkers worker hworker
  · have hlarge := Nat.le_of_not_lt hsmall
    rw [width, Nat.min_eq_right hlarge] at hseg ⊢
    obtain ⟨m, hm⟩ := hdvd hlarge
    have hsplit : ∀ d, d * ps.numWorker = d * m * cfg.fullyConnectedGpuUnit := fun d => by
      rw [hm, Nat.mul_assoc, Nat.mul_comm m]
    refine ⟨fun worker hworker => ?_, ?_⟩
    · -- The worker starts at a group boundary and is cut into whole groups.
      rw [WorkerAligned, if_neg hsmall]
      intro g hg
      obtain ⟨i, hi, rfl⟩ := List.mem_map.mp hworker
      have hle : (i + 1) * ps.numWorker ≤ ps.dpSize * ps.numWorker :=
        Nat.mul_le_mul_right _ (List.mem_range.mp hi)
      rw [Nat.succ_mul] at hle
      have hstart := (hseg.serve (d := i * m) (by rw [← hsplit]; omega)).2
      rw [← hsplit] at hstart
      set start := cand.drop (i * ps.numWorker) with hdef
      have hlen : ps.numWorker ≤ start.length := by rw [hdef, List.length_drop]; omega
      have hnum : ps.numWorker = m * cfg.fullyConnectedGpuUnit := by rw [hm, Nat.mul_comm]
      have hgroups := (hstart.serve (d := m) (hnum ▸ hlen)).1
      rw [hnum, ← flatten_chunks (List.length_take_of_le (hnum ▸ hlen)), chunks_take] at hg ⊢
      obtain ⟨group, hgroup, hgg⟩ := List.mem_flatten.mp hg
      have hwhole := gpuGroup_subset hunit
        (nodup_of_mem_chunks (hnodup.sublist (List.drop_sublist _ _)) hgroup)
        (hgroups group hgroup) (length_of_mem_chunks (hnum ▸ hlen) hgroup) hgg
      exact fun a ha => List.mem_flatten_of_mem hgroup (hwhole ha)
    · rw [hsplit] at hroom ⊢
      exact (hseg.serve hroom).2

/-- A small plan takes whole workers out of the list. -/
theorem segmented_keep {ps : PlanState} {cand comp : List Nat} (hnodup : cand.Nodup)
    (hsmall : ps.numWorker < cfg.fullyConnectedGpuUnit)
    (hseg : Segmented (groupOf cfg) (width cfg ps) cand) (hheld : HeldBefore cfg ps comp)
    (hsub : comp ⊆ cand) : Segmented (groupOf cfg) (width cfg ps) (cand.filter (· ∉ comp)) := by
  have hlength : comp.length = ps.dpSize * ps.numWorker := hheld.length.trans (gpuNum_eq ps)
  have hflat : (gpuForDps ps comp).flatten = comp := flatten_chunks hlength
  have hkeep := hseg.filter_flatten (gpuForDps ps comp) hnodup
    (hflat.symm ▸ hheld.nodup) (fun worker hworker => ?_) (fun worker hworker => ?_)
    (hflat.symm ▸ hsub)
  · rwa [hflat] at hkeep
  · have hin := hheld.aligned worker hworker
    rwa [WorkerAligned, if_pos hsmall] at hin
  · rw [width, Nat.min_eq_left (Nat.le_of_lt hsmall),
      length_of_mem_chunks (Nat.le_of_eq hlength.symm) hworker]

/-- One turn of the second loop does not raise, and a plan that goes on is moved only when one of
its GPUs has been given away. -/
theorem reassignCompGpus_turn {ps : PlanState} (plans : List PlanState) {r : Reassign}
    (hlarge : cfg.fullyConnectedGpuUnit ≤ ps.numWorker → ps ∈ newLaunch)
    (hheld : ps ∉ newLaunch → HeldBefore cfg ps (gpus r.cells ps)) :
    reassignCompGpus cfg newLaunch (ps :: plans) r =
        reassignCompGpus cfg newLaunch plans (r.assign ps (ps ∈ newLaunch)) ∧
      (ps ∉ newLaunch → ¬ gpus r.cells ps ⊆ r.candGpus) ∨
    ps ∉ newLaunch ∧ gpus r.cells ps ⊆ r.candGpus ∧
      reassignCompGpus cfg newLaunch (ps :: plans) r = reassignCompGpus cfg newLaunch plans
        { r with candGpus := r.candGpus.filter (· ∉ gpus r.cells ps) } := by
  by_cases hnew : ps ∈ newLaunch
  · refine .inl ⟨?_, absurd hnew⟩
    rw [reassignCompGpus, if_pos (.inr hnew)]
  · have hsmall : ps.numWorker < cfg.fullyConnectedGpuUnit :=
      Nat.lt_of_not_le fun hle => hnew (hlarge hle)
    have hbefore := hheld hnew
    have htake : (r.cells ps).compGpus.take ps.gpuNum = gpus r.cells ps :=
      List.take_of_length_le (Nat.le_of_eq hbefore.length)
    have hfirst : ¬ (cfg.fullyConnectedGpuUnit ≤ ps.numWorker ∨ ps ∈ newLaunch) :=
      not_or.mpr ⟨Nat.not_le_of_lt hsmall, hnew⟩
    rw [reassignCompGpus, if_neg hfirst]
    simp only [htake, hbefore.aligned.workersInUnits hsmall hbefore.length]
    by_cases hsub : gpus r.cells ps ⊆ r.candGpus
    · exact .inr ⟨hnew, hsub, if_pos fun g hg => hsub hg⟩
    · refine .inl ⟨?_, fun _ => hsub⟩
      rw [decide_eq_false hnew]
      exact if_neg fun hall => hsub fun g hg => hall g hg

/-- What the second loop has done to the plans it has passed. -/
structure Settled (cfg : Config) (newLaunch plans : List PlanState) (r r' : Reassign) : Prop where
  aligned : ∀ ps ∈ plans, Aligned cfg ps (gpus r'.cells ps)
  extra_sub : r.extraNewLaunch ⊆ r'.extraNewLaunch
  kept : ∀ ps ∈ plans, ps ∉ newLaunch → ps ∉ r'.extraNewLaunch →
    gpus r'.cells ps = gpus r.cells ps
  moved : ∀ ps ∈ plans, ps ∈ r'.extraNewLaunch → ¬ gpus r.cells ps ⊆ gpus r'.cells ps

theorem Settled.cons {ps : PlanState} {plans : List PlanState} {r r₁ r' : Reassign}
    (h : Settled cfg newLaunch plans r₁ r') (hps : ps ∉ plans)
    (hextra : r.extraNewLaunch ⊆ r₁.extraNewLaunch)
    (hcells : ∀ q, q ≠ ps → r₁.cells q = r.cells q) (hframe : r'.cells ps = r₁.cells ps)
    (haligned : Aligned cfg ps (gpus r₁.cells ps))
    (hkept : ps ∉ newLaunch → ps ∉ r₁.extraNewLaunch → gpus r₁.cells ps = gpus r.cells ps)
    (hmoved : ps ∈ r'.extraNewLaunch → ¬ gpus r.cells ps ⊆ gpus r₁.cells ps) :
    Settled cfg newLaunch (ps :: plans) r r' := by
  have hself : gpus r'.cells ps = gpus r₁.cells ps := congrArg Cell.compGpus hframe
  have hother : ∀ q ∈ plans, gpus r₁.cells q = gpus r.cells q := fun q hq =>
    congrArg Cell.compGpus (hcells q (ne_of_mem_of_not_mem hq hps))
  refine ⟨fun q hq => ?_, List.Subset.trans hextra h.extra_sub, fun q hq hnew hout => ?_,
    fun q hq hin => ?_⟩
  · rcases List.mem_cons.mp hq with rfl | hq
    · rw [hself]
      exact haligned
    · exact h.aligned q hq
  · rcases List.mem_cons.mp hq with rfl | hq
    · rw [hself]
      exact hkept hnew fun hin => hout (h.extra_sub hin)
    · rw [h.kept q hq hnew hout, hother q hq]
  · rcases List.mem_cons.mp hq with rfl | hq
    · rw [hself]
      exact hmoved hin
    · rw [← hother q hq]
      exact h.moved q hq hin

/-- The second loop does not raise, every worker is aligned afterwards, and the plans it reports
are those that have lost one of their GPUs. -/
theorem reassignCompGpus_total (hunit : 0 < cfg.fullyConnectedGpuUnit) {plans : List PlanState}
    (hnodup : plans.Nodup)
    (hwidth : plans.Pairwise fun p q => width cfg q ∣ width cfg p)
    (hdvd : ∀ ps ∈ plans, cfg.fullyConnectedGpuUnit ≤ ps.numWorker →
      cfg.fullyConnectedGpuUnit ∣ ps.numWorker)
    (hlarge : ∀ ps ∈ plans, cfg.fullyConnectedGpuUnit ≤ ps.numWorker → ps ∈ newLaunch)
    {r : Reassign} (hheld : ∀ ps ∈ plans, ps ∉ newLaunch → HeldBefore cfg ps (gpus r.cells ps))
    (hextra : ∀ ps ∈ plans, ps ∉ r.extraNewLaunch) (hcand : r.candGpus.Nodup)
    (hseg : ∀ ps ∈ plans, Segmented (groupOf cfg) (width cfg ps) r.candGpus)
    (hroom : (plans.map PlanState.gpuNum).sum ≤ r.candGpus.length) :
    ∃ r', reassignCompGpus cfg newLaunch plans r = .ok r' ∧ Settled cfg newLaunch plans r r' := by
  induction plans generalizing r with
  | nil => exact ⟨r, rfl, by simp, List.Subset.refl _, by simp, by simp⟩
  | cons ps plans ih =>
    obtain ⟨hps, hnodup'⟩ := List.nodup_cons.mp hnodup
    obtain ⟨hdivides, hwidth'⟩ := List.pairwise_cons.mp hwidth
    rw [List.map_cons, List.sum_cons] at hroom
    have hne : ∀ q ∈ plans, q ≠ ps := fun q hq => ne_of_mem_of_not_mem hq hps
    -- the plan is served from the front of the candidate GPUs, or stays where it is
    rcases reassignCompGpus_turn plans (hlarge ps (.head _)) (hheld ps (.head _)) with
      ⟨hturn, htaken⟩ | ⟨hnew, hsub, hturn⟩
    · obtain ⟨haligned, hrest⟩ := aligned_serve hunit (hdvd ps (.head _)) hcand
        (hseg ps (.head _)) (by omega)
      have hcells : ∀ q, q ≠ ps → (r.assign ps (ps ∈ newLaunch)).cells q = r.cells q :=
        fun q hq => assign_cells_of_ne hq
      have hgiven : gpus (r.assign ps (ps ∈ newLaunch)).cells ps = r.candGpus.take ps.gpuNum :=
        congrArg Cell.compGpus assign_cells_self
      have hassign := reassigned_assign newLaunch r ps
      have hgone : ∀ q ∈ plans, q ∉ (r.assign ps (ps ∈ newLaunch)).extraNewLaunch := by
        intro q hq hin
        rcases hassign.extra q hin with hin | ⟨hin, -⟩
        · exact hextra q (.tail _ hq) hin
        · exact hne q hq (List.mem_singleton.mp hin)
      obtain ⟨r', hr', hsettled⟩ := ih hnodup' hwidth' (fun q hq => hdvd q (.tail _ hq))
        (fun q hq => hlarge q (.tail _ hq)) (r := r.assign ps (ps ∈ newLaunch))
        (fun q hq hout => by
          rw [gpus, hcells q (hne q hq)]
          exact hheld q (.tail _ hq) hout)
        hgone (hcand.sublist (List.drop_sublist _ _))
        (fun q hq => hrest.of_dvd (hdivides q hq))
        (by rw [Reassign.assign, List.length_drop]; omega)
      have hreassigned := reassignCompGpus_ok hnodup' hr'
      refine ⟨r', hturn.trans hr', hsettled.cons hps ?_ hcells (hreassigned.frame ps hps)
        (hgiven ▸ haligned) (fun hnew hout => ?_) (fun hin hback => ?_)⟩
      · intro q hq
        rw [Reassign.assign]
        split
        · exact hq
        · exact List.mem_append_left _ hq
      · refine absurd ?_ hout
        simp [Reassign.assign, hnew]
      -- a plan that is reported has not got all its GPUs back
      · rw [hgiven] at hback
        have hnew : ps ∉ newLaunch := by
          rcases hreassigned.extra ps hin with hin | ⟨hin, -⟩
          · rcases hassign.extra ps hin with hin | ⟨-, hout⟩
            · exact absurd hin (hextra ps (.head _))
            · exact hout
          · exact absurd hin hps
        exact htaken hnew fun g hg => List.mem_of_mem_take (hback hg)
    · have hbefore := hheld ps (.head _) hnew
      have hsmall : ps.numWorker < cfg.fullyConnectedGpuUnit :=
        Nat.lt_of_not_le fun hle => hnew (hlarge ps (.head _) hle)
      have hrest := segmented_keep hcand hsmall (hseg ps (.head _)) hbefore hsub
      have hcount := (perm_append_filter_notMem hbefore.nodup hcand hsub).length_eq
      rw [List.length_append, hbefore.length] at hcount
      obtain ⟨r', hr', hsettled⟩ := ih hnodup' hwidth' (fun q hq => hdvd q (.tail _ hq))
        (fun q hq => hlarge q (.tail _ hq))
        (r := { r with candGpus := r.candGpus.filter (· ∉ gpus r.cells ps) })
        (fun q hq hout => hheld q (.tail _ hq) hout) (fun q hq => hextra q (.tail _ hq))
        (hcand.filter _) (fun q hq => hrest.of_dvd (hdivides q hq)) (by simp only; omega)
      have hreassigned := reassignCompGpus_ok hnodup' hr'
      refine ⟨r', hturn.trans hr', hsettled.cons hps (List.Subset.refl _) (fun _ _ => rfl)
        (hreassigned.frame ps hps) hbefore.aligned (fun _ _ => rfl) (fun hin => ?_)⟩
      rcases hreassigned.extra ps hin with hin | ⟨hin, -⟩
      · exact absurd hin (hextra ps (.head _))
      · exact absurd hin hps

end Mil.Schedule
