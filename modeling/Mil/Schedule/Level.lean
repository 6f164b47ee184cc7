import Mil.Schedule.Load

/-!
# What one level of a round does

A level starts from plans that are kept (`base`) and candidates of the target stage. Candidates
whose model has finished are dropped; *unchanged* ones, which need no preparation, take over the
GPUs of the running plan with their key; *pending* ones are loaded as far as they fit. `LevelLoad`
says so of both variants of the round.
-/

set_option autoImplicit false

namespace Mil.Schedule

open Mil.Lib

def unchanged (fin : Nat → Bool) (ps : PlanState) : Bool :=
  !fin ps.modelId && !ps.needPrepareInferEnv

def isPending (fin : Nat → Bool) (ps : PlanState) : Bool :=
  !fin ps.modelId && ps.needPrepareInferEnv

/-! ## The dictionary of running plans -/

theorem exists_of_gpusOf {cells : Cells} {plans : List PlanState} {key : ModelKey}
    {comp : List Nat} (h : gpusOf cells plans key = some comp) :
    ∃ q ∈ plans, q.modelKey = key ∧ gpus cells q = comp := by
  obtain ⟨q, hq, rfl⟩ := Option.map_eq_some_iff.mp h
  have hkey := List.find?_some hq
  exact ⟨q, List.mem_reverse.mp (List.mem_of_find?_eq_some hq), of_decide_eq_true hkey, rfl⟩

theorem exists_gpusOf (cells : Cells) {plans : List PlanState} {q : PlanState} (hq : q ∈ plans) :
    ∃ comp, gpusOf cells plans q.modelKey = some comp := by
  have hsome : (plans.reverse.find? fun ps => ps.modelKey = q.modelKey).isSome :=
    List.find?_isSome.mpr ⟨q, List.mem_reverse.mpr hq, decide_eq_true rfl⟩
  obtain ⟨p, hp⟩ := Option.isSome_iff_exists.mp hsome
  exact ⟨_, Option.map_eq_some_iff.mpr ⟨p, hp, rfl⟩⟩

/-! ## Taking over -/

structure TakenOver (fin : Nat → Bool) (gpusMap : ModelKey → Option (List Nat))
    (cands : List PlanState) (t t' : Taken) : Prop where
  toLaunch : t'.toLaunch = t.toLaunch ++ cands.filter (unchanged fin)
  pending : t'.pending = t.pending ++ cands.filter (isPending fin)
  frame : ∀ q, q ∉ cands → t'.cells q = t.cells q
  pending_cell : ∀ q ∈ cands, isPending fin q → t'.cells q = t.cells q
  unchanged_cell : ∀ q ∈ cands, unchanged fin q →
    ∃ comp, gpusMap q.modelKey = some comp ∧ t'.cells q = ⟨true, comp⟩

section

variable {fin : Nat → Bool} {gpusMap : ModelKey → Option (List Nat)}

/-- One more candidate in front. -/
theorem TakenOver.cons {ps : PlanState} {cands : List PlanState} {t t₁ t' : Taken}
    (h : TakenOver fin gpusMap cands t₁ t') (hps : ps ∉ cands)
    (hlaunch : t₁.toLaunch = t.toLaunch ++ [ps].filter (unchanged fin))
    (hpending : t₁.pending = t.pending ++ [ps].filter (isPending fin))
    (hcells : ∀ q, q ≠ ps → t₁.cells q = t.cells q)
    (hsame : isPending fin ps → t₁.cells ps = t.cells ps)
    (htaken : unchanged fin ps →
      ∃ comp, gpusMap ps.modelKey = some comp ∧ t₁.cells ps = ⟨true, comp⟩) :
    TakenOver fin gpusMap (ps :: cands) t t' where
  toLaunch := by
    rw [h.toLaunch, hlaunch, List.append_assoc, ← List.filter_append, List.singleton_append]
  pending := by
    rw [h.pending, hpending, List.append_assoc, ← List.filter_append, List.singleton_append]
  frame q hq := by
    rw [List.mem_cons, not_or] at hq
    rw [h.frame q hq.2, hcells q hq.1]
  pending_cell q hq hp := by
    rcases List.mem_cons.mp hq with rfl | hq
    · rw [h.frame q hps, hsame hp]
    · rw [h.pending_cell q hq hp, hcells q (ne_of_mem_of_not_mem hq hps)]
  unchanged_cell q hq hu := by
    rcases List.mem_cons.mp hq with rfl | hq
    · rw [h.frame q hps]
      exact htaken hu
    · exact h.unchanged_cell q hq hu

theorem takeCandidates_ok {cands : List PlanState} (hnodup : cands.Nodup) {t t' : Taken}
    (h : takeCandidates fin gpusMap cands t = .ok t') : TakenOver fin gpusMap cands t t' := by
  induction cands generalizing t with
  | nil =>
    obtain rfl := Except.ok.inj h
    exact ⟨by simp, by simp, fun _ _ => rfl, by simp, by simp⟩
  | cons ps cands ih =>
    obtain ⟨hps, hnodup'⟩ := List.nodup_cons.mp hnodup
    rw [takeCandidates] at h
    by_cases hfin : fin ps.modelId = true
    · rw [if_pos hfin] at h
      have hu : unchanged fin ps = false := by rw [unchanged, hfin]; rfl
      have hp : isPending fin ps = false := by rw [isPending, hfin]; rfl
      exact (ih hnodup' h).cons hps (by simp [hu]) (by simp [hp])
        (fun q hq => Cells.setLaunched_of_ne hq) (by simp [hp]) (by simp [hu])
    · rw [if_neg hfin] at h
      rw [Bool.not_eq_true] at hfin
      by_cases hneed : ps.needPrepareInferEnv = true
      · rw [if_pos hneed] at h
        have hu : unchanged fin ps = false := by rw [unchanged, hfin, hneed]; rfl
        have hp : isPending fin ps = true := by rw [isPending, hfin, hneed]; rfl
        exact (ih hnodup' h).cons hps (by simp [hu]) (by simp [hp]) (fun _ _ => rfl)
          (fun _ => rfl) (by simp [hu])
      · rw [if_neg hneed] at h
        rw [Bool.not_eq_true] at hneed
        have hu : unchanged fin ps = true := by rw [unchanged, hfin, hneed]; rfl
        have hp : isPending fin ps = false := by rw [isPending, hfin, hneed]; rfl
        split at h
        · cases h
        · rename_i comp hcomp
          refine (ih hnodup' h).cons hps (by simp [hu]) (by simp [hp]) (fun q hq => ?_)
            (by simp [hp]) (fun _ => ⟨comp, hcomp, ?_⟩)
          · exact (Cells.setCompGpus_of_ne hq).trans (Cells.setLaunched_of_ne hq)
          · exact Cells.setCompGpus_self.trans (by rw [Cells.setLaunched_self])

theorem exists_takeCandidates {cands : List PlanState}
    (hgpus : ∀ ps ∈ cands, unchanged fin ps → ∃ comp, gpusMap ps.modelKey = some comp)
    (t : Taken) : ∃ t', takeCandidates fin gpusMap cands t = .ok t' := by
  induction cands generalizing t with
  | nil => exact ⟨t, rfl⟩
  | cons ps cands ih =>
    have ih := ih fun q hq => hgpus q (.tail _ hq)
    rw [takeCandidates]
    by_cases hfin : fin ps.modelId = true
    · rw [if_pos hfin]
      exact ih _
    · rw [if_neg hfin]
      by_cases hneed : ps.needPrepareInferEnv = true
      · rw [if_pos hneed]
        exact ih _
      · rw [if_neg hneed]
        rw [Bool.not_eq_true] at hfin hneed
        obtain ⟨comp, hcomp⟩ := hgpus ps (.head _) (by rw [unchanged, hfin, hneed]; rfl)
        rw [hcomp]
        exact ih _

end

/-! ## A level -/

/-- Taking over and loading, as both variants of the round do it. -/
def takeAndLoad (cfg : Config) (fin : Nat → Bool) (s : State) (base cands : List PlanState) :
    Except Raised Load := do
  let t ← takeCandidates fin (gpusOf s.cells s.launched) cands ⟨base, [], s.cells⟩
  loadTaken cfg t

/-- What a level needs of the state it starts from. -/
structure LevelReady (fin : Nat → Bool) (s : State) (base cands : List PlanState) : Prop where
  base_sub : ∀ ps ∈ base, ps ∈ s.launched
  cands_new : ∀ ps ∈ cands, ps ∉ s.launched
  models : ((base ++ cands).map PlanState.modelId).Nodup
  unlaunched : ∀ ps ∈ cands, isPending fin ps → (s.cells ps).launched = false

/-- What a level does: `loaded` are the candidates it launches on free GPUs. -/
structure LevelLoad (cfg : Config) (fin : Nat → Bool) (s : State)
    (base cands loaded : List PlanState) (l : Load) : Prop where
  order_perm : (loadOrder cfg (cands.filter (isPending fin))).Perm (cands.filter (isPending fin))
  loaded_eq : loaded = fitting (availableGpus cfg l.cells (base ++ cands.filter (unchanged fin))).length
    (loadOrder cfg (cands.filter (isPending fin)))
  toLaunch : l.toLaunch = base ++ cands.filter (unchanged fin) ++ loaded
  perm : (loaded ++ l.newCandidates).Perm (cands.filter (isPending fin))
  frame : ∀ q, q ∉ cands → l.cells q = s.cells q
  unchanged_cell : ∀ q ∈ cands.filter (unchanged fin),
    ∃ p ∈ s.launched, p.modelKey = q.modelKey ∧ l.cells q = ⟨true, gpus s.cells p⟩
  loaded_cell : ∀ q ∈ loaded, (l.cells q).launched = true ∧ (gpus l.cells q).length = q.gpuNum
  postponed_cell : ∀ q ∈ l.newCandidates, l.cells q = s.cells q
  available : l.availableGpus = (availableGpus cfg l.cells
    (base ++ cands.filter (unchanged fin))).drop (loaded.map PlanState.gpuNum).sum
  length : l.availableGpus.length + (loaded.map PlanState.gpuNum).sum =
    (availableGpus cfg l.cells (base ++ cands.filter (unchanged fin))).length
  tooBig : ∀ q ∈ l.newCandidates, l.availableGpus.length < q.gpuNum
  exclusive : Exclusive (List.range cfg.totGpuNum) (gpus s.cells) s.launched [] →
    Exclusive (List.range cfg.totGpuNum) (gpus l.cells) l.toLaunch l.availableGpus

section

variable {cfg : Config} {fin : Nat → Bool} {s : State} {base cands : List PlanState}

theorem LevelReady.nodup (h : LevelReady fin s base cands) : cands.Nodup :=
  ((List.nodup_append.mp (List.map_append ▸ h.models)).2.1).of_map _

/-- Unchanged candidates hold the GPUs of running plans that are not kept, one each. -/
theorem exclusive_taken (h : LevelReady fin s base cands) {t : Taken}
    (ht : TakenOver fin (gpusOf s.cells s.launched) cands ⟨base, [], s.cells⟩ t)
    (hexcl : Exclusive (List.range cfg.totGpuNum) (gpus s.cells) s.launched []) :
    Exclusive (List.range cfg.totGpuNum) (gpus t.cells)
      (base ++ cands.filter (unchanged fin))
      (availableGpus cfg t.cells (base ++ cands.filter (unchanged fin))) := by
  have htaken : ∀ q : PlanState, ∃ p, q ∈ cands.filter (unchanged fin) →
      p ∈ s.launched ∧ p.modelKey = q.modelKey ∧ gpus t.cells q = gpus s.cells p := fun q => by
    by_cases hq : q ∈ cands.filter (unchanged fin)
    · obtain ⟨hmem, hu⟩ := List.mem_filter.mp hq
      obtain ⟨comp, hcomp, hcell⟩ := ht.unchanged_cell q hmem hu
      obtain ⟨p, hp, hkey, rfl⟩ := exists_of_gpusOf hcomp
      exact ⟨p, fun _ => ⟨hp, hkey, by rw [gpus, hcell]⟩⟩
    · exact ⟨q, fun hmem => absurd hmem hq⟩
  choose origin horigin using htaken
  have hbase : ∀ q ∈ base, gpus t.cells q = gpus s.cells q := fun q hq => by
    rw [gpus, ht.frame q fun hmem => h.cands_new q hmem (h.base_sub q hq)]
  have hmap : ((cands.filter (unchanged fin)).map origin).map PlanState.modelId =
      (cands.filter (unchanged fin)).map PlanState.modelId := by
    rw [List.map_map]
    exact List.map_congr_left fun q hq => modelId_eq_of_modelKey (horigin q hq).2.1
  have hnodup : (base ++ (cands.filter (unchanged fin)).map origin).Nodup := by
    refine List.Nodup.of_map PlanState.modelId ?_
    rw [List.map_append, hmap, ← List.map_append]
    exact h.models.sublist ((List.filter_sublist.append_left base).map _)
  have hsub : base ++ (cands.filter (unchanged fin)).map origin ⊆ s.launched := fun q hq => by
    rcases List.mem_append.mp hq with hq | hq
    · exact h.base_sub q hq
    · obtain ⟨p, hp, rfl⟩ := List.mem_map.mp hq
      exact (horigin p hp).1
  have hflat : (base ++ cands.filter (unchanged fin)).flatMap (gpus t.cells) =
      (base ++ (cands.filter (unchanged fin)).map origin).flatMap (gpus s.cells) := by
    rw [List.flatMap_append, List.flatMap_append, List.flatMap_map, List.flatMap_congr hbase]
    exact congrArg _ (List.flatMap_congr fun q hq => (horigin q hq).2.2)
  have hheld : Exclusive (List.range cfg.totGpuNum) (gpus t.cells)
      (base ++ cands.filter (unchanged fin)) [] := by
    rw [Exclusive, hflat]
    exact hexcl.mono (List.subperm_of_subset hnodup hsub) (List.Subperm.refl _)
  exact hheld.recount List.nodup_range

/-- No model is both taken over and pending. -/
theorem LevelReady.split_models (h : LevelReady fin s base cands) {order : List PlanState}
    (horder : order.Perm (cands.filter (isPending fin))) :
    ((base ++ cands.filter (unchanged fin) ++ order).map PlanState.modelId).Nodup := by
  have hsub : (cands.filter (isPending fin)).Sublist (cands.filter fun ps => !unchanged fin ps) :=
    List.monotone_filter_right _ fun ps hps => by
      rw [isPending, Bool.and_eq_true] at hps
      simp [unchanged, hps.2]
  have hperm : (base ++ (cands.filter (unchanged fin) ++ cands.filter fun ps =>
      !unchanged fin ps)).Perm (base ++ cands) :=
    (List.filter_append_perm (unchanged fin) cands).append_left base
  have hnodup := ((hperm.map PlanState.modelId).nodup_iff.mpr h.models).sublist
    (((hsub.append_left _).append_left base).map _)
  rw [← List.append_assoc] at hnodup
  exact ((horder.append_left _).map PlanState.modelId).nodup_iff.mpr hnodup

theorem takeAndLoad_ok (h : LevelReady fin s base cands) {l : Load}
    (hl : takeAndLoad cfg fin s base cands = .ok l) :
    ∃ loaded, LevelLoad cfg fin s base cands loaded l := by
  rw [takeAndLoad] at hl
  cases hcases : takeCandidates fin (gpusOf s.cells s.launched) cands ⟨base, [], s.cells⟩ with
  | error e =>
    rw [hcases] at hl
    cases hl
  | ok t =>
    rw [hcases] at hl
    have ht := takeCandidates_ok h.nodup hcases
    have hlaunch : t.toLaunch = base ++ cands.filter (unchanged fin) := ht.toLaunch
    have hpending : t.pending = cands.filter (isPending fin) := ht.pending
    obtain ⟨horder, hfold⟩ := tryToLoadExecPlans_ok (hpending ▸ h.nodup.filter _) hl
    rw [hpending] at horder hfold
    set order := loadOrder cfg (cands.filter (isPending fin)) with horder'
    have hcell : ∀ q ∈ order, t.cells q = s.cells q := fun q hq => by
      obtain ⟨hmem, hp⟩ := List.mem_filter.mp (horder.subset hq)
      exact ht.pending_cell q hmem hp
    obtain ⟨loaded, postponed, hloads⟩ := exists_pendingLoaded order
      (l := ⟨t.toLaunch, [], availableGpus cfg t.cells t.toLaunch, t.cells⟩)
      (hlaunch ▸ h.split_models horder)
      (fun q hq => by
        obtain ⟨hmem, hp⟩ := List.mem_filter.mp (horder.subset hq)
        exact (congrArg Cell.launched (hcell q hq)).trans (h.unlaunched q hmem hp))
    rw [← hfold] at hloads
    have hnew : l.newCandidates = postponed := hloads.newCandidates
    have hperm : (loaded ++ postponed).Perm order := hloads.perm
    have hmodels := h.split_models (hperm.trans horder)
    have hloaded : ∀ q ∈ base ++ cands.filter (unchanged fin), q ∉ loaded := fun q hq hmem => by
      rw [List.map_append, List.nodup_append'] at hmodels
      exact hmodels.2.2 (List.mem_map_of_mem hq)
        (List.mem_map_of_mem (List.mem_append_left _ hmem))
    -- loading changes no plan that is taken over, so these hold after it what they held before
    have hfree : availableGpus cfg t.cells t.toLaunch =
        availableGpus cfg l.cells (base ++ cands.filter (unchanged fin)) := by
      have hheld := List.flatMap_congr fun q hq =>
        congrArg Cell.compGpus (hloads.frame q (hloaded q hq)).symm
      rw [hlaunch, availableGpus, availableGpus, hheld]
    refine ⟨loaded, horder, ?_, ?_, ?_, fun q hq => ?_, fun q hq => ?_, hloads.loaded_cell, fun q hq => ?_,
      ?_, ?_, hnew ▸ hloads.tooBig, fun hexcl => hloads.exclusive _ ?_⟩
    · rw [hloads.loaded_eq]
      exact congrArg (fun free => fitting (List.length free) order) hfree
    · rw [hloads.toLaunch, hlaunch]
    · rw [hnew]
      exact hperm.trans horder
    · have hout : q ∉ loaded := fun hmem =>
        hq (List.mem_of_mem_filter (horder.subset (hperm.subset (List.mem_append_left _ hmem))))
      rw [hloads.frame q hout]
      exact ht.frame q hq
    · obtain ⟨hmem, hu⟩ := List.mem_filter.mp hq
      obtain ⟨comp, hcomp, heq⟩ := ht.unchanged_cell q hmem hu
      obtain ⟨p, hp, hkey, rfl⟩ := exists_of_gpusOf hcomp
      refine ⟨p, hp, hkey, ?_⟩
      rw [hloads.frame q (hloaded q (List.mem_append_right _ hq))]
      exact heq
    · have hmem : q ∈ order := hperm.subset (List.mem_append_right _ (hnew ▸ hq))
      have hout : q ∉ loaded := fun hin => by
        rw [List.map_append] at hmodels
        have hpair := ((List.nodup_append.mp hmodels).2.1).of_map
        exact (List.nodup_append'.mp hpair).2.2 hin (hnew ▸ hq)
      rw [hloads.frame q hout]
      exact hcell q hmem
    · rw [hloads.available]
      exact congrArg (List.drop _) hfree
    · exact hloads.length.trans (congrArg List.length hfree)
    · exact hlaunch ▸ exclusive_taken h ht hexcl

theorem LevelLoad.models {loaded : List PlanState} {l : Load}
    (hl : LevelLoad cfg fin s base cands loaded l) (h : LevelReady fin s base cands) :
    (l.toLaunch.map PlanState.modelId).Nodup := by
  have hnodup := h.split_models hl.perm
  rw [← List.append_assoc, ← hl.toLaunch, List.map_append] at hnodup
  exact (List.nodup_append.mp hnodup).1

/-- The plans that were kept or taken over, together with all pending candidates, fit the machine:
then nothing is postponed. -/
theorem LevelLoad.newCandidates_eq_nil {loaded : List PlanState} {l : Load}
    (hl : LevelLoad cfg fin s base cands loaded l)
    (hfits : ((base ++ cands.filter (unchanged fin)).map fun q => (gpus l.cells q).length).sum +
      ((cands.filter (isPending fin)).map PlanState.gpuNum).sum ≤ cfg.totGpuNum) :
    l.newCandidates = [] := by
  rcases hnew : l.newCandidates with _ | ⟨q, rest⟩
  · rfl
  · have hbig := hl.tooBig q (hnew ▸ .head _)
    have hsum := (hl.perm.map PlanState.gpuNum).sum_nat
    rw [hnew, List.map_append, List.sum_append, List.map_cons, List.sum_cons] at hsum
    have hcount := length_le_length_filter_notMem
      ((base ++ cands.filter (unchanged fin)).flatMap (gpus l.cells))
      (List.nodup_range (n := cfg.totGpuNum))
    rw [List.length_range, List.length_flatMap] at hcount
    have hlength : l.availableGpus.length + (loaded.map PlanState.gpuNum).sum =
        ((List.range cfg.totGpuNum).filter
          (· ∉ (base ++ cands.filter (unchanged fin)).flatMap (gpus l.cells))).length := hl.length
    omega

/-- Nothing is postponed when all that is kept, taken over or pending belongs to a group that fits
the machine. -/
theorem LevelLoad.newCandidates_eq_nil_of_subset {loaded : List PlanState} {l : Load}
    (hl : LevelLoad cfg fin s base cands loaded l) (h : LevelReady fin s base cands)
    {group : List PlanState} (hbase : base ⊆ group) (hcands : cands ⊆ group)
    (hfits : (group.map PlanState.gpuNum).sum ≤ cfg.totGpuNum)
    (hlength : ∀ ps ∈ base ++ cands.filter (unchanged fin), (gpus l.cells ps).length ≤ ps.gpuNum) :
    l.newCandidates = [] := by
  refine hl.newCandidates_eq_nil ?_
  have hsub : base ++ cands.filter (unchanged fin) ++ cands.filter (isPending fin) ⊆ group := by
    intro ps hps
    rcases List.mem_append.mp hps with hps | hps
    · rcases List.mem_append.mp hps with hps | hps
      · exact hbase hps
      · exact hcands (List.mem_of_mem_filter hps)
    · exact hcands (List.mem_of_mem_filter hps)
  have hsum := sum_map_le_of_subset PlanState.gpuNum
    (h.split_models (List.Perm.refl _)).of_map hsub
  rw [List.map_append, List.sum_append] at hsum
  have hheld := List.sum_le_sum hlength
  omega

end

end Mil.Schedule
