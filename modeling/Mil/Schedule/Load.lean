import Mathlib.Tactic.Choose
import Mil.Lib.Allocation
import Mil.Schedule.Round
import Mil.Schedule.Stages

/-!
# What loading candidates does

`_try_to_load_exec_plans` considers its candidates one after the other, in an order of its own. So
its result is a fold of `Load.consider` over some permutation of the candidates. Two kinds of
candidates are handed to it: pending ones, which have never been launched, and plans of earlier
stages, which hold GPUs.
-/

set_option autoImplicit false

namespace Mil.Schedule

open Mil.Lib

theorem exists_of_bind_ok {α β : Type} {x : Except Raised α} {f : α → Except Raised β} {b : β}
    (h : x >>= f = .ok b) : ∃ a, x = .ok a ∧ f a = .ok b := by
  cases x with
  | error e => cases h
  | ok a => exact ⟨a, rfl, h⟩

/-! ## The heap -/

/-- The GPUs a plan holds. -/
abbrev gpus (cells : Cells) (ps : PlanState) : List Nat := (cells ps).compGpus

section

variable {cells : Cells} {ps q : PlanState} {comp : List Nat}

@[simp] theorem Cells.setLaunched_self :
    cells.setLaunched ps ps = { cells ps with launched := true } :=
  Function.update_self ..

@[simp] theorem Cells.setCompGpus_self :
    cells.setCompGpus ps comp ps = { cells ps with compGpus := comp } :=
  Function.update_self ..

theorem Cells.setLaunched_of_ne (h : q ≠ ps) : cells.setLaunched ps q = cells q :=
  Function.update_of_ne h ..

theorem Cells.setCompGpus_of_ne (h : q ≠ ps) : cells.setCompGpus ps comp q = cells q :=
  Function.update_of_ne h ..

theorem gpus_setCompGpus :
    gpus (cells.setCompGpus ps comp) = Function.update (gpus cells) ps comp := by
  funext q
  by_cases h : q = ps
  · subst h
    rw [Function.update_self, gpus, Cells.setCompGpus_self]
  · rw [Function.update_of_ne h, gpus, Cells.setCompGpus_of_ne h]

theorem gpus_setLaunched : gpus (cells.setLaunched ps) = gpus cells := by
  funext q
  by_cases h : q = ps
  · subst h
    rw [gpus, Cells.setLaunched_self]
  · rw [gpus, Cells.setLaunched_of_ne h]

end

/-! ## The order of the candidates -/

variable {cfg : Config}

theorem sortedReverse_perm (key : PlanState → List Nat) (l : List PlanState) :
    (sortedReverse key l).Perm l :=
  List.perm_insertionSort _ _

theorem sortedBy_perm (key : PlanState → List Nat) (l : List PlanState) : (sortedBy key l).Perm l :=
  List.perm_insertionSort _ _

theorem candOrder_perm (cfg : Config) (cands : List PlanState) : (candOrder cfg cands).Perm cands := by
  rw [candOrder]
  split
  · exact .refl _
  · exact sortedReverse_perm _ _

theorem mem_of_firstPlanState {cands : List PlanState} {ps : PlanState}
    (h : firstPlanState cfg cands = some ps) : ps ∈ cands := by
  rw [firstPlanState] at h
  split at h
  · exact List.mem_of_mem_filter (List.mem_of_head? h)
  · exact List.mem_of_mem_filter ((sortedReverse_perm _ _).subset (List.mem_of_head? h))

theorem perm_cons_filter_ne {cands : List PlanState} {ps : PlanState} (hnodup : cands.Nodup)
    (hps : ps ∈ cands) : (ps :: cands.filter (· ≠ ps)).Perm cands := by
  have := (List.perm_cons_erase hps).symm
  rwa [hnodup.erase_eq_filter, show (fun x => x != ps) = (fun x => decide (x ≠ ps)) from
    funext fun x => by by_cases h : x = ps <;> simp [h]] at this

/-- The order in which plans are taken: always the first one that no other waits for. -/
def takingOrder (cfg : Config) : Nat → List PlanState → List PlanState
  | 0, _ => []
  | fuel + 1, cands => match firstPlanState cfg cands with
    | none => []
    | some ps => ps :: takingOrder cfg fuel (cands.filter (· ≠ ps))

/-- The order in which `_try_to_load_exec_plans` goes through plans. -/
def loadOrder (cfg : Config) (cands : List PlanState) : List PlanState :=
  takingOrder cfg cands.length (candOrder cfg cands)

theorem takingOrder_succ {fuel : Nat} {cands : List PlanState} {ps : PlanState}
    (hfirst : firstPlanState cfg cands = some ps) :
    takingOrder cfg (fuel + 1) cands = ps :: takingOrder cfg fuel (cands.filter (· ≠ ps)) := by
  simp only [takingOrder, hfirst]

theorem takingOrder_of_none {fuel : Nat} {cands : List PlanState}
    (hnone : firstPlanState cfg cands = none) : takingOrder cfg (fuel + 1) cands = [] := by
  simp only [takingOrder, hnone]

theorem tryToLoad_ok {fuel : Nat} {cands : List PlanState} {l l' : Load}
    (hfuel : cands.length ≤ fuel) (hnodup : cands.Nodup) (h : tryToLoad cfg fuel cands l = .ok l') :
    (takingOrder cfg fuel cands).Perm cands ∧
      l' = (takingOrder cfg fuel cands).foldl Load.consider l := by
  induction fuel generalizing cands l with
  | zero =>
    obtain rfl := List.eq_nil_of_length_eq_zero (Nat.le_zero.mp hfuel)
    exact ⟨.refl _, (Except.ok.inj h).symm⟩
  | succ fuel ih =>
    rw [tryToLoad] at h
    split at h
    · rename_i hnil
      subst hnil
      have hnone : firstPlanState cfg [] = none := by
        rw [firstPlanState]
        split <;> rfl
      rw [takingOrder_of_none hnone]
      exact ⟨.refl _, (Except.ok.inj h).symm⟩
    · split at h
      · cases h
      · rename_i ps hfirst
        have hperm := perm_cons_filter_ne hnodup (mem_of_firstPlanState hfirst)
        have hlen := hperm.length_eq
        rw [List.length_cons] at hlen
        obtain ⟨horder, hl'⟩ := ih (by omega) (hnodup.filter _) h
        rw [takingOrder_succ hfirst]
        exact ⟨(horder.cons ps).trans hperm, hl'⟩

theorem tryToLoadExecPlans_ok {cands : List PlanState} {l l' : Load} (hnodup : cands.Nodup)
    (h : tryToLoadExecPlans cfg (candOrder cfg cands) l = .ok l') :
    (loadOrder cfg cands).Perm cands ∧ l' = (loadOrder cfg cands).foldl Load.consider l := by
  have hperm := candOrder_perm cfg cands
  rw [tryToLoadExecPlans, hperm.length_eq] at h
  obtain ⟨horder, hl'⟩ := tryToLoad_ok (Nat.le_of_eq hperm.length_eq)
    (hperm.nodup_iff.mpr hnodup) h
  exact ⟨horder.trans hperm, hl'⟩

/-! ## Plans that fit -/

/-- The plans of a list that fit into so many GPUs, one after another. -/
def fitting : Nat → List PlanState → List PlanState
  | _, [] => []
  | n, ps :: rest =>
    if ps.gpuNum ≤ n then ps :: fitting (n - ps.gpuNum) rest else fitting n rest

theorem fitting_sublist (n : Nat) (plans : List PlanState) : (fitting n plans).Sublist plans := by
  induction plans generalizing n with
  | nil => exact .slnil
  | cons ps plans ih =>
    rw [fitting]
    split
    · exact (ih _).cons_cons ps
    · exact (ih n).cons ps

theorem sum_fitting_le (n : Nat) (plans : List PlanState) :
    ((fitting n plans).map PlanState.gpuNum).sum ≤ n := by
  induction plans generalizing n with
  | nil => exact Nat.zero_le n
  | cons ps plans ih =>
    rw [fitting]
    split
    · rename_i hfits
      have hrest := ih (n - ps.gpuNum)
      rw [List.map_cons, List.sum_cons]
      omega
    · exact ih n

/-! ## Pending candidates -/

/-- The plan is launched on the first free GPUs. -/
def Load.granted (l : Load) (ps : PlanState) : Load where
  toLaunch := l.toLaunch ++ [ps]
  newCandidates := l.newCandidates
  availableGpus := l.availableGpus.drop ps.gpuNum
  cells := (l.cells.setLaunched ps).setCompGpus ps (l.availableGpus.take ps.gpuNum)

section

variable {l : Load} {ps q : PlanState}

theorem granted_cells_of_ne (h : q ≠ ps) : (l.granted ps).cells q = l.cells q :=
  (Cells.setCompGpus_of_ne h).trans (Cells.setLaunched_of_ne h)

theorem granted_cells_self :
    (l.granted ps).cells ps = ⟨true, l.availableGpus.take ps.gpuNum⟩ := by
  refine Cells.setCompGpus_self.trans ?_
  rw [Cells.setLaunched_self]

theorem granted_exclusive {pool : List Nat} (hps : ps ∉ l.toLaunch)
    (h : Exclusive pool (gpus l.cells) l.toLaunch l.availableGpus) :
    Exclusive pool (gpus (l.granted ps).cells) (l.granted ps).toLaunch
      (l.granted ps).availableGpus := by
  rw [Load.granted, gpus_setCompGpus, gpus_setLaunched]
  rw [← List.take_append_drop ps.gpuNum l.availableGpus] at h
  exact h.grant hps

theorem consider_pending_fits (hmodel : ps.modelId ∉ l.toLaunch.map PlanState.modelId)
    (hnew : (l.cells ps).launched = false) (hfits : ps.gpuNum ≤ l.availableGpus.length) :
    l.consider ps = l.granted ps := by
  rw [Load.consider, if_neg hmodel, if_pos hfits, hnew]
  rfl

theorem consider_pending_tooBig (hmodel : ps.modelId ∉ l.toLaunch.map PlanState.modelId)
    (hnew : (l.cells ps).launched = false) (hbig : l.availableGpus.length < ps.gpuNum) :
    l.consider ps = { l with newCandidates := l.newCandidates ++ [ps] } := by
  rw [Load.consider, if_neg hmodel, if_neg (Nat.not_le_of_lt hbig), hnew]
  rfl

end

/-- What happens to pending candidates: some are launched on free GPUs, the others are too big for
what is left and stay candidates. -/
structure PendingLoaded (l : Load) (order loaded postponed : List PlanState) (l' : Load) : Prop where
  loaded_eq : loaded = fitting l.availableGpus.length order
  toLaunch : l'.toLaunch = l.toLaunch ++ loaded
  newCandidates : l'.newCandidates = l.newCandidates ++ postponed
  perm : (loaded ++ postponed).Perm order
  available : l'.availableGpus = l.availableGpus.drop (loaded.map PlanState.gpuNum).sum
  length : l'.availableGpus.length + (loaded.map PlanState.gpuNum).sum = l.availableGpus.length
  tooBig : ∀ ps ∈ postponed, l'.availableGpus.length < ps.gpuNum
  frame : ∀ q, q ∉ loaded → l'.cells q = l.cells q
  loaded_cell : ∀ ps ∈ loaded,
    (l'.cells ps).launched = true ∧ (gpus l'.cells ps).length = ps.gpuNum
  exclusive : ∀ pool, Exclusive pool (gpus l.cells) l.toLaunch l.availableGpus →
    Exclusive pool (gpus l'.cells) l'.toLaunch l'.availableGpus

theorem exists_pendingLoaded (order : List PlanState) {l : Load}
    (hmodels : ((l.toLaunch ++ order).map PlanState.modelId).Nodup)
    (hnew : ∀ ps ∈ order, (l.cells ps).launched = false) :
    ∃ loaded postponed, PendingLoaded l order loaded postponed (order.foldl Load.consider l) := by
  induction order generalizing l with
  | nil =>
    exact ⟨[], [], rfl, by simp, by simp, .refl _, by simp, by simp, by simp, fun _ _ => rfl,
      by simp, fun _ h => h⟩
  | cons ps order ih =>
    rw [List.foldl_cons]
    have hsplit := hmodels
    rw [List.map_append, List.map_cons, List.nodup_append'] at hsplit
    obtain ⟨-, hcons, hdisjoint⟩ := hsplit
    have hmodel : ps.modelId ∉ l.toLaunch.map PlanState.modelId :=
      fun h => hdisjoint h (.head _)
    have hne : ∀ q ∈ order, q ≠ ps := fun q hq heq =>
      (List.nodup_cons.mp hcons).1 (heq ▸ List.mem_map_of_mem hq)
    by_cases hfits : ps.gpuNum ≤ l.availableGpus.length
    · rw [consider_pending_fits hmodel (hnew ps (.head _)) hfits]
      obtain ⟨loaded, postponed, h⟩ := ih (l := l.granted ps)
        (by rw [Load.granted, List.append_assoc]; exact hmodels)
        (fun q hq => by rw [granted_cells_of_ne (hne q hq)]; exact hnew q (.tail _ hq))
      have hloaded : ps ∉ loaded := fun hmem =>
        hne ps (h.perm.subset (List.mem_append_left _ hmem)) rfl
      refine ⟨ps :: loaded, postponed, ?_, ?_, h.newCandidates, h.perm.cons ps, ?_, ?_, h.tooBig,
        ?_, ?_, fun pool hexcl => h.exclusive pool (granted_exclusive ?_ hexcl)⟩
      · rw [fitting, if_pos hfits, ← List.length_drop]
        exact congrArg (List.cons ps) h.loaded_eq
      · rw [h.toLaunch, Load.granted, List.append_assoc, List.singleton_append]
      · rw [h.available, Load.granted, List.drop_drop, List.map_cons, List.sum_cons]
      · have hlength : _ = (l.availableGpus.drop ps.gpuNum).length := h.length
        rw [List.length_drop] at hlength
        rw [List.map_cons, List.sum_cons]
        omega
      · intro q hq
        rw [List.mem_cons, not_or] at hq
        rw [h.frame q hq.2, granted_cells_of_ne hq.1]
      · intro q hq
        rcases List.mem_cons.mp hq with rfl | hq
        · rw [gpus, h.frame q hloaded, granted_cells_self]
          exact ⟨rfl, List.length_take_of_le hfits⟩
        · exact h.loaded_cell q hq
      · exact fun hmem => hmodel (List.mem_map_of_mem hmem)
    · have hbig : l.availableGpus.length < ps.gpuNum := Nat.lt_of_not_le hfits
      rw [consider_pending_tooBig hmodel (hnew ps (.head _)) hbig]
      have hmodels' : ((l.toLaunch ++ order).map PlanState.modelId).Nodup :=
        hmodels.sublist (((List.sublist_cons_self ps order).append_left _).map _)
      obtain ⟨loaded, postponed, h⟩ := ih
        (l := { l with newCandidates := l.newCandidates ++ [ps] }) hmodels'
        (fun q hq => hnew q (.tail _ hq))
      refine ⟨loaded, ps :: postponed, ?_, h.toLaunch, ?_, ?_, h.available, h.length, ?_, h.frame,
        h.loaded_cell, h.exclusive⟩
      · rw [fitting, if_neg hfits]
        exact h.loaded_eq
      · rw [h.newCandidates, List.append_assoc, List.singleton_append]
      · exact List.perm_middle.trans (h.perm.cons ps)
      · intro q hq
        rcases List.mem_cons.mp hq with rfl | hq
        · have := h.length
          simp only at this
          omega
        · exact h.tooBig q hq

/-! ## Plans of earlier stages -/

/-- The plan goes on with the GPUs it holds. -/
def Load.admitted (l : Load) (ps : PlanState) : Load where
  toLaunch := l.toLaunch ++ [ps]
  newCandidates := l.newCandidates
  availableGpus := l.availableGpus.filter (· ∉ gpus l.cells ps)
  cells := l.cells

section

variable {l : Load} {ps : PlanState}

theorem consider_earlier_fits (hmodel : ps.modelId ∉ l.toLaunch.map PlanState.modelId)
    (hold : (l.cells ps).launched = true) (hfits : ps.gpuNum ≤ l.availableGpus.length) :
    l.consider ps = l.admitted ps := by
  rw [Load.consider, if_neg hmodel, if_pos hfits, hold]
  rfl

theorem consider_earlier_cases (hold : (l.cells ps).launched = true) :
    l.consider ps = l ∨
      ps.modelId ∉ l.toLaunch.map PlanState.modelId ∧ l.consider ps = l.admitted ps := by
  by_cases hmodel : ps.modelId ∈ l.toLaunch.map PlanState.modelId
  · exact .inl (if_pos hmodel)
  · by_cases hfits : ps.gpuNum ≤ l.availableGpus.length
    · exact .inr ⟨hmodel, consider_earlier_fits hmodel hold hfits⟩
    · rw [Load.consider, if_neg hmodel, if_neg hfits, hold]
      exact .inl rfl

end

/-- What happens to plans that hold GPUs: some are admitted again, nothing else changes. -/
structure Readmitted (l : Load) (order back : List PlanState) (l' : Load) : Prop where
  toLaunch : l'.toLaunch = l.toLaunch ++ back
  newCandidates : l'.newCandidates = l.newCandidates
  cells : l'.cells = l.cells
  sublist : back.Sublist order
  models : (l.toLaunch.map PlanState.modelId).Nodup → (l'.toLaunch.map PlanState.modelId).Nodup

theorem exists_readmitted (order : List PlanState) {l : Load}
    (hold : ∀ ps ∈ order, (l.cells ps).launched = true) :
    ∃ back, Readmitted l order back (order.foldl Load.consider l) := by
  induction order generalizing l with
  | nil => exact ⟨[], by simp, rfl, rfl, .slnil, id⟩
  | cons ps order ih =>
    rw [List.foldl_cons]
    rcases consider_earlier_cases (hold ps (.head _)) with hsame | ⟨hmodel, hadmitted⟩
    · obtain ⟨back, h⟩ := ih fun q hq => hold q (.tail _ hq)
      rw [hsame]
      exact ⟨back, h.toLaunch, h.newCandidates, h.cells, h.sublist.cons ps, h.models⟩
    · obtain ⟨back, h⟩ := ih (l := l.admitted ps) fun q hq => hold q (.tail _ hq)
      rw [hadmitted]
      refine ⟨ps :: back, ?_, h.newCandidates, h.cells, h.sublist.cons_cons ps, fun hnodup => ?_⟩
      · rw [h.toLaunch, Load.admitted, List.append_assoc, List.singleton_append]
      · refine h.models ?_
        rw [Load.admitted, List.map_append, List.map_singleton]
        exact hnodup.append (List.nodup_singleton _) (by simpa using hmodel)

/-- Who is asked for: the plans whose models are not to be launched already. -/
def demotedFrom (models : List Nat) (order : List PlanState) : List PlanState :=
  order.filter fun ps => ps.modelId ∉ models

theorem demotedFrom_cons_of_mem {models : List Nat} {ps : PlanState} {order : List PlanState}
    (h : ps.modelId ∈ models) : demotedFrom models (ps :: order) = demotedFrom models order :=
  List.filter_cons_of_neg (by simpa using h)

theorem demotedFrom_cons_of_not_mem {models : List Nat} {ps : PlanState} {order : List PlanState}
    (h : ps.modelId ∉ models) : demotedFrom models (ps :: order) = ps :: demotedFrom models order :=
  List.filter_cons_of_pos (by simpa using h)

/-- Either the plans are admitted again that fit into what is left, or a plan that fits is admitted
although one of its GPUs has gone. -/
theorem foldl_consider_fitting {order : List PlanState} {l : Load}
    (hmodels : (order.map PlanState.modelId).Nodup)
    (hold : ∀ ps ∈ order, (l.cells ps).launched = true)
    (hlength : ∀ ps ∈ order, (gpus l.cells ps).length = ps.gpuNum)
    (hdistinct : ∀ ps ∈ order, (gpus l.cells ps).Nodup)
    (hdisjoint : order.Pairwise fun p q => (gpus l.cells p).Disjoint (gpus l.cells q))
    (hnodup : l.availableGpus.Nodup) :
    (order.foldl Load.consider l).toLaunch = l.toLaunch ++
        fitting l.availableGpus.length (demotedFrom (l.toLaunch.map PlanState.modelId) order) ∨
      ∃ ps ∈ fitting l.availableGpus.length
          (demotedFrom (l.toLaunch.map PlanState.modelId) order),
        ps ∈ (order.foldl Load.consider l).toLaunch ∧ ¬ gpus l.cells ps ⊆ l.availableGpus := by
  induction order generalizing l with
  | nil => exact .inl (List.append_nil _).symm
  | cons ps order ih =>
    obtain ⟨hps, hdisjoint'⟩ := List.pairwise_cons.mp hdisjoint
    rw [List.map_cons, List.nodup_cons] at hmodels
    have ih := fun l' (hcells : l'.cells = l.cells) (hnodup' : l'.availableGpus.Nodup) =>
      ih (l := l') hmodels.2 (fun q hq => hcells ▸ hold q (.tail _ hq))
        (fun q hq => hcells ▸ hlength q (.tail _ hq))
        (fun q hq => hcells ▸ hdistinct q (.tail _ hq)) (hcells ▸ hdisjoint') hnodup'
    rw [List.foldl_cons]
    -- the plan is passed over, does not fit, has lost a GPU, or is admitted with all it holds
    by_cases hmodel : ps.modelId ∈ l.toLaunch.map PlanState.modelId
    · have hskip : l.consider ps = l := if_pos hmodel
      rw [hskip, demotedFrom_cons_of_mem hmodel]
      exact ih l rfl hnodup
    rw [demotedFrom_cons_of_not_mem hmodel]
    by_cases hfits : ps.gpuNum ≤ l.availableGpus.length
    case neg =>
      have hskip : l.consider ps = l := by
        rw [Load.consider, if_neg hmodel, if_neg hfits, hold ps (.head _)]
        rfl
      rw [hskip, fitting, if_neg hfits]
      exact ih l rfl hnodup
    rw [consider_earlier_fits hmodel (hold ps (.head _)) hfits, fitting, if_pos hfits]
    by_cases hsub : gpus l.cells ps ⊆ l.availableGpus
    case neg =>
      obtain ⟨back, hback⟩ := exists_readmitted order (l := l.admitted ps)
        fun q hq => hold q (.tail _ hq)
      refine .inr ⟨ps, .head _, ?_, hsub⟩
      rw [hback.toLaunch]
      exact List.mem_append_left _ (List.mem_append_right _ (.head _))
    -- the plan takes as many GPUs off the free ones as it holds
    have hleft : (l.admitted ps).availableGpus.length = l.availableGpus.length - ps.gpuNum := by
      have hperm := perm_append_filter_notMem (hdistinct ps (.head _)) hnodup hsub
      have hcount := hperm.length_eq
      rw [List.length_append, hlength ps (.head _)] at hcount
      exact Nat.eq_sub_of_add_eq' hcount
    have hasked : demotedFrom ((l.admitted ps).toLaunch.map PlanState.modelId) order =
        demotedFrom (l.toLaunch.map PlanState.modelId) order := by
      refine List.filter_congr fun q hq => ?_
      have hne : q.modelId ≠ ps.modelId := fun heq => hmodels.1 (heq ▸ List.mem_map_of_mem hq)
      simp [Load.admitted, hne]
    rcases ih (l.admitted ps) rfl (hnodup.filter _) with hall | ⟨q, hq, hin, hgone⟩
    · left
      rw [hall, hasked, hleft, Load.admitted, List.append_assoc, List.singleton_append]
    · rw [hasked, hleft] at hq
      refine .inr ⟨q, .tail _ hq, hin, fun hsubq => hgone fun g hg => ?_⟩
      have hmem : q ∈ order := List.mem_of_mem_filter ((fitting_sublist _ _).subset hq)
      exact List.mem_filter.mpr ⟨hsubq hg, decide_eq_true fun hgps => hps q hmem hgps hg⟩

/-- When there is room for all of them, all plans are admitted again. -/
theorem foldl_consider_all {order : List PlanState} {l : Load}
    (hmodels : ((l.toLaunch ++ order).map PlanState.modelId).Nodup)
    (hold : ∀ ps ∈ order, (l.cells ps).launched = true)
    (hlength : ∀ ps ∈ order, (gpus l.cells ps).length ≤ ps.gpuNum)
    (hnodup : l.availableGpus.Nodup)
    (hroom : (order.map PlanState.gpuNum).sum ≤ l.availableGpus.length) :
    (order.foldl Load.consider l).toLaunch = l.toLaunch ++ order ∧
      (order.foldl Load.consider l).newCandidates = l.newCandidates ∧
      (order.foldl Load.consider l).cells = l.cells := by
  induction order generalizing l with
  | nil => exact ⟨(List.append_nil _).symm, rfl, rfl⟩
  | cons ps order ih =>
    have hmodel : ps.modelId ∉ l.toLaunch.map PlanState.modelId := fun hmem => by
      rw [List.map_append, List.map_cons] at hmodels
      exact (List.nodup_append'.mp hmodels).2.2 hmem (.head _)
    rw [List.map_cons, List.sum_cons] at hroom
    rw [List.foldl_cons, consider_earlier_fits hmodel (hold ps (.head _)) (by omega)]
    have hleft : (order.map PlanState.gpuNum).sum ≤ (l.admitted ps).availableGpus.length := by
      have hcount := length_le_length_filter_notMem (gpus l.cells ps) hnodup
      have hself := hlength ps (.head _)
      show _ ≤ (l.availableGpus.filter (· ∉ gpus l.cells ps)).length
      omega
    obtain ⟨hlaunch, hcands, hcells⟩ := ih (l := l.admitted ps)
      (by rw [Load.admitted, List.append_assoc]; exact hmodels)
      (fun q hq => hold q (.tail _ hq)) (fun q hq => hlength q (.tail _ hq)) (hnodup.filter _) hleft
    refine ⟨?_, hcands, hcells⟩
    rw [hlaunch, Load.admitted, List.append_assoc, List.singleton_append]

end Mil.Schedule
