import Mathlib.Algebra.Order.BigOperators.Group.List
import Mil.LightRule.Selection

/-!
# One stage

Which models run in a stage is known before it: the ones that ran before and still have work, with
the waiting models that fit, or, in the first stage of the second branch, all of them (`stageIds`).
A stage that returns has a valid order of costs, keeps within the GPUs and finishes a model
(`preemptiveScheduling_inv`); in the first branch the order is all it needs, in the second every model
with work left has to run (`preemptiveScheduling_total`).
-/

set_option autoImplicit false

namespace Mil.LightRule

open Mil.Lib

/-! ## The models of a stage -/

section

variable (c : Rule)

/-- The waiting models whose smallest plans fit, one after another, into the free GPUs. -/
def Rule.fitting : Nat → List ModelInfor → List Nat
  | _, [] => []
  | free, m :: rest =>
    if (c.minGpuNum m.modelName).1 ≤ free then
      m.modelId :: Rule.fitting (free - (c.minGpuNum m.modelName).1) rest
    else Rule.fitting free rest

/-- The models that run in the next stage. -/
def Rule.stageIds (s : State) : List Nat :=
  if c.totGpuNum ≤ c.demand s.workload then
    Dict.keys s.carried ++ c.fitting (c.totGpuNum - groupGpuNum s.carried) s.waiting
  else if s.last = [] then c.models.map (·.modelId)
  else Dict.keys s.carried

/-- The waiting models are those with work left that do not run. -/
structure State.WaitingOk (s : State) : Prop where
  nodup : (Dict.keys s.last ++ s.waiting.map (·.modelId)).Nodup
  pos : ∀ m ∈ s.waiting, 0 < s.workload m.modelId
  all : ∀ m ∈ c.models, 0 < s.workload m.modelId → m.modelId ∈ Dict.keys s.last ∨ m ∈ s.waiting

/-- What holds between the stages. The waiting models matter as long as the first branch is taken. -/
structure State.Ok (s : State) : Prop where
  group : GroupOk c s.last
  fits : groupGpuNum s.last ≤ c.totGpuNum
  nonneg : ∀ modelId, 0 ≤ s.workload modelId
  start : s.last = [] → ∀ m ∈ c.models, 0 < s.workload m.modelId
  models : s.waiting ⊆ c.models
  waiting : c.totGpuNum ≤ c.demand s.workload → s.WaitingOk c

end

section

variable {c : Rule} {s s' : State} {plans : PlanDict}

/-! ## The plans that are carried over -/

theorem mem_keys_carried {modelId : Nat} :
    modelId ∈ Dict.keys s.carried ↔ modelId ∈ Dict.keys s.last ∧ 0 < s.workload modelId := by
  rw [Dict.keys, List.mem_map]
  constructor
  · rintro ⟨e, he, rfl⟩
    obtain ⟨he, hpos⟩ := List.mem_filter.mp he
    exact ⟨List.mem_map_of_mem he, of_decide_eq_true hpos⟩
  · rintro ⟨h, hpos⟩
    obtain ⟨e, he, rfl⟩ := List.mem_map.mp h
    exact ⟨e, List.mem_filter.mpr ⟨he, decide_eq_true hpos⟩, rfl⟩

theorem carried_sublist : s.carried.Sublist s.last := List.filter_sublist

theorem GroupOk.sublist {plans' : PlanDict} (h : GroupOk c plans) (hsub : plans'.Sublist plans) :
    GroupOk c plans' :=
  ⟨h.keys_nodup.sublist (hsub.map _), fun e he => h.plan e (hsub.subset he)⟩

theorem groupGpuNum_carried_le : groupGpuNum s.carried ≤ groupGpuNum s.last :=
  (carried_sublist.map _).sum_le_sum fun _ _ => Nat.zero_le _

/-- A plan of a new model. -/
theorem GroupOk.concat (h : GroupOk c plans) {m : ModelInfor} (hm : m ∈ c.models) {p : Plan}
    (hp : p ∈ c.execPlans m.modelId) (hmodel : p.model = m) (hnew : m.modelId ∉ Dict.keys plans) :
    GroupOk c (plans ++ [(m.modelId, p)]) := by
  refine ⟨?_, fun e he => ?_⟩
  · rw [← Dict.set_of_not_mem hnew]
    exact Dict.nodup_keys_set h.keys_nodup _ _
  · rcases List.mem_append.mp he with he | he
    · exact h.plan e he
    · obtain rfl := List.mem_singleton.mp he
      exact ⟨hmodel ▸ hm, congrArg _ hmodel, hp⟩

theorem groupGpuNum_append (plans plans' : PlanDict) :
    groupGpuNum (plans ++ plans') = groupGpuNum plans + groupGpuNum plans' := by
  rw [groupGpuNum, List.map_append, List.sum_append, groupGpuNum, groupGpuNum]

/-! ## The first branch -/

theorem smallestPlan_spec (hc : c.WellFormed) {m : ModelInfor} (hm : m ∈ c.models) :
    ∃ p, c.smallestPlan m = some p ∧ p ∈ c.execPlans m.modelId ∧ p.model = m ∧
      p.gpuNum = (c.minGpuNum m.modelName).1 := by
  obtain ⟨q, hq, hmin⟩ := hc.smallest_mem m hm
  have : Std.Total fun p q : Plan => p.gpuNum ≤ q.gpuNum := ⟨fun p q => Nat.le_total _ _⟩
  have : IsTrans Plan fun p q => p.gpuNum ≤ q.gpuNum := ⟨fun _ _ _ => Nat.le_trans⟩
  have hsorted := List.pairwise_insertionSort (fun p q : Plan => p.gpuNum ≤ q.gpuNum)
    (c.execPlans m.modelId)
  have hperm := List.perm_insertionSort (fun p q : Plan => p.gpuNum ≤ q.gpuNum)
    (c.execPlans m.modelId)
  rw [Rule.smallestPlan]
  cases hlist : (c.execPlans m.modelId).insertionSort fun p q => p.gpuNum ≤ q.gpuNum with
  | nil =>
    rw [hlist] at hperm
    exact absurd (hperm.symm.subset hq) List.not_mem_nil
  | cons p rest =>
    rw [hlist] at hsorted hperm
    have hp : p ∈ c.execPlans m.modelId := hperm.subset (.head _)
    refine ⟨p, rfl, hp, (hc.plans m hm p hp).1, Nat.le_antisymm ?_ (hc.smallest_le m hm p hp)⟩
    rw [← congrArg Prod.fst hmin]
    rcases List.mem_cons.mp (hperm.symm.subset hq) with rfl | hq
    · exact le_refl _
    · exact (List.pairwise_cons.mp hsorted).1 q hq

/-- The loop over the waiting models takes those that fit. -/
theorem admit_spec (hc : c.WellFormed) {l : List ModelInfor} (hl : l ⊆ c.models) {a : Admission}
    (hgroup : GroupOk c a.plans) (hgpu : groupGpuNum a.plans = a.gpuNum)
    (hfits : a.gpuNum ≤ c.totGpuNum)
    (hnodup : (Dict.keys a.plans ++ l.map (·.modelId)).Nodup) :
    ∃ a' left, l.foldlM c.admit a = some a' ∧ GroupOk c a'.plans ∧
      groupGpuNum a'.plans ≤ c.totGpuNum ∧
      Dict.keys a'.plans = Dict.keys a.plans ++ c.fitting (c.totGpuNum - a.gpuNum) l ∧
      a'.remainingModels = a.remainingModels ++ left ∧ left.Sublist l ∧
      (c.fitting (c.totGpuNum - a.gpuNum) l ++ left.map (·.modelId)).Perm (l.map (·.modelId)) := by
  induction l generalizing a with
  | nil =>
    exact ⟨a, [], rfl, hgroup, hgpu ▸ hfits, (List.append_nil _).symm, (List.append_nil _).symm,
      .slnil, .nil⟩
  | cons m l ih =>
    have hm : m ∈ c.models := hl (.head _)
    have hl : l ⊆ c.models := fun _ h => hl (.tail _ h)
    obtain ⟨p, hp, hplan, hmodel, hsize⟩ := smallestPlan_spec hc hm
    have hnew : m.modelId ∉ Dict.keys a.plans := fun hin =>
      (List.nodup_append'.mp hnodup).2.2 hin (.head _)
    have hadmit : c.admit a m = some (if a.gpuNum + p.gpuNum ≤ c.totGpuNum then
        { a with plans := a.plans ++ [(m.modelId, p)], gpuNum := a.gpuNum + p.gpuNum }
        else { a with remainingModels := a.remainingModels ++ [m] }) := by
      rw [ Rule.admit, hp, Option.bind_eq_bind, Option.bind_some, Dict.set_of_not_mem hnew]
      split <;> rfl
    rw [List.foldlM_cons, hadmit, Option.bind_eq_bind, Option.bind_some, Rule.fitting]
    by_cases hroom : a.gpuNum + p.gpuNum ≤ c.totGpuNum
    · rw [if_pos hroom, if_pos (by omega), ← hsize, Nat.sub_sub]
      obtain ⟨a', left, hrun, hgroup', hfits', hkeys, hleft, hsub, hperm⟩ := ih hl
        (a := { a with plans := a.plans ++ [(m.modelId, p)], gpuNum := a.gpuNum + p.gpuNum })
        (hgroup.concat hm hplan hmodel hnew)
        (by rw [groupGpuNum_append, hgpu]; rfl) hroom
        (by rw [Dict.keys_append, List.append_assoc]; exact hnodup)
      refine ⟨a', left, hrun, hgroup', hfits', ?_, hleft, hsub.cons _, hperm.cons _⟩
      rw [hkeys, Dict.keys_append, List.append_assoc]
      rfl
    · rw [if_neg hroom, if_neg (by omega)]
      have hsub' : (Dict.keys a.plans ++ l.map (·.modelId)).Sublist
          (Dict.keys a.plans ++ (m :: l).map (·.modelId)) :=
        ((List.sublist_cons_self m l).map _).append_left _
      obtain ⟨a', left, hrun, hgroup', hfits', hkeys, hleft, hsub, hperm⟩ := ih hl
        (a := { a with remainingModels := a.remainingModels ++ [m] }) hgroup hgpu hfits
        (hnodup.sublist hsub')
      refine ⟨a', m :: left, hrun, hgroup', hfits', hkeys, ?_, hsub.cons_cons _, ?_⟩
      · rw [hleft, List.append_assoc]
        rfl
      · exact List.perm_middle.trans (hperm.cons _)

theorem exists_of_mem_fitting {modelId free : Nat} {l : List ModelInfor}
    (h : modelId ∈ c.fitting free l) : ∃ m ∈ l, m.modelId = modelId := by
  induction l generalizing free with
  | nil => cases h
  | cons m l ih =>
    rw [Rule.fitting] at h
    split at h
    · rcases List.mem_cons.mp h with rfl | h
      · exact ⟨m, .head _, rfl⟩
      · obtain ⟨q, hq, heq⟩ := ih h
        exact ⟨q, .tail _ hq, heq⟩
    · obtain ⟨q, hq, heq⟩ := ih h
      exact ⟨q, .tail _ hq, heq⟩

theorem stageIds_first (hmany : c.totGpuNum ≤ c.demand s.workload) : c.stageIds s =
    Dict.keys s.carried ++ c.fitting (c.totGpuNum - groupGpuNum s.carried) s.waiting :=
  if_pos hmany

theorem admitWaiting_spec (hc : c.WellFormed) (hok : s.Ok c)
    (hmany : c.totGpuNum ≤ c.demand s.workload) :
    ∃ a, c.admitWaiting s = some a ∧ GroupOk c a.plans ∧ groupGpuNum a.plans ≤ c.totGpuNum ∧
      Dict.keys a.plans = c.stageIds s ∧ a.remainingModels.Sublist s.waiting ∧
      (c.stageIds s ++ a.remainingModels.map (·.modelId)).Perm
        (Dict.keys s.carried ++ s.waiting.map (·.modelId)) := by
  have hwaiting := hok.waiting hmany
  have hsub : (Dict.keys s.carried ++ s.waiting.map (·.modelId)).Sublist
      (Dict.keys s.last ++ s.waiting.map (·.modelId)) := (carried_sublist.map _).append_right _
  obtain ⟨a, left, hrun, hgroup, hfits, hkeys, hleft, hleftSub, hperm⟩ := admit_spec hc
    hok.models (a := ⟨s.carried, groupGpuNum s.carried, []⟩)
    (hok.group.sublist carried_sublist) rfl (groupGpuNum_carried_le.trans hok.fits)
    (hwaiting.nodup.sublist hsub)
  obtain rfl : a.remainingModels = left := hleft
  refine ⟨a, hrun, hgroup, hfits, hkeys.trans (stageIds_first hmany).symm, hleftSub, ?_⟩
  rw [stageIds_first hmany, List.append_assoc]
  exact hperm.append_left _

/-! ## The second branch -/

/-- The smallest plans, with the sizes `min_gpu_num_dict` gives. -/
theorem minPlans_spec (hc : c.WellFormed) : ∃ plans, c.minPlans = some plans ∧ GroupOk c plans ∧
    plans.map (fun e => (e.1, e.2.gpuNum, e.2.numWorker)) =
      c.models.map fun m => (m.modelId, c.minGpuNum m.modelName) := by
  have hall : ∀ l ⊆ c.models, ∃ plans : PlanDict, l.mapM (fun m => do
      let p ← (c.execPlans m.modelId).find? fun p =>
        (p.gpuNum, p.numWorker) = c.minGpuNum m.modelName
      pure (m.modelId, p)) = some plans ∧
      (∀ e ∈ plans, e.2.model ∈ c.models ∧ e.2.model.modelId = e.1 ∧ e.2 ∈ c.execPlans e.1) ∧
      plans.map (fun e => (e.1, e.2.gpuNum, e.2.numWorker)) =
        l.map fun m => (m.modelId, c.minGpuNum m.modelName) := by
    intro l
    induction l with
    | nil => exact fun _ => ⟨[], rfl, fun _ h => absurd h List.not_mem_nil, rfl⟩
    | cons m l ih =>
      intro hl
      have hm : m ∈ c.models := hl (.head _)
      obtain ⟨plans, hplans, hok, hsizes⟩ := ih fun _ h => hl (.tail _ h)
      obtain ⟨q, hq, hmin⟩ := hc.smallest_mem m hm
      obtain ⟨p, hp⟩ := Option.isSome_iff_exists.mp
        (List.find?_isSome (p := fun p => decide ((p.gpuNum, p.numWorker) =
          c.minGpuNum m.modelName)) |>.mpr ⟨q, hq, decide_eq_true hmin⟩)
      have hsize := List.find?_some hp
      rw [decide_eq_true_eq] at hsize
      have hplan := List.mem_of_find?_eq_some hp
      refine ⟨(m.modelId, p) :: plans, ?_, fun e he => ?_, ?_⟩
      · rw [List.mapM_cons, hp, hplans]
        rfl
      · rcases List.mem_cons.mp he with rfl | he
        · obtain ⟨hmodel, -⟩ := hc.plans m hm p hplan
          exact ⟨hmodel ▸ hm, congrArg _ hmodel, hplan⟩
        · exact hok e he
      · rw [List.map_cons, List.map_cons, hsizes, hsize]
  obtain ⟨plans, hplans, hok, hsizes⟩ := hall c.models fun _ h => h
  have hkeys : Dict.keys plans = c.models.map (·.modelId) := by
    have h := congrArg (List.map Prod.fst) hsizes
    rw [List.map_map, List.map_map] at h
    exact h
  exact ⟨plans, hplans, ⟨hkeys ▸ hc.ids_nodup, hok⟩, hsizes⟩

theorem groupGpuNum_eq_sizes (plans : PlanDict) : groupGpuNum plans =
    ((plans.map fun e => (e.1, e.2.gpuNum, e.2.numWorker)).map fun e => e.2.1).sum := by
  rw [List.map_map]
  rfl

theorem demand_of_pos (hpos : ∀ m ∈ c.models, 0 < s.workload m.modelId) :
    c.demand s.workload = (c.models.map fun m => (c.minGpuNum m.modelName).1).sum := by
  rw [Rule.demand, List.filter_eq_self.mpr fun m hm => decide_eq_true (hpos m hm)]

theorem startPlans_spec (hc : c.WellFormed) (hok : s.Ok c)
    (hfew : c.demand s.workload < c.totGpuNum) :
    ∃ plans, c.startPlans s = some (plans, plans.map fun e => (e.1, e.2.gpuNum, e.2.numWorker)) ∧
      GroupOk c plans ∧ groupGpuNum plans ≤ c.totGpuNum ∧ Dict.keys plans = c.stageIds s := by
  rw [Rule.startPlans, Rule.stageIds, if_neg (Nat.not_le.mpr hfew)]
  by_cases hlast : s.last = []
  · rw [if_pos hlast, if_pos hlast]
    obtain ⟨plans, hplans, hgroup, hsizes⟩ := minPlans_spec hc
    refine ⟨plans, by rw [hplans, hsizes]; rfl, hgroup, ?_, ?_⟩
    · rw [groupGpuNum_eq_sizes, hsizes, List.map_map]
      refine Nat.le_of_lt (lt_of_eq_of_lt ?_ hfew)
      exact (demand_of_pos (hok.start hlast)).symm
    · have h := congrArg (List.map Prod.fst) hsizes
      rw [List.map_map, List.map_map] at h
      exact h
  · rw [if_neg hlast, if_neg hlast]
    exact ⟨s.carried, rfl, hok.group.sublist carried_sublist,
      groupGpuNum_carried_le.trans hok.fits, rfl⟩

/-- The selection loop starts with what the group leaves. -/
theorem SelectionOk.init (hc : c.WellFormed) (hg : GroupOk c plans)
    (hfits : groupGpuNum plans ≤ c.totGpuNum) {last : PlanDict} {w : Nat → ℚ} {costs : Costs}
    (hcosts : c.compModelCosts last w plans = some costs) :
    SelectionOk c (Dict.keys plans) ⟨plans, costs.cost, c.totGpuNum - groupGpuNum plans,
      plans.map fun e => (e.1, e.2.gpuNum, e.2.numWorker)⟩ := by
  obtain ⟨-, hok⟩ := (compModelCosts_spec hc hg).2 costs hcosts
  have halloc : ∀ modelId, (plans.map fun e => (e.1, e.2.gpuNum, e.2.numWorker)).lookup modelId =
      (plans.lookup modelId).map fun p => (p.gpuNum, p.numWorker) :=
    Dict.lookup_map (fun p : Plan => (p.gpuNum, p.numWorker)) plans
  refine ⟨hg, rfl, fun modelId => ?_, fun modelId => ⟨fun p hp => ?_, fun hout => ?_⟩, ?_⟩
  · rw [hok.keys_cost]
    exact (sortedModelIds_perm c plans).mem_iff
  · rw [halloc, hp]
    exact ⟨_, rfl⟩
  · rw [halloc, Dict.lookup_eq_none.mpr hout]
    rfl
  · show groupGpuNum plans + (c.totGpuNum - groupGpuNum plans) ≤ c.totGpuNum
    exact Nat.le_of_eq (Nat.add_sub_of_le hfits)

/-! ## The stage -/

theorem carried_subset_stageIds : Dict.keys s.carried ⊆ c.stageIds s := by
  intro modelId h
  rw [Rule.stageIds]
  split
  · exact List.mem_append_left _ h
  · split
    · rename_i hlast
      rw [State.carried, hlast] at h
      cases h
    · exact h

theorem stageIds_pos (hok : s.Ok c) {modelId : Nat} (h : modelId ∈ c.stageIds s) :
    0 < s.workload modelId := by
  rw [Rule.stageIds] at h
  split at h
  · rename_i hmany
    rcases List.mem_append.mp h with h | h
    · exact (mem_keys_carried.mp h).2
    · obtain ⟨m, hm, rfl⟩ := exists_of_mem_fitting h
      exact (hok.waiting hmany).pos m hm
  · split at h
    · rename_i hlast
      obtain ⟨m, hm, rfl⟩ := List.mem_map.mp h
      exact hok.start hlast m hm
    · exact (mem_keys_carried.mp h).2

/-- What a stage does. -/
structure StageOk (c : Rule) (s : State) (group : PlanDict) (s' : State) : Prop where
  last : s'.last = group
  ok : GroupOk c group
  fits : groupGpuNum group ≤ c.totGpuNum
  keys : Dict.keys group = c.stageIds s
  order : CostOrder c (c.stageIds s)
  frame : ∀ modelId, modelId ∉ c.stageIds s → s'.workload modelId = s.workload modelId
  nonneg : ∀ modelId, 0 ≤ s'.workload modelId
  finished : ∃ modelId ∈ c.stageIds s, s'.workload modelId = 0
  left : s'.waiting.Sublist s.waiting
  waiting : c.totGpuNum ≤ c.demand s.workload →
    (c.stageIds s ++ s'.waiting.map (·.modelId)).Perm
      (Dict.keys s.carried ++ s.waiting.map (·.modelId))

/-- The update at the end of a stage. -/
theorem StageOk.of_update (hc : c.WellFormed) (hok : s.Ok c) (hg : GroupOk c plans)
    (hfits : groupGpuNum plans ≤ c.totGpuNum) (hkeys : Dict.keys plans = c.stageIds s)
    {w : Nat → ℚ} (hw : c.updateWorkloadDict plans s.last s.workload = some w)
    {waiting : List ModelInfor} (hleft : waiting.Sublist s.waiting)
    (hwaiting : c.totGpuNum ≤ c.demand s.workload →
      (c.stageIds s ++ waiting.map (·.modelId)).Perm
        (Dict.keys s.carried ++ s.waiting.map (·.modelId))) :
    StageOk c s plans ⟨plans, w, waiting⟩ := by
  obtain ⟨horder, hne⟩ := updateWorkloadDict_inv hc hg hw
  obtain ⟨w', hw', hframe, hnonneg, hfinished⟩ := updateWorkloadDict_spec hc hg hne
    (fun modelId h => stageIds_pos hok (hkeys ▸ h)) hok.nonneg horder
  obtain rfl := Option.some.inj (hw.symm.trans hw')
  rw [hkeys] at horder hframe hfinished
  exact ⟨rfl, hg, hfits, hkeys, horder, hframe, hnonneg, hfinished, hleft, hwaiting⟩

/-- A stage that returns. -/
theorem preemptiveScheduling_inv (hc : c.WellFormed) (hok : s.Ok c) {group : PlanDict}
    (h : c.preemptiveScheduling s = some (group, s')) : StageOk c s group s' := by
  rw [Rule.preemptiveScheduling] at h
  split at h
  · rename_i hmany
    obtain ⟨a, ha, hgroup, hfits, hkeys, hleft, hperm⟩ := admitWaiting_spec hc hok hmany
    rw [ha, Option.bind_eq_bind, Option.bind_some] at h
    obtain ⟨w, hw, h⟩ := Option.bind_eq_some_iff.mp h
    obtain ⟨rfl, rfl⟩ := Prod.mk.inj (Option.some.inj h)
    exact .of_update hc hok hgroup hfits hkeys hw hleft fun _ => hperm
  · rename_i hfew
    obtain ⟨plans, hplans, hgroup, hfits, hkeys⟩ := startPlans_spec hc hok (Nat.not_le.mp hfew)
    rw [hplans, Option.bind_eq_bind, Option.bind_some] at h
    obtain ⟨costs, hcosts, h⟩ := Option.bind_eq_some_iff.mp h
    obtain ⟨sel, hsel, h⟩ := Option.bind_eq_some_iff.mp h
    obtain ⟨w, hw, h⟩ := Option.bind_eq_some_iff.mp h
    obtain ⟨rfl, rfl⟩ := Prod.mk.inj (Option.some.inj h)
    rw [← groupGpuNum_eq_sizes] at hsel
    have hselOk := selectPlans_inv hc (.init hc hgroup hfits hcosts) hsel
    exact .of_update hc hok hselOk.group (Nat.le_of_add_right_le hselOk.fits)
      (hselOk.keys.trans hkeys) hw (.refl _) fun hmany => absurd hmany hfew

/-- There is a model to run. -/
theorem stageIds_ne_nil (hc : c.WellFormed) (hok : s.Ok c) (hunfinished : c.unfinished s)
    (hall : c.totGpuNum ≤ c.demand s.workload ∨
      ∀ m ∈ c.models, 0 < s.workload m.modelId → m.modelId ∈ c.stageIds s) :
    c.stageIds s ≠ [] := by
  obtain ⟨m, hm, hpos⟩ := List.any_eq_true.mp hunfinished
  rw [decide_eq_true_eq] at hpos
  rcases hall with hmany | hall
  · rw [stageIds_first hmany]
    intro hnil
    obtain ⟨hcarried, hfitting⟩ := List.append_eq_nil_iff.mp hnil
    have hwaiting := hok.waiting hmany
    rcases hwaiting.all m hm hpos with hin | hin
    · have hin := mem_keys_carried.mpr ⟨hin, hpos⟩
      rw [hcarried] at hin
      exact List.not_mem_nil hin
    · -- Nobody runs, so the first waiting model has all GPUs.
      rw [List.map_eq_nil_iff.mp hcarried] at hfitting
      cases hlist : s.waiting with
      | nil =>
        rw [hlist] at hin
        exact List.not_mem_nil hin
      | cons q rest =>
        have hq : q ∈ c.models := hok.models (hlist ▸ .head _)
        have hroom : (c.minGpuNum q.modelName).1 ≤ c.totGpuNum - groupGpuNum [] :=
          hc.smallest_fits q hq
        rw [hlist, Rule.fitting, if_pos hroom] at hfitting
        cases hfitting
  · exact List.ne_nil_of_mem (hall m hm hpos)

/-- A stage returns if the costs can be computed and, in the second branch, every model with work left
is to run. -/
theorem preemptiveScheduling_total (hc : c.WellFormed) (hok : s.Ok c)
    (hunfinished : c.unfinished s) (horder : CostOrder c (c.stageIds s))
    (hall : c.totGpuNum ≤ c.demand s.workload ∨
      ∀ m ∈ c.models, 0 < s.workload m.modelId → m.modelId ∈ c.stageIds s) :
    ∃ group s', c.preemptiveScheduling s = some (group, s') := by
  have hne := stageIds_ne_nil hc hok hunfinished hall
  have hupdate : ∀ group, GroupOk c group → Dict.keys group = c.stageIds s →
      ∃ w, c.updateWorkloadDict group s.last s.workload = some w := by
    intro group hgroup hkeys
    have hgne : group ≠ [] := by
      rintro rfl
      exact hne hkeys.symm
    obtain ⟨w, hw, -⟩ := updateWorkloadDict_spec hc hgroup hgne
      (fun modelId h => stageIds_pos hok (hkeys ▸ h)) hok.nonneg (hkeys ▸ horder)
    exact ⟨w, hw⟩
  rw [Rule.preemptiveScheduling]
  split
  · rename_i hmany
    obtain ⟨a, ha, hgroup, -, hkeys, -⟩ := admitWaiting_spec hc hok hmany
    obtain ⟨w, hw⟩ := hupdate a.plans hgroup hkeys
    rw [ha, Option.bind_eq_bind, Option.bind_some, hw]
    exact ⟨_, _, rfl⟩
  · rename_i hfew
    have hall := hall.resolve_left hfew
    obtain ⟨plans, hplans, hgroup, hfits, hkeys⟩ := startPlans_spec hc hok (Nat.not_le.mp hfew)
    have hcosts : ∃ costs, c.compModelCosts s.last s.workload plans = some costs :=
      (compModelCosts_spec hc hgroup).1 (hkeys ▸ horder)
    obtain ⟨costs, hcosts⟩ := hcosts
    have hinit := SelectionOk.init hc hgroup hfits hcosts
    rw [hkeys] at hinit
    obtain ⟨sel, hsel⟩ : ∃ sel, c.selectPlans s.last s.workload _ _ = some sel :=
      selectPlans_total hc hinit (le_refl _) horder hne hall
    have hselOk := selectPlans_inv hc hinit hsel
    obtain ⟨w, hw⟩ := hupdate sel.plans hselOk.group hselOk.keys
    rw [groupGpuNum_eq_sizes] at hsel
    simp only [hplans, Option.bind_eq_bind, Option.bind_some, hcosts, hsel, hw]
    exact ⟨_, _, rfl⟩

section

variable {group : PlanDict}

/-- Who has work left after a stage had work before it. -/
theorem StageOk.pos_of_pos (h : StageOk c s group s') (hok : s.Ok c) {modelId : Nat}
    (hpos : 0 < s'.workload modelId) : 0 < s.workload modelId := by
  by_cases hin : modelId ∈ c.stageIds s
  · exact stageIds_pos hok hin
  · exact h.frame modelId hin ▸ hpos

theorem StageOk.demand_le (h : StageOk c s group s') (hok : s.Ok c) :
    c.demand s'.workload ≤ c.demand s.workload := by
  refine List.Sublist.sum_le_sum (List.Sublist.map _ ?_) fun _ _ => Nat.zero_le _
  exact List.monotone_filter_right _ fun m hpos =>
    decide_eq_true (h.pos_of_pos hok (of_decide_eq_true hpos))

/-- The state after a stage. -/
theorem StageOk.next (h : StageOk c s group s') (hc : c.WellFormed) (hok : s.Ok c) : s'.Ok c := by
  refine ⟨h.last ▸ h.ok, h.last ▸ h.fits, h.nonneg, fun hnil => ?_,
    fun m hm => hok.models (h.left.subset hm), fun hmany => ?_⟩
  · obtain ⟨modelId, hin, -⟩ := h.finished
    rw [← h.keys, ← h.last, hnil] at hin
    exact absurd hin List.not_mem_nil
  · have hwas := hmany.trans (h.demand_le hok)
    have hwaiting := hok.waiting hwas
    have hperm := h.waiting hwas
    have hsub' : (Dict.keys s.carried ++ s.waiting.map (·.modelId)).Sublist
        (Dict.keys s.last ++ s.waiting.map (·.modelId)) := (carried_sublist.map _).append_right _
    have hnodup := hperm.nodup_iff.mpr (hwaiting.nodup.sublist hsub')
    have hout : ∀ m ∈ s'.waiting, m.modelId ∉ c.stageIds s := fun m hm hin =>
      (List.nodup_append'.mp hnodup).2.2 hin (List.mem_map_of_mem hm)
    refine ⟨?_, fun m hm => ?_, fun m hm hpos => ?_⟩
    · rw [h.last, h.keys]
      exact hnodup
    · rw [h.frame _ (hout m hm)]
      exact hwaiting.pos m (h.left.subset hm)
    · have hin : m.modelId ∈ Dict.keys s.carried ++ s.waiting.map (·.modelId) := by
        have hwork := h.pos_of_pos hok hpos
        rcases hwaiting.all m hm hwork with hin | hin
        · exact List.mem_append_left _ (mem_keys_carried.mpr ⟨hin, hwork⟩)
        · exact List.mem_append_right _ (List.mem_map_of_mem hin)
      rcases List.mem_append.mp (hperm.symm.subset hin) with hin | hin
      · exact .inl (by rw [h.last, h.keys]; exact hin)
      · obtain ⟨q, hq, heq⟩ := List.mem_map.mp hin
        have hqm := hok.models (h.left.subset hq)
        exact .inr (hc.eq_of_modelId hqm hm heq ▸ hq)

end

end

end Mil.LightRule
