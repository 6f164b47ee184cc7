import Mathlib.Data.Finset.Card
import Mil.LightRule.Stage

/-!
# The schedule

A schedule is valid if every stage fits, keeps the models that have work left and runs a model only
with those of its inputs that are not finished, until nobody has work left (`ValidFrom`). The
scheduler returns a valid one exactly when every state it gets to, with work left, is `Clear`: no
waiting model is admitted before one of its inputs (the loop that should skip such models has no
effect), the first inputs come first in the order of the costs, and the second branch, which does not
look at the waiting models, has nobody waiting.
-/

set_option autoImplicit false

namespace Mil.LightRule

open Mil.Lib

/-! ## Valid schedules -/

section

variable (c : Rule)

/-- The start: all models wait, inputs before the models they feed, and have work. -/
structure Rule.Start (s : State) : Prop where
  last : s.last = []
  waiting : s.waiting.Perm c.models
  inputsFirst : ∀ i (h : i < s.waiting.length),
    s.waiting[i].inputModelIds ⊆ (s.waiting.take i).map (·.modelId)
  pos : ∀ m ∈ c.models, 0 < s.workload m.modelId
  zero : ∀ modelId, modelId ∉ c.models.map (·.modelId) → s.workload modelId = 0

/-- A stage between two states. -/
structure StageValid (s : State) (group : PlanDict) (s' : State) : Prop where
  fits : groupGpuNum group ≤ c.totGpuNum
  plans : GroupOk c group
  keeps : ∀ modelId ∈ Dict.keys s.last, 0 < s.workload modelId → modelId ∈ Dict.keys group
  frame : ∀ modelId, modelId ∉ Dict.keys group → s'.workload modelId = s.workload modelId
  inputs : ∀ e ∈ group, ∀ inp ∈ e.2.model.inputModelIds,
    s.workload inp = 0 ∨ inp ∈ Dict.keys group

def ValidFrom : State → List (PlanDict × State) → Prop
  | s, [] => ∀ m ∈ c.models, s.workload m.modelId = 0
  | s, stage :: rest => StageValid c s stage.1 stage.2 ∧ ValidFrom stage.2 rest

/-- One round of the loop. -/
def Rule.Step (s s' : State) : Prop :=
  c.unfinished s = true ∧ ∃ group, c.preemptiveScheduling s = some (group, s')

/-- Nothing goes wrong in the next stage. -/
structure State.Clear (s : State) : Prop where
  ready : ∀ m ∈ s.waiting, m.modelId ∈ c.stageIds s → ∀ inp ∈ m.inputModelIds,
    s.workload inp = 0 ∨ inp ∈ c.stageIds s
  order : CostOrder c (c.stageIds s)
  all : c.totGpuNum ≤ c.demand s.workload ∨
    ∀ m ∈ c.models, 0 < s.workload m.modelId → m.modelId ∈ c.stageIds s

/-- The inputs of the models that ran. -/
def State.InputsOk (s : State) : Prop :=
  ∀ e ∈ s.last, ∀ inp ∈ e.2.model.inputModelIds, s.workload inp = 0 ∨ inp ∈ Dict.keys s.last

end

section

variable {c : Rule} {s s' : State} {group : PlanDict}

theorem Rule.Start.ok (h : c.Start s) (hc : c.WellFormed) : s.Ok c := by
  refine ⟨?_, ?_, fun modelId => ?_, fun _ => h.pos, h.waiting.subset, fun _ => ⟨?_, ?_, ?_⟩⟩
  · rw [h.last]
    exact ⟨List.nodup_nil, fun _ h => absurd h List.not_mem_nil⟩
  · rw [h.last]
    exact Nat.zero_le _
  · by_cases hin : modelId ∈ c.models.map (·.modelId)
    · obtain ⟨m, hm, rfl⟩ := List.mem_map.mp hin
      exact (h.pos m hm).le
    · exact (h.zero modelId hin).ge
  · rw [h.last]
    exact (h.waiting.map _).nodup_iff.mpr hc.ids_nodup
  · exact fun m hm => h.pos m (h.waiting.subset hm)
  · exact fun m hm _ => .inr (h.waiting.symm.subset hm)

/-! ## Clear states -/

/-- The stage after a clear state is valid. -/
theorem StageOk.valid (h : StageOk c s group s') (hc : c.WellFormed) (hok : s.Ok c)
    (hinputs : s.InputsOk) (hclear : s.Clear c) : StageValid c s group s' := by
  refine ⟨h.fits, h.ok, fun modelId hlast hpos => ?_, fun modelId hout => ?_,
    fun e he inp hinp => ?_⟩
  · rw [h.keys]
    exact carried_subset_stageIds (mem_keys_carried.mpr ⟨hlast, hpos⟩)
  · exact h.frame modelId (h.keys ▸ hout)
  · obtain ⟨hm, hid, -⟩ := h.ok.plan e he
    have hin : e.1 ∈ c.stageIds s := h.keys ▸ List.mem_map_of_mem he
    have hzero : ¬ 0 < s.workload inp → s.workload inp = 0 := fun hnot =>
      le_antisymm (not_lt.mp hnot) (hok.nonneg inp)
    rw [h.keys]
    rcases hclear.all with hmany | hall
    · rcases List.mem_append.mp (stageIds_first hmany ▸ hin) with hcarried | hfit
      · -- It ran before, with its inputs.
        obtain ⟨e', he', heq⟩ := List.mem_map.mp hcarried
        obtain ⟨hm', hid', -⟩ := hok.group.plan e' (carried_sublist.subset he')
        have hmodel := hc.eq_of_modelId hm' hm (hid'.trans (heq.trans hid.symm))
        rcases hinputs e' (carried_sublist.subset he') inp (hmodel ▸ hinp) with hdone | hran
        · exact .inl hdone
        · by_cases hpos : 0 < s.workload inp
          · exact .inr (carried_subset_stageIds (mem_keys_carried.mpr ⟨hran, hpos⟩))
          · exact .inl (hzero hpos)
      · -- It waited.
        obtain ⟨m, hwait, heq⟩ := exists_of_mem_fitting hfit
        have hmodel := hc.eq_of_modelId (hok.models hwait) hm (heq.trans hid.symm)
        exact hclear.ready m hwait (heq ▸ hin) inp (hmodel ▸ hinp)
    · obtain ⟨q, hq, rfl⟩ := List.mem_map.mp (hc.inputs_mem _ _ ⟨e.2.model, hm, rfl, hinp⟩)
      by_cases hpos : 0 < s.workload q.modelId
      · exact .inr (hall q hq hpos)
      · exact .inl (hzero hpos)

/-- After a valid stage the inputs of the models that ran are finished or ran as well. -/
theorem StageOk.inputsOk (h : StageOk c s group s') (hok : s.Ok c) (hvalid : StageValid c s group s') :
    s'.InputsOk := by
  intro e he inp hinp
  rw [h.last] at he ⊢
  rcases hvalid.inputs e he inp hinp with hzero | hin
  · refine .inl ((h.frame inp fun hin => ?_).trans hzero)
    exact absurd hzero (stageIds_pos hok hin).ne'
  · exact .inr hin

/-! ## Runs -/

/-- The models with work left. -/
def Rule.left (c : Rule) (s : State) : Finset Nat :=
  (c.models.map (·.modelId)).toFinset.filter (0 < s.workload ·)

/-- Every stage finishes a model. -/
theorem StageOk.left_lt (h : StageOk c s group s') (hok : s.Ok c) :
    (c.left s').card < (c.left s).card := by
  have hsub : c.left s' ⊆ c.left s := fun modelId hin => by
    obtain ⟨hin, hpos⟩ := Finset.mem_filter.mp hin
    exact Finset.mem_filter.mpr ⟨hin, h.pos_of_pos hok hpos⟩
  obtain ⟨modelId, hin, hzero⟩ := h.finished
  refine Finset.card_lt_card ((Finset.ssubset_iff_of_subset hsub).mpr ⟨modelId, ?_, fun hleft => ?_⟩)
  · obtain ⟨e, he, rfl⟩ := List.mem_map.mp (h.keys.symm ▸ hin)
    obtain ⟨hm, hid, -⟩ := h.ok.plan e he
    refine Finset.mem_filter.mpr ⟨List.mem_toFinset.mpr ?_, stageIds_pos hok hin⟩
    exact hid ▸ List.mem_map_of_mem hm
  · exact absurd hzero (Finset.mem_filter.mp hleft).2.ne'

/-- From a state all of whose successors are clear the scheduler returns a valid schedule. -/
theorem preemptiveSchedule_of_clear (hc : c.WellFormed) {n : Nat} (hn : (c.left s).card = n)
    (hok : s.Ok c) (hinputs : s.InputsOk)
    (hclear : ∀ t, Relation.ReflTransGen c.Step s t → c.unfinished t → t.Clear c) :
    ∃ fuel stages, c.preemptiveSchedule fuel s = some stages ∧ ValidFrom c s stages := by
  induction n using Nat.strong_induction_on generalizing s with
  | _ n ih =>
    by_cases hunfinished : c.unfinished s = true
    · have hnow := hclear s .refl hunfinished
      obtain ⟨group, s', hstage⟩ :=
        preemptiveScheduling_total hc hok hunfinished hnow.order hnow.all
      have hstageOk := preemptiveScheduling_inv hc hok hstage
      have hvalid := hstageOk.valid hc hok hinputs hnow
      obtain ⟨fuel, stages, hrun, hrest⟩ := ih _ (hn ▸ hstageOk.left_lt hok) rfl
        (hstageOk.next hc hok) (hstageOk.inputsOk hok hvalid)
        fun t ht => hclear t (.head ⟨hunfinished, group, hstage⟩ ht)
      refine ⟨fuel + 1, (group, s') :: stages, ?_, hvalid, hrest⟩
      rw [Rule.preemptiveSchedule, if_pos hunfinished, hstage]
      show (c.preemptiveSchedule fuel s').bind _ = _
      rw [hrun]
      rfl
    · refine ⟨0, [], if_neg hunfinished, fun m hm => ?_⟩
      refine le_antisymm (not_lt.mp fun hpos => hunfinished ?_) (hok.nonneg _)
      exact List.any_eq_true.mpr ⟨m, hm, decide_eq_true hpos⟩

/-- A model that waits when the second branch is taken is never looked at again. -/
theorem preemptiveSchedule_of_forgotten (hc : c.WellFormed) (hok : s.Ok c)
    (hfew : c.demand s.workload < c.totGpuNum) (hlast : s.last ≠ []) {m : ModelInfor}
    (hm : m ∈ c.models) (hpos : 0 < s.workload m.modelId) (hout : m.modelId ∉ Dict.keys s.last)
    (fuel : Nat) : c.preemptiveSchedule fuel s = none := by
  have hunfinished : c.unfinished s = true :=
    List.any_eq_true.mpr ⟨m, hm, decide_eq_true hpos⟩
  induction fuel generalizing s with
  | zero => exact if_pos hunfinished
  | succ fuel ih =>
    rw [Rule.preemptiveSchedule, if_pos hunfinished]
    cases hstage : c.preemptiveScheduling s with
    | none => rfl
    | some r =>
      obtain ⟨group, s'⟩ := r
      have hstageOk := preemptiveScheduling_inv hc hok hstage
      have hids : c.stageIds s = Dict.keys s.carried := by
        rw [Rule.stageIds, if_neg (Nat.not_le.mpr hfew), if_neg hlast]
      have hnot : m.modelId ∉ c.stageIds s := fun hin =>
        hout (mem_keys_carried.mp (hids ▸ hin)).1
      have hpos' : 0 < s'.workload m.modelId := hstageOk.frame _ hnot ▸ hpos
      have hnone : c.preemptiveSchedule fuel s' = none := by
        refine ih (hstageOk.next hc hok) (lt_of_le_of_lt (hstageOk.demand_le hok) hfew) ?_ hpos' ?_
          (List.any_eq_true.mpr ⟨m, hm, decide_eq_true hpos'⟩)
        · intro hnil
          obtain ⟨modelId, hin, -⟩ := hstageOk.finished
          rw [← hstageOk.keys, ← hstageOk.last, hnil] at hin
          cases hin
        · rw [hstageOk.last, hstageOk.keys]
          exact hnot
      show (c.preemptiveSchedule fuel s').bind _ = none
      rw [hnone]
      rfl

/-- A round of a run that returns. -/
theorem preemptiveSchedule_inv {fuel : Nat} {stages : List (PlanDict × State)}
    (hunfinished : c.unfinished s = true) (h : c.preemptiveSchedule fuel s = some stages) :
    ∃ fuel' group s' rest, fuel = fuel' + 1 ∧ c.preemptiveScheduling s = some (group, s') ∧
      c.preemptiveSchedule fuel' s' = some rest ∧ stages = (group, s') :: rest := by
  cases fuel with
  | zero =>
    rw [Rule.preemptiveSchedule, if_pos hunfinished] at h
    cases h
  | succ fuel =>
    rw [Rule.preemptiveSchedule, if_pos hunfinished] at h
    obtain ⟨⟨group, s'⟩, hstage, h⟩ := Option.bind_eq_some_iff.mp h
    obtain ⟨rest, hrun, h⟩ := Option.bind_eq_some_iff.mp h
    exact ⟨fuel, group, s', rest, rfl, hstage, hrun, (Option.some.inj h).symm⟩

theorem State.Ok.of_reach (hok : s.Ok c) (hc : c.WellFormed) {t : State}
    (hreach : Relation.ReflTransGen c.Step s t) : t.Ok c := by
  induction hreach with
  | refl => exact hok
  | tail _ hstep ih =>
    obtain ⟨-, group, hstage⟩ := hstep
    exact (preemptiveScheduling_inv hc ih hstage).next hc ih

/-- A run with a valid schedule has one from each of its states. -/
theorem validFrom_of_reach {t : State} (hreach : Relation.ReflTransGen c.Step s t)
    (hrun : ∃ fuel stages, c.preemptiveSchedule fuel s = some stages ∧ ValidFrom c s stages) :
    ∃ fuel stages, c.preemptiveSchedule fuel t = some stages ∧ ValidFrom c t stages := by
  induction hreach using Relation.ReflTransGen.head_induction_on with
  | refl => exact hrun
  | head hstep _ ih =>
    obtain ⟨hunfinished, group, hstage⟩ := hstep
    obtain ⟨fuel, stages, hrun, hvalid⟩ := hrun
    obtain ⟨fuel', group', s', rest, -, hstage', hrun', rfl⟩ := preemptiveSchedule_inv hunfinished hrun
    obtain ⟨rfl, rfl⟩ := Prod.mk.inj (Option.some.inj (hstage'.symm.trans hstage))
    exact ih ⟨fuel', rest, hrun', hvalid.2⟩

/-- A state from which the scheduler returns a valid schedule is clear. -/
theorem clear_of_validFrom (hc : c.WellFormed) (hok : s.Ok c) (hunfinished : c.unfinished s = true)
    (hrun : ∃ fuel stages, c.preemptiveSchedule fuel s = some stages ∧ ValidFrom c s stages) :
    s.Clear c := by
  obtain ⟨fuel, stages, hrun, hvalid⟩ := hrun
  obtain ⟨fuel', group, s', rest, -, hstage, -, rfl⟩ := preemptiveSchedule_inv hunfinished hrun
  have hstageOk := preemptiveScheduling_inv hc hok hstage
  refine ⟨fun m hwait hin inp hinp => ?_, hstageOk.order, ?_⟩
  · obtain ⟨e, he, heq⟩ := List.mem_map.mp (hstageOk.keys.symm ▸ hin)
    obtain ⟨hm, hid, -⟩ := hstageOk.ok.plan e he
    have hmodel := hc.eq_of_modelId hm (hok.models hwait) (hid.trans heq)
    exact hstageOk.keys ▸ hvalid.1.inputs e he inp (hmodel ▸ hinp)
  · by_cases hmany : c.totGpuNum ≤ c.demand s.workload
    · exact .inl hmany
    · refine .inr fun m hm hpos => ?_
      by_contra hout
      have hlast : s.last ≠ [] := fun hnil => hout (by
        rw [Rule.stageIds, if_neg hmany, if_pos hnil]
        exact List.mem_map_of_mem hm)
      have hnone := preemptiveSchedule_of_forgotten hc hok (Nat.not_le.mp hmany) hlast hm hpos
        (fun hin => hout (carried_subset_stageIds (mem_keys_carried.mpr ⟨hin, hpos⟩))) fuel
      rw [hnone] at hrun
      cases hrun

/-- The scheduler returns, with a valid schedule, exactly when every state with work left that it gets
to is clear. -/
theorem preemptiveSchedule_valid_iff (hc : c.WellFormed) (hstart : c.Start s) :
    (∃ fuel stages, c.preemptiveSchedule fuel s = some stages ∧ ValidFrom c s stages) ↔
      ∀ t, Relation.ReflTransGen c.Step s t → c.unfinished t = true → t.Clear c := by
  constructor
  · intro hrun t hreach hunfinished
    exact clear_of_validFrom hc ((hstart.ok hc).of_reach hc hreach) hunfinished
      (validFrom_of_reach hreach hrun)
  · refine preemptiveSchedule_of_clear hc rfl (hstart.ok hc) fun e he => ?_
    rw [hstart.last] at he
    cases he

/-- A run that returns passes through the states of its stages only. -/
theorem mem_of_reach {t : State} (hreach : Relation.ReflTransGen c.Step s t) {fuel : Nat}
    {stages : List (PlanDict × State)} (hrun : c.preemptiveSchedule fuel s = some stages) :
    t ∈ s :: stages.map Prod.snd := by
  induction hreach using Relation.ReflTransGen.head_induction_on generalizing fuel stages with
  | refl => exact List.mem_cons_self
  | head hstep _ ih =>
    obtain ⟨hunfinished, group, hstage⟩ := hstep
    obtain ⟨fuel', group', s', rest, -, hstage', hrun', rfl⟩ := preemptiveSchedule_inv hunfinished hrun
    obtain ⟨rfl, rfl⟩ := Prod.mk.inj (Option.some.inj (hstage'.symm.trans hstage))
    exact List.mem_cons_of_mem _ (ih hrun')

/-- A first input with fewer inputs of its own comes first. -/
theorem costOrder_of_fewer {ids : List Nat}
    (h : ∀ modelId ∈ ids, ∀ inp ∈ (c.inputs modelId).head?, inp ∈ ids →
      (c.inputs inp).length < (c.inputs modelId).length) : CostOrder c ids := by
  intro before modelId after hsplit inp hhead hinp
  let le : Nat → Nat → Prop := fun a b => (c.inputs a).length ≤ (c.inputs b).length
  have : IsTrans Nat le := ⟨fun _ _ _ => Nat.le_trans⟩
  have : Std.Total le := ⟨fun a b => Nat.le_total _ _⟩
  have hperm := List.perm_insertionSort le ids
  have hsorted := List.pairwise_insertionSort le ids
  rw [hsplit] at hperm hsorted
  have hmodel : modelId ∈ ids := hperm.subset (List.mem_append_right _ List.mem_cons_self)
  have hless := h modelId hmodel inp hhead hinp
  refine (List.mem_append.mp (hperm.symm.subset hinp)).resolve_right fun hin => ?_
  rcases List.mem_cons.mp hin with rfl | hin
  · exact lt_irrefl _ hless
  · exact Nat.not_le_of_lt hless
      ((List.pairwise_cons.mp (List.pairwise_append.mp hsorted).2.1).1 inp hin)

/-! ## Small systems -/

/-- A rule with one plan for every model, as many GPUs as its name gives, and unit costs. -/
def unitRule (models : List ModelInfor) (totGpuNum : Nat) (gpuNum : String → Nat) : Rule where
  models := models
  totGpuNum := totGpuNum
  execPlans modelId := (models.filter (·.modelId = modelId)).map fun m => ⟨m, gpuNum m.modelName, 1, 0⟩
  tokenPerSecs _ _ := 1
  prepareCost _ := 1
  minGpuNum name := (gpuNum name, gpuNum name)
  avgOutlen _ := 1
  setOrder := List.dedup

/-- All models wait, with the same work. -/
def waitingState (models : List ModelInfor) : State where
  last := []
  workload modelId := if modelId ∈ models.map (·.modelId) then 6 else 0
  waiting := models

theorem unitRule_wellFormed {models : List ModelInfor} {totGpuNum : Nat} {gpuNum : String → Nat}
    (hne : models ≠ []) (hnodup : (models.map (·.modelId)).Nodup)
    (hinputs : ∀ m ∈ models, ∀ inp ∈ m.inputModelIds,
      inp < m.modelId ∧ inp ∈ models.map (·.modelId))
    (hgpus : ∀ m ∈ models, 0 < gpuNum m.modelName ∧ gpuNum m.modelName ≤ totGpuNum) :
    (unitRule models totGpuNum gpuNum).WellFormed := by
  have hplan : ∀ m ∈ models, ∀ p ∈ (unitRule models totGpuNum gpuNum).execPlans m.modelId,
      p = ⟨m, gpuNum m.modelName, 1, 0⟩ := by
    intro m hm p hp
    obtain ⟨q, hq, rfl⟩ := List.mem_map.mp hp
    obtain ⟨hq, hid⟩ := List.mem_filter.mp hq
    rw [List.inj_on_of_nodup_map hnodup hq hm (of_decide_eq_true hid)]
  have hless : Acyclic fun a b : Nat => a < b := fun a h => by
    rw [Relation.transGen_eq_self] at h
    exact lt_irrefl a h
  refine ⟨hne, hnodup, ?_, ?_, fun m hm p hp => ?_, fun m hm => ?_, fun m hm p hp => ?_,
    fun m hm => (hgpus m hm).2, fun _ _ => one_pos, fun _ => zero_le_one, fun _ => one_pos,
    fun l => .refl _⟩
  · rintro a b ⟨m, hm, rfl, hin⟩
    exact (hinputs m hm a hin).2
  · refine hless.of_paths id ?_
    rintro a b ⟨m, hm, rfl, hin⟩
    exact .single (hinputs m hm a hin).1
  · rw [hplan m hm p hp]
    exact ⟨rfl, (hgpus m hm).1, one_pos⟩
  · refine ⟨_, List.mem_map_of_mem (List.mem_filter.mpr ⟨hm, decide_eq_true rfl⟩), ?_⟩
    exact Prod.ext (Nat.mul_one _) rfl
  · rw [hplan m hm p hp]
    exact (Nat.mul_one _).ge

theorem waitingState_start {models : List ModelInfor} {totGpuNum : Nat} {gpuNum : String → Nat}
    (hfirst : ∀ i (h : i < models.length),
      models[i].inputModelIds ⊆ (models.take i).map (·.modelId)) :
    (unitRule models totGpuNum gpuNum).Start (waitingState models) := by
  refine ⟨rfl, .refl _, hfirst, fun m hm => ?_, fun modelId hout => if_neg hout⟩
  show 0 < if m.modelId ∈ models.map (·.modelId) then (6 : ℚ) else 0
  have hin : m.modelId ∈ models.map (·.modelId) := List.mem_map_of_mem hm
  rw [if_pos hin]
  exact Nat.ofNat_pos

/-- Model 1 reads from model 0. -/
def readingModels : List ModelInfor := [⟨0, "a", []⟩, ⟨1, "b", [0]⟩, ⟨2, "c", []⟩]

/-- Three GPUs; models 0 and 1 need one and model 2 needs two, and each can use one more. -/
def readingRule : Rule :=
  { unitRule readingModels 3 fun name => if name = "c" then 2 else 1 with
    execPlans := fun modelId => (readingModels.filter (·.modelId = modelId)).flatMap fun m =>
      let least := if m.modelName = "c" then 2 else 1
      [⟨m, least, 1, 0⟩, ⟨m, least + 1, 1, 1⟩]
    tokenPerSecs := fun _ tp => tp + 1 }

def readingState : State where
  last := []
  workload modelId := if modelId = 0 then 6 else if modelId = 1 then 12 else
    if modelId = 2 then 60 else 0
  waiting := readingModels

theorem readingRule_wellFormed : readingRule.WellFormed := by
  have hunit : (unitRule readingModels 3 fun name => if name = "c" then 2 else 1).WellFormed :=
    unitRule_wellFormed (by decide) (by decide) (by decide) (by decide)
  exact { hunit with
    plans := by decide
    smallest_mem := by decide
    smallest_le := by decide
    tokens_pos := fun _ tp => Nat.cast_add_one_pos tp }

theorem readingState_start : readingRule.Start readingState := by
  refine ⟨rfl, .refl _, by decide, by decide +kernel, fun modelId hout => ?_⟩
  have hids : ∀ m ∈ [0, 1, 2], m ∈ readingRule.models.map (·.modelId) := by decide
  -- the three models are all there are, so any other one has no work
  have hne : ∀ m ∈ [0, 1, 2], modelId ≠ m := fun m hm heq => hout (heq ▸ hids m hm)
  show (if modelId = 0 then (6 : ℚ) else if modelId = 1 then 12 else
    if modelId = 2 then 60 else 0) = 0
  rw [if_neg (hne 0 (by decide)), if_neg (hne 1 (by decide)), if_neg (hne 2 (by decide))]

/-- The condition, computed. -/
def State.clears (c : Rule) (s : State) : Bool :=
  (s.waiting.all fun m => decide (m.modelId ∈ c.stageIds s → ∀ inp ∈ m.inputModelIds,
    s.workload inp = 0 ∨ inp ∈ c.stageIds s)) &&
  ((c.stageIds s).all fun modelId => (c.inputs modelId).head?.all fun inp =>
    decide (inp ∈ c.stageIds s → (c.inputs inp).length < (c.inputs modelId).length)) &&
  (decide (c.totGpuNum ≤ c.demand s.workload) || c.models.all fun m =>
    decide (0 < s.workload m.modelId → m.modelId ∈ c.stageIds s))

theorem clear_of_clears (h : s.clears c = true) : s.Clear c := by
  rw [State.clears, Bool.and_eq_true, Bool.and_eq_true, Bool.or_eq_true, decide_eq_true_eq] at h
  obtain ⟨⟨hready, horder⟩, hall⟩ := h
  refine ⟨fun m hm => of_decide_eq_true (List.all_eq_true.mp hready m hm), ?_, ?_⟩
  · refine costOrder_of_fewer fun modelId hin inp hinp => ?_
    have hhead := List.all_eq_true.mp horder modelId hin
    rw [Option.mem_def.mp hinp] at hhead
    exact of_decide_eq_true hhead
  · exact hall.imp_right fun hall m hm => of_decide_eq_true (List.all_eq_true.mp hall m hm)

/-- Model 2 waits until model 0 has finished, and gets a third GPU when model 1 has. -/
theorem preemptiveSchedule_valid_reading :
    (readingRule.preemptiveSchedule 3 readingState).map
      (fun stages => stages.map fun e => e.1.map fun x => (x.1, x.2.gpuNum)) =
        some [[(0, 1), (1, 1)], [(1, 1), (2, 2)], [(2, 3)]] ∧
    ∃ fuel stages, readingRule.preemptiveSchedule fuel readingState = some stages ∧
      ValidFrom readingRule readingState stages := by
  refine ⟨by decide +kernel, (preemptiveSchedule_valid_iff readingRule_wellFormed
    readingState_start).mpr fun t hreach _ => clear_of_clears ?_⟩
  have hrun : (readingRule.preemptiveSchedule 3 readingState).any (fun stages =>
      (readingState :: stages.map Prod.snd).all (State.clears readingRule)) = true := by
    decide +kernel
  obtain ⟨stages, hstages, hall⟩ := (Option.any_eq_true _ _).mp hrun
  exact List.all_eq_true.mp hall t (mem_of_reach hreach hstages)

/-- Model 2 reads from model 1. -/
def feedingModels : List ModelInfor := [⟨0, "a", []⟩, ⟨1, "b", []⟩, ⟨2, "c", [1]⟩]

/-- Model 1 needs all four GPUs, model 0 two and model 2 one. -/
def feedingRule : Rule :=
  unitRule feedingModels 4 fun name => if name = "a" then 2 else if name = "b" then 4 else 1

/-- Model 1 does not fit beside model 0, but model 2 does: it runs before its input. -/
theorem preemptiveSchedule_runs_before_input : feedingRule.WellFormed ∧
    feedingRule.Start (waitingState feedingModels) ∧
    ¬ ∃ fuel stages, feedingRule.preemptiveSchedule fuel (waitingState feedingModels) = some stages ∧
      ValidFrom feedingRule (waitingState feedingModels) stages := by
  refine ⟨unitRule_wellFormed (by decide) (by decide) (by decide) (by decide),
    waitingState_start (by decide), ?_⟩
  rintro ⟨fuel, stages, hrun, hvalid⟩
  obtain ⟨fuel', group, s', rest, -, hstage, -, rfl⟩ :=
    preemptiveSchedule_inv (by decide +kernel) hrun
  have hfirst : (feedingRule.preemptiveScheduling (waitingState feedingModels)).map
      (fun r => Dict.keys r.1) = some [0, 2] := by decide +kernel
  have hkeys : [0, 2] = Dict.keys group := by
    rw [hstage] at hfirst
    exact (Option.some.inj hfirst).symm
  have hin : 2 ∈ Dict.keys group := hkeys ▸ .tail _ (.head _)
  obtain ⟨e, he, hid⟩ := List.mem_map.mp hin
  obtain ⟨hm, heq, -⟩ := hvalid.1.plans.plan e he
  have hfed : ∀ m ∈ feedingRule.models, m.modelId = 2 → 1 ∈ m.inputModelIds := by decide
  rcases hvalid.1.inputs e he 1 (hfed _ hm (heq.trans hid)) with hzero | hran
  · exact absurd hzero (by decide)
  · rw [← hkeys] at hran
    exact absurd hran (by decide)

end

end Mil.LightRule
