import Mathlib.Order.Bounds.Basic
import Mil.Arrive.Sources

/-!
# Asking sources for finish times

While a group is built its plans keep merged arrays, and nothing else about them changes
(`KeptState`). From every such state a source plan gives the same times (`sourceTimes_spec`), and for
several sources the last of their times is taken (`getArriveTimesBaseModel_spec`).
-/

set_option autoImplicit false

namespace Mil.Arrive

open Mil.Lib

/-! ## The state of a group -/

/-- The plans, with some merged arrays kept. -/
def KeptState (plans state : List ExecPlan) : Prop :=
  List.Forall₂ (fun p p' => ∃ kept, p' = p.withKept kept ∧ p.Kept kept) plans state

theorem KeptState.get {plans state : List ExecPlan} (h : KeptState plans state) {i : Nat}
    {p : ExecPlan} (hp : plans[i]? = some p) :
    ∃ kept, state[i]? = some (p.withKept kept) ∧ p.Kept kept := by
  induction h generalizing i with
  | nil => cases hp
  | cons hhead _ ih =>
    cases i with
    | zero =>
      obtain ⟨kept, rfl, hkept⟩ := hhead
      obtain rfl := Option.some.inj hp
      exact ⟨kept, rfl, hkept⟩
    | succ i => exact ih hp

theorem KeptState.get' {plans state : List ExecPlan} (h : KeptState plans state) {i : Nat}
    {p' : ExecPlan} (hp : state[i]? = some p') :
    ∃ p kept, plans[i]? = some p ∧ p' = p.withKept kept := by
  induction h generalizing i with
  | nil => cases hp
  | @cons p _ _ _ hhead _ ih =>
    cases i with
    | zero =>
      obtain ⟨kept, rfl, -⟩ := hhead
      exact ⟨p, kept, rfl, (Option.some.inj hp).symm⟩
    | succ i => exact ih hp

theorem KeptState.set {plans state : List ExecPlan} (h : KeptState plans state) {i : Nat}
    {p : ExecPlan} (hp : plans[i]? = some p) {kept : List NpArray} (hkept : p.Kept kept) :
    KeptState plans (state.set i (p.withKept kept)) := by
  induction h generalizing i with
  | nil => cases hp
  | cons hhead htail ih =>
    cases i with
    | zero =>
      obtain rfl := Option.some.inj hp
      exact .cons ⟨kept, rfl, hkept⟩ htail
    | succ i => exact .cons hhead (ih hp)

theorem KeptState.map_eq {plans state : List ExecPlan} (h : KeptState plans state) {α : Type}
    {f : ExecPlan → α} (hf : ∀ p kept, f (p.withKept kept) = f p) : state.map f = plans.map f := by
  induction h with
  | nil => rfl
  | cons hhead _ ih =>
    obtain ⟨kept, rfl, -⟩ := hhead
    rw [List.map_cons, List.map_cons, hf, ih]

theorem KeptState.distinct {plans state : List ExecPlan} (h : KeptState plans state)
    (hdistinct : Distinct plans) : Distinct state := by
  constructor
  case baseModelIds =>
    rw [List.flatMap_def, h.map_eq fun _ _ => rfl, ← List.flatMap_def]
    exact hdistinct.baseModelIds
  case modelIds =>
    rw [h.map_eq fun _ _ => rfl]
    exact hdistinct.modelIds
  case no_self_source =>
    intro p' hp' hfused
    obtain ⟨i, hi⟩ := List.mem_iff_getElem?.mp hp'
    obtain ⟨p, kept, hp, rfl⟩ := h.get' hi
    exact hdistinct.no_self_source p (List.mem_of_getElem? hp) hfused

theorem KeptState.hasModel_iff {plans state : List ExecPlan} (h : KeptState plans state)
    {i j modelId : Nat} :
    (∃ q, HasModel state i q j modelId) ↔ ∃ q, HasModel plans i q j modelId := by
  constructor
  · rintro ⟨q', hq', hj⟩
    obtain ⟨q, kept, hq, rfl⟩ := h.get' hq'
    exact ⟨q, hq, hj⟩
  · rintro ⟨q, hq, hj⟩
    obtain ⟨kept, hq', -⟩ := h.get hq
    exact ⟨q.withKept kept, hq', hj⟩

/-! ## Times of sources -/

section

variable {plans : List ExecPlan}

theorem HasModel.model {i j modelId : Nat} {q : ExecPlan} (h : HasModel plans i q j modelId) :
    ∃ model, q.modelList[j]? = some model ∧ model.modelId = modelId := by
  have hj := h.2
  rw [ExecPlan.getBaseModelIds, List.getElem?_map] at hj
  exact Option.map_eq_some_iff.mp hj

/-- The plan at position `i` can be asked for the times of its `j`-th base model. -/
def Askable (plans : List ExecPlan) (q : ExecPlan) (info : Nat × Nat) : Prop :=
  plans[info.1]? = some q ∧ q.extraCost.isInt = false ∧
    ∃ model, q.modelList[info.2]? = some model ∧ q.SimulatedAt info.2 model

theorem sourceTimes_spec {q : ExecPlan} {info : Nat × Nat} (hq : Askable plans q info)
    (seqIds : List Nat) :
    Returns (KeptState plans) (sourceTimes seqIds info) (seqIds.map (q.timeOf info.2)) := by
  obtain ⟨hget, hfloat, model, hmodel, hsim⟩ := hq
  intro state hstate
  obtain ⟨kept, hkeptGet, hkept⟩ := hstate.get hget
  obtain ⟨times, kept', hrun, htimes, hkept'⟩ :=
    getFinishTimesMerged_spec hmodel hsim hfloat hkept seqIds
  refine ⟨state.set info.1 (q.withKept kept'), ?_, hstate.set hget hkept'⟩
  rw [sourceTimes, hkeptGet]
  simp only [Option.bind_eq_bind, Option.bind_some, hrun]
  rw [← htimes]
  rfl

/-- The maximum of each column. -/
theorem maxRows_spec {ι : Type} (seqIds : List Nat) (g : ι → Nat → ℚ) (e : ι) (es : List ι) :
    maxRows ((e :: es).map fun e => seqIds.map (g e)) =
      some (seqIds.map fun seqId => es.foldl (fun t e' => max t (g e' seqId)) (g e seqId)) := by
  have hfold : ∀ (f : Nat → ℚ), (es.map fun e => seqIds.map (g e)).foldl (List.zipWith max)
      (seqIds.map f) = seqIds.map fun seqId => es.foldl (fun t e' => max t (g e' seqId)) (f seqId) := by
    induction es with
    | nil => exact fun _ => rfl
    | cons e' es ih =>
      intro f
      rw [List.map_cons, List.foldl_cons, List.zipWith_map, List.zipWith_self, ih]
      rfl
  exact congrArg some (hfold (g e))

theorem isGreatest_foldl_max {ι : Type} (f : ι → ℚ) (t₀ : ℚ) (es : List ι) :
    IsGreatest {t | t = t₀ ∨ ∃ e ∈ es, t = f e} (es.foldl (fun t e => max t (f e)) t₀) := by
  induction es generalizing t₀ with
  | nil => exact ⟨.inl rfl, fun t ht => ht.elim le_of_eq fun ⟨e, he, _⟩ => absurd he List.not_mem_nil⟩
  | cons e es ih =>
    obtain ⟨hmem, hle⟩ := ih (max t₀ (f e))
    constructor
    · rcases hmem with hmax | ⟨e', he', heq⟩
      · rw [Set.mem_ofPred_eq, List.foldl_cons, hmax]
        rcases max_choice t₀ (f e) with h | h
        · exact .inl h
        · exact .inr ⟨e, .head _, h⟩
      · exact .inr ⟨e', .tail _ he', heq⟩
    · rintro t (rfl | ⟨e', he', rfl⟩)
      · exact (le_max_left _ _).trans (hle (.inl rfl))
      · rcases List.mem_cons.mp he' with rfl | he'
        · exact (le_max_right _ _).trans (hle (.inl rfl))
        · exact hle (.inr ⟨e', he', rfl⟩)

/-- The arrival times of requests whose sources are concatenated. -/
theorem getArriveTimesBaseModel_spec (infos : List (Nat × Nat)) (seqIds : List Nat)
    (hinfos : ∀ info ∈ infos, ∃ q, Askable plans q info) :
    ∃ times, Returns (KeptState plans) (getArriveTimesBaseModel seqIds infos) (seqIds.map times) ∧
      ∀ seqId, (infos = [] ∧ times seqId = -1) ∨ IsGreatest {t | ∃ info ∈ infos, ∃ q,
        plans[info.1]? = some q ∧ t = q.timeOf info.2 seqId} (times seqId) := by
  cases infos with
  | nil =>
    refine ⟨fun _ => -1, ?_, fun _ => .inl ⟨rfl, rfl⟩⟩
    rw [getArriveTimesBaseModel, if_pos rfl, List.map_const']
    exact Returns.pure _
  | cons info infos =>
    let g : Nat × Nat → Nat → ℚ := fun info seqId =>
      (plans[info.1]?).elim 0 fun q => q.timeOf info.2 seqId
    have hg : ∀ {info : Nat × Nat} {q}, plans[info.1]? = some q → ∀ seqId,
        g info seqId = q.timeOf info.2 seqId := fun hq seqId => by
      show Option.elim _ _ _ = _
      rw [hq]
      rfl
    have hrows : Returns (KeptState plans) ((info :: infos).mapM (sourceTimes seqIds))
        ((info :: infos).map fun e => seqIds.map (g e)) := by
      refine Returns.mapM fun info' hmem => ?_
      obtain ⟨q, hq⟩ := hinfos info' hmem
      have htimes : seqIds.map (g info') = seqIds.map (q.timeOf info'.2) :=
        List.map_congr_left fun seqId _ => hg hq.1 seqId
      rw [htimes]
      exact sourceTimes_spec hq seqIds
    refine ⟨fun seqId => infos.foldl (fun t e => max t (g e seqId)) (g info seqId), ?_, ?_⟩
    · rw [getArriveTimesBaseModel, if_neg (List.cons_ne_nil _ _)]
      exact hrows.bind (Returns.lift (maxRows_spec seqIds g info infos))
    · intro seqId
      have hset : {t | ∃ info' ∈ info :: infos, ∃ q, plans[info'.1]? = some q ∧
          t = q.timeOf info'.2 seqId} =
          {t | t = g info seqId ∨ ∃ e ∈ infos, t = g e seqId} := by
        ext t
        constructor
        · rintro ⟨info', hmem, q, hq, rfl⟩
          rcases List.mem_cons.mp hmem with rfl | hmem
          · exact .inl (hg hq seqId).symm
          · exact .inr ⟨info', hmem, (hg hq seqId).symm⟩
        · have hone : ∀ info' ∈ info :: infos, ∃ q, plans[info'.1]? = some q ∧
              g info' seqId = q.timeOf info'.2 seqId := fun info' hmem => by
            obtain ⟨q, hq⟩ := hinfos info' hmem
            exact ⟨q, hq.1, hg hq.1 seqId⟩
          rintro (rfl | ⟨e, he, rfl⟩)
          · exact ⟨info, .head _, hone info (.head _)⟩
          · exact ⟨e, .tail _ he, hone e (.tail _ he)⟩
      rw [hset]
      exact .inr (isGreatest_foldl_max (fun e => g e seqId) (g info seqId) infos)

end

end Mil.Arrive
