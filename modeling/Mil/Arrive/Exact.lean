import Mil.Arrive.Times

/-!
# Arrival times are finish times

The arrival time of every request is what the sources of its base model say (`ArrivesAt`): the last
of their finish times where they are concatenated, the finish time of its one source request where
they are independent. The sources that are asked are those which other plans of the group run
(`buildPlanGroup_arrivesAt`). A source that is fused into the plan itself is not among them
(`fused_source_not_counted`): the simulation of the fused plan makes its requests wait.
-/

set_option autoImplicit false

namespace Mil.Arrive

open Mil.Lib

/-! ## The arrival time of a request -/

/-- `t` is when request `r` of the base model arrives, where `source s q j` says that plan `q` runs
the source `s` as its `j`-th base model. -/
def ArrivesAt (source : Nat → ExecPlan → Nat → Prop) (finishStatus : List (Nat × Bool))
    (m : BaseModel) (r : Nat) (t : ℚ) : Prop :=
  if m.independentSrcs then
    ∃ s ∈ m.inpBaseModelIds, ∃ reqs r', m.inpReqFromWhichModelWhichOutReqs.lookup s = some reqs ∧
      reqs.lookup r = some r' ∧
      ((∃ q j, source s q j ∧ t = q.timeOf j r') ∨
        (∀ q j, ¬ source s q j) ∧
          (finishStatus.lookup s = some true ∧ t = -1 ∨
            finishStatus.lookup s = some false ∧ t = 10 ^ 9))
  else
    IsGreatest {t | ∃ s ∈ m.inpBaseModelIds, ∃ q j, source s q j ∧ t = q.timeOf j r} t ∨
      (∀ s ∈ m.inpBaseModelIds, ∀ q j, ¬ source s q j) ∧ t = -1

/-- Independent sources: each request of the model comes from one of them. -/
structure IndependentOk (finishStatus : List (Nat × Bool)) (p : ExecPlan) (m : BaseModel) :
    Prop where
  mapped : ∀ s ∈ m.inpBaseModelIds, ∃ reqs,
    m.inpReqFromWhichModelWhichOutReqs.lookup s = some reqs ∧ (Dict.keys reqs).Nodup
  status : ∀ s ∈ m.inpBaseModelIds, ∃ finished, finishStatus.lookup s = some finished
  single : ∀ r ∈ m.inpSeqIds, ∃ s ∈ m.inpBaseModelIds, ∃ reqs,
    m.inpReqFromWhichModelWhichOutReqs.lookup s = some reqs ∧ r ∈ Dict.keys reqs ∧
      ∀ s' ∈ m.inpBaseModelIds, ∀ reqs', m.inpReqFromWhichModelWhichOutReqs.lookup s' = some reqs' →
        r ∈ Dict.keys reqs' → s' = s
  apart : ∀ s ∈ m.inpBaseModelIds, s ∉ p.getBaseModelIds

/-- A group whose source plans have been simulated. -/
structure GroupOk (finishStatus : List (Nat × Bool)) (plans : List ExecPlan) : Prop where
  distinct : Distinct plans
  simulated : ∀ k p, plans[k]? = some p → ∀ m ∈ p.modelList, ∀ s ∈ m.inpBaseModelIds,
    ∀ q j, SourceOutside plans k s q j → ∀ model, q.modelList[j]? = some model →
      q.SimulatedAt j model
  independent : ∀ p ∈ plans, ∀ m ∈ p.modelList, m.independentSrcs = true →
    IndependentOk finishStatus p m

/-! ## One base model -/

section

variable {finishStatus : List (Nat × Bool)} {plans state : List ExecPlan}

variable {k : Nat} {p : ExecPlan} {kept : List NpArray} {m : BaseModel}

/-- The entries of a source, found in a state of the group. -/
theorem infoOf_cases (hdistinct : Distinct plans) (hstate : KeptState plans state)
    (hp : state[k]? = some (p.withKept kept)) (hm : m ∈ p.modelList) {s : Nat}
    (hs : s ∈ m.inpBaseModelIds) :
    (∃ q i j, i ≠ k ∧ HasModel plans i q j s ∧
      infoOf (inpExecPlans state (p.withKept kept)) s = [(i, j)]) ∨
    (∀ q j, ¬ SourceOutside plans k s q j) ∧
      infoOf (inpExecPlans state (p.withKept kept)) s = [] := by
  by_cases hsource : ∃ q j, SourceOutside plans k s q j
  · obtain ⟨q, j, i, hi, hq⟩ := hsource
    obtain ⟨q', hq'⟩ := hstate.hasModel_iff.mpr ⟨q, hq⟩
    exact .inl ⟨q, i, j, hi, hq, infoOf_of_source (hstate.distinct hdistinct) hp hm hs hi hq'⟩
  · have hnone : ∀ q j, ¬ SourceOutside plans k s q j := fun q j hq => hsource ⟨q, j, hq⟩
    refine .inr ⟨hnone, infoOf_of_no_source (hstate.distinct hdistinct) hp fun q j hq => ?_⟩
    obtain ⟨i, hi, hq⟩ := hq
    obtain ⟨q', hq'⟩ := hstate.hasModel_iff.mp ⟨q, hq⟩
    exact hnone q' j ⟨i, hi, hq'⟩

theorem GroupOk.askable (h : GroupOk finishStatus plans)
    (hfloat : ∀ q ∈ plans, q.extraCost.isInt = false) (hp : plans[k]? = some p)
    (hm : m ∈ p.modelList) {s : Nat} (hs : s ∈ m.inpBaseModelIds) {q : ExecPlan} {i j : Nat}
    (hi : i ≠ k) (hq : HasModel plans i q j s) : Askable plans q (i, j) := by
  obtain ⟨model, hmodel, -⟩ := hq.model
  exact ⟨hq.1, hfloat q (List.mem_of_getElem? hq.1), model, hmodel,
    h.simulated k p hp m hm s hs q j ⟨i, hi, hq⟩ model hmodel⟩

theorem filterMap_inpInfo (inps : List (ExecPlan × Nat)) (hm : m.independentSrcs = false) :
    (inpInfo inps m).filterMap id = m.inpBaseModelIds.flatMap (infoOf inps) := by
  rw [inpInfo, List.filterMap_flatMap]
  refine List.flatMap_congr fun s _ => ?_
  simp only [hm, Bool.false_eq_true, and_false, if_false, List.filterMap_map, Function.id_comp]
  exact List.filterMap_some

/-- Requests of concatenated sources wait for the last of them. -/
theorem concatenated_spec (h : GroupOk finishStatus plans)
    (hfloat : ∀ q ∈ plans, q.extraCost.isInt = false) (hstate : KeptState plans state)
    (hp : plans[k]? = some p) (hp' : state[k]? = some (p.withKept kept)) (hm : m ∈ p.modelList)
    (hconcatenated : m.independentSrcs = false) :
    ∃ times, Returns (KeptState plans)
        (arriveTimesOf finishStatus (inpExecPlans state (p.withKept kept)) m)
        (m.inpSeqIds.map times) ∧
      ∀ r, ArrivesAt (SourceOutside plans k) finishStatus m r (times r) := by
  have hcases := fun s (hs : s ∈ m.inpBaseModelIds) =>
    infoOf_cases h.distinct hstate hp' hm hs
  -- the pairs that are asked for times are the sources outside the plan itself
  have hmem : ∀ info, info ∈ m.inpBaseModelIds.flatMap
      (infoOf (inpExecPlans state (p.withKept kept))) ↔
      ∃ s ∈ m.inpBaseModelIds, ∃ q, info.1 ≠ k ∧ HasModel plans info.1 q info.2 s := by
    intro info
    rw [List.mem_flatMap]
    refine exists_congr fun s => and_congr_right fun hs => ?_
    rcases hcases s hs with ⟨q, i, j, hi, hq, heq⟩ | ⟨hnone, heq⟩
    · rw [heq, List.mem_singleton]
      constructor
      · rintro rfl
        exact ⟨q, hi, hq⟩
      · rintro ⟨q', -, hq'⟩
        obtain ⟨h₁, -, h₂⟩ := h.distinct.hasModel_unique hq' hq
        exact Prod.ext h₁ h₂
    · rw [heq]
      exact ⟨fun hin => absurd hin List.not_mem_nil,
        fun ⟨q, hi, hq⟩ => absurd ⟨info.1, hi, hq⟩ (hnone q info.2)⟩
  obtain ⟨times, hrun, htimes⟩ := getArriveTimesBaseModel_spec
    (m.inpBaseModelIds.flatMap (infoOf (inpExecPlans state (p.withKept kept)))) m.inpSeqIds
    fun info hinfo => by
      obtain ⟨s, hs, q, hi, hq⟩ := (hmem info).mp hinfo
      exact ⟨q, h.askable hfloat hp hm hs hi hq⟩
  refine ⟨times, ?_, fun r => ?_⟩
  · rw [arriveTimesOf, if_neg (by rw [hconcatenated]; exact Bool.false_ne_true),
      filterMap_inpInfo _ hconcatenated]
    exact hrun
  · rw [ArrivesAt, if_neg (by rw [hconcatenated]; exact Bool.false_ne_true)]
    rcases htimes r with ⟨hnil, ht⟩ | hgreatest
    · refine .inr ⟨fun s hs q j ⟨i, hi, hq⟩ => ?_, ht⟩
      have hin := (hmem (i, j)).mpr ⟨s, hs, q, hi, hq⟩
      rw [hnil] at hin
      cases hin
    · refine .inl ?_
      have hset : {t | ∃ s ∈ m.inpBaseModelIds, ∃ q j, SourceOutside plans k s q j ∧
          t = q.timeOf j r} = {t | ∃ info ∈ m.inpBaseModelIds.flatMap
            (infoOf (inpExecPlans state (p.withKept kept))), ∃ q,
              plans[info.1]? = some q ∧ t = q.timeOf info.2 r} := by
        ext t
        constructor
        · rintro ⟨s, hs, q, j, ⟨i, hi, hq⟩, rfl⟩
          exact ⟨(i, j), (hmem _).mpr ⟨s, hs, q, hi, hq⟩, q, hq.1, rfl⟩
        · rintro ⟨info, hinfo, q, hq, rfl⟩
          obtain ⟨s, hs, q', hi, hq'⟩ := (hmem info).mp hinfo
          obtain rfl := Option.some.inj (hq.symm.trans hq'.1)
          exact ⟨s, hs, q, info.2, ⟨info.1, hi, hq'⟩, rfl⟩
      rw [hset]
      exact hgreatest

/-! ## Independent sources -/

theorem lookup_zip_map {α : Type} (f : Nat → α) {l : List Nat} {a : Nat} (ha : a ∈ l) :
    (l.zip (l.map f)).lookup a = some (f a) := by
  induction l with
  | nil => cases ha
  | cons b l ih =>
    rw [List.map_cons, List.zip_cons_cons]
    by_cases hb : b = a
    · subst hb
      exact Dict.lookup_cons_self
    · rw [Dict.lookup_cons_ne hb]
      exact ih ((List.mem_cons.mp ha).resolve_left (Ne.symm hb))

theorem timesFromSource_finished {s : Nat} {finished : Bool}
    (hs : finishStatus.lookup s = some finished) (reqs : List (Nat × Nat)) :
    Returns (KeptState plans) (timesFromSource finishStatus reqs s none)
      (reqs.map fun r => (r.1, if finished then -1 else 10 ^ 9)) :=
  (Returns.lift hs).bind (Returns.pure _)

theorem timesFromSource_run {q : ExecPlan} {info : Nat × Nat} (hq : Askable plans q info)
    (s : Nat) (reqs : List (Nat × Nat)) :
    Returns (KeptState plans) (timesFromSource finishStatus reqs s (some info))
      (reqs.map fun r => (r.1, q.timeOf info.2 r.2)) := by
  obtain ⟨times, hrun, htimes⟩ := getArriveTimesBaseModel_spec [info] (reqs.map Prod.snd).dedup
    fun info' hinfo' => ⟨q, List.mem_singleton.mp hinfo' ▸ hq⟩
  refine hrun.bind (Returns.lift (mapM_of_forall fun r hr => ?_))
  rw [lookup_zip_map times (List.mem_dedup.mpr (List.mem_map_of_mem hr)), Option.map_some]
  rcases htimes r.2 with ⟨hnil, -⟩ | ⟨⟨info', hinfo', q', hq', heq⟩, -⟩
  · cases hnil
  · obtain rfl := List.mem_singleton.mp hinfo'
    obtain rfl := Option.some.inj (hq'.symm.trans hq.1)
    rw [heq]

/-- There is one entry for each independent source. -/
theorem inpInfo_eq (hdistinct : Distinct plans) (hstate : KeptState plans state)
    (hp : state[k]? = some (p.withKept kept)) (hm : m ∈ p.modelList)
    (hindependent : m.independentSrcs = true) :
    inpInfo (inpExecPlans state (p.withKept kept)) m =
      m.inpBaseModelIds.map fun s => (infoOf (inpExecPlans state (p.withKept kept)) s).head? := by
  rw [inpInfo, List.map_eq_flatMap]
  refine List.flatMap_congr fun s hs => ?_
  rcases infoOf_cases hdistinct hstate hp hm hs with ⟨q, i, j, -, -, heq⟩ | ⟨-, heq⟩
  · simp [heq]
  · simp [heq, hindependent]

/-- What an independent source says about its requests. -/
theorem independent_source (h : GroupOk finishStatus plans)
    (hfloat : ∀ q ∈ plans, q.extraCost.isInt = false) (hstate : KeptState plans state)
    (hp : plans[k]? = some p) (hp' : state[k]? = some (p.withKept kept)) (hm : m ∈ p.modelList)
    (hok : IndependentOk finishStatus p m) {s : Nat} (hs : s ∈ m.inpBaseModelIds)
    (reqs : List (Nat × Nat)) : ∃ times : Nat → ℚ,
      Returns (KeptState plans) (timesFromSource finishStatus reqs s
        (infoOf (inpExecPlans state (p.withKept kept)) s).head?)
        (reqs.map fun r => (r.1, times r.2)) ∧
      ∀ r', (∃ q j, SourceOutside plans k s q j ∧ times r' = q.timeOf j r') ∨
        (∀ q j, ¬ SourceOutside plans k s q j) ∧
          (finishStatus.lookup s = some true ∧ times r' = -1 ∨
            finishStatus.lookup s = some false ∧ times r' = 10 ^ 9) := by
  rcases infoOf_cases h.distinct hstate hp' hm hs with ⟨q, i, j, hi, hq, heq⟩ | ⟨hnone, heq⟩
  · rw [heq]
    exact ⟨q.timeOf j, timesFromSource_run (h.askable hfloat hp hm hs hi hq) s reqs,
      fun r' => .inl ⟨q, j, ⟨i, hi, hq⟩, rfl⟩⟩
  · rw [heq]
    obtain ⟨finished, hfinished⟩ := hok.status s hs
    refine ⟨fun _ => if finished then -1 else 10 ^ 9, timesFromSource_finished hfinished reqs,
      fun r' => .inr ⟨hnone, ?_⟩⟩
    cases finished with
    | true => exact .inl ⟨hfinished, rfl⟩
    | false => exact .inr ⟨hfinished, rfl⟩

/-- A request keeps the time that the one source with it has given. -/
theorem lookup_foldl_update {items : Nat → List (Nat × ℚ)} {r : Nat} {t : ℚ} {srcs : List Nat}
    (hnodup : ∀ s ∈ srcs, (Dict.keys (items s)).Nodup)
    (hitems : ∀ s ∈ srcs, r ∈ Dict.keys (items s) → (items s).lookup r = some t)
    {dict : List (Nat × ℚ)}
    (hsome : (∃ s ∈ srcs, r ∈ Dict.keys (items s)) ∨ dict.lookup r = some t) :
    (srcs.foldl (fun dict s => Dict.update dict (items s)) dict).lookup r = some t := by
  induction srcs generalizing dict with
  | nil => exact hsome.resolve_left fun ⟨s, hs, _⟩ => absurd hs List.not_mem_nil
  | cons s srcs ih =>
    refine ih (fun s' hs' => hnodup s' (.tail _ hs')) (fun s' hs' => hitems s' (.tail _ hs')) ?_
    rw [Dict.lookup_update (hnodup s (.head _))]
    by_cases hr : r ∈ Dict.keys (items s)
    · rw [hitems s (.head _) hr]
      exact .inr rfl
    · rw [Dict.lookup_eq_none.mpr hr, Option.none_or]
      refine hsome.imp_left fun ⟨s', hs', hr'⟩ => ?_
      rcases List.mem_cons.mp hs' with rfl | hs'
      · exact absurd hr' hr
      · exact ⟨s', hs', hr'⟩

theorem independent_spec (h : GroupOk finishStatus plans)
    (hfloat : ∀ q ∈ plans, q.extraCost.isInt = false) (hstate : KeptState plans state)
    (hp : plans[k]? = some p) (hp' : state[k]? = some (p.withKept kept)) (hm : m ∈ p.modelList)
    (hindependent : m.independentSrcs = true) :
    ∃ times, Returns (KeptState plans)
        (arriveTimesOf finishStatus (inpExecPlans state (p.withKept kept)) m)
        (m.inpSeqIds.map times) ∧
      ∀ r ∈ m.inpSeqIds, ArrivesAt (SourceOutside plans k) finishStatus m r (times r) := by
  have hok := h.independent p (List.mem_of_getElem? hp) m hm hindependent
  have hall : ∀ s, ∃ (reqs : List (Nat × Nat)) (times : Nat → ℚ), s ∈ m.inpBaseModelIds →
      m.inpReqFromWhichModelWhichOutReqs.lookup s = some reqs ∧ (Dict.keys reqs).Nodup ∧
      Returns (KeptState plans) (timesFromSource finishStatus reqs s
        (infoOf (inpExecPlans state (p.withKept kept)) s).head?)
        (reqs.map fun r => (r.1, times r.2)) ∧
      ∀ r', (∃ q j, SourceOutside plans k s q j ∧ times r' = q.timeOf j r') ∨
        (∀ q j, ¬ SourceOutside plans k s q j) ∧
          (finishStatus.lookup s = some true ∧ times r' = -1 ∨
            finishStatus.lookup s = some false ∧ times r' = 10 ^ 9) := by
    intro s
    by_cases hs : s ∈ m.inpBaseModelIds
    · obtain ⟨reqs, hreqs, hnodup⟩ := hok.mapped s hs
      obtain ⟨times, hrun, htimes⟩ := independent_source h hfloat hstate hp hp' hm hok hs reqs
      exact ⟨reqs, times, fun _ => ⟨hreqs, hnodup, hrun, htimes⟩⟩
    · exact ⟨[], fun _ => 0, fun hmem => absurd hmem hs⟩
  -- what each source contributes: its requests, with the times at which they arrive
  choose reqs times hsource using hall
  let items : Nat → List (Nat × ℚ) := fun s => (reqs s).map fun r => (r.1, times s r.2)
  have hkeys : ∀ s, Dict.keys (items s) = Dict.keys (reqs s) := fun s => by
    show ((reqs s).map _).map Prod.fst = _
    rw [List.map_map]
    rfl
  have hrun : Returns (KeptState plans) ((m.inpBaseModelIds.zip
      (inpInfo (inpExecPlans state (p.withKept kept)) m)).foldlM (fun dict e => do
        let inpSeqIds ← StateT.lift (m.inpReqFromWhichModelWhichOutReqs.lookup e.1)
        let items ← timesFromSource finishStatus inpSeqIds e.1 e.2
        return Dict.update dict items) [])
      (m.inpBaseModelIds.foldl (fun dict s => Dict.update dict (items s)) []) := by
    rw [inpInfo_eq h.distinct hstate hp' hm hindependent, ← List.map_prod_left_eq_zip,
      List.foldlM_map]
    refine Returns.foldlM fun s hs dict => ?_
    obtain ⟨hreqs, -, hsourceRun, -⟩ := hsource s hs
    exact (Returns.lift hreqs).bind (hsourceRun.bind (Returns.pure _))
  have hvalue : ∀ r ∈ m.inpSeqIds, ∃ t,
      (m.inpBaseModelIds.foldl (fun dict s => Dict.update dict (items s)) []).lookup r = some t ∧
        ArrivesAt (SourceOutside plans k) finishStatus m r t := by
    intro r hr
    -- only one source maps a request, so later updates of the dictionary do not replace its time
    obtain ⟨s, hs, reqs', hreqs', hmem, hsingle⟩ := hok.single r hr
    obtain ⟨hreqs, hnodup, -, htimes⟩ := hsource s hs
    obtain rfl := Option.some.inj (hreqs'.symm.trans hreqs)
    obtain ⟨r', hr'⟩ : ∃ r', (reqs s).lookup r = some r' :=
      Option.ne_none_iff_exists'.mp fun hnone => Dict.lookup_eq_none.mp hnone hmem
    refine ⟨times s r', lookup_foldl_update (fun s' hs' => ?_) (fun s' hs' hr => ?_)
      (.inl ⟨s, hs, ?_⟩), ?_⟩
    · rw [hkeys]
      exact (hsource s' hs').2.1
    · rw [hkeys] at hr
      obtain rfl := hsingle s' hs' (reqs s') (hsource s' hs').1 hr
      exact (Dict.lookup_map (times s') (reqs s') r).trans (congrArg _ hr')
    · rw [hkeys]
      exact hmem
    · rw [ArrivesAt, if_pos hindependent]
      exact ⟨s, hs, reqs s, r', hreqs, hr', htimes r'⟩
  refine ⟨fun r => ((m.inpBaseModelIds.foldl (fun dict s =>
    Dict.update dict (items s)) []).lookup r).getD 0, ?_, fun r hr => ?_⟩
  · rw [arriveTimesOf, if_pos hindependent]
    refine hrun.bind (Returns.lift (mapM_of_forall fun r hr => ?_))
    obtain ⟨t, ht, -⟩ := hvalue r hr
    rw [ht]
    rfl
  · obtain ⟨t, ht, harrives⟩ := hvalue r hr
    beta_reduce
    rw [ht]
    exact harrives

/-! ## The group -/

/-- The arrival times of the requests of a plan's base models. -/
def PlanArrivesAt (source : Nat → ExecPlan → Nat → Prop) (finishStatus : List (Nat × Bool))
    (p : ExecPlan) (times : List (List ℚ)) : Prop :=
  List.Forall₂ (fun m ts => List.Forall₂ (ArrivesAt source finishStatus m) m.inpSeqIds ts)
    p.modelList times

theorem getArriveTimes_spec (h : GroupOk finishStatus plans)
    (hfloat : ∀ q ∈ plans, q.extraCost.isInt = false) (hp : plans[k]? = some p)
    (hstate : KeptState plans state) : ∃ times state',
      getArriveTimes finishStatus k state = some (times, state') ∧ KeptState plans state' ∧
        PlanArrivesAt (SourceOutside plans k) finishStatus p times := by
  obtain ⟨kept, hp', -⟩ := hstate.get hp
  have hmodels : ∀ m ∈ p.modelList, ∀ state', KeptState plans state' → ∃ ts state'',
      arriveTimesOf finishStatus (inpExecPlans state (p.withKept kept)) m state' =
        some (ts, state'') ∧ KeptState plans state'' ∧
      List.Forall₂ (ArrivesAt (SourceOutside plans k) finishStatus m) m.inpSeqIds ts := by
    intro m hm state' hstate'
    have hone : ∃ times, Returns (KeptState plans)
        (arriveTimesOf finishStatus (inpExecPlans state (p.withKept kept)) m)
        (m.inpSeqIds.map times) ∧
        ∀ r ∈ m.inpSeqIds, ArrivesAt (SourceOutside plans k) finishStatus m r (times r) := by
      cases hindependent : m.independentSrcs with
      | true => exact independent_spec h hfloat hstate hp hp' hm hindependent
      | false =>
        obtain ⟨times, hrun, htimes⟩ := concatenated_spec h hfloat hstate hp hp' hm hindependent
        exact ⟨times, hrun, fun r _ => htimes r⟩
    obtain ⟨times, hrun, htimes⟩ := hone
    obtain ⟨state'', hrun, hstate''⟩ := hrun state' hstate'
    exact ⟨_, state'', hrun, hstate'', List.forall₂_map_right_iff.mpr
      (List.forall₂_same.mpr htimes)⟩
  obtain ⟨times, state', hrun, hstate', htimes⟩ := Returns.exists_mapM hmodels hstate
  refine ⟨times, state', ?_, hstate', htimes⟩
  rw [← hrun]
  show (StateT.lift (state[k]?) state).bind _ = _
  rw [hp']
  rfl

end

/-- In a new group every plan gets the arrival times that the other plans' finish times say, and the
arrays that the plans keep are right for the next group. -/
def BuildsRight (continues : ExecPlan → Bool) (prepareCost : ExecPlan → ℚ)
    (finishStatus : List (Nat × Bool)) (plans : List ExecPlan) : Prop :=
  ∃ arriveTimes state,
    buildPlanGroup continues prepareCost finishStatus plans = some (arriveTimes, state) ∧
    KeptState (compExtraPrepareCosts continues prepareCost plans) state ∧
    ∀ k p, (compExtraPrepareCosts continues prepareCost plans)[k]? = some p →
      ∃ times, arriveTimes[k]? = some times ∧
        PlanArrivesAt (SourceOutside (compExtraPrepareCosts continues prepareCost plans) k)
          finishStatus p times

theorem buildPlanGroup_arrivesAt (continues : ExecPlan → Bool) (prepareCost : ExecPlan → ℚ)
    (finishStatus : List (Nat × Bool)) (plans : List ExecPlan)
    (h : GroupOk finishStatus (compExtraPrepareCosts continues prepareCost plans))
    (hkept : ∀ p ∈ compExtraPrepareCosts continues prepareCost plans, p.Kept p.finishTimesMerged) :
    BuildsRight continues prepareCost finishStatus plans := by
  have hfloat : ∀ q ∈ compExtraPrepareCosts continues prepareCost plans,
      q.extraCost.isInt = false := by
    intro q hq
    obtain ⟨p, -, rfl⟩ := List.mem_map.mp hq
    show (if continues p then _ else _ : Number).isInt = false
    split <;> rfl
  have hlen : (compExtraPrepareCosts continues prepareCost plans).length = plans.length :=
    List.length_map _
  rw [BuildsRight, buildPlanGroup]
  generalize compExtraPrepareCosts continues prepareCost plans = group at h hkept hfloat hlen
  have hinit : KeptState group group :=
    List.forall₂_same.mpr fun p hp => ⟨p.finishTimesMerged, rfl, hkept p hp⟩
  have hplans : ∀ k ∈ List.range plans.length, ∀ state, KeptState group state → ∃ times state',
      getArriveTimes finishStatus k state = some (times, state') ∧ KeptState group state' ∧
      ∀ p, group[k]? = some p → PlanArrivesAt (SourceOutside group k) finishStatus p times := by
    intro k hk state hstate
    have hp := List.getElem?_eq_getElem ((List.mem_range.mp hk).trans_eq hlen.symm)
    obtain ⟨times, state', hrun, hstate', htimes⟩ := getArriveTimes_spec h hfloat hp hstate
    refine ⟨times, state', hrun, hstate', fun p hp' => ?_⟩
    obtain rfl := Option.some.inj (hp'.symm.trans hp)
    exact htimes
  obtain ⟨arriveTimes, state, hrun, hstate, hall⟩ := Returns.exists_mapM hplans hinit
  refine ⟨arriveTimes, state, hrun, hstate, fun k p hp => ?_⟩
  have hk : k < plans.length := hlen ▸ (List.getElem?_eq_some_iff.mp hp).1
  have hk' : k < arriveTimes.length := by
    rw [← hall.length_eq, List.length_range]
    exact hk
  refine ⟨arriveTimes[k], List.getElem?_eq_getElem hk', ?_⟩
  have hat := (List.forall₂_iff_get.mp hall).2 k (by rwa [List.length_range]) hk'
  rw [List.get_eq_getElem, List.getElem_range] at hat
  exact hat p hp

/-! ## Instances -/

/-- A model of which two workers have three requests; a fourth has been finished. -/
def sourcePlan : ExecPlan where
  isVerticalFused := false
  modelId := 0
  modelList := [⟨0, [], 4, [0, 1, 2, 3], [1, 2, 3], false, []⟩]
  dpInpSeqIdsList := [[[1, 3]], [[2]]]
  finishTimesList := [[[1 / 2, 7 / 2]], [[3 / 2]]]
  extraCost := ⟨false, 0⟩
  finishTimesMerged := [⟨false, []⟩]

/-- A model that needs the outputs of model 0 and of a finished model. -/
def concatenatedPlan : ExecPlan where
  isVerticalFused := false
  modelId := 1
  modelList := [⟨1, [0, 8], 2, [0, 1], [0, 1], false, []⟩]
  dpInpSeqIdsList := [[[]]]
  finishTimesList := [[[]]]
  extraCost := ⟨false, 0⟩
  finishTimesMerged := [⟨false, []⟩]

/-- A model each of whose requests comes from model 0 or from one outside the group. -/
def independentPlan : ExecPlan where
  isVerticalFused := false
  modelId := 2
  modelList := [⟨2, [0, 9], 2, [0, 1], [0, 1], true, [(0, [(0, 3)]), (9, [(1, 0)])]⟩]
  dpInpSeqIdsList := [[[]]]
  finishTimesList := [[[]]]
  extraCost := ⟨false, 0⟩
  finishTimesMerged := [⟨false, []⟩]

/-- The three plans with their extra costs. -/
def threePlans : List ExecPlan :=
  compExtraPrepareCosts (fun _ => false) (fun _ => 1)
    [sourcePlan, concatenatedPlan, independentPlan]

theorem simulatedAt_of_mem_threePlans {q : ExecPlan} (hq : q ∈ threePlans) {j : Nat}
    {model : BaseModel} (hmodel : q.modelList[j]? = some model) : q.SimulatedAt j model := by
  obtain rfl : j = 0 := by
    have hone : q.modelList.length = 1 := by
      simp only [threePlans, compExtraPrepareCosts, List.map_cons, List.map_nil, List.mem_cons,
        List.not_mem_nil, or_false] at hq
      rcases hq with rfl | rfl | rfl <;> rfl
    have hlt := (List.getElem?_eq_some_iff.mp hmodel).1
    omega
  simp only [threePlans, compExtraPrepareCosts, List.map_cons, List.map_nil, List.mem_cons,
    List.not_mem_nil, or_false] at hq
  rcases hq with rfl | rfl | rfl <;> obtain rfl := Option.some.inj hmodel
  · refine ⟨by decide, rfl, fun e he => ?_, by decide, by decide⟩
    have hcases : e = ([[1, 3]], [[1 / 2, 7 / 2]]) ∨ e = ([[2]], [[3 / 2]]) := by
      simpa [sourcePlan] using he
    rcases hcases with rfl | rfl
    · exact ⟨_, _, rfl, rfl, rfl⟩
    · exact ⟨_, _, rfl, rfl, rfl⟩
  · refine ⟨by decide, rfl, fun e he => ?_, by decide, by decide⟩
    obtain rfl := List.mem_singleton.mp he
    exact ⟨_, _, rfl, rfl, rfl⟩
  · refine ⟨by decide, rfl, fun e he => ?_, by decide, by decide⟩
    obtain rfl := List.mem_singleton.mp he
    exact ⟨_, _, rfl, rfl, rfl⟩

theorem independentOk_independentPlan (cost : Number) :
    IndependentOk [(0, false), (8, true), (9, false)]
      { independentPlan with extraCost := cost }
      ⟨2, [0, 9], 2, [0, 1], [0, 1], true, [(0, [(0, 3)]), (9, [(1, 0)])]⟩ := by
  constructor
  case mapped =>
    intro s hs
    rcases List.mem_pair.mp hs with rfl | rfl
    · exact ⟨_, rfl, by decide⟩
    · exact ⟨_, rfl, by decide⟩
  case status =>
    intro s hs
    rcases List.mem_pair.mp hs with rfl | rfl
    · exact ⟨_, rfl⟩
    · exact ⟨_, rfl⟩
  case single =>
    intro r hr
    rcases List.mem_pair.mp hr with rfl | rfl
    · refine ⟨0, by decide, _, rfl, by decide, fun s hs reqs hreqs hmem => ?_⟩
      rcases List.mem_pair.mp hs with rfl | rfl
      · rfl
      · obtain rfl := Option.some.inj hreqs
        exact absurd hmem (by decide)
    · refine ⟨9, by decide, _, rfl, by decide, fun s hs reqs hreqs hmem => ?_⟩
      rcases List.mem_pair.mp hs with rfl | rfl
      · obtain rfl := Option.some.inj hreqs
        exact absurd hmem (by decide)
      · rfl
  case apart =>
    show ∀ s ∈ [0, 9], s ∉ [2]
    decide

theorem groupOk_threePlans : GroupOk [(0, false), (8, true), (9, false)] threePlans := by
  constructor
  case distinct =>
    refine ⟨by decide, by decide, fun p hp _ => ?_⟩
    simp only [threePlans, compExtraPrepareCosts, List.map_cons, List.map_nil, List.mem_cons,
      List.not_mem_nil, or_false] at hp
    rcases hp with rfl | rfl | rfl
    · exact ⟨_, rfl, by decide⟩
    · exact ⟨_, rfl, by decide⟩
    · exact ⟨_, rfl, by decide⟩
  case simulated =>
    intro k p _ m _ s _ q j ⟨i, _, hq⟩ model hmodel
    exact simulatedAt_of_mem_threePlans (List.mem_of_getElem? hq.1) hmodel
  case independent =>
    intro p hp m hm hindependent
    simp only [threePlans, compExtraPrepareCosts, List.map_cons, List.map_nil, List.mem_cons,
      List.not_mem_nil, or_false] at hp
    rcases hp with rfl | rfl | rfl <;> obtain rfl := List.mem_singleton.mp hm
    · cases hindependent
    · cases hindependent
    · exact independentOk_independentPlan _

/-- A source with two workers, a model that waits for it, and a model with independent sources. -/
theorem buildPlanGroup_arrivesAt_three :
    BuildsRight (fun _ => false) (fun _ => 1) [(0, false), (8, true), (9, false)]
      [sourcePlan, concatenatedPlan, independentPlan] := by
  refine buildPlanGroup_arrivesAt _ _ _ _ groupOk_threePlans fun p hp => ⟨?_, fun j a ha => .inl ?_⟩
  · simp only [compExtraPrepareCosts, List.map_cons, List.map_nil, List.mem_cons,
      List.not_mem_nil, or_false] at hp
    rcases hp with rfl | rfl | rfl <;> rfl
  · have hmerged : p.finishTimesMerged = [⟨false, []⟩] := by
      simp only [compExtraPrepareCosts, List.map_cons, List.map_nil, List.mem_cons,
        List.not_mem_nil, or_false] at hp
      rcases hp with rfl | rfl | rfl <;> rfl
    rw [hmerged] at ha
    rw [List.mem_singleton.mp (List.mem_of_getElem? ha)]

/-- A fused plan that has been simulated; its second model continues requests of the first. -/
def fusedPlan : ExecPlan where
  isVerticalFused := true
  modelId := 5
  modelList := [⟨0, [], 1, [7], [7], false, []⟩, ⟨1, [0], 1, [7], [7], false, []⟩]
  dpInpSeqIdsList := [[[7], [7]]]
  finishTimesList := [[[3 / 2], [5 / 2]]]
  extraCost := ⟨false, 0⟩
  finishTimesMerged := [⟨false, []⟩, ⟨false, []⟩]

/-- The requests of the second model do not wait for the first model, which is in the same group,
although it is unfinished. -/
theorem fused_source_not_counted :
    (buildPlanGroup (fun _ => true) (fun _ => 0) [(0, false), (1, false)] [fusedPlan]).map Prod.fst =
        some [[[-1], [-1]]] ∧
      ¬ PlanArrivesAt (fun s q j => ∃ i, HasModel [fusedPlan] i q j s) [(0, false), (1, false)]
        fusedPlan [[-1], [-1]] := by
  refine ⟨by decide, fun h => ?_⟩
  obtain ⟨-, hsecond⟩ := List.forall₂_cons.mp h
  obtain ⟨htimes, -⟩ := List.forall₂_cons.mp hsecond
  obtain ⟨hat, -⟩ := List.forall₂_cons.mp htimes
  have hsource : ∃ i, HasModel [fusedPlan] i fusedPlan 0 0 := ⟨0, rfl, rfl⟩
  rw [ArrivesAt, if_neg Bool.false_ne_true] at hat
  rcases hat with ⟨-, hle⟩ | ⟨hnone, -⟩
  · have htime : fusedPlan.timeOf 0 7 ≤ -1 := hle ⟨0, by decide, fusedPlan, 0, hsource, rfl⟩
    exact absurd htime (by decide +kernel)
  · exact hnone 0 (by decide) fusedPlan 0 hsource

end Mil.Arrive
