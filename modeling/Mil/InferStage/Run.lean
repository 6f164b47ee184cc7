import Mathlib.Algebra.Order.Ring.Int
import Mil.InferStage.Conserve

/-!
# Runs of stages

A stage credits what it should when every iteration that starts before a plan's stop time counts,
and no other; and it conserves the requests when a request is left out exactly when its tokens are
used up. Both hold in every stage of a run exactly when two conditions do in every stage: the
levels of each request id are consecutive in the fused plans, and the stop times are clear of the
first and the last iterations.

The stop time of a plan is the latency of the stage less the extra cost of the plan, which may be
larger. `get_throughput_at_stop_time_based_on_cached_throughputs` gives such a plan no throughput,
but the update of the lengths credits it with its first iteration.
-/

set_option autoImplicit false

namespace Mil.InferStage

open Mil.Lib Mil.Fcfs

variable {τ : Type} [LinearOrder τ] [Zero τ] [Add τ] [Sub τ] {bound : Bound τ}
  {g : ExecPlanGroup τ} {s s' : ModelStates}

/-! ## One stage -/

/-- A base model is in one plan, and the plans' simulations were run for the requests they have. -/
structure GroupOk (g : ExecPlanGroup τ) (s : ModelStates) : Prop where
  distinct : (g.execPlans.flatMap ExecPlan.baseModelIds).Nodup
  simulated : ∀ p ∈ g.execPlans, p.Simulated s

/-- The tokens the stage credits to a request of a base model. -/
def ExecPlanGroup.creditOf (bound : Bound τ) (g : ExecPlanGroup τ) (s : ModelStates)
    (m seqId : Nat) : Nat :=
  match g.inferStageLatency bound, g.execPlans.find? fun p => m ∈ p.baseModelIds with
  | some latency, some p => p.credit s (latency - p.extraCost) (p.baseModelIds.idxOf m) seqId
  | _, _ => 0

/-- A request is credited with the iterations that start before the plan's stop time, and its
lengths are updated by its credit. -/
structure StageCorrect (bound : Bound τ) (g : ExecPlanGroup τ) (s s' : ModelStates) : Prop where
  credited : ∀ latency, g.inferStageLatency bound = some latency → ∀ p ∈ g.execPlans,
    ∀ dpId < p.dpSize, ∀ k, ∀ i < ((p.dpRequests s dpId).getD k []).length,
      (((p.progress dpId).finishedAt (latency - p.extraCost)).getD k []).getD i 0 =
        startedBefore (p.progress dpId).cumsumLatencys (latency - p.extraCost)
          ((p.progress dpId).row k i)
  conserved : ∀ m, Conserves (s m) (s' m) (g.creditOf bound s m)

/-- The levels of the fused plans are consecutive for each request id, and the stop times are
clear. -/
structure StageClear (bound : Bound τ) (g : ExecPlanGroup τ) (s : ModelStates) : Prop where
  linked : ∀ p ∈ g.execPlans, LevelsLinked (p.baseModelIds.map s)
  clear : ∀ latency, g.inferStageLatency bound = some latency → ∀ p ∈ g.execPlans,
    ∀ dpId < p.dpSize, ∀ last, (p.progress dpId).cumsumLatencys.getLast? = some last →
      ∀ k, ∀ i < ((p.dpRequests s dpId).getD k []).length,
        ClearStop (p.progress dpId).cumsumLatencys last (latency - p.extraCost)
          ((p.progress dpId).row k i)

section

variable {ι β : Type} [DecidableEq ι]

theorem foldl_update_of_notMem {l : List (ι × β)} {f : ι → β} {i : ι} (h : i ∉ l.map Prod.fst) :
    l.foldl (fun f x => Function.update f x.1 x.2) f i = f i := by
  induction l generalizing f with
  | nil => rfl
  | cons x l ih =>
    rw [List.map_cons, List.mem_cons, not_or] at h
    rw [List.foldl_cons, ih h.2, Function.update_of_ne h.1]

theorem foldl_update_of_mem {l : List (ι × β)} {f : ι → β} (hnodup : (l.map Prod.fst).Nodup)
    {x : ι × β} (h : x ∈ l) : l.foldl (fun f x => Function.update f x.1 x.2) f x.1 = x.2 := by
  induction l generalizing f with
  | nil => exact absurd h List.not_mem_nil
  | cons y l ih =>
    rw [List.map_cons, List.nodup_cons] at hnodup
    rw [List.foldl_cons]
    rcases List.mem_cons.mp h with rfl | h
    · rw [foldl_update_of_notMem hnodup.1, Function.update_self]
    · exact ih hnodup.2 h

end

/-- The lists the stage writes, with the base models they are for. -/
def ExecPlanGroup.updates (g : ExecPlanGroup τ) (s : ModelStates) (latency : τ) :
    List (Nat × List Request) :=
  g.execPlans.flatMap fun p => p.baseModelIds.zip
    ((List.range p.baseModelIds.length).map (p.mergedLevel s (latency - p.extraCost)))

omit [Zero τ] [Add τ] in
theorem updates_fst (latency : τ) :
    (g.updates s latency).map Prod.fst = g.execPlans.flatMap ExecPlan.baseModelIds := by
  rw [ExecPlanGroup.updates, List.map_flatMap]
  refine List.flatMap_congr fun p _ => List.map_fst_zip ?_
  rw [List.length_map, List.length_range]

omit [Zero τ] [Add τ] in
theorem mem_updates {p : ExecPlan τ} (hp : p ∈ g.execPlans) {k : Nat}
    (hk : k < p.baseModelIds.length) (latency : τ) :
    (p.baseModelIds[k], p.mergedLevel s (latency - p.extraCost) k) ∈ g.updates s latency := by
  refine List.mem_flatMap.mpr ⟨p, hp, List.mem_iff_getElem?.mpr ⟨k, ?_⟩⟩
  refine List.getElem?_zip_eq_some.mpr ⟨List.getElem?_eq_getElem hk, ?_⟩
  rw [List.getElem?_map, List.getElem?_range hk]
  rfl

/-- What a stage writes, base model by base model. -/
theorem inferStage_ok (hok : GroupOk g s) (h : g.inferStage bound s = some s') :
    ∃ latency, g.inferStageLatency bound = some latency ∧
      (∀ p ∈ g.execPlans, ∀ k, ∀ hk : k < p.baseModelIds.length,
        s' p.baseModelIds[k] = p.mergedLevel s (latency - p.extraCost) k) ∧
      ∀ m, m ∉ g.execPlans.flatMap ExecPlan.baseModelIds → s' m = s m := by
  rw [ExecPlanGroup.inferStage] at h
  split at h
  · obtain ⟨latency, hlatency, hs'⟩ := Option.map_eq_some_iff.mp h
    have hfold : s' = (g.updates s latency).foldl (fun f x => Function.update f x.1 x.2) s := by
      rw [← hs', ExecPlanGroup.updates, List.foldl_flatMap]
      rfl
    refine ⟨latency, hlatency, fun p hp k hk => ?_, fun m hm => ?_⟩
    · rw [hfold]
      exact foldl_update_of_mem ((updates_fst latency).symm ▸ hok.distinct)
        (mem_updates hp hk latency)
    · rw [hfold]
      exact foldl_update_of_notMem ((updates_fst latency).symm ▸ hm)
  · cases h

omit [Add τ] in
/-- The plan of a base model. -/
theorem find_of_mem (hok : GroupOk g s) {p : ExecPlan τ} (hp : p ∈ g.execPlans) {k : Nat}
    (hk : k < p.baseModelIds.length) :
    (g.execPlans.find? fun q => p.baseModelIds[k] ∈ q.baseModelIds) = some p ∧
      p.baseModelIds.idxOf p.baseModelIds[k] = k := by
  obtain ⟨hself, hdisjoint⟩ := List.nodup_flatMap.mp hok.distinct
  have hsome : (g.execPlans.find? fun q => p.baseModelIds[k] ∈ q.baseModelIds).isSome :=
    List.find?_isSome.mpr ⟨p, hp, decide_eq_true (List.getElem_mem hk)⟩
  obtain ⟨q, hq⟩ := Option.isSome_iff_exists.mp hsome
  have hmem := List.find?_some hq
  rw [decide_eq_true_eq] at hmem
  refine ⟨hq.trans (congrArg some ?_), (hself p hp).idxOf_getElem k hk⟩
  by_contra hne
  have : Std.Symm (Function.onFun List.Disjoint (ExecPlan.baseModelIds (τ := τ))) :=
    ⟨fun _ _ hd => List.Disjoint.symm hd⟩
  exact hdisjoint.forall (List.mem_of_find?_eq_some hq) hp hne hmem (List.getElem_mem hk)

theorem creditOf_eq (hok : GroupOk g s) {latency : τ}
    (hlatency : g.inferStageLatency bound = some latency) {p : ExecPlan τ}
    (hp : p ∈ g.execPlans) {k : Nat} (hk : k < p.baseModelIds.length) :
    g.creditOf bound s p.baseModelIds[k] = p.credit s (latency - p.extraCost) k := by
  obtain ⟨hfind, hidx⟩ := find_of_mem hok hp hk
  funext seqId
  rw [ExecPlanGroup.creditOf, hlatency, hfind]
  simp only [hidx]

theorem creditOf_of_notMem {m : Nat} (hm : m ∉ g.execPlans.flatMap ExecPlan.baseModelIds) :
    g.creditOf bound s m = fun _ => 0 := by
  have hnone : (g.execPlans.find? fun p => m ∈ p.baseModelIds) = none :=
    List.find?_eq_none.mpr fun p hp hin =>
      hm (List.mem_flatMap.mpr ⟨p, hp, of_decide_eq_true hin⟩)
  funext seqId
  rw [ExecPlanGroup.creditOf, hnone]
  cases g.inferStageLatency bound <;> rfl

/-- A stage conserves the requests of every model exactly when the levels are linked. -/
theorem stage_conserves_iff (hs : WellFormed s) (hok : GroupOk g s)
    (h : g.inferStage bound s = some s') :
    (∀ m, Conserves (s m) (s' m) (g.creditOf bound s m)) ↔
      ∀ p ∈ g.execPlans, LevelsLinked (p.baseModelIds.map s) := by
  obtain ⟨latency, hlatency, hin, hout⟩ := inferStage_ok hok h
  have hlevel : ∀ p ∈ g.execPlans, ∀ k, ∀ hk : k < p.baseModelIds.length,
      (Conserves (s p.baseModelIds[k]) (s' p.baseModelIds[k])
        (g.creditOf bound s p.baseModelIds[k]) ↔ p.level s k ⊆ p.served s k) := by
    intro p hp k hk
    rw [hin p hp k hk, creditOf_eq hok hlatency hp hk, ← level_eq (s := s) hk]
    exact conserves_iff hs (hok.simulated p hp) hk
  constructor
  · intro hall p hp
    exact levelsLinked_of_served (fun m _ => hs.nodup m) fun k hk =>
      (hlevel p hp k hk).mp (hall _)
  · intro hlinked m
    by_cases hm : m ∈ g.execPlans.flatMap ExecPlan.baseModelIds
    · obtain ⟨p, hp, hmp⟩ := List.mem_flatMap.mp hm
      obtain ⟨k, hk, rfl⟩ := List.mem_iff_getElem.mp hmp
      exact (hlevel p hp k hk).mpr
        (served_perm (fun m _ => hs.nodup m) (hlinked p hp) hk).symm.subset
    · rw [hout m hm, creditOf_of_notMem hm]
      exact Conserves.refl (hs.pos m)

omit [Add τ] in
/-- A stage credits what it should exactly when its stop times are clear. -/
theorem stage_credited_iff (hs : WellFormed s) (hok : GroupOk g s) {latency : τ}
    {p : ExecPlan τ} (hp : p ∈ g.execPlans) {dpId : Nat} (hdp : dpId < p.dpSize) {k i : Nat}
    (hi : i < ((p.dpRequests s dpId).getD k []).length) :
    (((p.progress dpId).finishedAt (latency - p.extraCost)).getD k []).getD i 0 =
        startedBefore (p.progress dpId).cumsumLatencys (latency - p.extraCost)
          ((p.progress dpId).row k i) ↔
      ∀ last, (p.progress dpId).cumsumLatencys.getLast? = some last →
        ClearStop (p.progress dpId).cumsumLatencys last (latency - p.extraCost)
          ((p.progress dpId).row k i) := by
  obtain ⟨rows, hsim⟩ := hok.simulated p hp dpId hdp
  cases hlast : (p.progress dpId).cumsumLatencys.getLast? with
  | none =>
    rw [hsim.eq_nil (List.getLast?_eq_none_iff.mp hlast) (dpRequests_pos hs hdp)] at hi
    exact absurd hi (Nat.not_lt_zero i)
  | some last =>
    obtain ⟨row, hrow, hdone, -⟩ := hsim.finished_le (i := stopIter
      (p.progress dpId).cumsumLatencys last (latency - p.extraCost))
      (List.getElem?_eq_getElem hi)
    obtain ⟨level, hl, hrl⟩ := mem_of_mem_getD (List.mem_of_getElem? hrow)
    have hcredit := credit_eq_iff (latency - p.extraCost) hsim.sorted hsim.nonneg hlast
      (hsim.increasing level hl row hrl) (hsim.ends level hl row hrl)
    rw [WorkerProgress.finishedAt, hlast]
    simp only
    rw [List.getD_eq_getElem?_getD, hdone, Option.getD_some, hsim.row_eq hrow, hcredit]
    exact ⟨fun h last' heq => Option.some.inj heq ▸ h, fun h => h last rfl⟩

theorem stageCorrect_iff (hs : WellFormed s) (hok : GroupOk g s)
    (h : g.inferStage bound s = some s') : StageCorrect bound g s s' ↔ StageClear bound g s := by
  constructor
  · rintro ⟨hcredited, hconserved⟩
    refine ⟨(stage_conserves_iff hs hok h).mp hconserved,
      fun latency hlatency p hp dpId hdp last hlast k i hi => ?_⟩
    exact (stage_credited_iff hs hok hp hdp hi).mp
      (hcredited latency hlatency p hp dpId hdp k i hi) last hlast
  · rintro ⟨hlinked, hclear⟩
    refine ⟨fun latency hlatency p hp dpId hdp k i hi => ?_,
      (stage_conserves_iff hs hok h).mpr hlinked⟩
    exact (stage_credited_iff hs hok hp hdp hi).mpr fun last hlast =>
      hclear latency hlatency p hp dpId hdp last hlast k i hi

theorem WellFormed.inferStage (hs : WellFormed s) (hok : GroupOk g s)
    (h : g.inferStage bound s = some s') : WellFormed s' := by
  obtain ⟨latency, -, hin, hout⟩ := inferStage_ok hok h
  have hcases : ∀ m, s' m = s m ∨ ∃ p ∈ g.execPlans, ∃ k, ∃ _ : k < p.baseModelIds.length,
      s' m = p.mergedLevel s (latency - p.extraCost) k := by
    intro m
    by_cases hm : m ∈ g.execPlans.flatMap ExecPlan.baseModelIds
    · obtain ⟨p, hp, hmp⟩ := List.mem_flatMap.mp hm
      obtain ⟨k, hk, rfl⟩ := List.mem_iff_getElem.mp hmp
      exact .inr ⟨p, hp, k, hk, hin p hp k hk⟩
    · exact .inl (hout m hm)
  refine ⟨fun m => ?_, fun m r hr => ?_⟩
  · rcases hcases m with heq | ⟨p, hp, k, hk, heq⟩
    · rw [heq]
      exact hs.nodup m
    · rw [heq]
      exact mergedLevel_nodup hs (hok.simulated p hp) hk
  · rcases hcases m with heq | ⟨p, hp, k, hk, heq⟩
    · exact hs.pos m r (heq ▸ hr)
    · rw [heq] at hr
      obtain ⟨c, -, rfl, hlt⟩ := (mem_mergedLevel hs (hok.simulated p hp)).mp hr
      exact Nat.sub_pos_of_lt hlt

/-! ## Runs -/

/-- A stage of a run, with the requests before and after it. -/
structure Stage (τ : Type) where
  group : ExecPlanGroup τ
  before : ModelStates
  after : ModelStates

/-- A sequence of stages. -/
inductive Run (bound : Bound τ) : ModelStates → List (Stage τ) → ModelStates → Prop
  | nil (s : ModelStates) : Run bound s [] s
  | cons {g : ExecPlanGroup τ} {s s' s'' : ModelStates} {stages : List (Stage τ)}
      (hok : GroupOk g s) (hstage : g.inferStage bound s = some s')
      (hrun : Run bound s' stages s'') : Run bound s (⟨g, s, s'⟩ :: stages) s''

/-- The tokens credited to a request over all stages. -/
def totalCredit (bound : Bound τ) (stages : List (Stage τ)) (m seqId : Nat) : Nat :=
  (stages.map fun st => st.group.creditOf bound st.before m seqId).sum

/-- In every stage the credits are those of the iterations that start before the stop, and a request
is dropped when its tokens are used up. Over the run the credits add up: input and output length
together stay the same, and once a request is gone its credits are its output length, all of which
has gone into its input length. -/
structure RunCorrect (bound : Bound τ) (s : ModelStates) (stages : List (Stage τ))
    (s' : ModelStates) : Prop where
  each : ∀ st ∈ stages, StageCorrect bound st.group st.before st.after
  total : ∀ m, Conserves (s m) (s' m) (totalCredit bound stages m)
  unchanged : ∀ m, ∀ r ∈ s m, ∀ r' ∈ s' m, r'.seqId = r.seqId →
    r'.inpLen + r'.outLen = r.inpLen + r.outLen
  completed : ∀ m, ∀ r ∈ s m, r.seqId ∉ ids (s' m) →
    totalCredit bound stages m r.seqId = r.outLen ∧
      (r.advance (totalCredit bound stages m r.seqId)).inpLen = r.inpLen + r.outLen

variable {stages : List (Stage τ)}

/-- A request that is not there is credited with nothing. -/
theorem creditOf_of_gone (hs : WellFormed s) (hok : GroupOk g s) {m seqId : Nat}
    (hid : seqId ∉ ids (s m)) : g.creditOf bound s m seqId = 0 := by
  cases hlatency : g.inferStageLatency bound with
  | none =>
    rw [ExecPlanGroup.creditOf, hlatency]
  | some latency =>
    by_cases hm : m ∈ g.execPlans.flatMap ExecPlan.baseModelIds
    · obtain ⟨p, hp, hmp⟩ := List.mem_flatMap.mp hm
      obtain ⟨k, hk, rfl⟩ := List.mem_iff_getElem.mp hmp
      rw [creditOf_eq hok hlatency hp hk]
      refine credit_of_not_mem _ hs (hok.simulated p hp) fun hin => hid ?_
      rw [← level_eq (s := s) hk]
      exact List.map_subset _ (served_subset (fun m _ => hs.nodup m) hk).2 hin
    · rw [creditOf_of_notMem hm]

theorem Run.gone (h : Run bound s stages s') (hs : WellFormed s)
    (hstages : ∀ st ∈ stages, StageCorrect bound st.group st.before st.after) {m seqId : Nat}
    (hid : seqId ∉ ids (s m)) : totalCredit bound stages m seqId = 0 := by
  induction h with
  | nil => rfl
  | @cons g s s' s'' stages hok hstage hrun ih =>
    have hfirst := hstages _ (.head _)
    have hgone : seqId ∉ ids (s' m) := fun hin => hid ((hfirst.conserved m).origin hin)
    rw [totalCredit, List.map_cons, List.sum_cons, creditOf_of_gone hs hok hid, Nat.zero_add]
    exact ih (hs.inferStage hok hstage) (fun st hst => hstages st (.tail _ hst)) hgone

/-- What the stages conserve one by one, the run conserves. -/
theorem Run.conserves (h : Run bound s stages s') (hs : WellFormed s)
    (hstages : ∀ st ∈ stages, StageCorrect bound st.group st.before st.after) (m : Nat) :
    Conserves (s m) (s' m) (totalCredit bound stages m) := by
  induction h with
  | nil s => exact Conserves.refl (hs.pos m)
  | @cons g s s' s'' stages hok hstage hrun ih =>
    have hrest := fun st hst => hstages st (.tail _ hst)
    have hs' := hs.inferStage hok hstage
    exact ((hstages _ (.head _)).conserved m).trans (ih hs' hrest) fun _ hid =>
      hrun.gone hs' hrest hid

theorem Run.wellFormed (h : Run bound s stages s') (hs : WellFormed s) : WellFormed s' := by
  induction h with
  | nil => exact hs
  | cons hok hstage _ ih => exact ih (hs.inferStage hok hstage)

/-- A run is right exactly when all its stages are clear. -/
theorem run_correct_iff (bound : Bound τ) (s s' : ModelStates) (stages : List (Stage τ))
    (hs : WellFormed s) (h : Run bound s stages s') :
    RunCorrect bound s stages s' ↔ ∀ st ∈ stages, StageClear bound st.group st.before := by
  have hstage : (∀ st ∈ stages, StageCorrect bound st.group st.before st.after) ↔
      ∀ st ∈ stages, StageClear bound st.group st.before := by
    induction h with
    | nil => simp
    | cons hok hstage hrun ih =>
      rw [List.forall_mem_cons, List.forall_mem_cons, stageCorrect_iff hs hok hstage,
        ih (hs.inferStage hok hstage)]
  refine ⟨fun hcorrect => hstage.mp hcorrect.each, fun hclear => ?_⟩
  have htotal := h.conserves hs (hstage.mpr hclear)
  refine ⟨hstage.mpr hclear, htotal, fun m r hr r' hr' hid => ?_, fun m r hr hgone => ?_⟩
  · exact (htotal m).sum_eq ((h.wellFormed hs).nodup m) hr hr' hid
  · have hall := (htotal m).eq_of_gone hr hgone
    exact ⟨hall, congrArg (r.inpLen + ·) hall⟩

/-! ## A run -/

/-- A plan with one worker. -/
def onePlan (fused : Bool) (baseModelIds : List Nat) (extraCost : Int) (cumsum : List Int)
    (rows : List (List (List Rng))) (single : fused = false → baseModelIds.length = 1) :
    ExecPlan Int where
  fused := fused
  baseModelIds := baseModelIds
  inpBaseModelIds := []
  dpSize := 1
  extraCost := extraCost
  arriveTime := fun _ _ => -1
  progress := fun _ => ⟨cumsum, rows.map RngArrays.ofRows⟩
  earlierStops := []
  dpSize_pos := Nat.one_pos
  single := single

theorem onePlan_simulated {fused : Bool} {baseModelIds : List Nat} {extraCost : Int}
    {cumsum : List Int} {rows : List (List (List Rng))}
    {single : fused = false → baseModelIds.length = 1} {s : ModelStates}
    (htokens : rows.map (·.map iterNum) =
      ((onePlan fused baseModelIds extraCost cumsum rows single).dpRequests s 0).map
        (·.map Request.outLen))
    (hle : ∀ level ∈ rows, ∀ row ∈ level, ∀ r ∈ row, r.1 ≤ r.2 ∧ r.2 < cumsum.length)
    (hlt : ∀ level ∈ rows, ∀ row ∈ level, row.Pairwise fun a b => a.2 + 0 < b.1)
    (hsorted : cumsum.Pairwise (· ≤ ·)) (hnonneg : ∀ t ∈ cumsum, 0 ≤ t) :
    (onePlan fused baseModelIds extraCost cumsum rows single).Simulated s := by
  intro dpId hdp
  obtain rfl := Nat.lt_one_iff.mp hdp
  exact ⟨rows, rfl, htokens,
    fun level hl row hr => ⟨fun r hrr => (hle level hl row hr r hrr).1, hlt level hl row hr⟩,
    fun level hl row hr r hrr => (hle level hl row hr r hrr).2, hsorted, hnonneg⟩

/-- A request of two tokens for model 0, and one for models 1 and 2 in a chain. -/
def pairStates : ModelStates := fun m => if m ≤ 2 then [⟨0, 5, 2⟩] else []

theorem pairStates_wellFormed : WellFormed pairStates := by
  constructor <;> intro m <;> unfold pairStates <;> split <;> simp [ids]

/-- Model 0 is done when its plan has run two iterations of two seconds each; the chain is then at
the first token of its second level. -/
def pairGroup : ExecPlanGroup Int where
  execPlans := [onePlan false [0] 0 [2, 4] [[[(0, 1)]]] (by decide),
    onePlan true [1, 2] 0 [1, 3, 6, 8] [[[(0, 1)]], [[(2, 3)]]] (by decide)]
  synchTime := none

def afterPair : ModelStates :=
  (pairGroup.inferStage 100000000 pairStates).get (by decide +kernel)

theorem pair_groupOk : GroupOk pairGroup pairStates where
  distinct := by decide
  simulated := by
    intro p hp
    rcases List.mem_cons.mp hp with rfl | hp
    · exact onePlan_simulated (by decide) (by decide) (by decide) (by decide) (by decide)
    · obtain rfl := List.mem_singleton.mp hp
      exact onePlan_simulated (by decide) (by decide) (by decide) (by decide) (by decide)

theorem clearStop_of_le {cumsum : List Int} {last stop : Int} (row : List Rng) (hpos : 0 < stop)
    (hle : stop ≤ last) : ClearStop cumsum last stop row :=
  fun _ _ => ⟨fun _ => hpos, fun _ _ => hle⟩

/-- Two levels are always consecutive. -/
theorem levelsLinked_of_length_le {levels : List (List Request)} (h : levels.length ≤ 2) :
    LevelsLinked levels := by
  intro k hk r _ l hl hin
  rcases levels with _ | ⟨a, _ | ⟨b, _ | _⟩⟩
  · exact absurd hk (Nat.not_lt_zero k)
  · obtain rfl : k = 0 := Nat.lt_one_iff.mp hk
    exact absurd hl (by simp)
  · rcases k with _ | k
    · exact absurd hl (by simp)
    · obtain rfl : k = 0 := Nat.lt_one_iff.mp (Nat.lt_of_succ_lt_succ hk)
      obtain rfl : l = a := by simpa using hl
      exact hin
  · simp at h

theorem pair_stageClear : StageClear 100000000 pairGroup pairStates where
  linked := by
    intro p hp
    rcases List.mem_cons.mp hp with rfl | hp
    · exact levelsLinked_of_length_le (by decide)
    · obtain rfl := List.mem_singleton.mp hp
      exact levelsLinked_of_length_le (by decide)
  clear := by
    intro latency hlatency p hp dpId _ last hlast k i _
    obtain rfl := Option.some.inj (hlatency.symm.trans
      (show pairGroup.inferStageLatency 100000000 = some 4 by decide))
    rcases List.mem_cons.mp hp with rfl | hp
    · obtain rfl := Option.some.inj hlast
      exact clearStop_of_le _ (by decide) (by decide)
    · obtain rfl := List.mem_singleton.mp hp
      obtain rfl := Option.some.inj hlast
      exact clearStop_of_le _ (by decide) (by decide)

/-- The chain goes on by itself. -/
def restGroup : ExecPlanGroup Int where
  execPlans := [onePlan true [1, 2] 0 [2] [[], [[(0, 0)]]] (by decide)]
  synchTime := none

def afterRest : ModelStates :=
  (restGroup.inferStage 100000000 afterPair).get (by decide +kernel)

theorem rest_groupOk : GroupOk restGroup afterPair where
  distinct := by decide
  simulated := by
    intro p hp
    obtain rfl := List.mem_singleton.mp hp
    exact onePlan_simulated (by decide) (by decide) (by decide) (by decide) (by decide)

theorem rest_stageClear : StageClear 100000000 restGroup afterPair where
  linked := by
    intro p hp
    obtain rfl := List.mem_singleton.mp hp
    exact levelsLinked_of_length_le (by decide)
  clear := by
    intro latency hlatency p hp dpId _ last hlast k i _
    obtain rfl := Option.some.inj (hlatency.symm.trans
      (show restGroup.inferStageLatency 100000000 = some 2 by decide))
    obtain rfl := List.mem_singleton.mp hp
    obtain rfl := Option.some.inj hlast
    exact clearStop_of_le _ (by decide) (by decide)

def pairRun : List (Stage Int) :=
  [⟨pairGroup, pairStates, afterPair⟩, ⟨restGroup, afterPair, afterRest⟩]

theorem pair_run : Run 100000000 pairStates pairRun afterRest :=
  .cons pair_groupOk (Option.some_get _).symm
    (.cons rest_groupOk (Option.some_get _).symm (.nil _))

/-- The two stages credit each request with its two tokens. -/
theorem run_correct_pair : RunCorrect 100000000 pairStates pairRun afterRest ∧
    afterPair 2 = [⟨0, 6, 1⟩] ∧ (List.range 3).map afterRest = [[], [], []] := by
  refine ⟨(run_correct_iff 100000000 pairStates afterRest pairRun pairStates_wellFormed
    pair_run).mpr fun st hst => ?_, by decide, by decide⟩
  rcases List.mem_cons.mp hst with rfl | hst
  · exact pair_stageClear
  · obtain rfl := List.mem_singleton.mp hst
    exact rest_stageClear

/-- Model 0 has one token to go, model 1 three. -/
def lateStates : ModelStates := fun m =>
  if m = 0 then [⟨0, 5, 1⟩] else if m = 1 then [⟨0, 5, 3⟩] else []

/-- Model 0 is done after two seconds; loading model 1 takes five. -/
def lateGroup : ExecPlanGroup Int where
  execPlans := [onePlan false [0] 0 [2] [[[(0, 0)]]] (by decide),
    onePlan false [1] 5 [1, 2, 3] [[[(0, 2)]]] (by decide)]
  synchTime := none

def afterLate : ModelStates :=
  (lateGroup.inferStage 100000000 lateStates).get (by decide +kernel)

theorem lateStates_wellFormed : WellFormed lateStates := by
  constructor <;> intro m <;> unfold lateStates <;> split_ifs <;> simp [ids]

theorem late_groupOk : GroupOk lateGroup lateStates where
  distinct := by decide
  simulated := by
    intro p hp
    rcases List.mem_cons.mp hp with rfl | hp
    · exact onePlan_simulated (by decide) (by decide) (by decide) (by decide) (by decide)
    · obtain rfl := List.mem_singleton.mp hp
      exact onePlan_simulated (by decide) (by decide) (by decide) (by decide) (by decide)

/-- The stage is over before model 1 is loaded, and model 1 is credited with a token. -/
theorem not_runCorrect_late : ¬ ∀ (bound : Int) (s s' : ModelStates) (stages : List (Stage Int)),
    WellFormed s → Run bound s stages s' → RunCorrect bound s stages s' := by
  intro h
  have hrun : Run 100000000 lateStates [⟨lateGroup, lateStates, afterLate⟩] afterLate :=
    .cons late_groupOk (Option.some_get _).symm (.nil _)
  have hcorrect := (h _ _ _ _ lateStates_wellFormed hrun).each _ (.head _)
  have hcredit := hcorrect.credited 2 (by decide) _ (.tail _ (.head _)) 0 Nat.one_pos 0 0
    (by decide)
  exact absurd hcredit (by decide)

end Mil.InferStage
