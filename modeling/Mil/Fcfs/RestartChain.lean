import Mil.Fcfs.RestartSpec

/-!
# Restarts of a schedule

A schedule of the simulator is restarted any number of times. As long as no restart removes an
iteration before the last one it looks at, the metadata stay well formed and no token is lost.
Two restarts can already fail: the first one leaves two running requests that go on at different
iterations.
-/

set_option autoImplicit false

namespace Mil.Fcfs

open Mil.Lib

section

variable {L : Type} [Zero L] [Add L] [Sub L] [Mul L] [Div L]

/-! ## The metadata of a schedule -/

omit [Zero L] [Add L] [Sub L] [Mul L] [Div L] in
theorem exists_mergeLatencys (flags : List Bool) : ∀ (prefill decode : List L),
    flags.count true = prefill.length → flags.length = decode.length + prefill.length →
    ∃ latencys, mergeLatencys flags prefill decode = some latencys ∧
      latencys.length = flags.length := by
  induction flags with
  | nil =>
    intro prefill decode htrue hlength
    simp only [List.length_nil] at hlength
    obtain rfl : prefill = [] := List.eq_nil_of_length_eq_zero (by omega)
    obtain rfl : decode = [] := List.eq_nil_of_length_eq_zero (by simpa using hlength.symm)
    exact ⟨[], rfl, rfl⟩
  | cons flag flags ih =>
    intro prefill decode htrue hlength
    cases flag with
    | true =>
      cases prefill with
      | nil => simp at htrue
      | cons l prefill =>
        obtain ⟨latencys, hmerge, hlen⟩ := ih prefill decode
          (by simpa using htrue) (by simp only [List.length_cons] at hlength; omega)
        exact ⟨l :: latencys, by rw [mergeLatencys, hmerge]; rfl, by simp [hlen]⟩
    | false =>
      cases decode with
      | nil =>
        have hle := List.count_le_length (a := true) (l := flags)
        rw [List.count_cons_of_ne Bool.false_ne_true] at htrue
        simp only [List.length_cons, List.length_nil] at hlength
        omega
      | cons l decode =>
        obtain ⟨latencys, hmerge, hlen⟩ := ih prefill decode
          (by simpa using htrue) (by simp only [List.length_cons] at hlength; omega)
        refine ⟨l :: latencys, ?_, by simp [hlen]⟩
        cases prefill <;> rw [mergeLatencys, hmerge] <;> rfl

omit [Sub L] [Mul L] [Div L] in
theorem Schedule.Complete.metadata (cost : CostTable L) {inp out : List Nat} {r : Schedule}
    (h : r.Complete inp out) (hlength : out.length = inp.length) :
    ∃ m, r.metadata cost = some m ∧ m.WellFormed r.inferProgress out := by
  obtain ⟨latencys, hmerge, hlen⟩ := exists_mergeLatencys r.isPrefillSteps
    (cost.prefillLatencys r.prefillLogs r.validPrefillLogs) (cost.decodeLatencys r.logs)
    (by rw [cost.prefillLatencys_length, h.flags])
    (by rw [cost.prefillLatencys_length, cost.decodeLatencys_length, h.steps])
  have hrow : ∀ row ∈ r.inferProgress, ∃ id < inp.length, r.inferProgress.getD id [] = row := by
    intro row hrow
    obtain ⟨id, hid, rfl⟩ := List.getElem_of_mem hrow
    exact ⟨id, h.length_eq ▸ hid, by simp [List.getD_eq_getElem?_getD, hid]⟩
  have hcumsum : (cumsumLatency latencys).length = r.isPrefillSteps.length := by
    rw [cumsumLatency_length, hlen]
  refine ⟨_, by rw [Schedule.metadata, hmerge]; rfl, rfl, h.length_eq.trans hlength.symm, hcumsum,
    cost.throughput_length _ _ _ _ _ hcumsum, fun row hmem => ?_, fun row hmem => ?_, ?_,
    fun t ht => ?_⟩
  · obtain ⟨id, hid, rfl⟩ := hrow row hmem
    exact (h.increasing id hid).weaken
  · obtain ⟨id, hid, rfl⟩ := hrow row hmem
    exact h.ends id hid
  · refine List.ext_getElem (by rw [List.length_map, h.length_eq, hlength]) fun id h₁ h₂ => ?_
    have htokens := h.tokens id (hlength ▸ h₂)
    simpa [List.getD_eq_getElem?_getD, h₂, h.length_eq, ← hlength] using htokens
  · obtain ⟨id, hid, hat⟩ := h.attended t ht
    refine ⟨_, ?_, hat⟩
    rw [List.getD_eq_getElem?_getD, List.getElem?_eq_getElem (h.length_eq.symm ▸ hid)]
    exact List.getElem_mem _

/-! ## Chains of restarts -/

/-- The input lengths, output lengths and metadata that a chain of restarts reaches from a schedule
of the simulator, when `ok` holds of the metadata, the number of requests and the stop of each
restart. What the requests have generated at a stop is part of their inputs from there on. -/
inductive Restarted (cost : CostTable L) (cfg : Config) (ok : Metadata L → Nat → Nat → Prop) :
    List Nat → List Nat → Metadata L → Prop
  | schedule {inp out : List Nat} {fuel : Nat} {r : Schedule} {m : Metadata L} :
      Fits cfg inp out → out.length = inp.length → (∀ n ∈ inp, 1 ≤ n) → (∀ n ∈ out, 1 ≤ n) →
      out.sum < fuel → fakeFCFSSchedule cfg fuel inp out = some r → r.metadata cost = some m →
      Restarted cost cfg ok inp out m
  | restart {inp out valid : List Nat} {m m' : Metadata L} {stopIter : Nat} :
      Restarted cost cfg ok inp out m → stopIter + 1 < m.isPrefillSteps.length →
      ok m out.length stopIter →
      updateMetadata cost cfg.maxNumBatchedTokens inp m stopIter = some (m', valid) →
      Restarted cost cfg ok
        (valid.map fun id => inp.getD id 0 + (getInfoAtStopTime m.rngs stopIter).getD id 0)
        (valid.map fun id => out.getD id 0 - (getInfoAtStopTime m.rngs stopIter).getD id 0) m'

/-- The restart succeeds, keeps the requests that have tokens left, and gives well-formed metadata
for these tokens. -/
def RestartOk (cost : CostTable L) (cfg : Config) (inp out : List Nat) (m : Metadata L)
    (stopIter : Nat) : Prop :=
  ∃ m' rows', updateMetadata cost cfg.maxNumBatchedTokens inp m stopIter =
      some (m', unfinishedIds (getInfoAtStopTime m.rngs stopIter) out) ∧
    m'.WellFormed rows' ((unfinishedIds (getInfoAtStopTime m.rngs stopIter) out).map fun id =>
      out.getD id 0 - (getInfoAtStopTime m.rngs stopIter).getD id 0)

variable {cost : CostTable L} {cfg : Config} {inp out : List Nat} {m : Metadata L}

theorem Restarted.wellFormed (h : Restarted cost cfg EarlierKept inp out m) :
    inp.length = out.length ∧
      (∀ id < out.length, inp.getD id 0 + out.getD id 0 ≤ cfg.maxNumBatchedTokens) ∧
      ∃ rows, m.WellFormed rows out := by
  induction h with
  | schedule hfits hlength hinp hout hfuel hrun hmetadata =>
    obtain ⟨r, hrun', hcomplete⟩ := fakeFCFSSchedule_complete hfits hlength hinp hout
    obtain ⟨m', hmetadata', hm'⟩ := hcomplete.metadata cost hlength
    rw [hrun' _ hfuel, Option.some.injEq] at hrun
    subst hrun
    rw [hmetadata', Option.some.injEq] at hmetadata
    subst hmetadata
    exact ⟨hlength.symm, fun id hid => hfits.batch id (hlength ▸ hid), _, hm'⟩
  | @restart inp out valid m m' stopIter _ hstop hkept hupdate ih =>
    obtain ⟨hlength, hbudget, rows, hm⟩ := ih
    obtain ⟨m'', rows', hupdate', hm''⟩ := updateMetadata_spec cost hm hlength hbudget hstop hkept
    rw [hupdate', Option.some.injEq, Prod.mk.injEq] at hupdate
    obtain ⟨rfl, rfl⟩ := hupdate
    refine ⟨by rw [List.length_map, List.length_map], fun k hk => ?_, rows', hm''⟩
    rw [List.length_map] at hk
    have hid : (unfinishedIds (getInfoAtStopTime m.rngs stopIter) out)[k] ∈
        unfinishedIds (getInfoAtStopTime m.rngs stopIter) out := List.getElem_mem hk
    obtain ⟨hrange, hlt⟩ := List.mem_filter.mp hid
    have hbudget' := hbudget _ (List.mem_range.mp hrange)
    simp only [decide_eq_true_eq] at hlt
    simp only [List.getD_eq_getElem?_getD, List.getElem?_map, List.getElem?_eq_getElem hk,
      Option.map_some, Option.getD_some] at hbudget' hlt ⊢
    omega

omit [Zero L] [Add L] [Sub L] [Mul L] [Div L] in
/-- Requests that all go on at one iteration after the stop leave nothing to ask of a restart. -/
theorem EarlierKept.of_unique {num stopIter : Nat} (next : Nat)
    (h : ∀ id < num, ∀ t, FirstDecode m stopIter id t → t = next) : EarlierKept m num stopIter := by
  intro id hid t ht id' hid' t' ht' hlt
  have := h id hid t ht
  have := h id' hid' t' ht'
  omega

omit [Zero L] [Add L] [Sub L] [Mul L] [Div L] in
theorem Metadata.WellFormed.exists_row {rows : List (List Rng)} (h : m.WellFormed rows out)
    {t : Nat} (ht : t < m.isPrefillSteps.length) :
    ∃ id < out.length, Attends (m.rngs.row id) t := by
  obtain ⟨row, hrow, hat⟩ := h.attended t ht
  obtain ⟨id, hid, rfl⟩ := List.getElem_of_mem hrow
  refine ⟨id, h.rows_length ▸ hid, ?_⟩
  rwa [h.rngs_eq, row_ofRows (List.getElem?_eq_getElem hid)]

/-- A chain of restarts in which only the last of the first decode steps disappears, if any, loses
no token and leaves no iteration without a request. -/
theorem Restarted.restartOk (h : Restarted cost cfg EarlierKept inp out m) {stopIter : Nat}
    (hstop : stopIter + 1 < m.isPrefillSteps.length) (hkept : EarlierKept m out.length stopIter) :
    RestartOk cost cfg inp out m stopIter := by
  obtain ⟨hlength, hbudget, rows, hm⟩ := h.wellFormed
  exact updateMetadata_spec cost hm hlength hbudget hstop hkept

end

/-! ## Two restarts -/

/-- Every iteration takes one unit of time. -/
def unitCost : CostTable Nat where
  prefillLatencys logs _ := logs.map fun _ => 1
  decodeLatencys logs := logs.map fun _ => 1
  throughput _ _ _ flags _ := flags.map fun _ => 0
  prefillLatencys_length _ _ := List.length_map _
  decodeLatencys_length _ := List.length_map _
  throughput_length _ _ _ _ _ _ := List.length_map _

/-- Two requests at a time. -/
def pairCfg : Config := ⟨2, 100, 8, 2, 1⟩

/-- The schedule of requests with 2, 5 and 2 tokens: the third one waits for the first one. -/
def pairSchedule : Metadata Nat :=
  ⟨[1, 2, 3, 4, 5, 6], ⟨[0, 1, 3, 4], [0, 0, 3, 2], [1, 1, 5, 3]⟩,
    [true, false, true, false, false, false], [0, 0, 0, 0, 0, 0]⟩

/-- The same after a restart at iteration 1. -/
def pairRestarted : Metadata Nat :=
  ⟨[1, 2, 3, 4, 5], ⟨[0, 2, 3], [0, 3, 1], [0, 4, 2]⟩, [true, true, false, false, false],
    [0, 0, 0, 0, 0]⟩

theorem pairSchedule_restarted (ok : Metadata Nat → Nat → Nat → Prop) :
    Restarted unitCost pairCfg ok [1, 1, 1] [2, 5, 2] pairSchedule :=
  have hrun : (fakeFCFSSchedule pairCfg 10 [1, 1, 1] [2, 5, 2]).bind (Schedule.metadata unitCost) =
      some pairSchedule := by decide
  have ⟨_, hr, hm⟩ := Option.bind_eq_some_iff.mp hrun
  .schedule ⟨by decide, by decide, by decide, by decide⟩ rfl (by decide) (by decide) (by decide)
    hr hm

/-- At the first stop the second request alone goes on with a decode step. -/
theorem pairSchedule_earlierKept : EarlierKept pairSchedule 3 1 := by
  have hends : ∀ id < 3, ∀ r ∈ pairSchedule.rngs.row id, r.2 < 6 := by decide
  have hnext : ∀ id < 3, ∀ t < 6, (1 < t ∧ Attends (pairSchedule.rngs.row id) t ∧
      pairSchedule.isPrefillSteps.getD t false = false) →
      t = 3 ∨ (3 < t ∧ Attends (pairSchedule.rngs.row id) 3) := by decide
  refine EarlierKept.of_unique 3 fun id hid t ht => ?_
  rcases hnext id hid t (ht.attends.lt (hends id hid))
    ⟨ht.after, ht.attends, ht.decode⟩ with
    heq | ⟨hlt, hat⟩
  · exact heq
  · exact absurd hat (ht.first 3 (by decide) hlt)

theorem restartOk_pairSchedule : RestartOk unitCost pairCfg [1, 1, 1] [2, 5, 2] pairSchedule 1 :=
  (pairSchedule_restarted EarlierKept).restartOk (by decide) pairSchedule_earlierKept

/-- At the second stop the two requests go on at different iterations, and both of these disappear.
Removing the first one moves the second one to an index that is not looked at. -/
theorem not_restartOk_pairRestarted :
    ¬ ∀ (inp out : List Nat) (m : Metadata Nat) (stopIter : Nat),
      Restarted unitCost pairCfg (fun _ _ _ => True) inp out m →
      stopIter + 1 < m.isPrefillSteps.length → RestartOk unitCost pairCfg inp out m stopIter := by
  intro hall
  have hfirst : updateMetadata unitCost pairCfg.maxNumBatchedTokens [1, 1, 1] pairSchedule 1 =
      some (pairRestarted, [1, 2]) := by decide
  have hsecond : updateMetadata unitCost pairCfg.maxNumBatchedTokens [3, 1] pairRestarted 1 =
      some (⟨[1, 3, 4], ⟨[0, 2, 3], [0, 2, 0], [0, 2, 0]⟩, [true, false, false], [0, 0, 0]⟩,
        [0, 1]) := by decide
  have hchain := Restarted.restart (pairSchedule_restarted fun _ _ _ => True) (by decide) trivial
    hfirst
  obtain ⟨m', rows', hupdate, hm'⟩ := hall _ _ _ 1 hchain (by decide)
  have heq := hsecond.symm.trans hupdate
  rw [Option.some.injEq, Prod.mk.injEq] at heq
  obtain ⟨rfl, hvalid⟩ := heq
  rw [← hvalid] at hm'
  have hidle : ∀ id < 2, ¬ Attends (RngArrays.row ⟨[0, 2, 3], [0, 2, 0], [0, 2, 0]⟩ id) 1 := by
    decide
  obtain ⟨id, hid, hat⟩ := hm'.exists_row (t := 1) (by decide)
  exact hidle id hid hat

end Mil.Fcfs
