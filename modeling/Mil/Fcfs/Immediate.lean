import Mil.Fcfs.Restart
import Mil.Fcfs.Round

/-!
# Requests that have all arrived

If every request has arrived by time 0 and the waiting requests are not sorted, the first check
receives all of them, and no later check finds anything. From then on a round of the arrival-aware
simulator is a round of the plain one (`arrivalRound_of_scheduleRound`): it returns whenever that one
does, with the same arrays, logs and progress.
-/

set_option autoImplicit false

namespace Mil.Fcfs

open Mil.Lib

section

variable {cfg : ArrivalConfig} {s s' : Sched} {t : Arriving}

/-! ## Logs and latencies -/

theorem cumsumFrom_length (start : ℚ) (costs : List ℚ) :
    (cumsumFrom start costs).length = costs.length := by
  induction costs generalizing start with
  | nil => rfl
  | cons cost costs ih => rw [cumsumFrom, List.length_cons, ih, List.length_cons]

/-- The logs of both kinds come in pairs, and something has been logged if a request runs. -/
structure Arriving.Logged (t : Arriving) : Prop where
  length_eq : t.sched.progress.validPrefillLogs.length = t.sched.progress.prefillLogs.length
  running : t.cumsumLatencys = [] → t.sched.runningSeqs = []

/-- Prefilling logs something if a request is admitted. -/
theorem Arriving.Logged.prefilled (h : t.Logged) {more : Bool} {took : List Seq} {p : Progress}
    (hextends : Extends t.sched.progress p (if took = [] then 0 else 1)) :
    (t.prefilled cfg more took p).Logged := by
  refine ⟨hextends.length_eq h.length_eq, fun hnil => ?_⟩
  obtain ⟨hcumsum, hnew⟩ := List.append_eq_nil_iff.mp hnil
  have hlength := congrArg List.length hnew
  rw [cumsumFrom_length, List.length_map, List.length_zip] at hlength
  obtain ⟨l, hl, hle⟩ := hextends.prefillLogs
  obtain ⟨v, hv, hvle⟩ := hextends.validPrefillLogs
  rw [hl, hv, List.drop_left, ← h.length_eq, List.drop_left, List.length_nil] at hlength
  have htook : took = [] := by
    by_contra hne
    rw [if_neg hne] at hle hvle
    omega
  show t.sched.runningSeqs ++ advanceAll 1 took = []
  rw [htook, h.running hcumsum]
  rfl

/-! ## One round -/

theorem admitReceived_of_all (c : Config) (fuel : Nat) {prompts : List (Nat × Nat)}
    (hall : s.seqIds.length = s.inpLens.length) :
    admitReceived c fuel s prompts = admitWaiting c fuel s prompts := by
  induction fuel generalizing s prompts with
  | zero => rfl
  | succ fuel ih =>
    rw [admitReceived, admitWaiting, hall]
    split
    · simp only
      split
      · split
        · exact ih (s := { s with
            unfinishedReqnum := s.unfinishedReqnum - 1
            pointer := s.pointer + 1 }) hall
        · exact ih (s := { s with
            runningSeqs := s.runningSeqs ++
              [⟨s.seqIds.getD s.pointer 0, s.inpLens.getD s.pointer 0 + 1,
                s.outLens.getD s.pointer 0 - 1⟩]
            blockNumUsed := s.blockNumUsed + ceilBlocks c.blockSize (s.inpLens.getD s.pointer 0)
            pointer := s.pointer + 1 }) hall
      · rfl
    · rfl

/-- The arrival-aware simulator is where the plain one is. -/
structure Arriving.Matches (n : Nat) (s : Sched) (t : Arriving) : Prop where
  sched : t.sched = s
  received : s.Received n
  all : s.seqIds.length = n
  logged : t.Logged

theorem decodeAt_id (iterNum : Nat) (s : Sched) : decodeAt id iterNum s = decode iterNum s := rfl

theorem arrivalDecode_of_decode {n iterNum : Nat} (h : t.Matches n s)
    (hdecode : decode iterNum s = some s') :
    ∃ t', arrivalDecode cfg id iterNum t = some t' ∧
      t'.Matches n (removeFinishedSeqs cfg.toConfig s') ∧ t'.needQuery = t.needQuery := by
  have hrunning : s.runningSeqs ≠ [] := by
    intro hnil
    rw [decode, hnil] at hdecode
    cases hdecode
  have hne : t.cumsumLatencys ≠ [] := fun hnil => hrunning (h.sched ▸ h.logged.running hnil)
  set steps := if iterNum = 0 then (removeFinishedSeqs cfg.toConfig s').logs else
    (removeFinishedSeqs cfg.toConfig s').logs.drop
      ((removeFinishedSeqs cfg.toConfig s').logs.length - iterNum) with hsteps
  set cumsum := t.cumsumLatencys ++ cumsumFrom t.totInferenceTime (steps.map cfg.decodeCost)
    with hcumsum
  have hcumsumNe : cumsum ≠ [] := fun hnil => hne (List.append_eq_nil_iff.mp hnil).1
  have heq : arrivalDecode cfg id iterNum t = some { t with
      sched := removeFinishedSeqs cfg.toConfig s'
      totInferenceTime := cumsum.getLast hcumsumNe
      cumsumLatencys := cumsum } := by
    rw [arrivalDecode, decodeAt_id, h.sched, hdecode]
    simp only [Option.bind_eq_bind, Option.bind_some, ← hsteps, ← hcumsum,
      List.getLast?_eq_some_getLast hcumsumNe]
    rfl
  rw [decode] at hdecode
  obtain ⟨most, -, hdecode⟩ := Option.bind_eq_some_iff.mp hdecode
  obtain rfl := Option.some.inj hdecode
  refine ⟨_, heq, ⟨rfl, ⟨h.received.inpLens, h.received.outLens, h.received.seqIds_le,
    h.received.pointer_le, ?_⟩, h.all, ⟨?_, fun hnil => absurd hnil hcumsumNe⟩⟩, rfl⟩
  · refine (List.length_filter_le _ _).trans ?_
    rw [List.length_map]
    exact h.received.running_le
  · have hlen := h.logged.length_eq
    rw [h.sched] at hlen
    exact hlen

/-- A round of the plain simulator that returns is a round of the arrival-aware one. -/
theorem arrivalRound_of_scheduleRound {n : Nat} (h : t.Matches n s)
    (hround : scheduleRound cfg.toConfig s = some s') :
    ∃ t', arrivalRound cfg id false t = some t' ∧ t'.Matches n s' ∧ t'.needQuery = false := by
  obtain ⟨rfl, hreceived, hall, hlogged⟩ := h
  obtain ⟨took, rest, hwaiting, hadmit, heq⟩ := arrivalPrefill_eq cfg false hreceived
  -- all have been received, so the look at the arrival times admits what the plain one admits
  have hadmit' : admitWaiting cfg.toConfig t.sched.inpLens.length t.sched [] =
      (t.sched.admitted cfg.blockSize took, took.map fun q => (q.len, q.id)) := by
    rw [← admitReceived_of_all cfg.toConfig t.sched.inpLens.length (hall.trans hreceived.inpLens.symm),
      hreceived.inpLens, ← hall]
    exact hadmit
  simp only [scheduleRound, hadmit'] at hround
  obtain ⟨p, hp, hround⟩ := Option.bind_eq_some_iff.mp hround
  have hprogress : (t.sched.admitted cfg.blockSize took).progress = t.sched.progress := rfl
  have hprefill : arrivalPrefill cfg id false t = some (t.prefilled cfg false took p) := by
    rw [heq id]
    have hprompts : (took.map fun q => (q.len, id q.id)) = took.map fun q => (q.len, q.id) := rfl
    rw [hprompts, ← hprogress, hp]
    rfl
  have hextends : Extends t.sched.progress p (if took = [] then 0 else 1) := by
    have hext := updatePrefillLogs_extends hp
    simp only [List.map_eq_nil_iff] at hext
    exact hext
  have hmatches : (t.prefilled cfg false took p).Matches n (t.prefilled cfg false took p).sched :=
    ⟨rfl, prefilled_received cfg false p hreceived hwaiting, hall, hlogged.prefilled hextends⟩
  rw [arrivalRound, hprefill]
  simp only [Option.bind_eq_bind, Option.bind_some]
  split at hround
  · split at hround
    · rename_i hnone
      obtain rfl := Option.some.inj hround
      exact ⟨_, if_pos hnone, hmatches, rfl⟩
    · cases hround
  · obtain ⟨sched, hkill, hround⟩ := Option.bind_eq_some_iff.mp hround
    obtain ⟨iterNum, hiter, hround⟩ := Option.bind_eq_some_iff.mp hround
    obtain ⟨s₁, hdecode, hround⟩ := Option.bind_eq_some_iff.mp hround
    obtain rfl := Option.some.inj hround
    have hrunning : (t.prefilled cfg false took p).sched.runningSeqs.length ≠ 0 := by
      intro hnone
      have hnil : (t.prefilled cfg false took p).sched.runningSeqs = [] := List.length_eq_zero_iff.mp hnone
      have hnot : killSeqsForMoreCacheSpace cfg.toConfig (t.prefilled cfg false took p).sched = none := by
        rw [killSeqsForMoreCacheSpace, hnil]
        rfl
      exact absurd (hnot.symm.trans hkill) (by simp)
    have hkill' : killSeqsForMoreCacheSpace cfg.toConfig (t.prefilled cfg false took p).sched =
        some sched := hkill
    rw [if_neg hrunning, hkill']
    simp only [Option.bind_some, hiter]
    obtain ⟨num, hnum⟩ := killSeqsForMoreCacheSpace_keep hkill'
    have hfollows := killed_follows hmatches.received cfg.blockSize num
    rw [← hnum] at hfollows
    -- the killed sequences go back in front of those still waiting, which were received as well
    have hkilled : ((t.prefilled cfg false took p).killed sched).Matches n sched := by
      refine ⟨rfl, ?_, hfollows.seqIds.trans hall, ?_, fun hnil => ?_⟩
      · rw [hnum]
        exact hmatches.received.keep cfg.blockSize num
      · show sched.progress.validPrefillLogs.length = sched.progress.prefillLogs.length
        rw [hnum]
        exact hmatches.logged.length_eq
      · show sched.runningSeqs = []
        have hempty := hmatches.logged.running hnil
        rw [hnum]
        show (t.prefilled cfg false took p).sched.runningSeqs.take num = []
        rw [hempty, List.take_nil]
    have hsteps : arrivalSteps cfg id iterNum ((t.prefilled cfg false took p).killed sched) =
        arrivalDecode cfg id iterNum ((t.prefilled cfg false took p).killed sched) := rfl
    rw [hsteps]
    exact arrivalDecode_of_decode hkilled hdecode

/-! ## The run -/

/-- Once all requests have been received a check finds nothing. -/
theorem pipelineRound_of_all {n : Nat} (h : t.Matches n s) (hquery : t.needQuery = false) :
    pipelineRound cfg t = arrivalRound cfg id false t := by
  have hall : t.sched.seqIds.length = t.sched.inpLens.length := by
    rw [h.sched, h.all, h.received.inpLens]
  have hnew : t.newRequests = none := if_pos hall
  have hcheck : checkNewInputRequests cfg t = t := by
    rw [checkNewInputRequests, hnew]
  have hchecks : ∃ b, t.checks cfg = some b := by
    rw [Arriving.checks, hquery]
    split
    · exact ⟨true, rfl⟩
    · exact ⟨false, rfl⟩
  obtain ⟨b, hb⟩ := hchecks
  have hmore : decide (t.sched.seqIds.length < t.sched.inpLens.length) = false :=
    decide_eq_false (Nat.not_lt.mpr hall.ge)
  rw [pipelineRound, hb]
  cases b
  · show arrivalRound cfg id (decide (t.sched.seqIds.length < t.sched.inpLens.length)) t = _
    rw [hmore]
  · show arrivalRound cfg id (decide ((checkNewInputRequests cfg t).sched.seqIds.length <
      (checkNewInputRequests cfg t).sched.inpLens.length)) (checkNewInputRequests cfg t) = _
    rw [hcheck, hmore]

theorem pipelineLoop_of_scheduleLoop {n fuel : Nat} (h : t.Matches n s) (hquery : t.needQuery = false)
    (hrun : scheduleLoop cfg.toConfig fuel s = some s') :
    ∃ t', pipelineLoop cfg fuel t = some t' ∧ t'.sched = s' := by
  induction fuel generalizing s t with
  | zero => cases hrun
  | succ fuel ih =>
    rw [scheduleLoop] at hrun
    rw [pipelineLoop, h.sched]
    split at hrun
    · rename_i hdone
      rw [if_pos hdone]
      exact ⟨t, rfl, h.sched.trans (Option.some.inj hrun)⟩
    · rename_i hmore
      obtain ⟨s₁, hround, hrun⟩ := Option.bind_eq_some_iff.mp hrun
      obtain ⟨t₁, ht₁, h₁, hquery₁⟩ := arrivalRound_of_scheduleRound h hround
      obtain ⟨t', ht', heq⟩ := ih h₁ hquery₁ hrun
      rw [if_neg hmore, pipelineRound_of_all h hquery, ht₁, Option.bind_some]
      exact ⟨t', ht', heq⟩

/-- The first check receives everything. -/
theorem pipelineRound_init (hsort : cfg.sortInput = false) {inp out : List Nat} {arr : List ℚ}
    (hlength : out.length = inp.length) (harr : arr.length = inp.length) (hne : inp ≠ [])
    (hpast : ∀ a ∈ arr, a ≤ 0) :
    ∃ t, t.Matches inp.length (Sched.init inp out) ∧
      pipelineRound cfg (.init inp out arr inp.length) = arrivalRound cfg id false t := by
  have hpos : 0 < inp.length := List.length_pos_of_ne_nil hne
  have hfirst : arr.getD 0 0 ≤ 0 := by
    rw [List.getD_eq_getElem?_getD, List.getElem?_eq_getElem (harr ▸ hpos), Option.getD_some]
    exact hpast _ (List.getElem_mem _)
  have hend : arr.findIdx (fun a => decide ((0 : ℚ) < a)) = inp.length := by
    rw [← harr]
    exact List.findIdx_eq_length_of_false fun a ha => decide_eq_false (not_lt.mpr (hpast a ha))
  have hnew : (Arriving.init inp out arr inp.length).newRequests = some (0, inp.length) := by
    have hreceived : ¬ ([] : List Nat).length = inp.length := hpos.ne
    show (if ([] : List Nat).length = inp.length then none
      else if 0 < ([] : List Seq).length ∧ (0 : ℚ) < arr.getD 0 0 then none
      else some ((if (0 : ℚ) < arr.getD 0 0 then arr.getD 0 0 else 0),
        0 + arr.findIdx fun a => decide ((if (0 : ℚ) < arr.getD 0 0 then arr.getD 0 0 else 0) < a))) = _
    have hidle : ¬ (0 < ([] : List Seq).length ∧ (0 : ℚ) < arr.getD 0 0) := fun h =>
      absurd h.1 (Nat.lt_irrefl 0)
    rw [if_neg hreceived, if_neg hidle, if_neg (not_lt.mpr hfirst), hend, Nat.zero_add]
  set t := checkNewInputRequests cfg (.init inp out arr inp.length) with ht
  have hsched : t.sched = Sched.init inp out := by
    rw [ht, checkNewInputRequests, hnew]
    simp only [Arriving.receive, Arriving.reorder, hsort]
    show ({ (Arriving.init inp out arr inp.length).sched with
      seqIds := [] ++ List.range' 0 (inp.length - 0) } : Sched) = _
    rw [List.nil_append, Nat.sub_zero, ← List.range_eq_range']
    rfl
  have hmatches : t.Matches inp.length (Sched.init inp out) := by
    refine ⟨hsched, ⟨rfl, hlength, List.length_range.le, Nat.zero_le _, le_refl 0⟩,
      List.length_range, ?_, fun _ => ?_⟩
    · rw [hsched]
      rfl
    · rw [hsched]
      rfl
  refine ⟨t, hmatches, ?_⟩
  have hmore : decide (t.sched.seqIds.length < t.sched.inpLens.length) = false := by
    rw [hsched]
    exact decide_eq_false (Nat.not_lt.mpr List.length_range.ge)
  have hchecks : (Arriving.init inp out arr inp.length).checks cfg = some true := rfl
  rw [pipelineRound, hchecks]
  show arrivalRound cfg id (decide (t.sched.seqIds.length < t.sched.inpLens.length)) t = _
  rw [hmore]

/-- If all requests have arrived by time 0 the two simulators agree whenever the plain one returns. -/
theorem fakeFCFSSchedulePipeline_immediate (cfg : ArrivalConfig) {fuel : Nat} (inp out : List Nat)
    (arr : List ℚ) {r : Schedule} (hsort : cfg.sortInput = false) (hlength : out.length = inp.length)
    (harr : arr.length = inp.length) (hpast : ∀ a ∈ arr, a ≤ 0)
    (hrun : fakeFCFSSchedule cfg.toConfig fuel inp out = some r) :
    ∃ sim, fakeFCFSSchedulePipeline cfg fuel inp out arr = some sim ∧
      sim.inferProgress = r.inferProgress ∧ sim.isPrefillSteps = r.isPrefillSteps ∧
      sim.logs = r.logs ∧ sim.prefillLogs = r.prefillLogs ∧
      sim.validPrefillLogs = r.validPrefillLogs := by
  rw [fakeFCFSSchedule] at hrun
  obtain ⟨s, hloop, hresult⟩ := Option.bind_eq_some_iff.mp hrun
  obtain ⟨t, ht, hsched⟩ : ∃ t, pipelineLoop cfg fuel (.init inp out arr inp.length) = some t ∧
      t.sched.progress = s.progress ∧ t.sched.logs = s.logs ∧
        t.sched.isPrefillSteps = s.isPrefillSteps := by
    cases fuel with
    | zero => cases hloop
    | succ fuel =>
      rw [scheduleLoop] at hloop
      rw [pipelineLoop]
      split at hloop
      · rename_i hdone
        obtain rfl := Option.some.inj hloop
        exact ⟨_, if_pos hdone, rfl, rfl, rfl⟩
      · rename_i hmore
        have hne : inp ≠ [] := fun hnil => hmore (by rw [hnil]; rfl)
        obtain ⟨t, hmatches, hfirst⟩ :=
          pipelineRound_init hsort hlength harr hne hpast
        obtain ⟨s₁, hround, hloop⟩ := Option.bind_eq_some_iff.mp hloop
        obtain ⟨t₁, ht₁, h₁, hquery₁⟩ := arrivalRound_of_scheduleRound hmatches hround
        obtain ⟨t', ht', rfl⟩ := pipelineLoop_of_scheduleLoop h₁ hquery₁ hloop
        have hmore' : ¬ (Arriving.init inp out arr inp.length).sched.unfinishedReqnum = 0 := hmore
        rw [if_neg hmore', hfirst, ht₁, Option.bind_some]
        exact ⟨t', ht', rfl, rfl, rfl⟩
  obtain ⟨hprogress, hlogs, hflags⟩ := hsched
  split at hresult
  · rename_i hassert
    obtain rfl := Option.some.inj hresult
    have hassert' : t.sched.progress.totIterNum =
        t.sched.logs.length + t.sched.progress.prefillLogs.length := by
      rw [hprogress, hlogs]
      exact hassert
    have hsim : fakeFCFSSchedulePipeline cfg fuel inp out arr = some ⟨t.cumsumLatencys,
        t.sched.isPrefillSteps, t.sched.progress.inferProgress, t.sched.progress.prefillLogs,
        t.sched.logs, t.sched.progress.validPrefillLogs⟩ := by
      rw [fakeFCFSSchedulePipeline, ht, Option.bind_some, Arriving.result, if_pos hassert']
      rfl
    refine ⟨_, hsim, ?_⟩
    rw [hprogress, hlogs, hflags]
    exact ⟨rfl, rfl, rfl, rfl, rfl⟩
  · cases hresult

/-- Two requests, one of which has arrived long ago, in a cache that holds one of them. -/
theorem fakeFCFSSchedulePipeline_immediate_two :
    ∃ r sim, fakeFCFSSchedule ⟨2, 5, 64, 2, 1⟩ 12 [3, 2] [4, 3] = some r ∧
      fakeFCFSSchedulePipeline ⟨⟨2, 5, 64, 2, 1⟩, 3, false, fun _ => 1, fun _ => 1⟩ 12 [3, 2] [4, 3]
        [0, -7] = some sim ∧ sim.inferProgress = r.inferProgress := by
  obtain ⟨r, hr⟩ : ∃ r, fakeFCFSSchedule ⟨2, 5, 64, 2, 1⟩ 12 [3, 2] [4, 3] = some r :=
    Option.isSome_iff_exists.mp (by decide +kernel)
  obtain ⟨sim, hsim, hprogress, -⟩ := fakeFCFSSchedulePipeline_immediate
    ⟨⟨2, 5, 64, 2, 1⟩, 3, false, fun _ => 1, fun _ => 1⟩ [3, 2] [4, 3] [0, -7] rfl rfl rfl
    (by decide) hr
  exact ⟨r, sim, hr, hsim, hprogress⟩

end

end Mil.Fcfs
