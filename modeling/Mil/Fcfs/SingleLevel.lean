import Mil.Fcfs.Receiving

/-!
# Fused models with one level of requests

If only the first level of a chain of fused models has requests, the simulator of fused models goes
through the same rounds as the arrival-aware simulator, with the ids of the requests in place of their
numbers (`Mirrors`). It sorts the requests by arrival time as it goes, so the two agree for requests
that are sorted by arrival time to begin with.
-/

set_option autoImplicit false

namespace Mil.Fcfs

open Mil.Lib

/-- Levels without requests. -/
def emptyLevel : Level := ⟨[], [], [], []⟩

/-- The same simulation with its `infer_progress` in another form. -/
def Simulation.map {α β : Type} (g : α → β) (sim : Simulation α) : Simulation β :=
  ⟨sim.cumsumLatencys, sim.isPrefillSteps, g sim.inferProgress, sim.prefillLogs, sim.logs,
    sim.validPrefillLogs⟩

/-- The fused simulator, with the ids `ids`, is where the arrival-aware one is. -/
structure Mirrors (ids : List Nat) (p : Arriving) (v : Fused) : Prop where
  toArriving : v.toArriving = p.rename fun i => ids.getD i 0
  received : p.sched.Received ids.length
  arriveTimes : p.arriveTimes.length = ids.length
  refSeqIds : v.refSeqIds.length = ids.length
  waiting : v.refSeqIds.drop p.sched.seqIds.length = ids.drop p.sched.seqIds.length
  sorted : (p.arriveTimes.drop p.sched.seqIds.length).Pairwise (· ≤ ·)
  unknown : v.unknown = []
  slots : v.slots = ids.zipIdx
  numbers : ∀ i ∈ p.sched.ids, i < ids.length
  progress : p.sched.progress.inferProgress.length = ids.length

section

variable {cfg : ArrivalConfig} {ids : List Nat} {p p' : Arriving} {v v' : Fused}

/-- The slot of the `i`-th request is `i`. -/
theorem Mirrors.slot (h : Mirrors ids p v) (hids : ids.Nodup) {i : Nat} (hi : i < ids.length) :
    v.slot (ids.getD i 0) = i := by
  have hlookup : ∀ (l : List Nat) (k j : Nat), l.Nodup → j < l.length →
      (l.zipIdx k).lookup (l.getD j 0) = some (k + j) := by
    intro l
    induction l with
    | nil => intro k j _ hj; cases hj
    | cons a l ih =>
      intro k j hnodup hj
      rw [List.zipIdx_cons, List.lookup_cons]
      cases j with
      | zero => simp
      | succ j =>
        have hj' : j < l.length := Nat.lt_of_succ_lt_succ hj
        have hmem : l.getD j 0 ∈ l := by
          rw [List.getD_eq_getElem?_getD, List.getElem?_eq_getElem hj', Option.getD_some]
          exact List.getElem_mem hj'
        have hne : ¬ l.getD j 0 = a := fun heq => (List.nodup_cons.mp hnodup).1 (heq ▸ hmem)
        rw [List.getD_cons_succ, beq_eq_false_iff_ne.mpr hne]
        simp only [ih (k + 1) j (List.nodup_cons.mp hnodup).2 hj', Nat.add_assoc, Nat.add_comm 1 j]
  rw [Fused.slot, h.slots, hlookup ids 0 i hids hi, Option.getD_some, Nat.zero_add]

/-- When there are no requests of later levels, the arrival times need no update. -/
theorem updateSeqInfo_of_sorted (hunknown : v.unknown = [])
    (hsorted : (v.arriveTimes.drop v.sched.pointer).Pairwise (· ≤ ·)) : updateSeqInfo v = v := by
  have hadd : v.toAdd = [] := by
    rw [Fused.toAdd, hunknown]
    rfl
  simp only [updateSeqInfo, hadd, List.map_nil, List.append_nil, List.foldl_nil, hunknown,
    List.filterMap_nil, earliestFirst_of_sorted hsorted, permuteFrom_range]
  rw [← hunknown]

/-- The simulators receive the same requests. -/
theorem Mirrors.check (h : Mirrors ids p v) (hpointer : p.sched.pointer = p.sched.seqIds.length) :
    Mirrors ids (checkNewInputRequests cfg p)
      (checkNewInputRequestsVerticalFuse cfg (updateSeqInfo v)) := by
  have harrive : v.arriveTimes = p.arriveTimes := by
    rw [h.toArriving]
    rfl
  have hsched : v.sched = p.sched.rename fun i => ids.getD i 0 :=
    congrArg Arriving.sched h.toArriving
  have hpointer' : v.sched.pointer = p.sched.pointer := by
    rw [hsched]
    rfl
  have hupdate : updateSeqInfo v = v := by
    refine updateSeqInfo_of_sorted h.unknown ?_
    rw [harrive, hpointer', hpointer]
    exact h.sorted
  have hnew : v.newRequests = p.newRequests := by
    rw [h.toArriving, Arriving.newRequests, Arriving.newRequests]
    simp only [Arriving.rename, Sched.rename, List.length_map]
  rw [hupdate, checkNewInputRequests, checkNewInputRequestsVerticalFuse, hnew]
  cases hrequests : p.newRequests with
  | none => exact h
  | some r =>
    obtain ⟨time, newInpEnd⟩ := r
    obtain ⟨hle, hend⟩ := newRequests_bounds h.received h.arriveTimes hrequests
    have hreorder : ∀ {α : Type} (l : List α), v.reorder cfg newInpEnd l = p.reorder cfg newInpEnd l := by
      intro α l
      rw [h.toArriving]
      rfl
    -- the fused plan takes the next ids, where the plain one counts on
    have hnumbers : slice v.refSeqIds v.sched.pointer newInpEnd =
        (List.range' p.sched.pointer (newInpEnd - p.sched.pointer)).map fun i => ids.getD i 0 := by
      rw [hpointer', slice, hpointer, h.waiting]
      refine List.ext_getElem ?_ fun i hi hi' => ?_
      · rw [List.length_take, List.length_drop, List.length_map, List.length_range']
        omega
      · rw [List.length_map, List.length_range'] at hi'
        rw [List.getElem_take, List.getElem_drop, List.getElem_map, List.getElem_range',
          List.getD_eq_getElem?_getD, Nat.one_mul, List.getElem?_eq_getElem, Option.getD_some]
    have hlen : (p.sched.seqIds ++ List.range' p.sched.pointer
        (newInpEnd - p.sched.pointer)).length = newInpEnd := by
      rw [List.length_append, List.length_range', hpointer]
      omega
    have hreceived : (p.reorder cfg newInpEnd (p.sched.seqIds ++ List.range' p.sched.pointer
        (newInpEnd - p.sched.pointer))).length = newInpEnd :=
      (reorder_perm _ _).length_eq.trans hlen
    have hstart : p.sched.pointer ≤ newInpEnd := hpointer.trans_le hle
    have hinp : newInpEnd ≤ p.sched.inpLens.length := h.received.inpLens.symm ▸ hend
    refine ⟨?_, ⟨?_, ?_, ?_, ?_, h.received.running_le⟩, ?_, ?_, ?_, ?_, h.unknown, h.slots, ?_,
      h.progress⟩
    · show v.receive cfg time newInpEnd _ = _
      rw [hnumbers, Arriving.receive, hreorder, hreorder, hreorder, hreorder, harrive, hsched, h.toArriving]
      simp only [Arriving.receive, Arriving.rename, Sched.rename, ← reorder_map, List.map_append]
    · exact (reorder_perm _ _).length_eq.trans h.received.inpLens
    · exact (reorder_perm _ _).length_eq.trans h.received.outLens
    · exact hreceived.trans_le hend
    · exact hstart.trans hreceived.ge
    · exact (reorder_perm _ _).length_eq.trans h.arriveTimes
    · exact (reorder_perm _ _).length_eq.trans h.refSeqIds
    · show (v.reorder cfg newInpEnd v.refSeqIds).drop (p.reorder cfg newInpEnd _).length =
        ids.drop (p.reorder cfg newInpEnd _).length
      have hdrop := congrArg (List.drop (newInpEnd - p.sched.seqIds.length)) h.waiting
      rw [List.drop_drop, List.drop_drop, Nat.add_sub_of_le hle] at hdrop
      rw [hreceived, hreorder, drop_reorder hstart hinp (h.refSeqIds.symm ▸ hend), hdrop]
    · show ((p.reorder cfg newInpEnd p.arriveTimes).drop (p.reorder cfg newInpEnd _).length).Pairwise _
      rw [hreceived, drop_reorder hstart hinp (h.arriveTimes.symm ▸ hend), ← Nat.add_sub_of_le hle,
        ← List.drop_drop]
      exact h.sorted.drop
    · intro i hi
      rcases List.mem_append.mp hi with hi | hi
      · rcases List.mem_append.mp ((reorder_perm _ _).mem_iff.mp hi) with hi | hi
        · exact h.numbers i (List.mem_append_left _ hi)
        · obtain ⟨j, hj, rfl⟩ := List.mem_range'.mp hi
          omega
      · exact h.numbers i (List.mem_append_right _ hi)

/-- The simulators play the same round. -/
theorem Mirrors.round (h : Mirrors ids p v) (hids : ids.Nodup)
    (hquery : p.needQuery = true → p.sched.pointer = p.sched.seqIds.length) :
    (fusedRound cfg ids.length v = none ∧ pipelineRound cfg p = none) ∨
    ∃ p' v', pipelineRound cfg p = some p' ∧ fusedRound cfg ids.length v = some v' ∧
      Mirrors ids p' v' ∧ (p'.needQuery = true → p'.sched.pointer = p'.sched.seqIds.length) := by
  have hchecks : v.checks cfg = p.checks cfg := by
    have hrunning : (p.rename fun i => ids.getD i 0).sched.runningSeqs.length =
        p.sched.runningSeqs.length := List.length_map _
    have hseqIds : (p.rename fun i => ids.getD i 0).sched.seqIds.length = p.sched.seqIds.length :=
      List.length_map _
    rw [h.toArriving, Arriving.checks, Arriving.checks, hrunning, hseqIds]
    rfl
  rw [pipelineRound, fusedRound, hchecks]
  cases hcheck : p.checks cfg with
  | none => exact .inl ⟨rfl, rfl⟩
  | some b =>
    have hmirrors : Mirrors ids (if b then checkNewInputRequests cfg p else p)
        (if b then checkNewInputRequestsVerticalFuse cfg (updateSeqInfo v) else v) := by
      cases b with
      | false => exact h
      | true =>
        refine h.check ?_
        rw [Arriving.checks] at hcheck
        split at hcheck
        · rename_i hidle
          exact hidle.2
        · split at hcheck
          · rename_i hneed
            exact hquery hneed
          · cases hcheck
    simp only [Option.bind_eq_bind, Option.bind_some]
    generalize (if b then checkNewInputRequests cfg p else p) = q at hmirrors
    generalize (if b then checkNewInputRequestsVerticalFuse cfg (updateSeqInfo v) else v) = w at hmirrors
    have hlen : w.sched.seqIds.length = q.sched.seqIds.length := by
      rw [hmirrors.toArriving]
      exact List.length_map _
    have hmore : (decide (w.sched.seqIds.length < ids.length) &&
        decide (w.sched.seqIds.length < w.refSeqIds.length)) =
        decide (q.sched.seqIds.length < q.sched.inpLens.length) := by
      rw [hlen, hmirrors.refSeqIds, hmirrors.received.inpLens, Bool.and_self]
    have hslot : ∀ i ∈ q.sched.ids, (w.slot ∘ fun i => ids.getD i 0) i = id i := fun i hi =>
      hmirrors.slot hids (hmirrors.numbers i hi)
    rw [hmore, hmirrors.toArriving, arrivalRound_rename, arrivalRound_congr hmirrors.received hslot]
    cases hround : arrivalRound cfg id (decide (q.sched.seqIds.length < q.sched.inpLens.length)) q with
    | none => exact .inl ⟨rfl, rfl⟩
    | some q' =>
      obtain ⟨hfollows, hreceived, hquery'⟩ := arrivalRound_follows hmirrors.received hround
      refine .inr ⟨q', _, rfl, rfl, ⟨rfl, hreceived, ?_, hmirrors.refSeqIds, ?_, ?_,
        hmirrors.unknown, hmirrors.slots, fun i hi => hmirrors.numbers i (hfollows.ids hi), ?_⟩, hquery'⟩
      · rw [hfollows.arriveTimes, hmirrors.arriveTimes]
      · rw [hfollows.seqIds]
        exact hmirrors.waiting
      · rw [hfollows.seqIds, hfollows.arriveTimes]
        exact hmirrors.sorted
      · rw [hfollows.progress, hmirrors.progress]

/-- The simulators play the same rounds. -/
theorem Mirrors.loop {fuel : Nat} (h : Mirrors ids p v) (hids : ids.Nodup)
    (hquery : p.needQuery = true → p.sched.pointer = p.sched.seqIds.length) :
    (fusedLoop cfg ids.length fuel v = none ∧ pipelineLoop cfg fuel p = none) ∨
    ∃ p' v', pipelineLoop cfg fuel p = some p' ∧ fusedLoop cfg ids.length fuel v = some v' ∧
      Mirrors ids p' v' := by
  induction fuel generalizing p v with
  | zero => exact .inl ⟨rfl, rfl⟩
  | succ fuel ih =>
    have hunfinished : v.sched.unfinishedReqnum = p.sched.unfinishedReqnum := by
      rw [h.toArriving]
      rfl
    rw [pipelineLoop, fusedLoop, hunfinished]
    split
    · exact .inr ⟨p, v, rfl, rfl, h⟩
    · rcases h.round hids hquery with ⟨hv, hp⟩ | ⟨p', v', hp, hv, h', hquery'⟩
      · rw [hv, hp]
        exact .inl ⟨rfl, rfl⟩
      · rw [hv, hp]
        exact ih h' hquery'

/-! ## The simulations -/

theorem mirrors_init {first : Level} {later : List Level} (hempty : ∀ l ∈ later, l = emptyLevel)
    (hout : first.outLens.length = first.inpLens.length)
    (harrive : first.arriveTimes.length = first.inpLens.length)
    (hids : first.seqIds.length = first.inpLens.length) (hsorted : first.arriveTimes.Pairwise (· ≤ ·)) :
    reqNum (first :: later) = first.inpLens.length ∧
    Mirrors first.seqIds
      (.init first.inpLens first.outLens first.arriveTimes first.inpLens.length)
      (.init first later) := by
  have hreqNum : reqNum (first :: later) = first.inpLens.length := by
    have hzero : (later.map fun l => l.inpLens.length).sum = 0 := by
      refine List.sum_eq_zero fun m hm => ?_
      obtain ⟨l, hl, rfl⟩ := List.mem_map.mp hm
      rw [hempty l hl]
      rfl
    rw [reqNum, List.map_cons, List.sum_cons, hzero, Nat.add_zero]
  have hinfos : ∀ start, levelInfos start later = [] := by
    clear hreqNum
    induction later with
    | nil => intro start; rfl
    | cons l later ih =>
      intro start
      rw [levelInfos, hempty l List.mem_cons_self, ih fun m hm => hempty m (List.mem_cons_of_mem _ hm)]
      rfl
  refine ⟨hreqNum, ⟨?_, ⟨hids.symm, hout.trans hids.symm, Nat.zero_le _, le_refl 0, le_refl 0⟩,
    harrive.trans hids.symm, rfl, rfl, hsorted, ?_, rfl,
    fun i hi => absurd hi (by simp [Sched.ids, Arriving.init]), ?_⟩⟩
  · show Arriving.init _ _ _ (reqNum (first :: later)) = _
    rw [hreqNum]
    rfl
  · show unknownSeqInfo (levelInfos _ later) = []
    rw [hinfos]
    rfl
  · show (List.replicate _ _).length = _
    rw [List.length_replicate, hids]

/-- If the requests of the first level are sorted by arrival time and the later levels have none, the
simulators agree. -/
theorem fakeFCFSScheduleVerticalFuse_singleLevel (cfg : ArrivalConfig) (fuel : Nat) (first : Level)
    (later : List Level) (hlater : later ≠ []) (hempty : ∀ l ∈ later, l = emptyLevel)
    (hout : first.outLens.length = first.inpLens.length)
    (harrive : first.arriveTimes.length = first.inpLens.length)
    (hids : first.seqIds.length = first.inpLens.length) (hnodup : first.seqIds.Nodup)
    (hsorted : first.arriveTimes.Pairwise (· ≤ ·)) :
    fakeFCFSScheduleVerticalFuse cfg fuel first later =
      (fakeFCFSSchedulePipeline cfg fuel first.inpLens first.outLens first.arriveTimes).map
        (Simulation.map fun progress => progress :: later.map fun _ => []) := by
  obtain ⟨hreqNum, hinit⟩ := mirrors_init hempty hout harrive hids hsorted
  rw [fakeFCFSScheduleVerticalFuse, if_neg hlater, fakeFCFSSchedulePipeline, hreqNum, ← hids]
  rw [← hids] at hinit
  rcases hinit.loop hnodup fun _ => rfl with ⟨hv, hp⟩ | ⟨p, v, hp, hv, h⟩
  · rw [hv, hp]
    rfl
  · rw [hv, hp, Option.bind_some, Option.bind_some, h.toArriving]
    have hsplit : splitLevels ((first :: later).map fun l => l.inpLens.length)
        p.sched.progress.inferProgress =
          p.sched.progress.inferProgress :: later.map fun _ => [] := by
      rw [List.map_cons, splitLevels, ← hids, ← h.progress, List.take_length, List.drop_length]
      congr 1
      clear hinit hv hlater hreqNum
      induction later with
      | nil => rfl
      | cons l later ih =>
        rw [List.map_cons, splitLevels, List.take_nil, List.drop_nil, List.map_cons,
          ih fun m hm => hempty m (List.mem_cons_of_mem _ hm)]
    have hsched : (p.rename fun i => first.seqIds.getD i 0).sched.progress = p.sched.progress := rfl
    rw [Arriving.result, Arriving.result, hsched, hsplit]
    show (if p.sched.progress.totIterNum =
      p.sched.logs.length + p.sched.progress.prefillLogs.length then _ else _) = _
    split
    · rfl
    · rfl

/-- Two requests, the second of which arrives while the first one runs. -/
theorem fakeFCFSScheduleVerticalFuse_singleLevel_two :
    fakeFCFSScheduleVerticalFuse ⟨⟨2, 5, 64, 2, 1⟩, 3, true, fun _ => 1, fun _ => 1⟩ 12
      ⟨[3, 2], [4, 3], [0, 2], [7, 4]⟩ [emptyLevel] =
    (fakeFCFSSchedulePipeline ⟨⟨2, 5, 64, 2, 1⟩, 3, true, fun _ => 1, fun _ => 1⟩ 12
      [3, 2] [4, 3] [0, 2]).map (Simulation.map fun progress => [progress, []]) :=
  fakeFCFSScheduleVerticalFuse_singleLevel ⟨⟨2, 5, 64, 2, 1⟩, 3, true, fun _ => 1, fun _ => 1⟩ 12
    ⟨[3, 2], [4, 3], [0, 2], [7, 4]⟩ [emptyLevel] (by decide) (fun _ hl => List.mem_singleton.mp hl)
    rfl rfl rfl (by decide) (by decide)

/-- A request that arrives late is listed first: the arrival-aware simulator waits for it, the fused
one runs the other request in the meantime. -/
theorem fakeFCFSScheduleVerticalFuse_unsorted :
    (fakeFCFSSchedulePipeline ⟨⟨2, 20, 64, 2, 1⟩, 1, false, fun _ => 1, fun _ => 1⟩ 40
      [3, 2] [4, 6] [5, 0]).map (·.cumsumLatencys) = some [6, 7, 8, 9, 10, 11] ∧
    (fakeFCFSScheduleVerticalFuse ⟨⟨2, 20, 64, 2, 1⟩, 1, false, fun _ => 1, fun _ => 1⟩ 40
      ⟨[3, 2], [4, 6], [5, 0], [7, 9]⟩ [emptyLevel]).map (·.cumsumLatencys) =
        some [1, 2, 3, 4, 5, 6, 7, 8, 9] := by
  constructor
  · decide +kernel
  · decide +kernel

end

end Mil.Fcfs
