import Mil.Fcfs.Received
import Mil.Fcfs.Recording

/-!
# A round of the arrival-aware simulators

Each phase of a round is described by what it leaves: the requests not received yet stay, and so do
the arrival times (`Follows`). A round that ends with `needQuery` has admitted everything received
(`arrivalRound_query`).
-/

set_option autoImplicit false

namespace Mil.Fcfs

open Mil.Lib

section

variable {cfg : ArrivalConfig} {slot slot' : Nat → Nat} {more : Bool} {n : Nat} {s s' t : Arriving}

/-! ## What a round does not change -/

/-- The received requests are the same, and nothing else has changed in the arrays. -/
structure Arriving.Follows (s s' : Arriving) : Prop where
  ids : s'.sched.ids ⊆ s.sched.ids
  seqIds : s'.sched.seqIds.length = s.sched.seqIds.length
  inpLens : s'.sched.inpLens.drop s.sched.seqIds.length = s.sched.inpLens.drop s.sched.seqIds.length
  outLens : s'.sched.outLens.drop s.sched.seqIds.length = s.sched.outLens.drop s.sched.seqIds.length
  arriveTimes : s'.arriveTimes = s.arriveTimes
  progress : s'.sched.progress.inferProgress.length = s.sched.progress.inferProgress.length

theorem Arriving.Follows.trans (h : s.Follows s') (h' : s'.Follows t) : s.Follows t where
  ids := fun _ hid => h.ids (h'.ids hid)
  seqIds := h'.seqIds.trans h.seqIds
  inpLens := (h.seqIds ▸ h'.inpLens).trans h.inpLens
  outLens := (h.seqIds ▸ h'.outLens).trans h.outLens
  arriveTimes := h'.arriveTimes.trans h.arriveTimes
  progress := h'.progress.trans h.progress

/-! ## Prefill -/

/-- `p'` has the logs of `p` and some more of both kinds, for the same requests. -/
structure Extends (p p' : Progress) (k : Nat) : Prop where
  prefillLogs : ∃ l, p'.prefillLogs = p.prefillLogs ++ l ∧ k ≤ l.length
  validPrefillLogs : ∃ l, p'.validPrefillLogs = p.validPrefillLogs ++ l ∧ k ≤ l.length
  length_eq : p.validPrefillLogs.length = p.prefillLogs.length →
    p'.validPrefillLogs.length = p'.prefillLogs.length
  inferProgress : p'.inferProgress.length = p.inferProgress.length

theorem Extends.refl (p : Progress) : Extends p p 0 :=
  ⟨⟨[], (List.append_nil _).symm, le_refl 0⟩, ⟨[], (List.append_nil _).symm, le_refl 0⟩, id, rfl⟩

theorem Extends.trans {p p' p'' : Progress} {k k' : Nat} (h : Extends p p' k)
    (h' : Extends p' p'' k') : Extends p p'' (k + k') := by
  obtain ⟨l, hl, hk⟩ := h.prefillLogs
  obtain ⟨l', hl', hk'⟩ := h'.prefillLogs
  obtain ⟨v, hv, hvk⟩ := h.validPrefillLogs
  obtain ⟨v', hv', hvk'⟩ := h'.validPrefillLogs
  refine ⟨⟨l ++ l', ?_, ?_⟩, ⟨v ++ v', ?_, ?_⟩, fun heq => h'.length_eq (h.length_eq heq),
    h'.inferProgress.trans h.inferProgress⟩
  · rw [hl', hl, List.append_assoc]
  · rw [List.length_append]
    exact Nat.add_le_add hk hk'
  · rw [hv', hv, List.append_assoc]
  · rw [List.length_append]
    exact Nat.add_le_add hvk hvk'

theorem recordPrefill_extends {p p' : Progress} {seqs : List (Nat × Nat)}
    (h : recordPrefill p seqs = some p') : Extends p p' 1 := by
  rw [recordPrefill] at h
  obtain ⟨⟨log, validLog⟩, -, h⟩ := Option.bind_eq_some_iff.mp h
  obtain rfl := Option.some.inj h
  refine ⟨⟨[log], rfl, le_refl 1⟩, ⟨[validLog], rfl, le_refl 1⟩, fun heq => ?_,
    storeInferState_length _ _ _ _⟩
  rw [List.length_append, List.length_append, heq]
  rfl

theorem updatePrefillLogs_extends {maxNumBatchedTokens : Nat} {prompts : List (Nat × Nat)}
    {p p' : Progress} (h : updatePrefillLogs maxNumBatchedTokens prompts p = some p') :
    Extends p p' (if prompts = [] then 0 else 1) := by
  rw [updatePrefillLogs] at h
  split at h
  · rename_i hnil
    rw [if_pos hnil, ← Option.some.inj h]
    exact .refl p
  · rename_i hne
    rw [if_neg hne]
    obtain ⟨⟨q, seqs⟩, hfold, h⟩ := Option.bind_eq_some_iff.mp h
    have hbatch : ∀ (l : List (Nat × Nat)) (r : Progress × List (Nat × Nat)),
        l.foldlM (batchPrompt maxNumBatchedTokens) r = some (q, seqs) → ∃ k, Extends r.1 q k := by
      intro l
      induction l with
      | nil =>
        intro r hr
        obtain rfl := Option.some.inj hr
        exact ⟨0, .refl q⟩
      | cons prompt l ih =>
        intro r hr
        rw [List.foldlM_cons] at hr
        obtain ⟨r', hr', hr⟩ := Option.bind_eq_some_iff.mp hr
        obtain ⟨k, hk⟩ := ih r' hr
        rw [batchPrompt] at hr'
        split at hr'
        · obtain rfl := Option.some.inj hr'
          exact ⟨k, hk⟩
        · obtain ⟨p₁, hp₁, hr'⟩ := Option.bind_eq_some_iff.mp hr'
          obtain rfl := Option.some.inj hr'
          exact ⟨1 + k, (recordPrefill_extends hp₁).trans hk⟩
    obtain ⟨k, hk⟩ := hbatch prompts (p, []) hfold
    have hall := hk.trans (recordPrefill_extends h)
    obtain ⟨l, hl, hle⟩ := hall.prefillLogs
    obtain ⟨v, hv, hvle⟩ := hall.validPrefillLogs
    exact ⟨⟨l, hl, (Nat.le_add_left 1 k).trans hle⟩, ⟨v, hv, (Nat.le_add_left 1 k).trans hvle⟩,
      hall.length_eq, hall.inferProgress⟩

/-- The state after the requests `took` have been admitted and prefilled. -/
def Arriving.prefilled (cfg : ArrivalConfig) (more : Bool) (took : List Seq) (s : Arriving)
    (p : Progress) : Arriving :=
  let done := s.sched.progress.prefillLogs.length
  let latencys := ((p.prefillLogs.drop done).zip (p.validPrefillLogs.drop done)).map cfg.prefillCost
  let cumsumLatencys := s.cumsumLatencys ++ cumsumFrom s.totInferenceTime latencys
  let sched := s.sched.admitted cfg.blockSize took
  { s with
    sched := { sched with
      progress := p
      isPrefillSteps := s.sched.isPrefillSteps ++
        List.replicate (p.totIterNum - s.sched.isPrefillSteps.length) true }
    totInferenceTime := cumsumLatencys.getLastD s.totInferenceTime
    cumsumLatencys := cumsumLatencys
    needQuery := more && sched.pointer = sched.seqIds.length &&
      hasEnoughCache cfg.toConfig sched.blockNumUsed 1 && sched.runningSeqs.length < cfg.maxSeqNum
    mustRecord := took = [] && s.mustRecord }

theorem arrivalPrefill_eq (cfg : ArrivalConfig) (more : Bool) (h : s.sched.Received n) :
    ∃ took rest, s.sched.waiting = took ++ rest ∧
      admitReceived cfg.toConfig s.sched.seqIds.length s.sched [] =
        (s.sched.admitted cfg.blockSize took, took.map fun q => (q.len, q.id)) ∧
      ∀ slot : Nat → Nat, arrivalPrefill cfg slot more s =
        (updatePrefillLogs cfg.maxNumBatchedTokens (took.map fun q => (q.len, slot q.id))
          s.sched.progress).map (s.prefilled cfg more took) := by
  obtain ⟨took, rest, hwaiting, hadmit⟩ :=
    admitReceived_spec cfg.toConfig s.sched.seqIds.length h []
  rw [List.nil_append] at hadmit
  refine ⟨took, rest, hwaiting, hadmit, fun slot => ?_⟩
  rw [arrivalPrefill, hadmit]
  have hprompts : ((took.map fun q => (q.len, q.id)).map fun prompt => (prompt.1, slot prompt.2)) =
      took.map fun q => (q.len, slot q.id) := by
    rw [List.map_map]
    rfl
  simp only [hprompts]
  have hprogress : (s.sched.admitted cfg.blockSize took).progress = s.sched.progress := rfl
  rw [hprogress]
  cases updatePrefillLogs cfg.maxNumBatchedTokens (took.map fun q => (q.len, slot q.id))
    s.sched.progress with
  | none => rfl
  | some p =>
    refine congrArg some ?_
    simp only [Arriving.prefilled, List.map_eq_nil_iff]
    rfl

theorem prefilled_follows (cfg : ArrivalConfig) (more : Bool) {p : Progress} {took rest : List Seq}
    (hwaiting : s.sched.waiting = took ++ rest)
    (hp : p.inferProgress.length = s.sched.progress.inferProgress.length) :
    s.Follows (s.prefilled cfg more took p) := by
  refine ⟨fun id hid => ?_, rfl, rfl, rfl, rfl, hp⟩
  rcases List.mem_append.mp hid with hid | hid
  · exact List.mem_append_left _ hid
  · rw [Arriving.prefilled] at hid
    simp only [Sched.admitted, List.map_append] at hid
    rcases List.mem_append.mp hid with hid | hid
    · exact List.mem_append_right _ hid
    · obtain ⟨q, hq, rfl⟩ := List.mem_map.mp hid
      obtain ⟨q', hq', rfl⟩ := List.mem_map.mp hq
      have htook : q' ∈ took := List.mem_of_mem_filter hq'
      exact List.mem_append_left _
        (waiting_id_mem (q := q') (hwaiting ▸ List.mem_append_left _ htook))

theorem prefilled_received (cfg : ArrivalConfig) (more : Bool) (p : Progress)
    (h : s.sched.Received n) {took rest : List Seq}
    (hwaiting : s.sched.waiting = took ++ rest) :
    (s.prefilled cfg more took p).sched.Received n := by
  have hadmitted := h.admitted cfg.blockSize took hwaiting
  exact ⟨hadmitted.inpLens, hadmitted.outLens, hadmitted.seqIds_le, hadmitted.pointer_le,
    hadmitted.running_le⟩

/-! ## Killing -/

theorem killSeqsForMoreCacheSpace_keep {c : Config} {q q' : Sched}
    (h : killSeqsForMoreCacheSpace c q = some q') : ∃ num, q' = q.keep c.blockSize num := by
  rw [killSeqsForMoreCacheSpace] at h
  obtain ⟨most, -, h⟩ := Option.bind_eq_some_iff.mp h
  exact ⟨_, (Option.some.inj h).symm⟩

theorem drop_writeSlice {α : Type} {l vals : List α} {start stop k : Nat}
    (hvals : start + vals.length = stop) (hstop : stop ≤ k) (hk : k ≤ l.length) :
    (writeSlice l start stop vals).drop k = l.drop k := by
  have hlen : (l.take start ++ vals).length = stop := by
    rw [List.length_append, List.length_take]
    omega
  rw [writeSlice, List.drop_append, hlen, List.drop_eq_nil_of_le (hlen ▸ hstop), List.nil_append,
    List.drop_drop, Nat.add_sub_of_le hstop]

theorem killed_follows (h : s.sched.Received n) (blockSize num : Nat) :
    s.Follows (s.killed (s.sched.keep blockSize num)) := by
  have hpointer := h.pointer_le
  have hrunning := h.running_le
  have hseqIds := h.seqIds_le
  have hkilled : s.sched.pointer - (s.sched.runningSeqs.drop num).length +
      (s.sched.runningSeqs.drop num).length = s.sched.pointer := by
    refine Nat.sub_add_cancel ?_
    rw [List.length_drop]
    omega
  refine ⟨fun id hid => ?_, writeSlice_length hpointer (by rw [List.length_map]; exact hkilled),
    drop_writeSlice (by rw [List.length_map]; exact hkilled) hpointer (by rw [h.inpLens]; exact hseqIds),
    drop_writeSlice (by rw [List.length_map]; exact hkilled) hpointer (by rw [h.outLens]; exact hseqIds),
    rfl, rfl⟩
  rcases List.mem_append.mp hid with hid | hid
  · rcases List.mem_append.mp hid with hid | hid
    · rcases List.mem_append.mp hid with hid | hid
      · exact List.mem_append_left _ (List.mem_of_mem_take hid)
      · obtain ⟨q, hq, rfl⟩ := List.mem_map.mp hid
        exact List.mem_append_right _ (List.mem_map_of_mem (List.mem_of_mem_drop hq))
    · exact List.mem_append_left _ (List.mem_of_mem_drop hid)
  · obtain ⟨q, hq, rfl⟩ := List.mem_map.mp hid
    exact List.mem_append_right _ (List.mem_map_of_mem (List.mem_of_mem_take hq))

/-! ## Decoding -/

theorem arrivalDecode_follows {iterNum : Nat} (h : s.sched.Received n)
    (hrun : arrivalDecode cfg slot iterNum s = some s') :
    s.Follows s' ∧ s'.sched.Received n ∧ s'.sched.pointer = s.sched.pointer ∧
      s'.needQuery = s.needQuery := by
  rw [arrivalDecode] at hrun
  obtain ⟨sched, hsched, hrun⟩ := Option.bind_eq_some_iff.mp hrun
  obtain ⟨time, -, hrun⟩ := Option.bind_eq_some_iff.mp hrun
  obtain rfl := Option.some.inj hrun
  rw [decodeAt] at hsched
  obtain ⟨most, -, hsched⟩ := Option.bind_eq_some_iff.mp hsched
  obtain rfl := Option.some.inj hsched
  refine ⟨⟨fun id hid => ?_, rfl, rfl, rfl, rfl, storeInferState_length _ _ _ _⟩,
    ⟨h.inpLens, h.outLens, h.seqIds_le, h.pointer_le, ?_⟩, rfl, rfl⟩
  · rcases List.mem_append.mp hid with hid | hid
    · exact List.mem_append_left _ hid
    · obtain ⟨q, hq, rfl⟩ := List.mem_map.mp hid
      obtain ⟨q', hq', rfl⟩ := List.mem_map.mp (List.mem_of_mem_filter hq)
      exact List.mem_append_right _ (List.mem_map.mpr ⟨q', hq', rfl⟩)
  · refine (List.length_filter_le _ _).trans ?_
    rw [List.length_map]
    exact h.running_le

theorem arrivalDecode_congr (iterNum : Nat)
    (hslot : ∀ q ∈ s.sched.runningSeqs, slot q.id = slot' q.id) :
    arrivalDecode cfg slot iterNum s = arrivalDecode cfg slot' iterNum s := by
  have hmap : (s.sched.runningSeqs.map fun q => slot q.id) =
      s.sched.runningSeqs.map fun q => slot' q.id := List.map_congr_left hslot
  rw [arrivalDecode, arrivalDecode, decodeAt, decodeAt, hmap]

/-! ## The round -/

theorem arrivalSteps_congr (iterNum : Nat)
    (hslot : ∀ q ∈ s.sched.runningSeqs, slot q.id = slot' q.id) :
    arrivalSteps cfg slot iterNum s = arrivalSteps cfg slot' iterNum s := by
  rw [arrivalSteps, arrivalSteps, arrivalDecode_congr iterNum hslot,
    arrivalDecode_congr (s := { s with mustRecord := false }) _ hslot]

theorem arrivalSteps_follows {iterNum : Nat} (h : s.sched.Received n)
    (hrun : arrivalSteps cfg slot iterNum s = some s') :
    s.Follows s' ∧ s'.sched.Received n ∧ s'.sched.pointer = s.sched.pointer ∧
      s'.needQuery = s.needQuery := by
  rw [arrivalSteps] at hrun
  split at hrun
  · split at hrun
    · cases hrun
    · split at hrun
      · obtain rfl := Option.some.inj hrun
        exact ⟨⟨fun _ h => h, rfl, rfl, rfl, rfl, rfl⟩, h, rfl, rfl⟩
      · obtain ⟨hfollows, hrest⟩ := arrivalDecode_follows (s := { s with mustRecord := false }) h hrun
        exact ⟨⟨hfollows.ids, hfollows.seqIds, hfollows.inpLens, hfollows.outLens,
          hfollows.arriveTimes, hfollows.progress⟩, hrest⟩
  · exact arrivalDecode_follows h hrun

/-- Only the slots of the received requests matter. -/
theorem arrivalRound_congr (h : s.sched.Received n) (hslot : ∀ id ∈ s.sched.ids, slot id = slot' id) :
    arrivalRound cfg slot more s = arrivalRound cfg slot' more s := by
  obtain ⟨took, rest, hwaiting, -, heq⟩ := arrivalPrefill_eq cfg more h
  have hprompts : (took.map fun q => (q.len, slot q.id)) = took.map fun q => (q.len, slot' q.id) := by
    refine List.map_congr_left fun q hq => ?_
    have hid : q.id ∈ s.sched.seqIds := waiting_id_mem (hwaiting ▸ List.mem_append_left _ hq)
    rw [hslot q.id (List.mem_append_left _ hid)]
  rw [arrivalRound, arrivalRound, heq slot, heq slot', hprompts]
  cases hp : updatePrefillLogs cfg.maxNumBatchedTokens (took.map fun q => (q.len, slot' q.id))
    s.sched.progress with
  | none => rfl
  | some p =>
    simp only [Option.map_some, Option.bind_eq_bind, Option.bind_some]
    split
    · rfl
    · have hreceived := prefilled_received cfg more p h hwaiting
      have hfollows := prefilled_follows cfg more hwaiting (updatePrefillLogs_extends hp).inferProgress
      refine Option.bind_congr fun sched hkill => Option.bind_congr fun iterNum _ => ?_
      obtain ⟨num, rfl⟩ := killSeqsForMoreCacheSpace_keep hkill
      refine arrivalSteps_congr iterNum fun q hq => hslot q.id ?_
      refine (hfollows.trans (killed_follows hreceived cfg.blockSize num)).ids ?_
      exact List.mem_append_right _ (List.mem_map_of_mem hq)

/-- A round that returns. -/
theorem arrivalRound_follows (h : s.sched.Received n)
    (hrun : arrivalRound cfg slot more s = some s') :
    s.Follows s' ∧ s'.sched.Received n ∧
      (s'.needQuery = true → s'.sched.pointer = s'.sched.seqIds.length) := by
  obtain ⟨took, rest, hwaiting, -, heq⟩ := arrivalPrefill_eq cfg more h
  rw [arrivalRound, heq slot] at hrun
  obtain ⟨t, ht, hrun⟩ := Option.bind_eq_some_iff.mp hrun
  obtain ⟨p, hp, rfl⟩ := Option.map_eq_some_iff.mp ht
  have hreceived := prefilled_received cfg more p h hwaiting
  have hfollows := prefilled_follows cfg more hwaiting (updatePrefillLogs_extends hp).inferProgress
  have hquery : (s.prefilled cfg more took p).needQuery = true →
      (s.prefilled cfg more took p).sched.pointer =
        (s.prefilled cfg more took p).sched.seqIds.length := by
    intro hneed
    simp only [Arriving.prefilled, Bool.and_eq_true, decide_eq_true_eq] at hneed
    exact hneed.1.1.2
  split at hrun
  · obtain rfl := Option.some.inj hrun
    exact ⟨hfollows, hreceived, hquery⟩
  · obtain ⟨sched, hkill, hrun⟩ := Option.bind_eq_some_iff.mp hrun
    obtain ⟨iterNum, -, hrun⟩ := Option.bind_eq_some_iff.mp hrun
    obtain ⟨num, rfl⟩ := killSeqsForMoreCacheSpace_keep hkill
    have hkept : ((s.prefilled cfg more took p).killed
        ((s.prefilled cfg more took p).sched.keep cfg.blockSize num)).sched.Received n :=
      hreceived.keep cfg.blockSize num
    obtain ⟨hsteps, hreceived', hpointer, hneed⟩ := arrivalSteps_follows hkept hrun
    refine ⟨hfollows.trans ((killed_follows hreceived cfg.blockSize num).trans hsteps), hreceived',
      fun hq => ?_⟩
    rw [hneed] at hq
    simp only [Arriving.killed, Bool.and_eq_true, Bool.not_eq_true', decide_eq_false_iff_not,
      not_lt] at hq
    rw [hpointer, hsteps.seqIds]
    exact Nat.le_antisymm hkept.pointer_le hq.2

end

end Mil.Fcfs
