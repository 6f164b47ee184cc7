import Mil.Fcfs.Reached
import Mil.Fcfs.Recording
import Mil.Lib.FoldM

/-!
# How prefill steps are packed

`update_prefill_logs` is a greedy packing followed by one record for each step: the fold over the
prompts is the fold of `recordPrefill` over the steps (`foldlM_batchPrompt_eq`). So the packing is a
matter of lists alone (`Packed`), and what is recorded is a matter of the steps alone (`PrefillRecord`),
proved by induction on each: a step closes only at a prompt that does not fit, and as the ids are
distinct, a record does not change what a later step reads.
-/

set_option autoImplicit false

namespace Mil.Fcfs

open Mil.Lib

/-! ## Steps -/

/-- The longest prompt. -/
def maxLen (seqs : List (Nat × Nat)) : Nat := (seqs.map Prod.fst).foldr max 0

/-- The greedy packing: `seqs` are the prompts of the open step. -/
def prefillSteps (maxNumBatchedTokens : Nat) :
    List (Nat × Nat) → List (Nat × Nat) → List (List (Nat × Nat))
  | seqs, [] => [seqs]
  | seqs, prompt :: prompts =>
    if max (maxLen seqs) prompt.1 * (seqs.length + 1) ≤ maxNumBatchedTokens then
      prefillSteps maxNumBatchedTokens (seqs ++ [prompt]) prompts
    else seqs :: prefillSteps maxNumBatchedTokens [prompt] prompts

theorem foldr_max_eq (l : List Nat) (a : Nat) : l.foldr max a = max (l.foldr max 0) a := by
  induction l with
  | nil => exact (Nat.max_eq_right (Nat.zero_le a)).symm
  | cons b l ih => rw [List.foldr_cons, List.foldr_cons, ih, Nat.max_assoc]

theorem maxLen_append (seqs : List (Nat × Nat)) (prompt : Nat × Nat) :
    maxLen (seqs ++ [prompt]) = max (maxLen seqs) prompt.1 := by
  show ((seqs ++ [prompt]).map Prod.fst).foldr max 0 = _
  rw [List.map_append, List.foldr_append, foldr_max_eq]
  show max _ (max prompt.1 0) = _
  rw [Nat.max_eq_left (Nat.zero_le prompt.1)]
  rfl

/-- The loop records the steps of the packing one after another. -/
theorem foldlM_batchPrompt_eq (maxNumBatchedTokens : Nat) (prompts : List (Nat × Nat))
    (p : Progress) (seqs : List (Nat × Nat)) :
    ((prompts.foldlM (batchPrompt maxNumBatchedTokens) (p, seqs)).bind
      fun s => recordPrefill s.1 s.2) =
      (prefillSteps maxNumBatchedTokens seqs prompts).foldlM recordPrefill p := by
  induction prompts generalizing p seqs with
  | nil =>
    show recordPrefill p seqs = (recordPrefill p seqs).bind fun p' => some p'
    cases recordPrefill p seqs <;> rfl
  | cons prompt prompts ih =>
    rw [List.foldlM_cons, prefillSteps]
    by_cases hfit : max (maxLen seqs) prompt.1 * (seqs.length + 1) ≤ maxNumBatchedTokens
    · have hbatch : batchPrompt maxNumBatchedTokens (p, seqs) prompt =
          some (p, seqs ++ [prompt]) := by
        rw [batchPrompt, foldr_max_eq]
        exact if_pos hfit
      rw [if_pos hfit, hbatch]
      exact ih p (seqs ++ [prompt])
    · have hbatch : batchPrompt maxNumBatchedTokens (p, seqs) prompt =
          (recordPrefill p seqs).bind fun p' => some (p', [prompt]) := by
        rw [batchPrompt, foldr_max_eq]
        exact if_neg hfit
      rw [if_neg hfit, hbatch, List.foldlM_cons]
      cases recordPrefill p seqs with
      | none => rfl
      | some p' => exact ih p' [prompt]

/-! ## The packing -/

/-- Another prompt fits the step. -/
def FitsStep (maxNumBatchedTokens : Nat) (seqs : List (Nat × Nat)) (prompt : Nat × Nat) : Prop :=
  max (maxLen seqs) prompt.1 * (seqs.length + 1) ≤ maxNumBatchedTokens

/-- The steps have all prompts in order, each step fits, and none has room for the prompt after it. -/
structure Packed (maxNumBatchedTokens : Nat) (prompts : List (Nat × Nat))
    (steps : List (List (Nat × Nat))) : Prop where
  flatten : steps.flatten = prompts
  ne_nil : ∀ step ∈ steps, step ≠ []
  fits : ∀ step ∈ steps, maxLen step * step.length ≤ maxNumBatchedTokens
  maximal : steps.IsChain fun step next =>
    ∀ prompt ∈ next.head?, ¬ FitsStep maxNumBatchedTokens step prompt

theorem prefillSteps_packed {maxNumBatchedTokens : Nat} {seqs prompts : List (Nat × Nat)}
    (hne : seqs ++ prompts ≠ []) (hopen : maxLen seqs * seqs.length ≤ maxNumBatchedTokens)
    (hfit : ∀ prompt ∈ prompts, prompt.1 ≤ maxNumBatchedTokens) :
    Packed maxNumBatchedTokens (seqs ++ prompts) (prefillSteps maxNumBatchedTokens seqs prompts) ∧
      ∃ step rest, prefillSteps maxNumBatchedTokens seqs prompts = (seqs ++ step) :: rest := by
  induction prompts generalizing seqs with
  | nil =>
    rw [List.append_nil] at hne ⊢
    refine ⟨⟨List.append_nil seqs, ?_, ?_, List.isChain_singleton seqs⟩, [], [], ?_⟩
    · exact fun step hstep => List.mem_singleton.mp hstep ▸ hne
    · exact fun step hstep => List.mem_singleton.mp hstep ▸ hopen
    · rw [List.append_nil]
      rfl
  | cons prompt prompts ih =>
    obtain ⟨hprompt, hrest⟩ := List.forall_mem_cons.mp hfit
    rw [prefillSteps]
    split
    · rename_i hnext
      have hopen' : maxLen (seqs ++ [prompt]) * (seqs ++ [prompt]).length ≤ maxNumBatchedTokens := by
        rw [maxLen_append, List.length_append]
        exact hnext
      obtain ⟨hpacked, step, rest, heq⟩ := ih (by simp) hopen' hrest
      rw [List.append_assoc] at hpacked heq
      exact ⟨hpacked, [prompt] ++ step, rest, heq⟩
    · rename_i hnext
      -- The first prompt of a step always fits, so the step that closes is not empty.
      have hseqs : seqs ≠ [] := by
        rintro rfl
        refine hnext ?_
        show max 0 prompt.1 * 1 ≤ maxNumBatchedTokens
        rw [Nat.zero_max, Nat.mul_one]
        exact hprompt
      have hopen' : maxLen [prompt] * [prompt].length ≤ maxNumBatchedTokens := by
        show max prompt.1 0 * 1 ≤ maxNumBatchedTokens
        rw [Nat.max_zero, Nat.mul_one]
        exact hprompt
      obtain ⟨hpacked, step, rest, heq⟩ := ih (List.cons_ne_nil _ _) hopen' hrest
      refine ⟨⟨?_, ?_, ?_, ?_⟩, [], _, by rw [List.append_nil]⟩
      · rw [List.flatten_cons, hpacked.flatten]
        rfl
      · exact List.forall_mem_cons.mpr ⟨hseqs, hpacked.ne_nil⟩
      · exact List.forall_mem_cons.mpr ⟨hopen, hpacked.fits⟩
      · have hchain := hpacked.maximal
        rw [heq] at hchain ⊢
        refine List.isChain_cons_cons.mpr ⟨fun first hfirst => ?_, hchain⟩
        obtain rfl := Option.some.inj hfirst
        exact hnext

/-! ## The record -/

/-- What the steps leave in the records: a log for each step, which is the log of its prompts as they
were before, and for the requests of the step with number `k` the iteration `totIterNum + k`. -/
structure PrefillRecord (p p' : Progress) (steps : List (List (Nat × Nat))) : Prop where
  logs : ∃ logs, steps.mapM (getPrefillStep p.inferProgress) = some logs ∧
    p'.prefillLogs = p.prefillLogs ++ logs.map Prod.fst ∧
    p'.validPrefillLogs = p.validPrefillLogs ++ logs.map Prod.snd
  totIterNum : p'.totIterNum = p.totIterNum + steps.length
  length_eq : p'.inferProgress.length = p.inferProgress.length
  recorded : ∀ k step, steps[k]? = some step → ∀ id ∈ step.map Prod.snd,
    p'.rngs id = addRange (p.rngs id) (p.totIterNum + k) (p.totIterNum + k)
  others : ∀ id, id ∉ steps.flatten.map Prod.snd → p'.rngs id = p.rngs id

theorem getPrefillStep_congr {l l' : List (List Rng)} {seqs : List (Nat × Nat)}
    (h : ∀ id ∈ seqs.map Prod.snd, l'.getD id [] = l.getD id []) :
    getPrefillStep l' seqs = getPrefillStep l seqs := by
  have hfilter : (seqs.filter fun seq => (l'.getD seq.2 []).length = 0) =
      seqs.filter fun seq => (l.getD seq.2 []).length = 0 :=
    List.filter_congr fun seq hseq => by rw [h seq.2 (List.mem_map_of_mem hseq)]
  rw [getPrefillStep, getPrefillStep, hfilter]

/-- One step. -/
theorem recordPrefill_eq {p : Progress} {seqs : List (Nat × Nat)} (hne : seqs ≠ [])
    (hnodup : (seqs.map Prod.snd).Nodup)
    (hids : ∀ id ∈ seqs.map Prod.snd, id < p.inferProgress.length) :
    ∃ log p', getPrefillStep p.inferProgress seqs = some log ∧ recordPrefill p seqs = some p' ∧
      p'.prefillLogs = p.prefillLogs ++ [log.1] ∧
      p'.validPrefillLogs = p.validPrefillLogs ++ [log.2] ∧
      p'.totIterNum = p.totIterNum + 1 ∧ p'.inferProgress.length = p.inferProgress.length ∧
      ∀ id, p'.rngs id = if id ∈ seqs.map Prod.snd
        then addRange (p.rngs id) p.totIterNum p.totIterNum else p.rngs id := by
  obtain ⟨log, hlog⟩ := exists_getPrefillStep p.inferProgress hne
  refine ⟨log, _, hlog, by rw [recordPrefill, hlog]; rfl, rfl, rfl, rfl, ?_, fun id => ?_⟩
  · exact storeInferState_length _ _ _ _
  · exact getD_storeInferState hnodup hids id

theorem foldlM_recordPrefill {steps : List (List (Nat × Nat))} {p : Progress}
    (hne : ∀ step ∈ steps, step ≠ []) (hnodup : (steps.flatten.map Prod.snd).Nodup)
    (hids : ∀ id ∈ steps.flatten.map Prod.snd, id < p.inferProgress.length) :
    ∃ p', steps.foldlM recordPrefill p = some p' ∧ PrefillRecord p p' steps := by
  induction steps generalizing p with
  | nil =>
    refine ⟨p, rfl, ⟨[], rfl, ?_, ?_⟩, rfl, rfl, fun k step h => ?_, fun id _ => rfl⟩
    · exact (List.append_nil _).symm
    · exact (List.append_nil _).symm
    · cases h
  | cons step steps ih =>
    obtain ⟨hstep, hne⟩ := List.forall_mem_cons.mp hne
    rw [List.flatten_cons, List.map_append] at hnodup hids
    have hdisjoint := List.disjoint_of_nodup_append hnodup
    obtain ⟨log, p₁, hlog, hrun, hlogs, hvalid, htot, hlength, hrngs⟩ := recordPrefill_eq hstep
      hnodup.of_append_left fun id hid => hids id (List.mem_append_left _ hid)
    obtain ⟨p', hfold, hrecord⟩ := ih hne hnodup.of_append_right fun id hid =>
      hlength ▸ hids id (List.mem_append_right _ hid)
    -- A later step reads nothing that this one writes.
    have hsame : ∀ next ∈ steps, getPrefillStep p₁.inferProgress next =
        getPrefillStep p.inferProgress next := by
      intro next hnext
      refine getPrefillStep_congr fun id hid => ?_
      have hlater : id ∈ steps.flatten.map Prod.snd := by
        obtain ⟨seq, hseq, rfl⟩ := List.mem_map.mp hid
        exact List.mem_map_of_mem (List.mem_flatten.mpr ⟨next, hnext, hseq⟩)
      exact (hrngs id).trans (if_neg fun hid => hdisjoint hid hlater)
    obtain ⟨logs, hmap, hlogs', hvalid'⟩ := hrecord.logs
    refine ⟨p', ?_, ⟨log :: logs, ?_, ?_, ?_⟩, ?_, ?_, ?_, ?_⟩
    · rw [List.foldlM_cons, hrun]
      exact hfold
    · rw [List.mapM_cons, hlog, ← mapM_congr hsame, hmap]
      rfl
    · rw [hlogs', hlogs, List.append_assoc]
      rfl
    · rw [hvalid', hvalid, List.append_assoc]
      rfl
    · rw [hrecord.totIterNum, htot, List.length_cons]
      omega
    · exact hrecord.length_eq.trans hlength
    · intro k next hnext id hid
      cases k with
      | zero =>
        obtain rfl := Option.some.inj hnext
        rw [hrecord.others id (hdisjoint hid), hrngs, if_pos hid]
        rfl
      | succ k =>
        have hlater : id ∈ steps.flatten.map Prod.snd := by
          obtain ⟨seq, hseq, rfl⟩ := List.mem_map.mp hid
          exact List.mem_map_of_mem
            (List.mem_flatten.mpr ⟨next, List.mem_of_getElem? hnext, hseq⟩)
        rw [hrecord.recorded k next hnext id hid, hrngs, if_neg fun hid => hdisjoint hid hlater, htot,
          Nat.add_assoc, Nat.add_comm 1 k]
    · intro id hid
      rw [List.flatten_cons, List.map_append, List.mem_append, not_or] at hid
      rw [hrecord.others id hid.2, hrngs, if_neg hid.1]

/-- A request of a step attends one iteration more, that of its step. -/
theorem PrefillRecord.attends {p p' : Progress} {steps : List (List (Nat × Nat))}
    (h : PrefillRecord p p' steps) {k : Nat} {step : List (Nat × Nat)} (hstep : steps[k]? = some step)
    {id : Nat} (hid : id ∈ step.map Prod.snd) (hle : ∀ r ∈ p.rngs id, r.1 ≤ r.2) (i : Nat) :
    Attends (p'.rngs id) i ↔ Attends (p.rngs id) i ∨ i = p.totIterNum + k := by
  rw [h.recorded k step hstep id hid, attends_addRange hle le_rfl]
  refine or_congr_right ?_
  omega

/-- `update_prefill_logs` packs the prompts and records the steps. -/
theorem updatePrefillLogs_packed (maxNumBatchedTokens : Nat) {p : Progress}
    {prompts : List (Nat × Nat)} (hnodup : (prompts.map Prod.snd).Nodup)
    (hids : ∀ id ∈ prompts.map Prod.snd, id < p.inferProgress.length)
    (hfit : ∀ prompt ∈ prompts, prompt.1 ≤ maxNumBatchedTokens) :
    ∃ steps p', updatePrefillLogs maxNumBatchedTokens prompts p = some p' ∧
      Packed maxNumBatchedTokens prompts steps ∧ PrefillRecord p p' steps := by
  by_cases hne : prompts = []
  · subst hne
    have hnone : ∀ step ∈ ([] : List (List (Nat × Nat))), step ≠ [] :=
      fun _ h => absurd h List.not_mem_nil
    obtain ⟨p', hrun, hrecord⟩ := foldlM_recordPrefill hnone hnodup hids
    obtain rfl := Option.some.inj hrun
    refine ⟨[], p, rfl, ⟨rfl, hnone, ?_, List.isChain_nil⟩, hrecord⟩
    exact fun _ h => absurd h List.not_mem_nil
  · have hnext : [] ++ prompts ≠ [] := hne
    obtain ⟨hpacked, -⟩ := prefillSteps_packed hnext (Nat.zero_le _) hfit
    rw [List.nil_append] at hpacked
    obtain ⟨p', hrun, hrecord⟩ := foldlM_recordPrefill (p := p) hpacked.ne_nil
      (by rwa [hpacked.flatten]) (by rwa [hpacked.flatten])
    refine ⟨_, p', ?_, hpacked, hrecord⟩
    rw [updatePrefillLogs, if_neg hne, ← hrun]
    exact foldlM_batchPrompt_eq maxNumBatchedTokens prompts p []

/-! ## Prefill flags -/

/-- There is a flag for each iteration. -/
def Sched.Flagged (s : Sched) : Prop := s.isPrefillSteps.length = s.progress.totIterNum

theorem totIterNum_le_of_foldlM {steps : List (List (Nat × Nat))} {p p' : Progress}
    (h : steps.foldlM recordPrefill p = some p') : p.totIterNum ≤ p'.totIterNum := by
  refine foldlM_inv (P := fun q => p.totIterNum ≤ q.totIterNum) (fun step _ q q' hle hrun => ?_)
    le_rfl h
  obtain ⟨log, -, hrun⟩ := Option.bind_eq_some_iff.mp hrun
  obtain rfl := Option.some.inj hrun
  exact hle.trans (Nat.le_succ _)

theorem totIterNum_le_of_updatePrefillLogs {maxNumBatchedTokens : Nat} {prompts : List (Nat × Nat)}
    {p p' : Progress} (h : updatePrefillLogs maxNumBatchedTokens prompts p = some p') :
    p.totIterNum ≤ p'.totIterNum := by
  rw [updatePrefillLogs] at h
  split at h
  · obtain rfl := Option.some.inj h
    exact le_rfl
  · have hsteps : (prefillSteps maxNumBatchedTokens [] prompts).foldlM recordPrefill p = some p' := by
      rw [← foldlM_batchPrompt_eq]
      exact h
    exact totIterNum_le_of_foldlM hsteps

/-- Every step of a simulator adds a flag for each iteration it adds. -/
theorem flagged_preserved (cfg : Config) : Preserved cfg Sched.Flagged where
  receive := fun _ _ _ _ h => h
  finish := fun _ h => h
  start := fun _ _ _ _ h _ => h
  prefill := by
    intro s prompts progress h hrun
    have hle := totIterNum_le_of_updatePrefillLogs hrun
    show (s.isPrefillSteps ++ List.replicate _ true).length = progress.totIterNum
    rw [List.length_append, List.length_replicate, h]
    omega
  kill := by
    intro s s' h hkill
    obtain ⟨most, -, hkill⟩ := Option.bind_eq_some_iff.mp hkill
    obtain rfl := Option.some.inj hkill
    exact h
  decode := by
    intro s s' slot steps n h _ _ hdecode
    obtain ⟨most, -, hdecode⟩ := Option.bind_eq_some_iff.mp hdecode
    obtain rfl := Option.some.inj hdecode
    show (s.isPrefillSteps ++ List.replicate n false).length = s.progress.totIterNum + n
    rw [List.length_append, List.length_replicate, h]

/-- Prefill steps are packed greedily and recorded step by step: every prompt is in one step, in order,
every step fits and has no room for the next prompt, every step has one log, and its requests have its
iteration in their ranges. In the three simulators there is a flag for each iteration then. -/
theorem prefills_packed (cfg : ArrivalConfig) :
    (∀ (p : Progress) (prompts : List (Nat × Nat)), (prompts.map Prod.snd).Nodup →
      (∀ id ∈ prompts.map Prod.snd, id < p.inferProgress.length) →
      (∀ prompt ∈ prompts, 1 ≤ prompt.1 ∧ prompt.1 ≤ cfg.maxNumBatchedTokens) →
      ∃ steps p', updatePrefillLogs cfg.maxNumBatchedTokens prompts p = some p' ∧
        Packed cfg.maxNumBatchedTokens prompts steps ∧ PrefillRecord p p' steps ∧
        ∀ k step, steps[k]? = some step → ∀ id ∈ step.map Prod.snd,
          (∀ r ∈ p.rngs id, r.1 ≤ r.2) →
          ∀ i, Attends (p'.rngs id) i ↔ Attends (p.rngs id) i ∨ i = p.totIterNum + k) ∧
    (∀ inpLens outLens s s',
      Reached (·.unfinishedReqnum) (scheduleRound cfg.toConfig) (.init inpLens outLens) s →
      s.prefilled cfg.toConfig = some s' → s'.isPrefillSteps.length = s'.progress.totIterNum) ∧
    (∀ inpLens outLens arriveTimes a check more a',
      Reached (·.sched.unfinishedReqnum) (pipelineRound cfg)
        (.init inpLens outLens arriveTimes inpLens.length) a →
      arrivalPrefill cfg id more (a.afterCheck cfg check) = some a' →
      a'.sched.isPrefillSteps.length = a'.sched.progress.totIterNum) ∧
    (∀ first later a check slot more a',
      Reached (·.sched.unfinishedReqnum) (fusedRound cfg (reqNum (first :: later)))
        (.init first later) a →
      arrivalPrefill cfg slot more (a.afterCheck cfg check).toArriving = some a' →
      a'.sched.isPrefillSteps.length = a'.sched.progress.totIterNum) := by
  have hP := flagged_preserved cfg.toConfig
  refine ⟨fun p prompts hnodup hids hfit => ?_, ?_, ?_, ?_⟩
  · obtain ⟨steps, p', hrun, hpacked, hrecord⟩ :=
      updatePrefillLogs_packed cfg.maxNumBatchedTokens hnodup hids fun q hq => (hfit q hq).2
    exact ⟨steps, p', hrun, hpacked, hrecord, fun k step hstep id hid hle i =>
      hrecord.attends hstep hid hle i⟩
  · intro inpLens outLens s s' hreached hrun
    exact hP.prefilled (hP.reached_schedule rfl hreached) hrun
  · intro inpLens outLens arriveTimes a check more a' hreached hrun
    exact hP.arrivalPrefill (hP.afterCheck (hP.reached_pipeline rfl hreached) check) hrun
  · intro first later a check slot more a' hreached hrun
    exact hP.arrivalPrefill (hP.afterCheckFused (hP.reached_fused rfl hreached) check) hrun

theorem prefills_packed_three :
    ∃ steps p', updatePrefillLogs 10 [(3, 0), (4, 2), (5, 1)] ⟨[], [], [[], [(2, 6)], []], 7⟩ = some p' ∧
      Packed 10 [(3, 0), (4, 2), (5, 1)] steps := by
  obtain ⟨steps, p', hrun, hpacked, -⟩ :=
    (prefills_packed ⟨⟨4, 9, 10, 4, 0⟩, 1, false, fun _ => 0, fun _ => 0⟩).1
      ⟨[], [], [[], [(2, 6)], []], 7⟩ [(3, 0), (4, 2), (5, 1)] (by decide) (by decide) (by decide)
  exact ⟨steps, p', hrun, hpacked⟩

end Mil.Fcfs
