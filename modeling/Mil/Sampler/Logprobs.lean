import Mathlib.Algebra.Order.BigOperators.Group.List
import Mathlib.Data.List.Zip
import Mil.Lib.Batches
import Mil.Sampler.Batch

/-!
# The log probabilities of a group

`_get_logprobs` asks for the log probabilities of all groups at once and hands them out again, one
after the other. Each group gets those of its own rows (`getLogprobs_eq`); with more rows than
tokens nothing can be asked for (`getLogprobs_eq_none`).
-/

set_option autoImplicit false

namespace Mil.Sampler

open Mil.Lib Mil.Requests

variable {Logit : Type}

/-! ## One group -/

section Query

variable {isPrompt : Bool} {data : Nat → SequenceData Logit} {g : SeqGroup Logit}
  {result : SampleResult}

/-- The output of a group from the log probabilities of its prompt and of its sequences. -/
def groupLogprobs (isPrompt : Bool) (data : Nat → SequenceData Logit)
    (promptLogprobs seqLogprobs : List (List Logit)) (g : SeqGroup Logit) (result : SampleResult) :
    Option (SequenceGroupOutput Logit) := do
  let promptTokens := g.promptTokens isPrompt data
  let prompt ← (promptTokens.zip promptLogprobs).mapM fun (token, row) => row[token]?
  let samples ← (result.1.zip result.2).mapM fun (token, parent) => do
    let logprob ← seqLogprobs[parent]?.bind fun row => row[token]?
    let seqId ← g.seqIds[parent]?
    return ⟨seqId, token, [(token, logprob)]⟩
  return ⟨samples, if isPrompt && g.samplingParams.promptLogprobs.isSome then
    some (promptTokens.zip prompt) else none⟩

/-- `logprobs[row, token]` -/
def entry (logprobs : List (List Logit)) (p : Nat × Nat) : Option Logit :=
  logprobs[p.1]?.bind fun row => row[p.2]?

/-- The sample of a token with its log probability. -/
def sampleOutput (g : SeqGroup Logit) (p : (Nat × Nat) × Logit) :
    Option (SequenceOutput Logit) := do
  let seqId ← g.seqIds[p.1.2]?
  return ⟨seqId, p.1.1, [(p.1.1, p.2)]⟩

/-- Reading the entries of a block in their order. -/
theorem mapM_zipIdx_block {α γ : Type} (h : α × Logit → Option γ) (front block back : List Logit)
    {l : List α} (hlen : block.length = l.length) :
    ((l.zipIdx front.length).mapM fun p =>
        (front ++ (block ++ back))[p.2]?.bind fun x => h (p.1, x)) = (l.zip block).mapM h := by
  induction l generalizing front block with
  | nil => rfl
  | cons a l ih =>
    cases block with
    | nil => cases hlen
    | cons x block =>
      have hrest := ih (front ++ [x]) block (Nat.succ.inj hlen)
      rw [List.length_append, List.append_assoc] at hrest
      have hhead : (front ++ (x :: block ++ back))[front.length]? = some x := by
        rw [List.getElem?_append_right (Nat.le_refl _), Nat.sub_self]
        rfl
      rw [List.zipIdx_cons, List.mapM_cons, List.zip_cons_cons, List.mapM_cons, hhead]
      exact congrArg (fun rest => (h (a, x)).bind fun c => rest.bind fun cs => some (c :: cs)) hrest

/-- What a group makes of its own block of the answers. -/
theorem groupOutput_block (front prompt samples back : List Logit)
    (hprompt : prompt.length = (g.promptTokens isPrompt data).length)
    (hsamples : samples.length = (result.1.zip result.2).length) :
    groupOutput isPrompt data (front ++ (prompt ++ samples ++ back)) front.length g result =
      (((result.1.zip result.2).zip samples).mapM (sampleOutput g)).map fun outputs =>
        ⟨outputs, if isPrompt && g.samplingParams.promptLogprobs.isSome then
          some ((g.promptTokens isPrompt data).zip prompt) else none⟩ := by
  have hfirst : (((g.promptTokens isPrompt data).zipIdx front.length).mapM fun p =>
      (front ++ (prompt ++ (samples ++ back)))[p.2]?.map fun x => (p.1, x)) =
      some ((g.promptTokens isPrompt data).zip prompt) := by
    simp only [Option.map_eq_bind]
    refine (mapM_zipIdx_block (fun p => some p) front prompt _ hprompt).trans ?_
    exact (mapM_of_forall fun p _ => rfl).trans (congrArg some (List.map_id _))
  have hsecond := mapM_zipIdx_block (sampleOutput g) (front ++ prompt) samples back hsamples
  rw [List.length_append, hprompt, List.append_assoc] at hsecond
  unfold groupOutput
  rw [List.append_assoc]
  refine (congrArg (Option.bind · _) hfirst).trans ?_
  rw [Option.map_eq_bind]
  exact congrArg (Option.bind · _) hsecond

/-- What is asked for the prompt of a group. -/
theorem mapM_entry_prompt (front block back : List (List Logit)) {tokens : List Nat}
    (hlen : tokens.length = block.length) :
    (((List.range' front.length tokens.length).zip tokens).mapM
        (entry (front ++ (block ++ back)))) =
      (tokens.zip block).mapM fun p => p.2[p.1]? := by
  induction tokens generalizing front block with
  | nil => rfl
  | cons token tokens ih =>
    cases block with
    | nil => cases hlen
    | cons row block =>
      have hrest := ih (front ++ [row]) block (Nat.succ.inj hlen)
      rw [List.length_append, List.append_assoc] at hrest
      have hhead : entry (front ++ (row :: block ++ back)) (front.length, token) = row[token]? := by
        unfold entry
        rw [List.getElem?_append_right (Nat.le_refl _), Nat.sub_self]
        rfl
      rw [List.length_cons, List.range'_succ, List.zip_cons_cons, List.mapM_cons,
        List.zip_cons_cons, List.mapM_cons, hhead]
      exact congrArg (fun rest => row[token]?.bind fun x => rest.bind fun xs => some (x :: xs))
        hrest

/-- What is asked for the samples of a group. -/
theorem mapM_entry_samples (logprobs : List (List Logit)) (start : Nat)
    (tokens parents : List Nat) :
    (((parents.map (start + ·)).zip tokens).mapM (entry logprobs)) =
      (tokens.zip parents).mapM fun p => entry logprobs (start + p.2, p.1) := by
  rw [← List.zip_swap parents tokens, List.mapM_map, List.zip_map_left, List.mapM_map]
  rfl

/-- The rows and the tokens that are asked for a group. -/
def groupEntries (isPrompt : Bool) (data : Nat → SequenceData Logit) (sampleIdx : Nat)
    (g : SeqGroup Logit) (result : SampleResult) : List (Nat × Nat) :=
  (List.range' sampleIdx (g.promptRows isPrompt)).zip (g.promptTokens isPrompt data) ++
    (result.2.map (sampleIdx + g.promptRows isPrompt + ·)).zip result.1

theorem groupEntries_mapM (result : SampleResult) (front back : List (List Logit))
    {promptLogprobs seqLogprobs : List (List Logit)}
    (hfirst : promptLogprobs.length = g.promptRows isPrompt)
    (htokens : (g.promptTokens isPrompt data).length = g.promptRows isPrompt)
    (hsecond : seqLogprobs.length = g.seqIds.length) :
    match (groupEntries isPrompt data front.length g result).mapM
      (entry (front ++ (promptLogprobs ++ seqLogprobs ++ back))) with
    | none => groupLogprobs isPrompt data promptLogprobs seqLogprobs g result = none
    | some answers =>
      answers.length = (g.promptTokens isPrompt data).length + (result.1.zip result.2).length ∧
      ∀ before after,
        groupOutput isPrompt data (before ++ (answers ++ after)) before.length g result =
          groupLogprobs isPrompt data promptLogprobs seqLogprobs g result := by
  have hprompt := mapM_entry_prompt front promptLogprobs (seqLogprobs ++ back)
    (htokens.trans hfirst.symm)
  have hsamples : ((result.1.zip result.2).mapM fun p =>
      (entry (front ++ (promptLogprobs ++ (seqLogprobs ++ back)))
        (front.length + g.promptRows isPrompt + p.2, p.1)).bind fun x => sampleOutput g (p, x)) =
      (result.1.zip result.2).mapM fun p =>
        (seqLogprobs[p.2]?.bind fun row => row[p.1]?).bind fun x => sampleOutput g (p, x) := by
    refine mapM_congr fun p _ => ?_
    by_cases hp : p.2 < g.seqIds.length
    · unfold entry
      rw [← hfirst, ← List.length_append, ← List.append_assoc,
        List.getElem?_append_right (Nat.le_add_right _ _), Nat.add_sub_cancel_left,
        List.getElem?_append_left (hsecond.symm ▸ hp)]
    · -- a parent outside of the group raises in both
      have hnone : g.seqIds[p.2]? = none := List.getElem?_eq_none (Nat.not_lt.mp hp)
      have houtput : ∀ x : Logit, sampleOutput g (p, x) = none := fun x => by
        unfold sampleOutput
        rw [hnone]
        rfl
      simp only [houtput, Option.bind_fun_none]
  rw [← mapM_bind_zip] at hsamples
  rw [htokens] at hprompt
  unfold groupEntries
  rw [List.append_assoc, List.mapM_append, mapM_entry_samples, hprompt]
  have hgroup : groupLogprobs isPrompt data promptLogprobs seqLogprobs g result =
      (((g.promptTokens isPrompt data).zip promptLogprobs).mapM fun p => p.2[p.1]?).bind
        fun prompt => ((result.1.zip result.2).mapM fun p =>
          (seqLogprobs[p.2]?.bind fun row => row[p.1]?).bind fun x => sampleOutput g (p, x)).bind
        fun outputs => some ⟨outputs, if isPrompt && g.samplingParams.promptLogprobs.isSome then
          some ((g.promptTokens isPrompt data).zip prompt) else none⟩ := rfl
  rw [hgroup, ← hsamples]
  cases hp : ((g.promptTokens isPrompt data).zip promptLogprobs).mapM fun p => p.2[p.1]? with
  | none => rfl
  | some prompt =>
    cases hs : (result.1.zip result.2).mapM fun p =>
      entry (front ++ (promptLogprobs ++ (seqLogprobs ++ back)))
        (front.length + g.promptRows isPrompt + p.2, p.1) with
    | none => rfl
    | some samples =>
      have hplen : prompt.length = (g.promptTokens isPrompt data).length := by
        rw [length_of_mapM hp, List.length_zip, hfirst, htokens, Nat.min_self]
      have hslen := length_of_mapM hs
      refine ⟨?_, fun before after => ?_⟩
      · show (prompt ++ samples).length = _
        rw [List.length_append, hplen, hslen]
      · refine (groupOutput_block before prompt samples after hplen hslen).trans ?_
        rw [Option.map_eq_bind]
        rfl

end Query

/-! ## All groups -/

section Groups

variable {ι : Type} {isPrompt : Bool} {data : Nat → SequenceData Logit} {group : ι → SeqGroup Logit}
  {result : ι → SampleResult} {first second : ι → List (List Logit)} {items : List ι}

theorem logprobsQuery_eq
    (hfirst : ∀ i ∈ items, (first i).length = (group i).promptRows isPrompt)
    (htokens : ∀ i ∈ items,
      ((group i).promptTokens isPrompt data).length = (group i).promptRows isPrompt)
    (hsecond : ∀ i ∈ items, (second i).length = (group i).seqIds.length)
    (hresult : ∀ i ∈ items, (result i).1.length = (result i).2.length)
    (front : List (List Logit)) :
    ∃ rows tokens, logprobsQuery isPrompt data front.length (items.map group) (items.map result) =
        (rows, tokens, (front ++ items.flatMap fun i => first i ++ second i).length) ∧
      rows.length = tokens.length ∧
      ∀ before, (((rows.zip tokens).mapM
          (entry (front ++ items.flatMap fun i => first i ++ second i))).bind fun answers =>
            buildOutput isPrompt data (before ++ answers) before.length (items.map group)
              (items.map result)) =
        items.mapM fun i =>
          groupLogprobs isPrompt data (first i) (second i) (group i) (result i) := by
  induction items generalizing front with
  | nil =>
    refine ⟨[], [], ?_, rfl, fun before => rfl⟩
    rw [List.flatMap_nil, List.append_nil]
    rfl
  | cons i items ih =>
    obtain ⟨hfirst, hfirsts⟩ := List.forall_mem_cons.mp hfirst
    obtain ⟨htokens, htokenss⟩ := List.forall_mem_cons.mp htokens
    obtain ⟨hsecond, hseconds⟩ := List.forall_mem_cons.mp hsecond
    obtain ⟨hresult, hresults⟩ := List.forall_mem_cons.mp hresult
    obtain ⟨rows, tokens, hquery, hlen, hbuild⟩ := ih hfirsts htokenss hseconds hresults
      (front ++ (first i ++ second i))
    rw [List.append_assoc] at hquery hbuild
    rw [List.length_append, List.length_append, hfirst, hsecond, ← Nat.add_assoc] at hquery
    have hgroup := groupEntries_mapM (result i) front
      (items.flatMap fun i => first i ++ second i) hfirst htokens hsecond
    refine ⟨List.range' front.length ((group i).promptRows isPrompt) ++
        (result i).2.map (front.length + (group i).promptRows isPrompt + ·) ++ rows,
      (group i).promptTokens isPrompt data ++ (result i).1 ++ tokens, ?_, ?_, fun before => ?_⟩
    · rw [List.map_cons, List.map_cons, List.flatMap_cons]
      rw [logprobsQuery, hquery]
    · rw [List.length_append, List.length_append, List.length_append, List.length_append,
        List.length_range', List.length_map, htokens, hresult, hlen]
    · have hentries : (List.range' front.length ((group i).promptRows isPrompt) ++
          (result i).2.map (front.length + (group i).promptRows isPrompt + ·) ++ rows).zip
          ((group i).promptTokens isPrompt data ++ (result i).1 ++ tokens) =
          groupEntries isPrompt data front.length (group i) (result i) ++ rows.zip tokens := by
        rw [List.zip_append, List.zip_append]
        · rfl
        · rw [List.length_range', htokens]
        · rw [List.length_append, List.length_append, List.length_range', List.length_map, htokens,
            hresult]
      rw [hentries, List.mapM_append, List.flatMap_cons, List.mapM_cons]
      cases hanswers : (groupEntries isPrompt data front.length (group i) (result i)).mapM
        (entry (front ++ (first i ++ second i ++ items.flatMap fun i => first i ++ second i))) with
      | none =>
        -- the group raises on its own too
        rw [hanswers] at hgroup
        rw [show groupLogprobs _ _ _ _ _ _ = none from hgroup]
        rfl
      | some answers =>
        rw [hanswers] at hgroup
        obtain ⟨hcount, houtput⟩ := hgroup
        -- the other groups read their answers behind those of this one
        have hrest := hbuild (before ++ answers)
        rw [List.length_append, hcount, ← Nat.add_assoc] at hrest
        rw [← hrest]
        cases (rows.zip tokens).mapM (entry
          (front ++ (first i ++ second i ++ items.flatMap fun i => first i ++ second i))) with
        | none =>
          cases groupLogprobs isPrompt data (first i) (second i) (group i) (result i) <;> rfl
        | some others =>
          show buildOutput _ _ (before ++ (answers ++ others)) _ (_ :: _) (_ :: _) = _
          rw [buildOutput, houtput, ← List.append_assoc]
          rfl

/-- Each group gets the log probabilities of its own rows. -/
theorem getLogprobs_eq
    (hfirst : ∀ i ∈ items, (first i).length = (group i).promptRows isPrompt)
    (htokens : ∀ i ∈ items,
      ((group i).promptTokens isPrompt data).length = (group i).promptRows isPrompt)
    (hsecond : ∀ i ∈ items, (second i).length = (group i).seqIds.length)
    (hresult : ∀ i ∈ items, (result i).1.length = (result i).2.length) :
    getLogprobs isPrompt data (items.flatMap fun i => first i ++ second i) (items.map group)
        (items.map result) =
      items.mapM fun i =>
        groupLogprobs isPrompt data (first i) (second i) (group i) (result i) := by
  obtain ⟨rows, tokens, hquery, hlen, hbuild⟩ :=
    logprobsQuery_eq hfirst htokens hsecond hresult []
  unfold getLogprobs
  rw [show logprobsQuery isPrompt data 0 _ _ = _ from hquery]
  show (if _ = _ then _ else _) = _
  rw [List.nil_append, if_pos rfl]
  unfold indexPairs
  rw [if_pos hlen]
  exact hbuild []

theorem length_logprobsQuery (isPrompt : Bool) (data : Nat → SequenceData Logit)
    (group : ι → SeqGroup Logit) (result : ι → SampleResult) (items : List ι) (start : Nat) :
    let query := logprobsQuery isPrompt data start (items.map group) (items.map result)
    query.1.length =
        (items.map fun i => (group i).promptRows isPrompt + (result i).2.length).sum ∧
      query.2.1.length = (items.map fun i =>
        ((group i).promptTokens isPrompt data).length + (result i).1.length).sum := by
  induction items generalizing start with
  | nil => exact ⟨rfl, rfl⟩
  | cons i items ih =>
    obtain ⟨hrows, htokens⟩ := ih
      (start + (group i).promptRows isPrompt + (group i).seqIds.length)
    rw [List.map_cons, List.map_cons, logprobsQuery, List.map_cons, List.sum_cons, List.map_cons,
      List.sum_cons, ← hrows, ← htokens]
    refine ⟨?_, ?_⟩
    · rw [List.length_append, List.length_append, List.length_range', List.length_map]
    · rw [List.length_append, List.length_append]

/-- With more rows than tokens nothing can be asked for. -/
theorem getLogprobs_eq_none
    (hle : ∀ i ∈ items,
      ((group i).promptTokens isPrompt data).length ≤ (group i).promptRows isPrompt)
    (hresult : ∀ i ∈ items, (result i).1.length = (result i).2.length) {i : ι} (hi : i ∈ items)
    (hlt : ((group i).promptTokens isPrompt data).length < (group i).promptRows isPrompt)
    (htwo : 2 ≤ ((group i).promptTokens isPrompt data).length + (result i).1.length)
    (logprobs : List (List Logit)) :
    getLogprobs isPrompt data logprobs (items.map group) (items.map result) = none := by
  obtain ⟨hrows, htokens⟩ := length_logprobsQuery isPrompt data group result items 0
  rcases hanswer : logprobsQuery isPrompt data 0 (items.map group) (items.map result) with
    ⟨rows, tokens, count⟩
  rw [hanswer] at hrows htokens
  have hmore : tokens.length < rows.length := by
    rw [hrows, htokens]
    refine List.sum_lt_sum _ _ (fun j hj => ?_) ⟨i, hi, ?_⟩
    · rw [hresult j hj]
      exact Nat.add_le_add_right (hle j hj) _
    · rw [hresult i hi]
      exact Nat.add_lt_add_right hlt _
  have htokens' : 2 ≤ tokens.length := by
    rw [htokens]
    exact htwo.trans (List.le_sum_of_mem (List.mem_map_of_mem (f := fun i =>
      ((group i).promptTokens isPrompt data).length + (result i).1.length) hi))
  -- the lengths differ, and neither index can be broadcast
  have hquery : indexPairs logprobs rows tokens = none := by
    unfold indexPairs
    rw [if_neg (Nat.ne_of_gt hmore), if_neg (Nat.ne_of_gt htokens'),
      if_neg (Nat.ne_of_gt (htokens'.trans hmore.le))]
  unfold getLogprobs
  rw [hanswer]
  show (if _ = _ then (indexPairs logprobs rows tokens).bind _ else none) = none
  rw [hquery]
  exact ite_self none

end Groups

end Mil.Sampler
