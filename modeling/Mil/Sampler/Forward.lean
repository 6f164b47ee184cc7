import Mathlib.Data.List.Zip
import Mil.Sampler.Logprobs
import Mil.Sampler.Results

/-!
# A batch is sampled group by group

The sampler gives each group of a batch what it gets from its own part (`forward_eq_groups`), and
reads nothing beside the positions that are asked for (`forward_congr`). There is one more
exception: for a prompt that is computed again after a preemption there are more rows than tokens
are asked for, and the batch raises (`forward_recomputed`).
-/

set_option autoImplicit false

namespace Mil.Sampler

open Mil.Lib Mil.Requests

variable {Hidden Logit : Type}

/-! ## The batch -/

section Batch

variable {ops : Ops Hidden Logit} {isPrompt : Bool} {flags : Flags}
  {data : Nat → SequenceData Logit} {parts : List (Part Hidden Logit)}

/-- The output of a part from its own rows. -/
def Part.output (ops : Ops Hidden Logit) (isPrompt : Bool) (flags : Flags)
    (data : Nat → SequenceData Logit) (p : Part Hidden Logit) (result : SampleResult) :
    Option (SequenceGroupOutput Logit) :=
  groupLogprobs isPrompt data ((p.promptLogits ops isPrompt flags).map ops.logSoftmax)
    ((p.seqLogits ops isPrompt flags data).map ops.logSoftmax) p.group result

theorem length_topkIds {k : Nat} {row : List Logit} {ids : List Nat}
    (h : ops.topkIds k row = some ids) : ids.length = k := by
  unfold Ops.topkIds at h
  split at h
  case isTrue hle =>
    obtain rfl := Option.some.inj h
    exact ops.topk_length k row hle
  case isFalse => cases h

/-- Every token has a parent, and a prompt gets at least one. -/
theorem length_result (h : Shaped isPrompt ops.vocabSize data parts) {p : Part Hidden Logit}
    (hp : p ∈ parts) {start : Nat} {result : SampleResult}
    (hrun : p.result ops isPrompt flags data start = some result) :
    result.1.length = result.2.length ∧
      (isPrompt = true → 0 < p.group.samplingParams.bestOf → 0 < result.1.length) := by
  unfold Part.result at hrun
  cases ht : p.group.samplingParams.samplingType with
  | greedy =>
    rw [ht] at hrun
    simp only [greedyOne] at hrun
    split at hrun
    case isTrue hone =>
      obtain ⟨token, -, rfl⟩ := Option.map_eq_some_iff.mp hrun
      rw [List.length_range, hone, List.length_singleton]
      exact ⟨rfl, fun _ _ => Nat.zero_lt_one⟩
    case isFalse => cases hrun
  | random =>
    rw [ht] at hrun
    cases isPrompt with
    | true =>
      simp only [randomOne, draws, List.getElem?_map, if_pos] at hrun
      obtain ⟨row, hrow, rfl⟩ := Option.map_eq_some_iff.mp hrun
      obtain ⟨q, -, rfl⟩ := Option.map_eq_some_iff.mp hrow
      rw [List.length_take, List.length_map, List.length_range, List.length_replicate,
        Nat.min_self]
      exact ⟨rfl, fun _ hbest => hbest⟩
    | false =>
      simp only [randomOne, Bool.false_eq_true, if_neg, not_false_eq_true] at hrun
      obtain ⟨tokens, htokens, rfl⟩ := Option.map_eq_some_iff.mp hrun
      rw [length_of_mapM htokens, List.length_range, List.drop_zero, List.length_take, draws,
        List.length_map, List.length_zipIdx, List.length_map, length_seqLogits flags h hp,
        Nat.min_self]
      exact ⟨rfl, fun hprompt => absurd hprompt Bool.false_ne_true⟩
  | beam =>
    rw [ht] at hrun
    cases isPrompt with
    | true =>
      simp only [beamOne, if_pos] at hrun
      split at hrun
      case isTrue =>
        obtain ⟨ids, hids, rfl⟩ := Option.map_eq_some_iff.mp hrun
        obtain ⟨row, -, hids⟩ := Option.bind_eq_some_iff.mp hids
        rw [length_topkIds hids, List.length_replicate]
        exact ⟨rfl, fun _ hbest => Nat.mul_pos Nat.zero_lt_two hbest⟩
      case isFalse => cases hrun
    | false =>
      simp only [beamOne, Bool.false_eq_true, if_neg, not_false_eq_true] at hrun
      obtain ⟨ids, -, rfl⟩ := Option.map_eq_some_iff.mp hrun
      rw [List.length_map, List.length_map]
      exact ⟨rfl, fun hprompt => absurd hprompt Bool.false_ne_true⟩

/-- A prompt that is computed again after a preemption, with its output, and whose log probabilities
are asked for. -/
def Part.recomputed (isPrompt : Bool) (data : Nat → SequenceData Logit) (p : Part Hidden Logit) :
    Bool :=
  isPrompt && p.group.samplingParams.promptLogprobs.isSome &&
    p.group.seqIds.any fun id => !(data id).outputTokenIds.isEmpty

/-- The tokens of a prompt that are asked for; there is a row for each output too. -/
theorem length_promptTokens (h : Shaped isPrompt ops.vocabSize data parts)
    {p : Part Hidden Logit} (hp : p ∈ parts) :
    (p.group.promptTokens isPrompt data).length ≤ p.group.promptRows isPrompt ∧
      (p.recomputed isPrompt data = false →
        (p.group.promptTokens isPrompt data).length = p.group.promptRows isPrompt) := by
  unfold SeqGroup.promptTokens SeqGroup.promptRows Part.recomputed
  split
  case isTrue hasked =>
    obtain ⟨hprompt, hsome⟩ := Bool.and_eq_true_iff.mp hasked
    cases hids : p.group.seqIds with
    | nil =>
      have hpos := h.pos p hp
      rw [hids] at hpos
      exact absurd hpos (Nat.lt_irrefl 0)
    | cons id ids =>
      have hlen := h.promptLen hprompt p hp id (hids ▸ .head _)
      show ((data id).promptTokenIds.tail).length ≤ _ ∧
        (_ → ((data id).promptTokenIds.tail).length = _)
      rw [List.length_tail, hlen, hprompt, hsome]
      refine ⟨by omega, fun hnew => ?_⟩
      have hempty : (data id).outputTokenIds = [] := by
        have hhead := List.any_eq_false.mp hnew id (.head _)
        simpa using hhead
      rw [hempty, List.length_nil, Nat.add_zero]
  case isFalse => exact ⟨Nat.le_refl _, fun _ => rfl⟩

/-- What `_prepare_sample` picks of a batch. -/
theorem prepareSample_eq (h : Shaped isPrompt ops.vocabSize data parts) (padding : List Hidden) :
    ∃ prepared, prepareSample isPrompt (parts.map Part.group) = some prepared ∧
      gather prepared.selectedTokenIndices (parts.flatMap Part.hidden ++ padding) =
        some (parts.flatMap fun p => p.promptHidden isPrompt ++ p.lastHidden isPrompt) ∧
      ∀ t, prepared.categorizedSampleIndices t =
        categorizedRows isPrompt t 0 (parts.map Part.group) := by
  have hone : isPrompt = true → ∀ g ∈ parts.map Part.group, g.seqIds.length = 1 := by
    intro hprompt g hg
    obtain ⟨p, hp, rfl⟩ := List.mem_map.mp hg
    exact (h.prompt hprompt p hp).1
  obtain ⟨prepared, hrun, hselected, hindices⟩ := foldlM_prepareGroup
    (((parts.map Part.group).map SeqGroup.promptLen).foldl max 0) hone ⟨[], 0, fun _ => [], 0⟩
  refine ⟨prepared, hrun, ?_, hindices⟩
  rw [hselected, List.map_map]
  exact gather_picked (fun p hp => h.fits hp) [] padding

/-- The logits of a batch before the penalties. -/
theorem processedLogits_eq (h : Shaped isPrompt ops.vocabSize data parts) :
    applyLogitsProcessors data (parts.map Part.group)
        ((parts.flatMap fun p => p.promptHidden isPrompt ++ p.lastHidden isPrompt).map
          ops.logits) =
      if misaligned isPrompt (parts.map Part.group) then none
      else some (parts.flatMap fun p => (p.promptHidden isPrompt).map ops.logits ++
        processRows data p.group ((p.lastHidden isPrompt).map ops.logits)) := by
  have hfirst : ∀ p ∈ parts, ((p.promptHidden isPrompt).map ops.logits).length =
      p.group.promptRows isPrompt := fun p hp =>
    (List.length_map _).trans (h.fits hp).length_promptHidden
  have hsecond : ∀ p ∈ parts, ((p.lastHidden isPrompt).map ops.logits).length =
      p.group.seqIds.length := fun p hp =>
    (List.length_map _).trans (h.fits hp).length_lastHidden
  rw [← applyLogitsProcessors_eq hfirst hsecond, List.map_flatMap]
  simp only [List.map_append]

/-- The parts of a batch with their results. -/
theorem zip_results {results : List SampleResult}
    (hresults : ((withNoise 0 parts).mapM fun i => i.2.result ops isPrompt flags data i.1) =
      some results) :
    let items := (withNoise 0 parts).zip results
    items.map (fun p => p.1.2) = parts ∧ items.map (fun p => p.1.2.group) = parts.map Part.group ∧
      items.map Prod.snd = results ∧
      ∀ p ∈ items, p.1.2 ∈ parts ∧ p.1.2.result ops isPrompt flags data p.1.1 = some p.2 := by
  intro items
  have hlen := length_of_mapM hresults
  have hparts : items.map (fun p => p.1.2) = parts := by
    conv_rhs => rw [← map_snd_withNoise 0 parts, ← List.map_fst_zip (Nat.le_of_eq hlen.symm),
      List.map_map]
    rfl
  refine ⟨hparts, ?_, List.map_snd_zip (Nat.le_of_eq hlen), fun p hp => ⟨?_, ?_⟩⟩
  · conv_rhs => rw [← hparts, List.map_map]
    rfl
  · rw [← hparts]
    exact List.mem_map_of_mem hp
  · exact List.forall₂_zip (forall₂_of_mapM hresults) hp

/-- What the groups of a batch are given for their results. -/
theorem outputs_eq (h : Shaped isPrompt ops.vocabSize data parts)
    (hnew : ∀ p ∈ parts, p.recomputed isPrompt data = false) {results : List SampleResult}
    (hresults : ((withNoise 0 parts).mapM fun i => i.2.result ops isPrompt flags data i.1) =
      some results) :
    getLogprobs isPrompt data ((parts.flatMap fun p => p.promptLogits ops isPrompt flags ++
        p.seqLogits ops isPrompt flags data).map ops.logSoftmax) (parts.map Part.group) results =
      ((withNoise 0 parts).zip results).mapM fun p =>
        p.1.2.output ops isPrompt flags data p.2 := by
  obtain ⟨hparts, hgroups, hsnd, hmem⟩ := zip_results hresults
  have hall : getLogprobs isPrompt data
      (((withNoise 0 parts).zip results).flatMap fun p =>
        (p.1.2.promptLogits ops isPrompt flags).map ops.logSoftmax ++
          (p.1.2.seqLogits ops isPrompt flags data).map ops.logSoftmax)
      (((withNoise 0 parts).zip results).map fun p => p.1.2.group)
      (((withNoise 0 parts).zip results).map Prod.snd) =
      ((withNoise 0 parts).zip results).mapM fun p =>
        p.1.2.output ops isPrompt flags data p.2 := getLogprobs_eq
    (fun p hp => (List.length_map _).trans (length_promptLogits flags h (hmem p hp).1))
    (fun p hp => (length_promptTokens h (hmem p hp).1).2 (hnew _ (hmem p hp).1))
    (fun p hp => (List.length_map _).trans (length_seqLogits flags h (hmem p hp).1))
    (fun p hp => (length_result h (hmem p hp).1 (hmem p hp).2).1)
  have hrows : (((withNoise 0 parts).zip results).flatMap fun p =>
      (p.1.2.promptLogits ops isPrompt flags).map ops.logSoftmax ++
        (p.1.2.seqLogits ops isPrompt flags data).map ops.logSoftmax) =
      (parts.flatMap fun p => p.promptLogits ops isPrompt flags ++
        p.seqLogits ops isPrompt flags data).map ops.logSoftmax := by
    conv_rhs => rw [← hparts, List.flatMap_map, List.map_flatMap]
    simp only [List.map_append]
  rw [hgroups, hrows, hsnd] at hall
  exact hall

/-- The sampler up to the log probabilities: each group has its own results. -/
theorem forward_eq_results (h : Shaped isPrompt ops.vocabSize data parts)
    (padding : List Hidden) :
    forward ops isPrompt data (parts.map Part.group) (parts.flatMap Part.hidden ++ padding) =
      if misaligned isPrompt (parts.map Part.group) then none
      else
        let flags := batchFlags ops.vocabSize (parts.map Part.group)
        Option.bind ((withNoise 0 parts).mapM fun i => i.2.result ops isPrompt flags data i.1)
          (getLogprobs isPrompt data ((parts.flatMap fun p => p.promptLogits ops isPrompt flags ++
            p.seqLogits ops isPrompt flags data).map ops.logSoftmax) (parts.map Part.group)) := by
  obtain ⟨prepared, hprepare, hgather, hindices⟩ := prepareSample_eq h padding
  have hlogits := processedLogits_eq h
  unfold forward
  rw [hprepare]
  show (gather _ _).bind _ = _
  rw [hgather]
  show (applyLogitsProcessors _ _ _).bind _ = _
  rw [hlogits]
  cases misaligned isPrompt (parts.map Part.group) with
  | true => rfl
  | false =>
    let flags := batchFlags ops.vocabSize (parts.map Part.group)
    obtain ⟨penalised, hpenalised, hscaled⟩ :=
      Option.map_eq_some_iff.mp (batchLogits_eq flags h)
    show (applyBatchPenalties _ _ _ _).bind _ = _
    rw [hpenalised]
    show (sample _ _ _ _ (List.zipWith _ _ _) _).bind _ = Option.bind _ _
    rw [hscaled, sample_eq h hindices]

/-- Two parts of which the same positions are read. -/
structure Part.Alike (isPrompt : Bool) (p p' : Part Hidden Logit) : Prop where
  group : p.group = p'.group
  promptHidden : p.promptHidden isPrompt = p'.promptHidden isPrompt
  lastHidden : p.lastHidden isPrompt = p'.lastHidden isPrompt

namespace Part.Alike

variable {p p' : Part Hidden Logit}

theorem promptLogits (h : p.Alike isPrompt p') :
    p.promptLogits ops isPrompt flags = p'.promptLogits ops isPrompt flags := by
  unfold Part.promptLogits
  rw [h.group, h.promptHidden]

theorem seqLogits (h : p.Alike isPrompt p') :
    p.seqLogits ops isPrompt flags data = p'.seqLogits ops isPrompt flags data := by
  unfold Part.seqLogits
  rw [h.group, h.lastHidden]

theorem result (h : p.Alike isPrompt p') (start : Nat) :
    p.result ops isPrompt flags data start = p'.result ops isPrompt flags data start := by
  unfold Part.result
  rw [h.seqLogits, h.group]

end Part.Alike

/-- The padding and the positions that are not asked for do not matter. -/
theorem forward_congr {parts' : List (Part Hidden Logit)}
    (h : Shaped isPrompt ops.vocabSize data parts) (h' : Shaped isPrompt ops.vocabSize data parts')
    (halike : List.Forall₂ (Part.Alike isPrompt) parts parts') (padding padding' : List Hidden) :
    forward ops isPrompt data (parts.map Part.group) (parts.flatMap Part.hidden ++ padding) =
      forward ops isPrompt data (parts'.map Part.group)
        (parts'.flatMap Part.hidden ++ padding') := by
  rw [forward_eq_results h, forward_eq_results h']
  clear h h'
  have hgroups : parts.map Part.group = parts'.map Part.group := by
    induction halike with
    | nil => rfl
    | cons hp _ ih => rw [List.map_cons, List.map_cons, hp.group, ih]
  have hlogits : ∀ flags : Flags, (parts.flatMap fun p =>
      p.promptLogits ops isPrompt flags ++ p.seqLogits ops isPrompt flags data) =
      parts'.flatMap fun p =>
        p.promptLogits ops isPrompt flags ++ p.seqLogits ops isPrompt flags data := by
    intro flags
    clear hgroups
    induction halike with
    | nil => rfl
    | cons hp _ ih => rw [List.flatMap_cons, List.flatMap_cons, hp.promptLogits, hp.seqLogits, ih]
  have hresults : ∀ (flags : Flags) (start : Nat),
      ((withNoise start parts).mapM fun i => i.2.result ops isPrompt flags data i.1) =
        (withNoise start parts').mapM fun i => i.2.result ops isPrompt flags data i.1 := by
    intro flags
    clear hgroups hlogits
    induction halike with
    | nil => exact fun _ => rfl
    | cons hp _ ih =>
      intro start
      rw [withNoise, withNoise, List.mapM_cons, List.mapM_cons, hp.result, ih, hp.group]
  simp only [hgroups, hlogits, hresults]

/-- The sampler gives each group of a batch what it gets from its own part, with the flags of the
batch and the noise of its rows. -/
theorem forward_eq_groups (h : Shaped isPrompt ops.vocabSize data parts)
    (hnew : ∀ p ∈ parts, p.recomputed isPrompt data = false) (padding : List Hidden) :
    forward ops isPrompt data (parts.map Part.group) (parts.flatMap Part.hidden ++ padding) =
      if misaligned isPrompt (parts.map Part.group) then none
      else
        let flags := batchFlags ops.vocabSize (parts.map Part.group)
        (withNoise 0 parts).mapM fun i =>
          (i.2.result ops isPrompt flags data i.1).bind (i.2.output ops isPrompt flags data) := by
  rw [forward_eq_results h]
  cases misaligned isPrompt (parts.map Part.group) with
  | true => rfl
  | false =>
    let flags := batchFlags ops.vocabSize (parts.map Part.group)
    refine Eq.trans ?_ (mapM_bind_zip (fun i => i.2.result ops isPrompt flags data i.1)
      (fun p => p.1.2.output ops isPrompt flags data p.2) (withNoise 0 parts))
    show Option.bind _ _ = Option.bind _ _
    cases hresults : (withNoise 0 parts).mapM fun i => i.2.result ops isPrompt flags data i.1 with
    | none => rfl
    | some results => exact outputs_eq h hnew hresults

theorem Part.recomputed_lt (h : Shaped isPrompt ops.vocabSize data parts) {p : Part Hidden Logit}
    (hp : p ∈ parts) (hrec : p.recomputed isPrompt data = true)
    (hlen : ∀ id ∈ p.group.seqIds, 2 ≤ (data id).promptTokenIds.length) :
    1 ≤ (p.group.promptTokens isPrompt data).length ∧
      (p.group.promptTokens isPrompt data).length < p.group.promptRows isPrompt := by
  obtain ⟨hasked, hid⟩ := Bool.and_eq_true_iff.mp hrec
  obtain ⟨hprompt, -⟩ := Bool.and_eq_true_iff.mp hasked
  obtain ⟨id, hid, houtput⟩ := List.any_eq_true.mp hid
  obtain ⟨id', hids⟩ := List.length_eq_one_iff.mp (h.prompt hprompt p hp).1
  rw [hids] at hid
  obtain rfl := List.mem_singleton.mp hid
  have hmem : id ∈ p.group.seqIds := hids ▸ .head _
  have hpromptLen := h.promptLen hprompt p hp id hmem
  have htwo := hlen id hmem
  have hpos : 0 < (data id).outputTokenIds.length := by
    apply List.length_pos_iff.mpr
    intro hnil
    rw [hnil] at houtput
    cases houtput
  unfold SeqGroup.promptTokens SeqGroup.promptRows
  rw [if_pos hasked, if_pos hasked, hids]
  show 1 ≤ ((data id).promptTokenIds.tail).length ∧ ((data id).promptTokenIds.tail).length < _
  rw [List.length_tail, hpromptLen]
  omega

/-- A batch with a prompt that is computed again raises: a row is asked for each token that was
generated before, and there is no token for it. -/
theorem forward_recomputed (h : Shaped true ops.vocabSize data parts) {p : Part Hidden Logit}
    (hp : p ∈ parts) (hrec : p.recomputed true data = true)
    (hlen : ∀ id ∈ p.group.seqIds, 2 ≤ (data id).promptTokenIds.length)
    (hbest : 0 < p.group.samplingParams.bestOf) (padding : List Hidden) :
    forward ops true data (parts.map Part.group) (parts.flatMap Part.hidden ++ padding) = none := by
  rw [forward_eq_results h]
  cases misaligned true (parts.map Part.group) with
  | true => rfl
  | false =>
    let flags := batchFlags ops.vocabSize (parts.map Part.group)
    show Option.bind _ _ = none
    cases hresults : (withNoise 0 parts).mapM fun i => i.2.result ops true flags data i.1 with
    | none => rfl
    | some results =>
      obtain ⟨hparts, hgroups, hsnd, hmem⟩ := zip_results hresults
      rw [← hparts] at hp
      obtain ⟨i, hi, rfl⟩ := List.mem_map.mp hp
      obtain ⟨hone, hlt⟩ := Part.recomputed_lt h (hmem i hi).1 hrec hlen
      have hnone := getLogprobs_eq_none
        (fun j hj => (length_promptTokens h (hmem j hj).1).1)
        (fun j hj => (length_result h (hmem j hj).1 (hmem j hj).2).1) hi hlt
        (Nat.add_le_add hone ((length_result h (hmem i hi).1 (hmem i hi).2).2 rfl hbest))
      rw [hgroups, hsnd] at hnone
      exact hnone _

end Batch

/-! ## A batch with three types -/

/-- The operations on rows of four equal logits. -/
def equalOps : Ops (List Rat) Rat where
  vocabSize := 4
  floats := rationals
  logits := id
  applyTopKTopP := fun _ _ row => row
  applyMinP := fun _ row => row
  softmax := fun row => row.map fun _ => 1 / row.length
  logSoftmax := fun row => row.map fun _ => -1386 / 1000
  argmax := fun _ => 0
  draw := fun i j _ => (i + j) % 4
  topk := fun k row => (List.range row.length).take k
  topk_length := fun k row h => by rw [List.length_take, List.length_range, Nat.min_eq_left h]

def plainParams : SamplingParams Rat where
  bestOf := 1
  useBeamSearch := false
  temperature := 1
  topP := 1
  topK := -1
  minP := 0
  presencePenalty := 0
  frequencyPenalty := 0
  repetitionPenalty := 1
  promptLogprobs := none
  logitsProcessors := []

/-- A group that is asked for the log probabilities of its prompt, a greedy one and a beam. -/
def threeParts : List (Part (List Rat) Rat) :=
  [⟨⟨[0], { plainParams with bestOf := 2, promptLogprobs := some 0 }, 3⟩,
      List.replicate 3 [0, 0, 0, 0]⟩,
    ⟨⟨[1], { plainParams with temperature := 0 }, 1⟩, List.replicate 3 [0, 0, 0, 0]⟩,
    ⟨⟨[2], { plainParams with bestOf := 2, useBeamSearch := true }, 2⟩,
      List.replicate 3 [0, 0, 0, 0]⟩]

def threeData (seqId : Nat) : SequenceData Rat :=
  ⟨[[0, 3, 1], [2], [1, 1]].getD seqId [], [], 0⟩

theorem shaped_threeParts : Shaped true 4 threeData threeParts where
  pos := by decide
  prompt := fun _ => by decide
  decode := fun h => by cases h
  promptLen := fun _ => by decide
  tokens := by decide

theorem forward_eq_groups_threeParts :
    forward equalOps true threeData (threeParts.map Part.group)
        (threeParts.flatMap Part.hidden ++ [[0, 0, 0, 0]]) =
      if misaligned true (threeParts.map Part.group) then none
      else
        let flags := batchFlags 4 (threeParts.map Part.group)
        (withNoise 0 threeParts).mapM fun i =>
          (i.2.result equalOps true flags threeData i.1).bind
            (i.2.output equalOps true flags threeData) :=
  forward_eq_groups shaped_threeParts (by decide) [[0, 0, 0, 0]]

/-- `threeParts` with other states where nothing is read. -/
def otherParts : List (Part (List Rat) Rat) :=
  [⟨⟨[0], { plainParams with bestOf := 2, promptLogprobs := some 0 }, 3⟩,
      List.replicate 3 [0, 0, 0, 0]⟩,
    ⟨⟨[1], { plainParams with temperature := 0 }, 1⟩, [[0, 0, 0, 0], [1, 2, 3, 4], [5, 6, 7, 8]]⟩,
    ⟨⟨[2], { plainParams with bestOf := 2, useBeamSearch := true }, 2⟩,
      [[9, 9, 9, 9], [0, 0, 0, 0], [5, 6, 7, 8]]⟩]

theorem shaped_otherParts : Shaped true 4 threeData otherParts where
  pos := by decide
  prompt := fun _ => by decide
  decode := fun h => by cases h
  promptLen := fun _ => by decide
  tokens := by decide

theorem forward_congr_otherParts :
    forward equalOps true threeData (threeParts.map Part.group)
        (threeParts.flatMap Part.hidden ++ []) =
      forward equalOps true threeData (otherParts.map Part.group)
        (otherParts.flatMap Part.hidden ++ [[7, 7, 7, 7]]) := by
  have halike : List.Forall₂ (Part.Alike true) threeParts otherParts :=
    .cons ⟨rfl, rfl, rfl⟩ (.cons ⟨rfl, rfl, rfl⟩ (.cons ⟨rfl, rfl, rfl⟩ .nil))
  exact forward_congr shaped_threeParts shaped_otherParts halike [] [[7, 7, 7, 7]]

/-! ## A prompt that is computed again -/

/-- The first group is computed again, with the token that it had generated. -/
def againParts : List (Part (List Rat) Rat) :=
  [⟨⟨[0], { plainParams with promptLogprobs := some 0 }, 4⟩, List.replicate 4 [0, 0, 0, 0]⟩,
    ⟨⟨[1], plainParams, 1⟩, List.replicate 4 [0, 0, 0, 0]⟩]

def againData (seqId : Nat) : SequenceData Rat :=
  ⟨[[0, 3, 1], [2]].getD seqId [], [[2]].getD seqId [], 0⟩

theorem shaped_againParts : Shaped true 4 againData againParts where
  pos := by decide
  prompt := fun _ => by decide
  decode := fun h => by cases h
  promptLen := fun _ => by decide
  tokens := by decide

theorem forward_recomputed_againParts :
    forward equalOps true againData (againParts.map Part.group)
      (againParts.flatMap Part.hidden ++ []) = none :=
  forward_recomputed shaped_againParts (.head _) (by decide) (by decide) (by decide) []

/-- With one token in the prompt the log probability of a wrong row is returned. -/
example : (forward { equalOps with logSoftmax := id } true (fun _ => ⟨[1], [0], 0⟩)
      [⟨[0], { plainParams with temperature := 0, promptLogprobs := some 0 }, 2⟩]
      [[5, 0, 0, 0], [8, 0, 0, 0]]).map
        (fun output => output.map fun o => o.samples.map SequenceOutput.logprobs) =
    some [[[(0, 5)]]] := by
  decide +kernel

end Mil.Sampler
