import Mil.Lib.Batches
import Mil.Lib.FoldM
import Mil.Sampler.Batch

/-!
# The logits of a batch

The rows that are picked of a batch are those of its parts, one after the other (`gather_picked`),
and what is done to their logits is done to each part alone (`batchLogits_eq`), with the flags of
the batch. One thing goes wrong: `_apply_logits_processors` does not count the rows of the prompts, so a
batch in which prompt log probabilities and logits processors meet raises (`misaligned`).
-/

set_option autoImplicit false

namespace Mil.Sampler

open Mil.Lib Mil.Requests

variable {Hidden Logit : Type}

/-! ## The parts of a batch -/

/-- A group with the hidden states of its sequences, padded for prompts. -/
structure Part (Hidden Logit : Type) where
  group : SeqGroup Logit
  hidden : List Hidden

namespace Part

/-- The positions of the prompt that are picked beside the last one. -/
def promptHidden (isPrompt : Bool) (p : Part Hidden Logit) : List Hidden :=
  p.hidden.take (p.group.promptRows isPrompt)

/-- The last positions of the sequences. -/
def lastHidden (isPrompt : Bool) (p : Part Hidden Logit) : List Hidden :=
  if isPrompt then (p.hidden.drop (p.group.promptLen - 1)).take 1 else p.hidden

end Part

/-- A batch that the model runner makes: a prompt group has one sequence, with all of its tokens and
padded to the longest one; in the other batches there is one position for each sequence. No token is
above the vocabulary. -/
structure Shaped {Logprob : Type} (isPrompt : Bool) (vocabSize : Nat)
    (data : Nat → SequenceData Logprob) (parts : List (Part Hidden Logit)) : Prop where
  pos : ∀ p ∈ parts, 0 < p.group.seqIds.length
  prompt : isPrompt = true → ∀ p ∈ parts, p.group.seqIds.length = 1 ∧ 0 < p.group.promptLen ∧
    p.hidden.length = (parts.map fun p => p.group.promptLen).foldl max 0
  decode : isPrompt = false → ∀ p ∈ parts, p.hidden.length = p.group.seqIds.length
  promptLen : isPrompt = true → ∀ p ∈ parts, ∀ id ∈ p.group.seqIds,
    p.group.promptLen = (data id).promptTokenIds.length + (data id).outputTokenIds.length
  tokens : ∀ p ∈ parts, ∀ id ∈ p.group.seqIds,
    (∀ t ∈ (data id).promptTokenIds, t ≤ vocabSize) ∧
      ∀ t ∈ (data id).outputTokenIds, t ≤ vocabSize

/-! ## The rows that are picked -/

section Picked

variable {Logprob : Type} {isPrompt : Bool} {vocabSize maxLen : Nat}
  {data : Nat → SequenceData Logprob} {parts : List (Part Hidden Logit)}

/-- What the loop of `_prepare_sample` picks of a group. -/
def picked (isPrompt : Bool) (start : Nat) (g : SeqGroup Logit) : List Nat :=
  if isPrompt then
    List.range' start (g.promptRows isPrompt) ++ [start + g.promptLen - 1]
  else List.range' start g.seqIds.length

/-- The positions of a group in the batch. -/
def width (isPrompt : Bool) (maxLen : Nat) (g : SeqGroup Logit) : Nat :=
  if isPrompt then maxLen else g.seqIds.length

def pickedFrom (isPrompt : Bool) (maxLen : Nat) : Nat → List (SeqGroup Logit) → List Nat
  | _, [] => []
  | start, g :: gs =>
    picked isPrompt start g ++ pickedFrom isPrompt maxLen (start + width isPrompt maxLen g) gs

/-- The rows of a type. -/
def categorizedRows (isPrompt : Bool) (t : SamplingType) (start : Nat)
    (groups : List (SeqGroup Logit)) : List Nat :=
  blockIndices (fun g => g.samplingParams.samplingType = t) (SeqGroup.promptRows isPrompt)
    (fun g => g.seqIds.length) start groups

theorem addIndices_apply (t : SamplingType) (indices : List Nat) (m : SamplingType → List Nat)
    (t' : SamplingType) :
    addIndices t indices m t' = m t' ++ if t = t' then indices else [] := by
  unfold addIndices
  by_cases h : t = t'
  · subst h
    rw [Function.update_self, if_pos rfl]
  · rw [Function.update_of_ne (Ne.symm h), if_neg h, List.append_nil]

/-- Both branches of the loop in one. -/
theorem prepareGroup_eq {g : SeqGroup Logit} (hone : isPrompt = true → g.seqIds.length = 1)
    (st : Prepared) :
    prepareGroup isPrompt maxLen st g = some
      { selectedTokenIndices :=
          st.selectedTokenIndices ++ picked isPrompt st.selectedTokenStartIdx g
        selectedTokenStartIdx := st.selectedTokenStartIdx + width isPrompt maxLen g
        categorizedSampleIndices :=
          addIndices g.samplingParams.samplingType
            (List.range' (st.categorizedSampleIndicesStartIdx + g.promptRows isPrompt)
              g.seqIds.length) st.categorizedSampleIndices
        categorizedSampleIndicesStartIdx :=
          st.categorizedSampleIndicesStartIdx + g.promptRows isPrompt + g.seqIds.length } := by
  cases isPrompt with
  | true =>
    have hlen := hone rfl
    unfold prepareGroup picked width
    simp only [if_pos, hlen, List.append_assoc]
    rfl
  | false => rfl

theorem foldlM_prepareGroup (maxLen : Nat) {groups : List (SeqGroup Logit)}
    (hone : isPrompt = true → ∀ g ∈ groups, g.seqIds.length = 1) (st : Prepared) :
    ∃ st', groups.foldlM (prepareGroup isPrompt maxLen) st = some st' ∧
      st'.selectedTokenIndices = st.selectedTokenIndices ++
        pickedFrom isPrompt maxLen st.selectedTokenStartIdx groups ∧
      ∀ t, st'.categorizedSampleIndices t = st.categorizedSampleIndices t ++
        categorizedRows isPrompt t st.categorizedSampleIndicesStartIdx groups := by
  induction groups generalizing st with
  | nil => exact ⟨st, rfl, (List.append_nil _).symm, fun t => (List.append_nil _).symm⟩
  | cons g gs ih =>
    obtain ⟨st', hrun, hselected, hcategorized⟩ := ih (fun h g' hg' => hone h g' (.tail _ hg'))
      { selectedTokenIndices :=
          st.selectedTokenIndices ++ picked isPrompt st.selectedTokenStartIdx g
        selectedTokenStartIdx := st.selectedTokenStartIdx + width isPrompt maxLen g
        categorizedSampleIndices :=
          addIndices g.samplingParams.samplingType
            (List.range' (st.categorizedSampleIndicesStartIdx + g.promptRows isPrompt)
              g.seqIds.length) st.categorizedSampleIndices
        categorizedSampleIndicesStartIdx :=
          st.categorizedSampleIndicesStartIdx + g.promptRows isPrompt + g.seqIds.length }
    refine ⟨st', ?_, ?_, fun t => ?_⟩
    · rw [List.foldlM_cons, prepareGroup_eq fun h => hone h g (.head _)]
      exact hrun
    · rw [hselected, pickedFrom, List.append_assoc]
    · refine (hcategorized t).trans ?_
      show addIndices _ _ _ t ++ _ = _
      rw [addIndices_apply, List.append_assoc]
      unfold categorizedRows
      rw [blockIndices]
      by_cases ht : g.samplingParams.samplingType = t
      · rw [if_pos ht, if_pos (decide_eq_true ht)]
      · rw [if_neg ht, if_neg (by simpa using ht)]

/-- What is known of a part. -/
structure Part.Fits (isPrompt : Bool) (maxLen : Nat) (p : Part Hidden Logit) : Prop where
  width : p.hidden.length = width isPrompt maxLen p.group
  prompt : isPrompt = true → p.group.seqIds.length = 1 ∧ 0 < p.group.promptLen ∧
    p.group.promptLen ≤ maxLen

theorem Shaped.fits (h : Shaped isPrompt vocabSize data parts) {p : Part Hidden Logit}
    (hp : p ∈ parts) :
    p.Fits isPrompt ((parts.map fun p => p.group.promptLen).foldl max 0) := by
  cases isPrompt with
  | true =>
    obtain ⟨hone, hpos, hlen⟩ := h.prompt rfl p hp
    exact ⟨hlen, fun _ => ⟨hone, hpos, le_foldl_max (.inr (List.mem_map_of_mem hp))⟩⟩
  | false => exact ⟨h.decode rfl p hp, fun h => absurd h Bool.false_ne_true⟩

namespace Part.Fits

variable {p : Part Hidden Logit}

theorem promptRows_le (h : p.Fits isPrompt maxLen) :
    p.group.promptRows isPrompt ≤ p.hidden.length := by
  unfold SeqGroup.promptRows
  split
  case isTrue hprompt =>
    obtain ⟨hprompt, -⟩ := Bool.and_eq_true_iff.mp hprompt
    obtain ⟨-, -, hle⟩ := h.prompt hprompt
    have hwidth := h.width
    rw [hprompt] at hwidth
    exact Nat.le_trans (Nat.sub_le _ _) (hwidth.symm ▸ hle)
  case isFalse => exact Nat.zero_le _

theorem length_promptHidden (h : p.Fits isPrompt maxLen) :
    (p.promptHidden isPrompt).length = p.group.promptRows isPrompt := by
  rw [Part.promptHidden, List.length_take, Nat.min_eq_left h.promptRows_le]

theorem length_lastHidden (h : p.Fits isPrompt maxLen) :
    (p.lastHidden isPrompt).length = p.group.seqIds.length := by
  unfold Part.lastHidden
  cases isPrompt with
  | true =>
    obtain ⟨hone, hpos, hle⟩ := h.prompt rfl
    have hwidth : p.hidden.length = maxLen := h.width
    rw [if_pos rfl, List.length_take, List.length_drop, hone]
    omega
  | false => exact h.width

/-- The indices of a part pick its rows. -/
theorem gather (h : p.Fits isPrompt maxLen) (front back : List Hidden) :
    Lib.gather (picked isPrompt front.length p.group) (front ++ (p.hidden ++ back)) =
      some (p.promptHidden isPrompt ++ p.lastHidden isPrompt) := by
  unfold picked Part.lastHidden
  cases isPrompt with
  | true =>
    obtain ⟨-, hpos, hle⟩ := h.prompt rfl
    have hwidth : p.hidden.length = maxLen := h.width
    have hlast : front.length + p.group.promptLen - 1 = front.length + (p.group.promptLen - 1) := by
      omega
    have hrows : 0 + p.group.promptRows true ≤ p.hidden.length :=
      (Nat.zero_add _).symm ▸ h.promptRows_le
    have hend : p.group.promptLen - 1 + 1 ≤ p.hidden.length := by omega
    have hprompt := gather_block front p.hidden back hrows
    have hone := gather_block front p.hidden back hend
    rw [if_pos rfl, if_pos rfl, hlast]
    exact gather_append hprompt hone
  | false =>
    have hrows : 0 + p.group.seqIds.length ≤ p.hidden.length :=
      Nat.le_of_eq ((Nat.zero_add _).trans h.width.symm)
    have hall := gather_block front p.hidden back hrows
    have htake : p.hidden.take p.group.seqIds.length = p.hidden := List.take_of_length_le
      (Nat.le_of_eq h.width)
    rw [List.drop_zero, htake] at hall
    exact hall

end Part.Fits

/-- The rows of a batch: of each part those of the prompt, and the last ones. -/
theorem gather_picked (hfits : ∀ p ∈ parts, p.Fits isPrompt maxLen) (front padding : List Hidden) :
    gather (pickedFrom isPrompt maxLen front.length (parts.map Part.group))
        (front ++ (parts.flatMap Part.hidden ++ padding)) =
      some (parts.flatMap fun p => p.promptHidden isPrompt ++ p.lastHidden isPrompt) := by
  induction parts generalizing front with
  | nil => rfl
  | cons p parts ih =>
    obtain ⟨hp, hparts⟩ := List.forall_mem_cons.mp hfits
    have hrest := ih hparts (front ++ p.hidden)
    rw [List.length_append, hp.width, List.append_assoc] at hrest
    rw [List.map_cons, pickedFrom, List.flatMap_cons, List.flatMap_cons, List.append_assoc]
    exact gather_append (hp.gather front _) hrest

end Picked

/-! ## The logits processors -/

section Processors

variable {Logprob : Type} {data : Nat → SequenceData Logprob} {isPrompt : Bool}
  {groups : List (SeqGroup Logit)}

/-- What the processors of a group make of the rows of its sequences. -/
def processRows (data : Nat → SequenceData Logprob) (g : SeqGroup Logit)
    (rows : List (List Logit)) : List (List Logit) :=
  List.zipWith (fun seqId row => g.samplingParams.logitsProcessors.foldl
    (fun row f => f (data seqId).outputTokenIds row) row) g.seqIds rows

/-- A batch in which prompt log probabilities and logits processors meet. -/
def misaligned (isPrompt : Bool) (groups : List (SeqGroup Logit)) : Bool :=
  (groups.any fun g => !g.samplingParams.logitsProcessors.isEmpty) &&
    (groups.map (SeqGroup.promptRows isPrompt)).sum != 0

theorem processRows_of_isEmpty {g : SeqGroup Logit} {rows : List (List Logit)}
    (hempty : g.samplingParams.logitsProcessors.isEmpty = true)
    (hlen : rows.length = g.seqIds.length) : processRows data g rows = rows := by
  unfold processRows
  rw [List.isEmpty_iff.mp hempty]
  generalize g.seqIds = ids at hlen
  induction ids generalizing rows with
  | nil => exact (List.eq_nil_of_length_eq_zero hlen).symm
  | cons id ids ih =>
    cases rows with
    | nil => cases hlen
    | cons row rows => exact congrArg (row :: ·) (ih (Nat.succ.inj hlen))

theorem processSeq_idx {p : SamplingParams Logit} {ids : List Nat}
    {st st' : List (List Logit) × Nat} (h : ids.foldlM (processSeq p data) st = some st') :
    st'.2 = st.2 + ids.length := by
  induction ids generalizing st with
  | nil =>
    obtain rfl := Option.some.inj h
    rfl
  | cons id ids ih =>
    rw [List.foldlM_cons] at h
    obtain ⟨st₁, hone, h⟩ := Option.bind_eq_some_iff.mp h
    obtain ⟨row, -, rfl⟩ := Option.map_eq_some_iff.mp hone
    rw [ih h, List.length_cons]
    omega

/-- The rows of the prompts are not counted. -/
theorem processGroup_idx {st st' : List (List Logit) × Nat}
    (h : groups.foldlM (processGroup data) st = some st') :
    st'.2 = st.2 + (groups.map fun g => g.seqIds.length).sum := by
  induction groups generalizing st with
  | nil =>
    obtain rfl := Option.some.inj h
    rfl
  | cons g groups ih =>
    rw [List.foldlM_cons] at h
    obtain ⟨st₁, hone, h⟩ := Option.bind_eq_some_iff.mp h
    have hst : st₁.2 = st.2 + g.seqIds.length := by
      unfold processGroup at hone
      split at hone
      · obtain rfl := Option.some.inj hone
        rfl
      · exact processSeq_idx hone
    rw [ih h, hst, List.map_cons, List.sum_cons, Nat.add_assoc]

theorem foldlM_processSeq {p : SamplingParams Logit} {ids : List Nat} {rows : List (List Logit)}
    (hlen : rows.length = ids.length) (front back : List (List Logit)) :
    ids.foldlM (processSeq p data) (front ++ (rows ++ back), front.length) =
      some (front ++ (List.zipWith (fun seqId row => p.logitsProcessors.foldl
        (fun row f => f (data seqId).outputTokenIds row) row) ids rows ++ back),
        front.length + ids.length) := by
  induction ids generalizing rows front with
  | nil =>
    obtain rfl := List.eq_nil_of_length_eq_zero hlen
    rfl
  | cons id ids ih =>
    cases rows with
    | nil => cases hlen
    | cons row rows =>
      let row' := p.logitsProcessors.foldl (fun row f => f (data id).outputTokenIds row) row
      have hget : (front ++ (row :: rows ++ back))[front.length]? = some row := by
        rw [List.cons_append, List.getElem?_append_right (Nat.le_refl _), Nat.sub_self]
        rfl
      have hset : (front ++ (row :: rows ++ back)).set front.length row' =
          front ++ [row'] ++ (rows ++ back) := by
        rw [List.cons_append, List.set_append_right _ _ (Nat.le_refl _), Nat.sub_self,
          List.append_assoc]
        rfl
      have hone : processSeq p data (front ++ (row :: rows ++ back), front.length) id =
          some (front ++ [row'] ++ (rows ++ back), (front ++ [row']).length) := by
        unfold processSeq
        show ((front ++ (row :: rows ++ back))[front.length]?).map _ = _
        rw [hget]
        show some ((front ++ (row :: rows ++ back)).set front.length row', front.length + 1) = _
        rw [hset, List.length_append]
        rfl
      have hrest := ih (Nat.succ.inj hlen) (front ++ [row'])
      rw [List.foldlM_cons, hone]
      refine hrest.trans (congrArg some (Prod.ext ?_ ?_))
      · show front ++ [row'] ++ _ = _
        rw [List.append_assoc]
        rfl
      · show (front ++ [row']).length + ids.length = front.length + (ids.length + 1)
        rw [List.length_append, List.length_singleton]
        omega

section Items

variable {ι : Type} {group : ι → SeqGroup Logit} {items : List ι}
  {first second : ι → List (List Logit)}

theorem foldlM_processGroup (hlen : ∀ i ∈ items, (second i).length = (group i).seqIds.length)
    (front : List (List Logit)) :
    (items.map group).foldlM (processGroup data) (front ++ items.flatMap second, front.length) =
      some (front ++ items.flatMap fun i => processRows data (group i) (second i),
        front.length + ((items.map group).map fun g => g.seqIds.length).sum) := by
  induction items generalizing front with
  | nil => rfl
  | cons i items ih =>
    obtain ⟨hi, hitems⟩ := List.forall_mem_cons.mp hlen
    have hprocessed : (processRows data (group i) (second i)).length =
        (group i).seqIds.length := by
      rw [processRows, List.length_zipWith, hi, Nat.min_self]
    have hone : processGroup data (front ++ (second i ++ items.flatMap second), front.length)
        (group i) = some (front ++ (processRows data (group i) (second i) ++
          items.flatMap second), front.length + (group i).seqIds.length) := by
      unfold processGroup
      by_cases hempty : (group i).samplingParams.logitsProcessors.isEmpty = true
      · rw [if_pos hempty, processRows_of_isEmpty hempty hi]
      · rw [if_neg hempty]
        exact foldlM_processSeq hi front _
    have hrest := ih hitems (front ++ processRows data (group i) (second i))
    rw [List.length_append, hprocessed, List.append_assoc, List.append_assoc] at hrest
    rw [List.map_cons, List.foldlM_cons, List.flatMap_cons, hone]
    refine hrest.trans ?_
    rw [List.flatMap_cons, List.map_cons, List.sum_cons, Nat.add_assoc]

/-- The processors change the rows of their own groups only. -/
theorem applyLogitsProcessors_eq
    (hfirst : ∀ i ∈ items, (first i).length = (group i).promptRows isPrompt)
    (hsecond : ∀ i ∈ items, (second i).length = (group i).seqIds.length) :
    applyLogitsProcessors data (items.map group) (items.flatMap fun i => first i ++ second i) =
      if misaligned isPrompt (items.map group) then none
      else some (items.flatMap fun i => first i ++ processRows data (group i) (second i)) := by
  have hlength : (items.flatMap fun i => first i ++ second i).length =
      ((items.map group).map (SeqGroup.promptRows isPrompt)).sum +
        ((items.map group).map fun g => g.seqIds.length).sum := by
    induction items with
    | nil => rfl
    | cons i items ih =>
      obtain ⟨hi, hitems⟩ := List.forall_mem_cons.mp hfirst
      obtain ⟨hi', hitems'⟩ := List.forall_mem_cons.mp hsecond
      rw [List.flatMap_cons, List.length_append, List.length_append, hi, hi', ih hitems hitems',
        List.map_cons, List.map_cons, List.sum_cons, List.map_cons, List.sum_cons]
      omega
  unfold applyLogitsProcessors misaligned
  cases hprocessors : (items.map group).any fun g => !g.samplingParams.logitsProcessors.isEmpty with
  | false =>
    have hempty : ∀ i ∈ items, (group i).samplingParams.logitsProcessors.isEmpty = true := by
      intro i hi
      have hnot := List.any_eq_false.mp hprocessors (group i) (List.mem_map_of_mem hi)
      simpa using hnot
    have hrun : ∀ st, (items.map group).foldlM (processGroup data) st =
        some (st.1, st.2 + ((items.map group).map fun g => g.seqIds.length).sum) := by
      clear * - hempty
      induction items with
      | nil => exact fun _ => rfl
      | cons i items ih =>
        intro st
        obtain ⟨hi, hitems⟩ := List.forall_mem_cons.mp hempty
        rw [List.map_cons, List.foldlM_cons, processGroup, if_pos hi]
        refine (ih hitems _).trans ?_
        rw [List.map_cons, List.sum_cons, Nat.add_assoc]
    have hrows : (items.flatMap fun i => first i ++ processRows data (group i) (second i)) =
        items.flatMap fun i => first i ++ second i :=
      List.flatMap_congr fun i hi => by rw [processRows_of_isEmpty (hempty i hi) (hsecond i hi)]
    rw [hrun, hrows]
    rfl
  | true =>
    by_cases hsum : ((items.map group).map (SeqGroup.promptRows isPrompt)).sum = 0
    · -- there are no rows of prompts
      have hnil : ∀ i ∈ items, first i = [] := by
        intro i hi
        have hzero := List.sum_eq_zero_iff_forall_eq_nat.mp hsum _
          (List.mem_map_of_mem (List.mem_map_of_mem hi))
        exact List.eq_nil_of_length_eq_zero ((hfirst i hi).trans hzero)
      have hrows : (items.flatMap fun i => first i ++ second i) = items.flatMap second :=
        List.flatMap_congr fun i hi => by rw [hnil i hi, List.nil_append]
      have hrows' : (items.flatMap fun i => first i ++ processRows data (group i) (second i)) =
          items.flatMap fun i => processRows data (group i) (second i) :=
        List.flatMap_congr fun i hi => by rw [hnil i hi, List.nil_append]
      have hrun : (items.map group).foldlM (processGroup data) (items.flatMap second, 0) =
          some (items.flatMap fun i => processRows data (group i) (second i),
            0 + ((items.map group).map fun g => g.seqIds.length).sum) :=
        foldlM_processGroup hsecond []
      rw [hrows, hsum, Nat.zero_add] at hlength
      rw [hrows, hrows', hrun, hsum, hlength]
      show (if (true && _ != _) = true then none else some _) = _
      rw [Nat.zero_add, bne_self_eq_false]
      rfl
    · have hne : (((items.map group).map (SeqGroup.promptRows isPrompt)).sum != 0) = true :=
        bne_iff_ne.mpr hsum
      rw [hne, Bool.and_true, if_pos rfl]
      cases hrun : (items.map group).foldlM (processGroup data)
        (items.flatMap fun i => first i ++ second i, 0) with
      | none => rfl
      | some st =>
        have hidx := processGroup_idx hrun
        have hbne : (st.2 != (items.flatMap fun i => first i ++ second i).length) = true := by
          rw [bne_iff_ne, hidx, hlength]
          omega
        show (if (true && _ != _) = true then none else some _) = none
        rw [hbne]
        rfl

end Items

end Processors

/-! ## The logits -/

section Logits

variable {isPrompt : Bool} {flags : Flags} {data : Nat → SequenceData Logit}
  {ops : Ops Hidden Logit} {parts : List (Part Hidden Logit)}

/-- What a row becomes. -/
def Ops.processRow (ops : Ops Hidden Logit) (flags : Flags) (r : RowParams) (row : List Logit) :
    List Logit :=
  ops.scaleRow flags r
    (if flags.doPenalties then
      penalized ops.floats ops.vocabSize r.penalties r.promptTokens r.outputTokens row
    else row)

/-- The rows of the prompt of a part. -/
def Part.promptLogits (ops : Ops Hidden Logit) (isPrompt : Bool) (flags : Flags)
    (p : Part Hidden Logit) : List (List Logit) :=
  ((p.promptHidden isPrompt).map ops.logits).map
    (ops.processRow flags (p.group.samplingParams.promptRow ops.vocabSize))

/-- The rows of the sequences of a part. -/
def Part.seqLogits (ops : Ops Hidden Logit) (isPrompt : Bool) (flags : Flags)
    (data : Nat → SequenceData Logit) (p : Part Hidden Logit) : List (List Logit) :=
  List.zipWith (ops.processRow flags)
    (p.group.seqIds.map fun seqId => p.group.samplingParams.row ops.vocabSize
      (data seqId).promptTokenIds (data seqId).outputTokenIds)
    (processRows data p.group ((p.lastHidden isPrompt).map ops.logits))

theorem applyBatchPenalties_eq {tensors : List RowParams} {logits : List (List Logit)}
    (hlen : logits.length = tensors.length)
    (hprompt : ∀ r ∈ tensors, ∀ t ∈ r.promptTokens, t ≤ ops.vocabSize)
    (houtput : ∀ r ∈ tensors, ∀ t ∈ r.outputTokens, t ≤ ops.vocabSize) :
    ((applyBatchPenalties ops flags.doPenalties tensors logits).map
      (List.zipWith (ops.scaleRow flags) tensors)) =
      some (List.zipWith (ops.processRow flags) tensors logits) := by
  have hzip : ∀ f : RowParams → List Logit → List Logit,
      List.zipWith (ops.scaleRow flags) tensors (List.zipWith f tensors logits) =
        List.zipWith (fun r row => ops.scaleRow flags r (f r row)) tensors logits := by
    intro f
    clear * -
    induction tensors generalizing logits with
    | nil => rfl
    | cons r tensors ih =>
      cases logits with
      | nil => rfl
      | cons row logits => exact congrArg (_ :: ·) ih
  unfold applyBatchPenalties Ops.processRow
  cases flags.doPenalties with
  | false => rfl
  | true =>
    rw [if_pos rfl, applyPenalties_eq_rows hlen hprompt houtput, Option.map_some, hzip]
    rfl

theorem zipWith_replicate_left {α β γ : Type} (f : α → β → γ) (a : α) {n : Nat} {l : List β}
    (h : l.length = n) : List.zipWith f (List.replicate n a) l = l.map (f a) := by
  subst h
  induction l with
  | nil => rfl
  | cons b l ih => exact congrArg (_ :: ·) ih

/-- The logits of a batch are those of its parts. -/
theorem batchLogits_eq (flags : Flags) (h : Shaped isPrompt ops.vocabSize data parts) :
    ((applyBatchPenalties ops flags.doPenalties
        (samplingTensors ops.vocabSize isPrompt data (parts.map Part.group))
        (parts.flatMap fun p => (p.promptHidden isPrompt).map ops.logits ++
          processRows data p.group ((p.lastHidden isPrompt).map ops.logits))).map
      (List.zipWith (ops.scaleRow flags)
        (samplingTensors ops.vocabSize isPrompt data (parts.map Part.group)))) =
      some (parts.flatMap fun p =>
        p.promptLogits ops isPrompt flags ++ p.seqLogits ops isPrompt flags data) := by
  have hfirst : ∀ p ∈ parts, ((p.promptHidden isPrompt).map ops.logits).length =
      p.group.promptRows isPrompt := fun p hp => by
    rw [List.length_map, (h.fits hp).length_promptHidden]
  have hsecond : ∀ p ∈ parts, (processRows data p.group
      ((p.lastHidden isPrompt).map ops.logits)).length = p.group.seqIds.length := fun p hp => by
    rw [processRows, List.length_zipWith, List.length_map, (h.fits hp).length_lastHidden,
      Nat.min_self]
  unfold samplingTensors
  rw [List.flatMap_map]
  have hmem : ∀ r ∈ (parts.flatMap fun p => List.replicate (p.group.promptRows isPrompt)
      (p.group.samplingParams.promptRow ops.vocabSize) ++ p.group.seqIds.map fun seqId =>
        p.group.samplingParams.row ops.vocabSize (data seqId).promptTokenIds
          (data seqId).outputTokenIds),
      (∀ t ∈ r.promptTokens, t ≤ ops.vocabSize) ∧ ∀ t ∈ r.outputTokens, t ≤ ops.vocabSize := by
    intro r hr
    obtain ⟨p, hp, hr⟩ := List.mem_flatMap.mp hr
    rcases List.mem_append.mp hr with hr | hr
    · obtain rfl := List.eq_of_mem_replicate hr
      exact ⟨fun t ht => absurd ht List.not_mem_nil, fun t ht => absurd ht List.not_mem_nil⟩
    · obtain ⟨seqId, hid, rfl⟩ := List.mem_map.mp hr
      exact h.tokens p hp seqId hid
  rw [applyBatchPenalties_eq ?_ (fun r hr => (hmem r hr).1) fun r hr => (hmem r hr).2]
  · rw [zipWith_flatMap fun p hp => by
      rw [List.length_append, List.length_append, List.length_replicate, List.length_map,
        hfirst p hp, hsecond p hp]]
    refine congrArg some (List.flatMap_congr fun p hp => ?_)
    rw [List.zipWith_append (by rw [List.length_replicate, hfirst p hp]),
      zipWith_replicate_left _ _ (hfirst p hp)]
    rfl
  · rw [List.length_flatMap, List.length_flatMap]
    refine congrArg List.sum (List.map_congr_left fun p hp => ?_)
    rw [List.length_append, List.length_append, List.length_replicate, hfirst p hp, hsecond p hp,
      List.length_map]

end Logits

end Mil.Sampler
