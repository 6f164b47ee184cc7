import Mil.Sampler.Groups

/-!
# What is sampled for a group

`_sample` sorts the groups by their types and samples type by type. Each group gets what it would
get from its own rows (`sample_eq`).
-/

set_option autoImplicit false

namespace Mil.Sampler

open Mil.Lib Mil.Requests

variable {Hidden Logit : Type}

/-! ## One group -/

/-- The tokens that are drawn for rows of probabilities, with the noise from row `start` on. -/
def draws (ops : Ops Hidden Logit) (start samples : Nat) (probs : List (List Logit)) :
    List (List Nat) :=
  (probs.zipIdx start).map fun p => (List.range samples).map fun j => ops.draw p.2 j p.1

/-- What is sampled for a part; `start` rows of random groups come before it. -/
def Part.result (ops : Ops Hidden Logit) (isPrompt : Bool) (flags : Flags)
    (data : Nat → SequenceData Logit) (start : Nat) (p : Part Hidden Logit) :
    Option SampleResult :=
  let rows := p.seqLogits ops isPrompt flags data
  match p.group.samplingParams.samplingType with
  | .greedy => greedyOne (rows.map fun row => ops.argmax (ops.logSoftmax row)) 0 p.group
  | .random =>
    randomOne isPrompt
      (draws ops start (if isPrompt then p.group.samplingParams.bestOf else 1)
        (rows.map ops.softmax)) 0 p.group
  | .beam => beamOne ops isPrompt data (rows.map ops.logSoftmax) 0 p.group

/-- The parts with the number of rows of random groups that come before them. -/
def withNoise : Nat → List (Part Hidden Logit) → List (Nat × Part Hidden Logit)
  | _, [] => []
  | start, p :: ps =>
    (start, p) :: withNoise
      (start + if p.group.samplingParams.samplingType = .random then p.group.seqIds.length else 0)
      ps

theorem map_snd_withNoise (start : Nat) (parts : List (Part Hidden Logit)) :
    (withNoise start parts).map Prod.snd = parts := by
  induction parts generalizing start with
  | nil => rfl
  | cons p parts ih => exact congrArg (p :: ·) (ih _)

/-! ## The loops over the groups -/

section Loops

variable {β ι : Type} {group : ι → SeqGroup Logit} {is : List ι}

/-- A loop whose turns read the entries of their groups only. -/
theorem sampleLoop_eq {one : List β → Nat → SeqGroup Logit → Option SampleResult}
    (hlocal : ∀ (front block back : List β) (g : SeqGroup Logit), block.length = g.seqIds.length →
      0 < block.length → one (front ++ (block ++ back)) front.length g = one block 0 g)
    {block : ι → List β} (hlen : ∀ i ∈ is, (block i).length = (group i).seqIds.length)
    (hpos : ∀ i ∈ is, 0 < (group i).seqIds.length) (front : List β) :
    sampleLoop (one (front ++ is.flatMap block)) front.length (is.map group) =
      is.mapM fun i => one (block i) 0 (group i) := by
  induction is generalizing front with
  | nil => rfl
  | cons i is ih =>
    obtain ⟨hi, his⟩ := List.forall_mem_cons.mp hlen
    obtain ⟨hi', his'⟩ := List.forall_mem_cons.mp hpos
    have hrest := ih his his' (front ++ block i)
    rw [List.length_append, hi, List.append_assoc] at hrest
    rw [List.map_cons, sampleLoop, List.flatMap_cons, hlocal front (block i) _ (group i) hi
      (hi ▸ hi'), hrest, List.mapM_cons]

theorem getElem?_block (front block back : List β) (hpos : 0 < block.length) :
    (front ++ (block ++ back))[front.length]? = block[0]? := by
  rw [List.getElem?_append_right (Nat.le_refl _), Nat.sub_self, List.getElem?_append_left hpos]

theorem take_drop_block (front block back : List β) {n : Nat} (hlen : block.length = n) :
    ((front ++ (block ++ back)).drop front.length).take n = (block.drop 0).take n := by
  subst hlen
  rw [List.drop_left, List.take_left, List.drop_zero, List.take_length]

theorem greedyOne_local (front block back : List Nat) (g : SeqGroup Logit)
    (_ : block.length = g.seqIds.length) (hpos : 0 < block.length) :
    greedyOne (front ++ (block ++ back)) front.length g = greedyOne block 0 g := by
  unfold greedyOne
  rw [getElem?_block front block back hpos]

theorem randomOne_local (isPrompt : Bool) (front block back : List (List Nat))
    (g : SeqGroup Logit) (hlen : block.length = g.seqIds.length) (hpos : 0 < block.length) :
    randomOne isPrompt (front ++ (block ++ back)) front.length g =
      randomOne isPrompt block 0 g := by
  unfold randomOne
  rw [getElem?_block front block back hpos, take_drop_block front block back hlen]

theorem beamOne_local (ops : Ops Hidden Logit) (isPrompt : Bool) (data : Nat → SequenceData Logit)
    (front block back : List (List Logit)) (g : SeqGroup Logit)
    (hlen : block.length = g.seqIds.length) (_ : 0 < block.length) :
    beamOne ops isPrompt data (front ++ (block ++ back)) front.length g =
      beamOne ops isPrompt data block 0 g := by
  unfold beamOne
  rw [take_drop_block front block back hlen]

/-- A prompt takes as many samples as it asks for. -/
theorem randomOne_draws (ops : Ops Hidden Logit) (isPrompt : Bool) {g : SeqGroup Logit}
    {samples : Nat} (hle : isPrompt = true → g.samplingParams.bestOf ≤ samples)
    (hone : isPrompt = false → samples = 1) (start : Nat) (probs : List (List Logit)) :
    randomOne isPrompt (draws ops start samples probs) 0 g =
      randomOne isPrompt
        (draws ops start (if isPrompt then g.samplingParams.bestOf else 1) probs) 0 g := by
  cases isPrompt with
  | true =>
    unfold randomOne draws
    rw [if_pos rfl, if_pos rfl, if_pos rfl, List.getElem?_map, List.getElem?_map, Option.map_map,
      Option.map_map]
    congr 1
    funext p
    have htake : ∀ n, g.samplingParams.bestOf ≤ n →
        ((List.range n).map fun j => ops.draw p.2 j p.1).take g.samplingParams.bestOf =
          (List.range g.samplingParams.bestOf).map fun j => ops.draw p.2 j p.1 := by
      intro n hn
      rw [← List.map_take, List.take_range, Nat.min_eq_left hn]
    show (List.take _ (List.map _ (List.range samples)), _) =
      (List.take _ (List.map _ (List.range g.samplingParams.bestOf)), _)
    rw [htake _ (hle rfl), htake _ (Nat.le_refl _)]
  | false =>
    rw [hone rfl]
    rfl

end Loops

/-! ## One type -/

section Types

variable {ops : Ops Hidden Logit} {isPrompt : Bool} {flags : Flags}
  {data : Nat → SequenceData Logit} {parts : List (Part Hidden Logit)}

/-- The type of an item. -/
def itemType (i : Nat × Part Hidden Logit) : SamplingType := i.2.group.samplingParams.samplingType

/-- The parts of a type. -/
def itemsOf (t : SamplingType) (parts : List (Part Hidden Logit)) :
    List (Nat × Part Hidden Logit) :=
  (withNoise 0 parts).filter fun i => itemType i = t

theorem mem_of_mem_itemsOf {t : SamplingType} {i : Nat × Part Hidden Logit}
    (h : i ∈ itemsOf t parts) : i.2 ∈ parts := by
  have hmem := (List.mem_filter.mp h).1
  rw [← map_snd_withNoise 0 parts]
  exact List.mem_map_of_mem hmem

theorem length_seqLogits (flags : Flags) (h : Shaped isPrompt ops.vocabSize data parts)
    {p : Part Hidden Logit} (hp : p ∈ parts) :
    (p.seqLogits ops isPrompt flags data).length = p.group.seqIds.length := by
  rw [Part.seqLogits, List.length_zipWith, List.length_map, processRows, List.length_zipWith,
    List.length_map, (h.fits hp).length_lastHidden, Nat.min_self, Nat.min_self]

theorem length_promptLogits (flags : Flags) (h : Shaped isPrompt ops.vocabSize data parts)
    {p : Part Hidden Logit} (hp : p ∈ parts) :
    (p.promptLogits ops isPrompt flags).length = p.group.promptRows isPrompt := by
  rw [Part.promptLogits, List.length_map, List.length_map, (h.fits hp).length_promptHidden]

/-- The noise of the random groups of a batch, group by group. -/
theorem zipIdx_random {rows : Part Hidden Logit → List (List Logit)}
    (hlen : ∀ p ∈ parts, (rows p).length = p.group.seqIds.length) (start : Nat) :
    ((((withNoise start parts).filter fun i => itemType i = .random).flatMap
        fun i => rows i.2).zipIdx start) =
      ((withNoise start parts).filter fun i => itemType i = .random).flatMap
        fun i => (rows i.2).zipIdx i.1 := by
  induction parts generalizing start with
  | nil => rfl
  | cons p parts ih =>
    obtain ⟨hp, hparts⟩ := List.forall_mem_cons.mp hlen
    rw [withNoise]
    by_cases ht : p.group.samplingParams.samplingType = .random
    · have hitem : decide (itemType (start, p) = .random) = true := decide_eq_true ht
      rw [if_pos ht, List.filter_cons, if_pos hitem, List.flatMap_cons, List.flatMap_cons,
        List.zipIdx_append, hp, ih hparts]
    · have hitem : ¬ decide (itemType (start, p) = .random) = true := fun htrue =>
        ht (of_decide_eq_true htrue)
      rw [if_neg ht, List.filter_cons, if_neg hitem, Nat.add_zero]
      exact ih hparts start

/-- The groups of a type get what they get from their own rows. -/
theorem sampleType_eq (h : Shaped isPrompt ops.vocabSize data parts) (t : SamplingType) :
    sampleType ops isPrompt data t ((itemsOf t parts).map fun i => i.2.group)
        ((itemsOf t parts).flatMap fun i => i.2.seqLogits ops isPrompt flags data) =
      (itemsOf t parts).mapM fun i => i.2.result ops isPrompt flags data i.1 := by
  have hlen : ∀ i ∈ itemsOf t parts, (i.2.seqLogits ops isPrompt flags data).length =
      i.2.group.seqIds.length := fun i hi => length_seqLogits flags h (mem_of_mem_itemsOf hi)
  have hpos : ∀ i ∈ itemsOf t parts, 0 < i.2.group.seqIds.length := fun i hi =>
    h.pos _ (mem_of_mem_itemsOf hi)
  have htype : ∀ i ∈ itemsOf t parts, i.2.group.samplingParams.samplingType = t := fun i hi =>
    of_decide_eq_true (List.mem_filter.mp hi).2
  cases t with
  | greedy =>
    unfold sampleType
    rw [List.map_flatMap]
    refine (sampleLoop_eq greedyOne_local (fun i hi => ?_) hpos []).trans
      (mapM_congr fun i hi => ?_)
    · rw [List.length_map, hlen i hi]
    · rw [Part.result, htype i hi]
  | random =>
    let samples := if isPrompt then (((itemsOf .random parts).map fun i => i.2.group).map
      fun g => g.samplingParams.bestOf).foldl max 1 else 1
    have hnoise := zipIdx_random (fun p (hp : p ∈ parts) =>
      (List.length_map ops.softmax).trans (length_seqLogits flags h hp)) 0
    -- the noise is counted over the rows of the type, and an item knows where its rows begin
    have hdraws : multinomial ops isPrompt ((itemsOf .random parts).map fun i => i.2.group)
        (((itemsOf .random parts).flatMap fun i =>
          i.2.seqLogits ops isPrompt flags data).map ops.softmax) =
        (itemsOf .random parts).flatMap fun i => draws ops i.1 samples
          ((i.2.seqLogits ops isPrompt flags data).map ops.softmax) := by
      unfold multinomial
      rw [List.map_flatMap]
      refine (congrArg (List.map _) hnoise).trans ?_
      rw [List.map_flatMap]
      rfl
    unfold sampleType
    show sampleLoop (randomOne isPrompt (multinomial ops isPrompt _ _)) 0 _ = _
    rw [hdraws]
    refine (sampleLoop_eq (randomOne_local isPrompt) (fun i hi => ?_) hpos []).trans
      (mapM_congr fun i hi => ?_)
    · rw [draws, List.length_map, List.length_zipIdx, List.length_map, hlen i hi]
    · rw [Part.result, htype i hi]
      apply randomOne_draws
      · intro hprompt
        show _ ≤ if isPrompt then _ else 1
        rw [if_pos hprompt]
        exact le_foldl_max (.inr (List.mem_map_of_mem (List.mem_map_of_mem hi)))
      · intro hdecode
        show (if isPrompt then _ else 1) = 1
        rw [hdecode]
        rfl
  | beam =>
    have hsum : (((itemsOf .beam parts).map fun i => i.2.group).map
        fun g => g.seqIds.length).sum = ((itemsOf .beam parts).flatMap fun i =>
          i.2.seqLogits ops isPrompt flags data).length := by
      rw [List.length_flatMap, List.map_map]
      exact congrArg List.sum (List.map_congr_left fun i hi => (hlen i hi).symm)
    have hloop : sampleLoop (beamOne ops isPrompt data (((itemsOf .beam parts).flatMap fun i =>
          i.2.seqLogits ops isPrompt flags data).map ops.logSoftmax)) 0
        ((itemsOf .beam parts).map fun i => i.2.group) =
        (itemsOf .beam parts).mapM fun i => i.2.result ops isPrompt flags data i.1 := by
      rw [List.map_flatMap]
      refine (sampleLoop_eq (beamOne_local ops isPrompt data) (fun i hi => ?_) hpos []).trans
        (mapM_congr fun i hi => ?_)
      · rw [List.length_map, hlen i hi]
      · rw [Part.result, htype i hi]
    show (sampleLoop _ 0 _).bind _ = _
    rw [hloop, hsum]
    cases (itemsOf .beam parts).mapM fun i => i.2.result ops isPrompt flags data i.1 with
    | none => rfl
    | some results => exact if_pos rfl

/-- The indices of the groups of a type. -/
theorem category_itemType (t : SamplingType) :
    category itemType t 0 (withNoise 0 parts) =
      (categorizedIds t (parts.map Part.group)).zip (itemsOf t parts) := by
  have hall : ∀ start n, category itemType t n (withNoise start parts) =
      (((parts.map Part.group).zipIdx n |>.filter
        fun p => p.1.samplingParams.samplingType = t).map Prod.snd).zip
        ((withNoise start parts).filter fun i => itemType i = t) := by
    intro start n
    induction parts generalizing start n with
    | nil => rfl
    | cons p parts ih =>
      rw [withNoise, category_cons, ih, List.map_cons, List.zipIdx_cons, List.filter_cons,
        List.filter_cons]
      by_cases ht : p.group.samplingParams.samplingType = t
      · have hitem : itemType (start, p) = t := ht
        rw [if_pos hitem, if_pos (decide_eq_true ht), if_pos (decide_eq_true hitem)]
        rfl
      · have hitem : ¬ itemType (start, p) = t := ht
        rw [if_neg hitem, if_neg fun htrue => ht (of_decide_eq_true htrue),
          if_neg fun htrue => hitem (of_decide_eq_true htrue)]
        rfl
  exact hall 0 0

theorem groupsOf_eq (t : SamplingType) (parts : List (Part Hidden Logit)) :
    groupsOf t (parts.map Part.group) = (itemsOf t parts).map fun i => i.2.group := by
  have hparts : parts.map Part.group = (withNoise 0 parts).map fun i => i.2.group := by
    conv_lhs => rw [← map_snd_withNoise 0 parts, List.map_map]
    rfl
  rw [hparts, groupsOf, List.filter_map]
  rfl

/-- The indices of a type gather the rows of its groups. -/
theorem gather_categorizedRows (flags : Flags) (h : Shaped isPrompt ops.vocabSize data parts)
    (t : SamplingType) :
    gather (categorizedRows isPrompt t 0 (parts.map Part.group))
        (parts.flatMap fun p =>
          p.promptLogits ops isPrompt flags ++ p.seqLogits ops isPrompt flags data) =
      some ((itemsOf t parts).flatMap fun i => i.2.seqLogits ops isPrompt flags data) := by
  have hblocks := gather_blocks (fun p => decide (p.group.samplingParams.samplingType = t))
    (fun p (hp : p ∈ parts) => length_promptLogits flags h hp)
    (fun p hp => length_seqLogits flags h hp) [] []
  rw [List.nil_append, List.append_nil] at hblocks
  have hpicked : parts.filter (fun p => decide (p.group.samplingParams.samplingType = t)) =
      (itemsOf t parts).map Prod.snd := by
    conv_lhs => rw [← map_snd_withNoise 0 parts, List.filter_map]
    rfl
  rw [hpicked, List.flatMap_map] at hblocks
  unfold categorizedRows
  rw [blockIndices_map]
  exact hblocks

theorem categoryResults_eq (t : SamplingType) {f : Nat × Part Hidden Logit → Option SampleResult} :
    categoryResults itemType f t (withNoise 0 parts) =
      ((itemsOf t parts).mapM f).map fun results =>
        (categorizedIds t (parts.map Part.group)).zip results := by
  have hzip : ∀ (ids : List Nat) (is : List (Nat × Part Hidden Logit)), ids.length = is.length →
      ((ids.zip is).mapM fun p => (f p.2).map (p.1, ·)) = (is.mapM f).map (ids.zip ·) := by
    intro ids is hlen
    induction ids generalizing is with
    | nil =>
      obtain rfl := List.eq_nil_of_length_eq_zero hlen.symm
      rfl
    | cons id ids ih =>
      cases is with
      | nil => cases hlen
      | cons i is =>
        rw [List.zip_cons_cons, List.mapM_cons, List.mapM_cons, ih is (Nat.succ.inj hlen)]
        cases f i with
        | none => rfl
        | some r => cases is.mapM f <;> rfl
  have hlen : (categorizedIds t (parts.map Part.group)).length = (itemsOf t parts).length := by
    have hcount : ∀ start n, (((parts.map Part.group).zipIdx n |>.filter
        fun p => p.1.samplingParams.samplingType = t).map Prod.snd).length =
        ((withNoise start parts).filter fun i => itemType i = t).length := by
      intro start n
      induction parts generalizing start n with
      | nil => rfl
      | cons p parts ih =>
        rw [List.map_cons, List.zipIdx_cons, withNoise, List.filter_cons, List.filter_cons]
        by_cases ht : p.group.samplingParams.samplingType = t
        · have hitem : itemType (start, p) = t := ht
          rw [if_pos (decide_eq_true ht), if_pos (decide_eq_true hitem)]
          exact congrArg Nat.succ (ih _ _)
        · have hitem : ¬ itemType (start, p) = t := ht
          rw [if_neg fun htrue => ht (of_decide_eq_true htrue),
            if_neg fun htrue => hitem (of_decide_eq_true htrue)]
          exact ih _ _
    exact hcount 0 0
  unfold categoryResults
  rw [category_itemType]
  exact hzip _ _ hlen

/-- One type of `_sample`. -/
theorem sampleCategory_eq (h : Shaped isPrompt ops.vocabSize data parts) (t : SamplingType) :
    sampleCategory ops isPrompt data (parts.map Part.group)
        (parts.flatMap fun p =>
          p.promptLogits ops isPrompt flags ++ p.seqLogits ops isPrompt flags data)
        (categorizedRows isPrompt t 0 (parts.map Part.group)) t =
      categoryResults itemType (fun i => i.2.result ops isPrompt flags data i.1) t
        (withNoise 0 parts) := by
  have hgather := gather_categorizedRows flags h t
  unfold sampleCategory
  by_cases hempty : (categorizedRows isPrompt t 0 (parts.map Part.group)).isEmpty = true
  · -- a type without rows has no groups
    have hnil : itemsOf t parts = [] := by
      rw [List.isEmpty_iff.mp hempty] at hgather
      have hrows := (Option.some.inj hgather).symm
      apply List.eq_nil_iff_forall_not_mem.mpr
      intro i hi
      have hlen := length_seqLogits flags h (mem_of_mem_itemsOf hi)
      rw [List.flatMap_eq_nil_iff.mp hrows i hi] at hlen
      have hpos := h.pos _ (mem_of_mem_itemsOf hi)
      rw [← hlen] at hpos
      exact absurd hpos (Nat.lt_irrefl _)
    rw [if_pos hempty, categoryResults_eq, hnil]
    show some [] = some (List.zip _ [])
    rw [List.zip_nil_right]
  · rw [if_neg hempty, hgather, groupsOf_eq]
    show (sampleType ops isPrompt data t _ _).bind _ = _
    rw [sampleType_eq h, categoryResults_eq, Option.map_eq_bind]
    rfl

/-- The groups of a batch get what they get from their own rows. -/
theorem sample_eq (h : Shaped isPrompt ops.vocabSize data parts)
    {indices : SamplingType → List Nat}
    (hindices : ∀ t, indices t = categorizedRows isPrompt t 0 (parts.map Part.group)) :
    sample ops isPrompt data (parts.map Part.group)
        (parts.flatMap fun p =>
          p.promptLogits ops isPrompt flags ++ p.seqLogits ops isPrompt flags data) indices =
      (withNoise 0 parts).mapM fun i => i.2.result ops isPrompt flags data i.1 := by
  have hcover : ∀ i ∈ withNoise 0 parts,
      itemType i ∈ [SamplingType.greedy, SamplingType.random, SamplingType.beam] := by
    intro i _
    cases itemType i <;> decide
  have hlen : (parts.map Part.group).length = (withNoise 0 parts).length := by
    conv_lhs => rw [← map_snd_withNoise 0 parts, List.map_map, List.length_map]
  rw [← mapM_lookup_categories hcover]
  unfold sample
  rw [hindices, hindices, hindices, sampleCategory_eq h, sampleCategory_eq h, sampleCategory_eq h,
    hlen, List.mapM_cons, List.mapM_cons, List.mapM_cons]
  cases categoryResults itemType (fun i => i.2.result ops isPrompt flags data i.1) .greedy
    (withNoise 0 parts) with
  | none => rfl
  | some greedy =>
    cases categoryResults itemType (fun i => i.2.result ops isPrompt flags data i.1) .random
      (withNoise 0 parts) with
    | none => rfl
    | some random =>
      cases categoryResults itemType (fun i => i.2.result ops isPrompt flags data i.1) .beam
        (withNoise 0 parts) with
      | none => rfl
      | some beam =>
        show (List.range _).mapM _ = (List.range _).mapM _
        simp only [List.flatten_cons, List.flatten_nil, List.append_nil, List.reverse_nil,
          List.append_assoc]

end Types

end Mil.Sampler
