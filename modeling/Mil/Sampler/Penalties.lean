import Mathlib.Data.Rat.Defs
import Mil.Lib.Bins
import Mil.Lib.FoldM

/-!
# Penalties

`_apply_penalties` of `vllm/model_executor/layers/sampler.py` with the token tensors that
`SamplingTensors.from_lists` of `vllm/model_executor/sampling_metadata.py` makes for it: the tokens of
all rows stand in one tensor without padding, moved to the bins of their rows. The functions that
these have replaced are there too, and pad the tokens of each row. Both give the same logits
(`applyPenalties_eq_vllm`), those of each row on its own (`applyPenalties_eq_rows`), as long as no
token is above the vocabulary.
-/

set_option autoImplicit false

namespace Mil.Sampler

open Mil.Lib

/-- The arithmetic of logits. -/
structure Floats (Logit : Type) where
  ofRat : Rat → Logit
  ofNat : Nat → Logit
  isPos : Logit → Bool
  add : Logit → Logit → Logit
  mul : Logit → Logit → Logit
  div : Logit → Logit → Logit
  sub : Logit → Logit → Logit

/-- The penalties of a row. -/
structure Penalties where
  presence : Rat
  frequency : Rat
  repetition : Rat

variable {Logit : Type}

/-! ## The source -/

/-- `bin_counts[:, :vocab_size]` and its mask. -/
def countsAndMask (vocabSize : Nat) (bins : List (List Nat)) :
    List (List Nat) × List (List Bool) :=
  let binCounts := bins.map (List.take vocabSize)
  (binCounts, binCounts.map fun counts => counts.map (0 < ·))

/-- `_get_bin_counts_and_mask` -/
def getBinCountsAndMask (tokens : List Nat) (vocabSize numSeqs : Nat) :
    Option (List (List Nat) × List (List Bool)) :=
  (scatterAdd (List.replicate (numSeqs * (vocabSize + 1)) 0) tokens).map fun binCounts =>
    countsAndMask vocabSize (view numSeqs (vocabSize + 1) binCounts)

/-- The token tensors of `from_lists`. -/
def tokenTensor (vocabSize : Nat) (tokens : List (List Nat)) : List Nat :=
  flattened (vocabSize + 1) tokens

/-- `_get_bin_counts_and_mask_vllm`; the index may have fewer rows than there are bins for. -/
def getBinCountsAndMaskVllm (tokens : List (List Nat)) (vocabSize numSeqs : Nat) :
    Option (List (List Nat) × List (List Bool)) :=
  if tokens.length ≤ numSeqs then
    ((List.range numSeqs).mapM fun r =>
      scatterAdd (List.replicate (vocabSize + 1) 0) (tokens.getD r [])).map
        (countsAndMask vocabSize)
  else none

/-- The token tensors of `from_lists_vllm`. Without rows its `max()` raises; here there is nothing to
pad. -/
def tokenTensorVllm (vocabSize : Nat) (tokens : List (List Nat)) : List (List Nat) :=
  let maxLen := (tokens.map List.length).foldl max 0
  tokens.map fun row => row ++ List.replicate (maxLen - row.length) vocabSize

/-- The logit of a token that is in the prompt or not, and so often in the output. -/
def penalize (F : Floats Logit) (p : Penalties) (inPrompt : Bool) (outputCount : Nat)
    (inOutput : Bool) (logit : Logit) : Logit :=
  let repetition := F.ofRat (if inPrompt || inOutput then p.repetition else 1)
  let logit := if F.isPos logit then F.div logit repetition else F.mul logit repetition
  let logit := F.sub logit (F.mul (F.ofRat p.frequency) (F.ofNat outputCount))
  F.sub logit (F.mul (F.ofRat p.presence) (F.ofNat inOutput.toNat))

def penalizeRow (F : Floats Logit) (p : Penalties) (promptMask : List Bool)
    (outputBinCounts : List Nat) (outputMask : List Bool) (logits : List Logit) : List Logit :=
  List.zipWith (fun (inPrompt, outputCount, inOutput) logit =>
    penalize F p inPrompt outputCount inOutput logit)
    (promptMask.zip (outputBinCounts.zip outputMask)) logits

/-- The end of both functions, row by row. -/
def penalizeRows (F : Floats Logit) (penalties : List Penalties) (promptMask : List (List Bool))
    (outputBinCounts : List (List Nat)) (outputMask : List (List Bool))
    (logits : List (List Logit)) : List (List Logit) :=
  List.zipWith (fun (p, promptMask, outputBinCounts, outputMask) row =>
    penalizeRow F p promptMask outputBinCounts outputMask row)
    (penalties.zip (promptMask.zip (outputBinCounts.zip outputMask))) logits

/-- `_apply_penalties` -/
def applyPenalties (F : Floats Logit) (vocabSize : Nat) (promptTokens outputTokens : List Nat)
    (penalties : List Penalties) (logits : List (List Logit)) : Option (List (List Logit)) := do
  let (_, promptMask) ← getBinCountsAndMask promptTokens vocabSize logits.length
  let (outputBinCounts, outputMask) ← getBinCountsAndMask outputTokens vocabSize logits.length
  return penalizeRows F penalties promptMask outputBinCounts outputMask logits

/-- `_apply_penalties_vllm` -/
def applyPenaltiesVllm (F : Floats Logit) (vocabSize : Nat)
    (promptTokens outputTokens : List (List Nat)) (penalties : List Penalties)
    (logits : List (List Logit)) : Option (List (List Logit)) := do
  let (_, promptMask) ← getBinCountsAndMaskVllm promptTokens vocabSize logits.length
  let (outputBinCounts, outputMask) ← getBinCountsAndMaskVllm outputTokens vocabSize logits.length
  return penalizeRows F penalties promptMask outputBinCounts outputMask logits

/-! ## The bins -/

section Bins

variable {vocabSize : Nat} {tokens : List (List Nat)}

/-- How often each token of the vocabulary is in a row. -/
def tokenCounts (vocabSize : Nat) (row : List Nat) : List Nat := (List.range vocabSize).map row.count

def tokenMask (vocabSize : Nat) (row : List Nat) : List Bool :=
  (tokenCounts vocabSize row).map (0 < ·)

theorem countsAndMask_eq {bins : List (List Nat)}
    (h : bins.map (List.take vocabSize) = tokens.map (tokenCounts vocabSize)) :
    countsAndMask vocabSize bins =
      (tokens.map (tokenCounts vocabSize), tokens.map (tokenMask vocabSize)) := by
  have hmask : (tokens.map (tokenCounts vocabSize)).map (fun counts : List Nat =>
      counts.map fun n => decide (0 < n)) = tokens.map (tokenMask vocabSize) := List.map_map
  unfold countsAndMask
  rw [h]
  exact congrArg _ hmask

/-- The last bin is cut off. -/
theorem take_counts (row : List Nat) :
    ((List.range (vocabSize + 1)).map row.count).take vocabSize = tokenCounts vocabSize row := by
  rw [← List.map_take, List.take_range, Nat.min_eq_left (Nat.le_succ _)]
  rfl

theorem getBinCountsAndMask_tokenTensor
    (htokens : ∀ row ∈ tokens, ∀ t ∈ row, t ≤ vocabSize) :
    getBinCountsAndMask (tokenTensor vocabSize tokens) vocabSize tokens.length =
      some (tokens.map (tokenCounts vocabSize), tokens.map (tokenMask vocabSize)) := by
  have hview := view_flattened fun row hrow t ht => Nat.lt_succ_of_le (htokens row hrow t ht)
  obtain ⟨bins, hbins, hview⟩ := Option.map_eq_some_iff.mp hview
  unfold getBinCountsAndMask tokenTensor
  rw [hbins, Option.map_some, hview]
  refine congrArg some (countsAndMask_eq ?_)
  rw [List.map_map]
  exact List.map_congr_left fun row _ => take_counts row

/-- The padding is counted in the last bin. -/
theorem take_counts_padded (row : List Nat) (n : Nat) :
    ((List.range (vocabSize + 1)).map (row ++ List.replicate n vocabSize).count).take vocabSize =
      tokenCounts vocabSize row := by
  rw [take_counts]
  apply List.map_congr_left
  intro t ht
  have hne : vocabSize ≠ t := Nat.ne_of_gt (List.mem_range.mp ht)
  rw [List.count_append, List.count_replicate, if_neg (by simpa using hne), Nat.add_zero]

theorem mapM_range_getD {β : Type} (rows : List (List Nat)) (f : List Nat → Option β) :
    ((List.range rows.length).mapM fun r => f (rows.getD r [])) = rows.mapM f := by
  have hrows : (List.range rows.length).map (fun r => rows.getD r []) = rows := by
    apply List.ext_getElem
    · rw [List.length_map, List.length_range]
    · intro r hr hr'
      rw [List.getElem_map, List.getElem_range, List.getD_eq_getElem _ _ hr']
  conv_rhs => rw [← hrows, List.mapM_map]
  rfl

theorem getBinCountsAndMaskVllm_tokenTensor
    (htokens : ∀ row ∈ tokens, ∀ t ∈ row, t ≤ vocabSize) :
    getBinCountsAndMaskVllm (tokenTensorVllm vocabSize tokens) vocabSize tokens.length =
      some (tokens.map (tokenCounts vocabSize), tokens.map (tokenMask vocabSize)) := by
  let pad := fun row : List Nat => row ++
    List.replicate ((tokens.map List.length).foldl max 0 - row.length) vocabSize
  have hlen : (tokens.map pad).length = tokens.length := List.length_map _
  have hrows : (tokens.map pad).mapM (scatterAdd (List.replicate (vocabSize + 1) 0)) =
      some (tokens.map fun row => (List.range (vocabSize + 1)).map (pad row).count) := by
    rw [List.mapM_map]
    apply mapM_of_forall
    intro row hrow
    apply scatterAdd_replicate
    intro t ht
    rcases List.mem_append.mp ht with ht | ht
    · exact Nat.lt_succ_of_le (htokens row hrow t ht)
    · rw [List.eq_of_mem_replicate ht]
      exact Nat.lt_succ_self _
  have hmap := mapM_range_getD (tokens.map pad) (scatterAdd (List.replicate (vocabSize + 1) 0))
  rw [hlen, hrows] at hmap
  show (if (tokens.map pad).length ≤ tokens.length then _ else none) = _
  rw [if_pos (Nat.le_of_eq hlen)]
  refine (congrArg (Option.map (countsAndMask vocabSize)) hmap).trans ?_
  refine congrArg some (countsAndMask_eq ?_)
  rw [List.map_map]
  exact List.map_congr_left fun row _ => take_counts_padded row _

end Bins

/-! ## Both versions -/

section Rows

variable {F : Floats Logit} {vocabSize : Nat} {ι : Type} {rows : List ι}
  {penalties : ι → Penalties} {prompt output : ι → List Nat} {logits : List (List Logit)}

/-- What a row becomes. -/
def penalized (F : Floats Logit) (vocabSize : Nat) (p : Penalties) (prompt output : List Nat)
    (row : List Logit) : List Logit :=
  penalizeRow F p (tokenMask vocabSize prompt) (tokenCounts vocabSize output)
    (tokenMask vocabSize output) row

theorem penalizeRows_map :
    penalizeRows F (rows.map penalties) (rows.map fun r => tokenMask vocabSize (prompt r))
        (rows.map fun r => tokenCounts vocabSize (output r))
        (rows.map fun r => tokenMask vocabSize (output r)) logits =
      List.zipWith (fun r row => penalized F vocabSize (penalties r) (prompt r) (output r) row) rows
        logits := by
  unfold penalizeRows
  rw [List.zip_map', List.zip_map', List.zip_map', List.zipWith_map_left]
  rfl

/-- Every row is penalised for its own tokens. -/
theorem applyPenalties_eq_rows (hlen : logits.length = rows.length)
    (hprompt : ∀ r ∈ rows, ∀ t ∈ prompt r, t ≤ vocabSize)
    (houtput : ∀ r ∈ rows, ∀ t ∈ output r, t ≤ vocabSize) :
    applyPenalties F vocabSize (tokenTensor vocabSize (rows.map prompt))
        (tokenTensor vocabSize (rows.map output)) (rows.map penalties) logits =
      some (List.zipWith (fun r row => penalized F vocabSize (penalties r) (prompt r) (output r) row)
        rows logits) := by
  have hprompt' := getBinCountsAndMask_tokenTensor (List.forall_mem_map.mpr hprompt)
  have houtput' := getBinCountsAndMask_tokenTensor (List.forall_mem_map.mpr houtput)
  rw [List.length_map, ← hlen] at hprompt' houtput'
  unfold applyPenalties
  rw [hprompt', houtput']
  show some (penalizeRows _ _ _ _ _ _) = _
  rw [List.map_map, List.map_map, List.map_map]
  exact congrArg some penalizeRows_map

/-- The flat tensors and the padded ones give the same logits. -/
theorem applyPenalties_eq_vllm (penalties : ι → Penalties) (hlen : logits.length = rows.length)
    (hprompt : ∀ r ∈ rows, ∀ t ∈ prompt r, t ≤ vocabSize)
    (houtput : ∀ r ∈ rows, ∀ t ∈ output r, t ≤ vocabSize) :
    applyPenalties F vocabSize (tokenTensor vocabSize (rows.map prompt))
        (tokenTensor vocabSize (rows.map output)) (rows.map penalties) logits =
      applyPenaltiesVllm F vocabSize (tokenTensorVllm vocabSize (rows.map prompt))
        (tokenTensorVllm vocabSize (rows.map output)) (rows.map penalties) logits := by
  have hprompt' := getBinCountsAndMaskVllm_tokenTensor (List.forall_mem_map.mpr hprompt)
  have houtput' := getBinCountsAndMaskVllm_tokenTensor (List.forall_mem_map.mpr houtput)
  rw [List.length_map, ← hlen] at hprompt' houtput'
  rw [applyPenalties_eq_rows hlen hprompt houtput]
  unfold applyPenaltiesVllm
  rw [hprompt', houtput']
  show _ = some (penalizeRows _ _ _ _ _ _)
  rw [List.map_map, List.map_map, List.map_map]
  exact congrArg some penalizeRows_map.symm

end Rows

def rationals : Floats Rat where
  ofRat := id
  ofNat := fun n => n
  isPos := fun x => 0 < x
  add := (· + ·)
  mul := (· * ·)
  div := (· / ·)
  sub := (· - ·)

/-- The penalties, the prompt and the output of two rows. -/
def twoRows : List (Penalties × List Nat × List Nat) :=
  [(⟨1, 2, 4⟩, [0, 2, 2], [1]), (⟨0, 1, 2⟩, [1], [0, 0])]

theorem applyPenalties_eq_vllm_twoRows :
    applyPenalties rationals 3 (tokenTensor 3 [[0, 2, 2], [1]]) (tokenTensor 3 [[1], [0, 0]])
        [⟨1, 2, 4⟩, ⟨0, 1, 2⟩] [[8, 8, -1], [8, 8, 5]] =
      applyPenaltiesVllm rationals 3 (tokenTensorVllm 3 [[0, 2, 2], [1]])
        (tokenTensorVllm 3 [[1], [0, 0]]) [⟨1, 2, 4⟩, ⟨0, 1, 2⟩] [[8, 8, -1], [8, 8, 5]] := by
  have hprompt : ∀ r ∈ twoRows, ∀ t ∈ r.2.1, t ≤ 3 := by decide
  have houtput : ∀ r ∈ twoRows, ∀ t ∈ r.2.2, t ≤ 3 := by decide
  have hlen : [[8, 8, -1], [8, 8, (5 : Rat)]].length = twoRows.length := rfl
  exact applyPenalties_eq_vllm Prod.fst hlen hprompt houtput

/-- Without padding, a token above the vocabulary is counted for the next row. -/
example : getBinCountsAndMask (tokenTensor 2 [[4], [0]]) 2 2 =
      some ([[0, 0], [1, 1]], [[false, false], [true, true]]) ∧
    getBinCountsAndMaskVllm (tokenTensorVllm 2 [[4], [0]]) 2 2 = none := by
  decide

end Mil.Sampler
