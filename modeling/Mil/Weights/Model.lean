import Mil.Lib.Staging

/-!
# A model whose layer weights are loaded from other cards

`LlamaModel` keeps most of its layers on the computing card. Every `pipeline_interval`-th layer,
the head of an interval, is cached elsewhere and is loaded into one of two shared slots shortly
before it runs. `pre_increase_oncard_layers` gives some of the heads slots of their own, taken
from the KV cache.

A forward pass issues one run per layer and the loads between them to the device; what it issues
is kept as a trace (`Mil.Lib.Staging`). A layer's weights come in one part per caching card, each
over a stream of its own and into its own part of the slot; the model is of one such part. The
runs are counted over all passes, and an event recorded behind a run is the number of runs it
waits for.
-/

set_option autoImplicit false

namespace Mil.Weights

open Mil.Lib.Staging (Trace Run Load)

/-- What Python raises. -/
inductive Err
  | zeroDivision
  | assertion
  | keyError
  | indexError
  deriving DecidableEq, Repr

/-- `a % n` of Python for a positive `n`. -/
def pyMod (a : Int) (n : Nat) : Nat := (a % n).toNat

/-- The fields of `LlamaModel` that concern the loading, and what it has issued. -/
structure LlamaModel where
  layerNum : Nat
  pipelineDegree : Nat
  pipelineInterval : Nat
  weightCacheBlockNum : Nat
  /-- `new_pipeline_degree` and `new_pipeline_interval`, both `None` outside an increase. -/
  newPipeline : Option (Nat × Nat)
  /-- The number of slots set up in the KV cache, behind the `weight_cache_block_num` others. -/
  extraWeightCacheNum : Nat
  extraWeightCacheBlkI : Nat
  weightCacheBlockIdx : Nat → Nat
  /-- The slot that the parameters of a layer point to. -/
  layerParams : Nat → Nat
  layerWaitingForParams : Nat → Bool
  /-- The load after which `load_param_events` of a layer was recorded last. -/
  loadParamEvents : Nat → Option Nat
  /-- The number of runs after which `synch_comp_events` of a layer was recorded last. -/
  synchCompEvents : Nat → Option Nat
  trace : Trace Nat Nat

/-! ## The start -/

/-- `xs[a:b] = ys`, which may lengthen the list. -/
def sliceAssign (xs : List Nat) (a b : Nat) (ys : List Nat) : List Nat :=
  xs.take a ++ ys ++ xs.drop b

/-- One interval of the slot assignment: its layers get consecutive slots, its head one of the two
shared ones. -/
def assignInterval (interval blockNum : Nat) (idx : List Nat) (intervalI : Nat) : List Nat :=
  (sliceAssign idx (intervalI * interval) ((intervalI + 1) * interval)
    (List.range' (intervalI * interval - intervalI) interval)).set
      (intervalI * interval) (intervalI % 2 * (blockNum - 1))

/-- `LlamaModel.__init__`, and `init_extra_weight_cache_in_KV_cache` when the on-card layers may
be increased. The parameters of each layer point to its slot. -/
def LlamaModel.init (layerNum weightLoadDegree : Nat) (dynamic : Bool) : Except Err LlamaModel :=
  if weightLoadDegree = 0 then .error .zeroDivision
  else
    let interval := (layerNum + weightLoadDegree - 1) / weightLoadDegree
    if interval = 0 then .error .zeroDivision
    else
      let degree := (layerNum + interval - 1) / interval
      let blockNum := layerNum - (degree - 1) + 1
      let idx := (List.range degree).foldl (assignInterval interval blockNum)
        (List.replicate layerNum 0)
      .ok {
        layerNum := layerNum
        pipelineDegree := degree
        pipelineInterval := interval
        weightCacheBlockNum := blockNum
        newPipeline := none
        extraWeightCacheNum := if dynamic then layerNum - blockNum else 0
        extraWeightCacheBlkI := blockNum
        weightCacheBlockIdx := fun l => idx.getD l 0
        layerParams := fun l => idx.getD l 0
        layerWaitingForParams := fun _ => false
        loadParamEvents := fun _ => none
        synchCompEvents := Function.update (fun _ => none) (pyMod (-1) degree * interval) (some 0)
        trace := .empty }

/-- `preprocess_for_offloading_weights_fast`: each layer that is not cached elsewhere is loaded
into its slot, then the first two heads into the two shared slots, if there are heads cached
elsewhere. -/
def LlamaModel.loadedSlots (m : LlamaModel) : Nat → Option Nat :=
  let slots := (List.range m.layerNum).foldl (fun slots l =>
    if l % m.pipelineInterval = 0 ∧ m.layerNum > m.weightCacheBlockNum then slots
    else Function.update slots (m.weightCacheBlockIdx l) (some l)) (fun _ => none)
  if m.layerNum > m.weightCacheBlockNum then
    Function.update (Function.update slots 0 (some 0)) (m.weightCacheBlockNum - 1)
      (some m.pipelineInterval)
  else slots

/-! ## Loads -/

/-- The slots in `buffer_params`, which are those in `extra_weight_cache`. -/
def LlamaModel.hasBuffer (m : LlamaModel) (slot : Nat) : Prop :=
  slot = 0 ∨ slot = m.weightCacheBlockNum - 1 ∨
    m.weightCacheBlockNum ≤ slot ∧ slot < m.weightCacheBlockNum + m.extraWeightCacheNum

instance (m : LlamaModel) (slot : Nat) : Decidable (m.hasBuffer slot) :=
  inferInstanceAs (Decidable (_ ∨ _ ∨ _ ∧ _))

/-- `cache_ops.load_layer_weights` and what goes with it: the load waits for the runs counted by
an event, its own event is recorded, and the layer has to wait for it. -/
def LlamaModel.issueLoad (m : LlamaModel) (layerI slot after : Nat) : LlamaModel :=
  { m with
    trace := m.trace.addLoad ⟨layerI, slot, after⟩
    loadParamEvents := Function.update m.loadParamEvents layerI (some m.trace.loads.length)
    layerWaitingForParams := Function.update m.layerWaitingForParams layerI true }

/-- `to_synch_comp_event.wait()`; an event that was never recorded does not hold a stream. -/
def LlamaModel.synchAfter (m : LlamaModel) (layerI : Nat) : Nat :=
  (m.synchCompEvents layerI).getD m.trace.runs.length

/-- A layer gets another slot, and its parameters are pointed there. -/
def LlamaModel.retarget (m : LlamaModel) (layerI slot : Nat) : LlamaModel :=
  { m with
    weightCacheBlockIdx := Function.update m.weightCacheBlockIdx layerI slot
    layerParams := Function.update m.layerParams layerI slot }

@[simp] theorem LlamaModel.retarget_idx_self (m : LlamaModel) (l slot : Nat) :
    (m.retarget l slot).weightCacheBlockIdx l = slot := Function.update_self ..

@[simp] theorem LlamaModel.retarget_params_self (m : LlamaModel) (l slot : Nat) :
    (m.retarget l slot).layerParams l = slot := Function.update_self ..

theorem LlamaModel.retarget_params_of_ne (m : LlamaModel) {l l' : Nat} (slot : Nat) (h : l' ≠ l) :
    (m.retarget l slot).layerParams l' = m.layerParams l' :=
  Function.update_of_ne h ..

def LlamaModel.loadLayerParamsNoDynamicIncreaseOnCardWeight (m : LlamaModel)
    (layerI lastLastLayerI : Nat) : Except Err LlamaModel := do
  let dst := m.weightCacheBlockIdx layerI
  let m ←
    if dst ≠ m.weightCacheBlockIdx lastLastLayerI then
      if dst ≤ m.weightCacheBlockNum - 1 ∧ m.hasBuffer (m.weightCacheBlockNum - 1 - dst) then
        .ok (m.retarget layerI (m.weightCacheBlockNum - 1 - dst))
      else .error .keyError
    else .ok m
  if m.weightCacheBlockIdx layerI < m.weightCacheBlockNum then
    .ok (m.issueLoad layerI (m.weightCacheBlockIdx layerI) (m.synchAfter lastLastLayerI))
  else .error .indexError

/-- The parameters of a layer are pointed to a slot. -/
def LlamaModel.pointParams (m : LlamaModel) (layerI slot : Nat) : LlamaModel :=
  { m with layerParams := Function.update m.layerParams layerI slot }

/-- The layer whose run frees the slot of `layerI` while the pipeline is being lengthened. -/
def LlamaModel.newLastLastLayer (m : LlamaModel) (newDegree newInterval layerI : Nat) : Nat :=
  if layerI / newInterval = 1 then 0
  else if layerI / newInterval = 2 then m.pipelineInterval
  else pyMod ((layerI / newInterval : Nat) - 2) newDegree * newInterval

def LlamaModel.loadLayerParamsWhenDynamicIncreaseOnCardWeight (m : LlamaModel)
    (newDegree newInterval layerI : Nat) : Except Err LlamaModel :=
  let dst := m.weightCacheBlockIdx layerI
  if m.hasBuffer dst then
    let after :=
      if layerI % newInterval = 0 ∧ newDegree ≠ 2 then
        m.synchAfter (m.newLastLastLayer newDegree newInterval layerI)
      else m.trace.runs.length
    .ok ((m.pointParams layerI dst).issueLoad layerI dst after)
  else .error .keyError

def LlamaModel.loadLayerParams (m : LlamaModel) (layerI lastLastLayerI : Nat) :
    Except Err LlamaModel :=
  match m.newPipeline with
  | none => m.loadLayerParamsNoDynamicIncreaseOnCardWeight layerI lastLastLayerI
  | some (newDegree, newInterval) =>
    if layerI = 0 then
      m.loadLayerParamsNoDynamicIncreaseOnCardWeight layerI (pyMod (-2) newDegree * newInterval)
    else do
      let m ← m.loadLayerParamsWhenDynamicIncreaseOnCardWeight newDegree newInterval layerI
      if layerI / m.pipelineInterval = 1 then
        m.loadLayerParamsNoDynamicIncreaseOnCardWeight newInterval
          (pyMod (-1) newDegree * newInterval)
      else .ok m

/-! ## A forward pass -/

/-- One layer more gets a slot of its own in the KV cache. -/
def LlamaModel.takeExtra (m : LlamaModel) (layerI : Nat) : LlamaModel :=
  { m with
    weightCacheBlockIdx := Function.update m.weightCacheBlockIdx layerI m.extraWeightCacheBlkI
    extraWeightCacheBlkI := m.extraWeightCacheBlkI + 1 }

/-- The slot of one head when two heads are left. -/
def LlamaModel.moveHeadToTwo (m : LlamaModel) (intervalI : Nat) : LlamaModel :=
  if intervalI ≥ 2 then m.takeExtra (intervalI * m.pipelineInterval) else m

/-- The slot of one head when more than two heads are left. -/
def LlamaModel.moveHead (newInterval : Nat) (m : LlamaModel) (intervalI : Nat) : LlamaModel :=
  let layerI := intervalI * m.pipelineInterval
  if layerI % newInterval ≠ 0 then m.takeExtra layerI
  else if layerI / newInterval < 2 then
    { m with
      weightCacheBlockIdx :=
        Function.update m.weightCacheBlockIdx layerI (m.weightCacheBlockIdx 0) }
  else
    { m with
      weightCacheBlockIdx := Function.update m.weightCacheBlockIdx layerI
        ((m.weightCacheBlockIdx 0 / (m.weightCacheBlockNum - 1) + layerI / newInterval - 1) % 2 *
          (m.weightCacheBlockNum - 1)) }

/-- `pre_increase_oncard_layers`, with `load_more_layer_on_card_num` layers to be put on the card.
The scheduler never asks for more layers than are cached elsewhere. -/
def LlamaModel.preIncreaseOncardLayers (m : LlamaModel) (moreLayerNum : Nat) :
    Except Err LlamaModel :=
  if moreLayerNum = 0 then .ok m
  else
    let newDegree := m.pipelineDegree - moreLayerNum
    if newDegree = 0 then .error .zeroDivision
    else
      let newInterval := (m.layerNum + newDegree - 1) / newDegree
      if newInterval = 0 then .error .zeroDivision
      else if newDegree ≠ (m.layerNum + newInterval - 1) / newInterval then .error .assertion
      else
        let m := { m with newPipeline := some (newDegree, newInterval) }
        if newDegree = 2 then
          .ok ((List.range m.pipelineDegree).foldl LlamaModel.moveHeadToTwo m)
        else
          .ok ((List.range m.pipelineDegree).foldl (LlamaModel.moveHead newInterval) m)

def LlamaModel.postIncreaseOncardLayers (m : LlamaModel) : LlamaModel :=
  match m.newPipeline with
  | none => m
  | some (newDegree, newInterval) =>
    { m with pipelineDegree := newDegree, pipelineInterval := newInterval, newPipeline := none }

/-- The loads that a layer waits for before it runs. -/
def LlamaModel.waits (m : LlamaModel) (i : Nat) : List Nat :=
  if m.layerWaitingForParams i then (m.loadParamEvents i).toList else []

/-- A layer waits for its parameters, if it has to, and runs from where they point. -/
def LlamaModel.runLayer (m : LlamaModel) (i : Nat) : LlamaModel :=
  { m with
    trace := m.trace.addRun ⟨i, m.layerParams i, m.waits i⟩
    layerWaitingForParams := Function.update m.layerWaitingForParams i false }

/-- `synch_comp_events` of a layer are recorded behind its run. -/
def LlamaModel.recordSynch (m : LlamaModel) (i : Nat) : LlamaModel :=
  { m with synchCompEvents := Function.update m.synchCompEvents i (some m.trace.runs.length) }

/-- The load issued behind the run of a head, for the head two places further on. -/
def LlamaModel.loadBehind (m : LlamaModel) (i : Nat) : Except Err LlamaModel :=
  let toLoadLayerI := (i / m.pipelineInterval + 2) % m.pipelineDegree * m.pipelineInterval
  if m.newPipeline.map Prod.fst = some 2 ∧ toLoadLayerI / m.pipelineInterval < 2 then .ok m
  else if toLoadLayerI ≠ i then m.loadLayerParams toLoadLayerI i
  else .ok m

/-- One iteration of the loop in `forward_ours`. -/
def LlamaModel.forwardLayer (m : LlamaModel) (i : Nat) : Except Err LlamaModel :=
  let m := m.runLayer i
  if i % m.pipelineInterval = 0 then (m.recordSynch i).loadBehind i
  else .ok m

/-- `forward_ours`, with the increase that the scheduler asks for. -/
def LlamaModel.forwardOurs (m : LlamaModel) (moreLayerNum : Nat) : Except Err LlamaModel := do
  let m ← m.preIncreaseOncardLayers moreLayerNum
  let m ← (List.range m.layerNum).foldlM LlamaModel.forwardLayer m
  return m.postIncreaseOncardLayers

/-- Consecutive forward passes, each with the number of layers to be put on the card. -/
def LlamaModel.forwardPasses (m : LlamaModel) (moreLayerNums : List Nat) :
    Except Err LlamaModel :=
  moreLayerNums.foldlM LlamaModel.forwardOurs m

/-! ## What an increase leaves alone -/

theorem foldl_eq_of_step {α γ : Type} {f : LlamaModel → α → LlamaModel} (g : LlamaModel → γ)
    (hstep : ∀ m a, g (f m a) = g m) (xs : List α) (m : LlamaModel) :
    g (xs.foldl f m) = g m := by
  induction xs generalizing m with
  | nil => rfl
  | cons a xs ih => exact (ih (f m a)).trans (hstep m a)

/-- What a degree must satisfy to be accepted by the worker. -/
def Accepted (layerNum degree : Nat) : Prop :=
  degree = (layerNum + (layerNum + degree - 1) / degree - 1) / ((layerNum + degree - 1) / degree)

instance (layerNum degree : Nat) : Decidable (Accepted layerNum degree) :=
  inferInstanceAs (Decidable (_ = _))

/-- The fields that moving the heads to other slots leaves alone. -/
def LlamaModel.shape (m : LlamaModel) : Nat × Nat × Nat × Nat × Option (Nat × Nat) :=
  (m.layerNum, m.pipelineDegree, m.pipelineInterval, m.weightCacheBlockNum, m.newPipeline)

theorem shape_moveHeadToTwo (m : LlamaModel) (k : Nat) : (m.moveHeadToTwo k).shape = m.shape := by
  unfold LlamaModel.moveHeadToTwo
  split <;> rfl

theorem shape_moveHead (newInterval : Nat) (m : LlamaModel) (k : Nat) :
    (m.moveHead newInterval k).shape = m.shape := by
  unfold LlamaModel.moveHead
  dsimp only
  split
  · rfl
  · split <;> rfl

theorem preIncreaseOncardLayers_zero (m : LlamaModel) : m.preIncreaseOncardLayers 0 = .ok m :=
  rfl

/-- An increase to an accepted degree goes through. -/
theorem preIncreaseOncardLayers_accepted {m : LlamaModel} {n : Nat} (hlt : n < m.pipelineDegree)
    (hL : 0 < m.layerNum) (hacc : Accepted m.layerNum (m.pipelineDegree - n)) :
    ∃ m', m.preIncreaseOncardLayers n = .ok m' := by
  have hI : (m.layerNum + (m.pipelineDegree - n) - 1) / (m.pipelineDegree - n) ≠ 0 := by
    intro h
    have := (Nat.div_eq_zero_iff_lt (by omega)).mp h
    omega
  unfold Accepted at hacc
  rw [LlamaModel.preIncreaseOncardLayers]
  split
  · exact ⟨m, rfl⟩
  · dsimp only
    rw [if_neg (by omega), if_neg hI, if_neg (fun h => h hacc)]
    split
    · exact ⟨_, rfl⟩
    · exact ⟨_, rfl⟩

/-- An increase that goes through sets the new degree and moves heads to other slots. -/
theorem preIncreaseOncardLayers_shape {m m' : LlamaModel} {n : Nat} (hn : n ≠ 0)
    (h : m.preIncreaseOncardLayers n = .ok m') :
    m'.shape = (m.layerNum, m.pipelineDegree, m.pipelineInterval, m.weightCacheBlockNum,
      some (m.pipelineDegree - n,
        (m.layerNum + (m.pipelineDegree - n) - 1) / (m.pipelineDegree - n))) := by
  rw [LlamaModel.preIncreaseOncardLayers, if_neg hn] at h
  dsimp only at h
  split at h
  · cases h
  split at h
  · cases h
  split at h
  · cases h
  split at h
  · obtain rfl := Except.ok.inj h
    exact foldl_eq_of_step LlamaModel.shape shape_moveHeadToTwo _ _
  · obtain rfl := Except.ok.inj h
    exact foldl_eq_of_step LlamaModel.shape (shape_moveHead _) _ _

/-- The degree after an increase. -/
theorem postIncreaseOncardLayers_shape {m : LlamaModel} {L D I W newD newI : Nat}
    (h : m.shape = (L, D, I, W, some (newD, newI))) :
    m.postIncreaseOncardLayers.shape = (L, newD, newI, W, none) := by
  simp only [LlamaModel.shape, Prod.mk.injEq] at h
  obtain ⟨rfl, -, -, rfl, hnew⟩ := h
  rw [LlamaModel.postIncreaseOncardLayers, hnew]
  rfl

end Mil.Weights
