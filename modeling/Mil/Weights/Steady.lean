import Mathlib.Data.Nat.ModEq
import Mil.Weights.Slots

/-!
# Passes that keep the slots

With three heads or more the heads take turns in the two shared slots: behind the run of a head the
head two places further on is loaded into the slot that has just become free, so that at every
moment the next two heads to run have the two slots (`Rolling`). With one or two heads nothing is
loaded at all (`Still`). Both hold at the start and are kept by every layer of every pass without
an increase, and they make the issued trace a staged one.
-/

set_option autoImplicit false

namespace Mil.Weights

open Mil.Lib.Staging

variable {start : Nat → Option Nat}

/-- The layer can run from where its parameters point. -/
def Ready (start : Nat → Option Nat) (m : LlamaModel) (l : Nat) : Prop :=
  m.trace.Holds start (m.layerParams l) l (m.waits l)

/-! ## Runs and loads -/

section

variable {m m' : LlamaModel} {i l : Nat}

theorem Ready.congr (h : Ready start m l) (htrace : m'.trace = m.trace)
    (hparams : m'.layerParams l = m.layerParams l) (hwaits : m'.waits l = m.waits l) :
    Ready start m' l := by
  rw [Ready, htrace, hparams, hwaits]
  exact h

theorem waits_runLayer_self : (m.runLayer i).waits i = [] := by
  rw [LlamaModel.waits, LlamaModel.runLayer]
  simp only [Function.update_self, Bool.false_eq_true, if_false]

theorem waits_runLayer_of_ne (h : l ≠ i) : (m.runLayer i).waits l = m.waits l := by
  rw [LlamaModel.waits, LlamaModel.waits, LlamaModel.runLayer]
  simp only [Function.update_of_ne h]

/-- A run leaves every layer ready, the one that has run included. -/
theorem Ready.runLayer (h : Ready start m l) (hi : Ready start m i) :
    Ready start (m.runLayer i) l := by
  by_cases hl : l = i
  · subst hl
    rw [Ready, waits_runLayer_self]
    exact Trace.Holds.done (r := ⟨l, m.layerParams l, m.waits l⟩) hi
  · rw [Ready, waits_runLayer_of_ne hl]
    exact Trace.Holds.addRun h _

theorem staged_runLayer (h : Staged start m.trace) (hi : Ready start m i) :
    Staged start (m.runLayer i).trace :=
  .run ⟨i, m.layerParams i, m.waits i⟩ h hi

/-- The slot of a layer that has run is clear. -/
theorem clear_runLayer (hi : Ready start m i) :
    (m.runLayer i).trace.Clear (m.layerParams i) (m.runLayer i).trace.runs.length := by
  have := Trace.Holds.clear (r := ⟨i, m.layerParams i, m.waits i⟩) hi
  rwa [← Trace.length_addRun] at this

theorem length_runLayer : (m.runLayer i).trace.runs.length = m.trace.runs.length + 1 :=
  Trace.length_addRun _ _

theorem waits_issueLoad_self {slot after : Nat} :
    (m.issueLoad l slot after).waits l = [m.trace.loads.length] := by
  rw [LlamaModel.waits, LlamaModel.issueLoad]
  simp only [Function.update_self, if_true, Option.toList_some]

theorem waits_issueLoad_of_ne {l' slot after : Nat} (h : l ≠ l') :
    (m.issueLoad l' slot after).waits l = m.waits l := by
  rw [LlamaModel.waits, LlamaModel.waits, LlamaModel.issueLoad]
  simp only [Function.update_of_ne h]

/-- A load into another slot for another layer leaves a layer ready. -/
theorem Ready.issueLoad (h : Ready start m l) {l' slot after : Nat} (hl : l ≠ l')
    (hslot : m.layerParams l ≠ slot) : Ready start (m.issueLoad l' slot after) l := by
  rw [Ready, waits_issueLoad_of_ne hl]
  exact Trace.Holds.addLoad h (Ne.symm hslot)

theorem Ready.retarget (h : Ready start m l) {l' slot : Nat} (hne : l ≠ l') :
    Ready start (m.retarget l' slot) l := by
  have hparams : (m.retarget l' slot).layerParams l = m.layerParams l :=
    m.retarget_params_of_ne slot hne
  rw [Ready, hparams]
  exact h

/-- A load into a clear slot makes the layer ready whose parameters point there. -/
theorem ready_issueLoad {slot after u : Nat} (h : m.trace.Clear slot u)
    (hu : u ≤ m.trace.runs.length) (hparams : m.layerParams l = slot) :
    Ready start (m.issueLoad l slot after) l := by
  subst hparams
  rw [Ready, waits_issueLoad_self]
  exact Trace.Clear.holds_addLoad (l := ⟨l, m.layerParams l, after⟩) h hu

theorem staged_issueLoad (h : Staged start m.trace) {slot after : Nat}
    (hclear : m.trace.Clear slot after) : Staged start (m.issueLoad l slot after).trace :=
  .load ⟨l, slot, after⟩ h hclear

/-- Of two shared slots the other one is where the freed slot is. -/
theorem loadLayerParamsNoDynamic_ok {last : Nat} (hB : 2 ≤ m.weightCacheBlockNum)
    (hl : m.weightCacheBlockIdx l = 0 ∨ m.weightCacheBlockIdx l = m.weightCacheBlockNum - 1)
    (hlast : m.weightCacheBlockIdx last = 0 ∨
      m.weightCacheBlockIdx last = m.weightCacheBlockNum - 1)
    (hparams : m.layerParams l = m.weightCacheBlockIdx l) :
    m.loadLayerParamsNoDynamicIncreaseOnCardWeight l last =
      .ok ((m.retarget l (m.weightCacheBlockIdx last)).issueLoad l (m.weightCacheBlockIdx last)
        (m.synchAfter last)) := by
  rw [LlamaModel.loadLayerParamsNoDynamicIncreaseOnCardWeight]
  dsimp only
  have hlt : m.weightCacheBlockIdx last < m.weightCacheBlockNum := by omega
  split
  · rename_i hne
    have hother : m.weightCacheBlockNum - 1 - m.weightCacheBlockIdx l =
        m.weightCacheBlockIdx last := by omega
    rw [hother, if_pos ⟨by omega, by rw [LlamaModel.hasBuffer]; omega⟩]
    change (if (m.retarget l (m.weightCacheBlockIdx last)).weightCacheBlockIdx l <
      m.weightCacheBlockNum then _ else _) = _
    rw [LlamaModel.retarget_idx_self, if_pos hlt]
    rfl
  · rename_i heq
    rw [not_not] at heq
    have hsame : m.retarget l (m.weightCacheBlockIdx last) = m := by
      rw [LlamaModel.retarget, ← heq, Function.update_eq_self, ← hparams, Function.update_eq_self]
    rw [hsame]
    change (if m.weightCacheBlockIdx l < m.weightCacheBlockNum then _ else _) = _
    rw [heq, if_pos hlt]

end

/-! ## Three heads or more -/

/-- The numbers that stay the same between increases: the layers, the heads, the interval, and the
slots in front of the KV cache. -/
structure Pipeline (L D I B : Nat) : Prop where
  interval_pos : 0 < I
  degree : D = heads L I
  two_le_block : 2 ≤ B

/-- The slots of the layers that are not heads are different and none of them is a shared slot. -/
structure Apart (L I B : Nat) (idx : Nat → Nat) : Prop where
  unshared : ∀ l < L, l % I ≠ 0 → idx l ≠ 0 ∧ idx l ≠ B - 1
  inj : ∀ l < L, ∀ l' < L, l % I ≠ 0 → l' % I ≠ 0 → idx l = idx l' → l = l'

/-- The model after the runs of `c` heads of a pass. -/
structure Rolling (start : Nat → Option Nat) (L D I B : Nat) (m : LlamaModel) (c : Nat) : Prop where
  shape : m.shape = (L, D, I, B, none)
  staged : Staged start m.trace
  params : ∀ l < L, m.layerParams l = m.weightCacheBlockIdx l
  resident : ∀ l < L, l % I ≠ 0 → Ready start m l
  slots : Apart L I B m.weightCacheBlockIdx
  shared : ∀ l < L, l % I = 0 → m.weightCacheBlockIdx l = 0 ∨ m.weightCacheBlockIdx l = B - 1
  next : Ready start m (c % D * I)
  afterNext : Ready start m ((c + 1) % D * I)
  other : m.weightCacheBlockIdx (c % D * I) ≠ m.weightCacheBlockIdx ((c + 1) % D * I)
  /-- The slots that no layer has had yet are untouched. -/
  below : B ≤ m.extraWeightCacheBlkI ∧ ∀ l < L, m.weightCacheBlockIdx l < m.extraWeightCacheBlkI
  fresh : ∀ p, m.extraWeightCacheBlkI ≤ p → m.trace.Clear p 0

section

variable {L D I B c i : Nat} {m : LlamaModel}

theorem Pipeline.head_lt (hp : Pipeline L D I B) (k : Nat) (hD : 0 < D) : k % D * I < L :=
  (lt_heads_iff hp.interval_pos).mp (by rw [← hp.degree]; exact Nat.mod_lt k hD)

/-- A layer that is not a head runs. -/
theorem Rolling.runLayer (h : Rolling start L D I B m c) (hi : i < L) (hready : Ready start m i) :
    Rolling start L D I B (m.runLayer i) c where
  shape := h.shape
  staged := staged_runLayer h.staged hready
  params := h.params
  resident l hl hmod := (h.resident l hl hmod).runLayer hready
  slots := h.slots
  shared := h.shared
  next := h.next.runLayer hready
  afterNext := h.afterNext.runLayer hready
  other := h.other
  below := h.below
  fresh p hp := by
    refine (h.fresh p hp).addRun ?_
    have := h.below.2 i hi
    rw [← h.params i hi] at this
    exact Nat.ne_of_lt (Nat.lt_of_lt_of_le this hp)

theorem Rolling.recordSynch (h : Rolling start L D I B m c) (i : Nat) :
    Rolling start L D I B (m.recordSynch i) c :=
  ⟨h.shape, h.staged, h.params, h.resident, h.slots, h.shared, h.next, h.afterNext, h.other,
    h.below, h.fresh⟩

theorem mod_ne_mod_add {D : Nat} (a : Nat) {b : Nat} (hb : 0 < b) (hlt : b < D) :
    a % D ≠ (a + b) % D := by
  intro h
  have hdvd : D ∣ a + b - a := (Nat.modEq_iff_dvd' (Nat.le_add_right a b)).mp h
  rw [Nat.add_sub_cancel_left] at hdvd
  exact Nat.not_le_of_lt hlt (Nat.le_of_dvd hb hdvd)

/-- Behind the run of head `c` the head after the next is loaded into its slot. -/
theorem Rolling.load (hp : Pipeline L D I B) (hD : 3 ≤ D) (h : Rolling start L D I B m c)
    (hclear : m.trace.Clear (m.weightCacheBlockIdx (c % D * I)) m.trace.runs.length) :
    Rolling start L D I B
      ((m.retarget ((c + 2) % D * I) (m.weightCacheBlockIdx (c % D * I))).issueLoad
        ((c + 2) % D * I) (m.weightCacheBlockIdx (c % D * I)) m.trace.runs.length) (c + 1) := by
  have hlt : ∀ k, k % D * I < L := fun k => hp.head_lt k (by omega)
  have hslot := h.shared _ (hlt c) (Nat.mul_mod_left _ I)
  have hother := h.other
  have hnext : (c + 1) % D * I ≠ (c + 2) % D * I := fun heq =>
    mod_ne_mod_add (c + 1) Nat.one_pos (by omega) (Nat.eq_of_mul_eq_mul_right hp.interval_pos heq)
  have hold := h.afterNext
  have hbelow := h.below.2 _ (hlt c)
  have hne : ∀ l < L, l % I ≠ 0 → l ≠ (c + 2) % D * I := fun l _ hmod heq => hmod (by
    rw [heq, Nat.mul_mod_left])
  have hidx : ∀ l, l ≠ (c + 2) % D * I →
      Function.update m.weightCacheBlockIdx ((c + 2) % D * I)
        (m.weightCacheBlockIdx (c % D * I)) l = m.weightCacheBlockIdx l :=
    fun l hl => Function.update_of_ne hl ..
  have htarget : (c + 1 + 1) % D * I < L ∧ (c + 1 + 1) % D * I % I = 0 :=
    ⟨hlt (c + 2), Nat.mul_mod_left _ I⟩
  generalize hto : (c + 2) % D * I = target at *
  generalize m.weightCacheBlockIdx (c % D * I) = p at *
  -- the load disturbs nothing that runs from another slot
  have hready : ∀ l, l ≠ target → m.layerParams l ≠ p → Ready start m l →
      Ready start ((m.retarget target p).issueLoad target p m.trace.runs.length) l := by
    intro l hl hparams hready
    have hparams' := m.retarget_params_of_ne p hl
    exact (hready.retarget hl).issueLoad hl (hparams' ▸ hparams)
  have hself := m.retarget_params_self target p
  refine ⟨h.shape, staged_issueLoad h.staged hclear, fun l hl => ?_, fun l hl hmod => ?_,
    ⟨fun l hl hmod => ?_, fun l hl l' hl' hmod hmod' heq => ?_⟩, fun l hl hmod => ?_, ?_, ?_, ?_,
    ⟨h.below.1, fun l hl => ?_⟩, fun q hq => ?_⟩
  · change Function.update m.layerParams target p l = Function.update m.weightCacheBlockIdx target p l
    by_cases heq : l = target
    · rw [heq, Function.update_self, Function.update_self]
    · rw [hidx l heq, Function.update_of_ne heq]
      exact h.params l hl
  · refine hready l (hne l hl hmod) ?_ (h.resident l hl hmod)
    have := h.slots.unshared l hl hmod
    rw [h.params l hl]
    omega
  · have := h.slots.unshared l hl hmod
    rwa [← hidx l (hne l hl hmod)] at this
  · refine h.slots.inj l hl l' hl' hmod hmod' ?_
    rw [← hidx l (hne l hl hmod), ← hidx l' (hne l' hl' hmod')]
    exact heq
  · change Function.update m.weightCacheBlockIdx target p l = 0 ∨
      Function.update m.weightCacheBlockIdx target p l = B - 1
    by_cases heq : l = target
    · rwa [heq, Function.update_self]
    · rw [hidx l heq]
      exact h.shared l hl hmod
  · refine hready _ hnext ?_ hold
    rw [h.params _ (hlt (c + 1))]
    exact Ne.symm hother
  · rw [show (c + 1 + 1) % D * I = target from hto]
    exact ready_issueLoad (m := m.retarget target p) hclear (le_refl _) hself
  · change Function.update m.weightCacheBlockIdx target p ((c + 1) % D * I) ≠
      Function.update m.weightCacheBlockIdx target p ((c + 1 + 1) % D * I)
    rw [show (c + 1 + 1) % D * I = target from hto, Function.update_self, hidx _ hnext]
    exact Ne.symm hother
  · change Function.update m.weightCacheBlockIdx target p l < m.extraWeightCacheBlkI
    by_cases heq : l = target
    · rw [heq, Function.update_self]
      exact hbelow
    · rw [hidx l heq]
      exact h.below.2 l hl
  · exact (h.fresh q hq).addLoad (l := ⟨target, p, m.trace.runs.length⟩)
      (Nat.ne_of_lt (Nat.lt_of_lt_of_le hbelow hq))

theorem shape_eq_iff {L D I B : Nat} {m : LlamaModel} {new : Option (Nat × Nat)} :
    m.shape = (L, D, I, B, new) ↔ m.layerNum = L ∧ m.pipelineDegree = D ∧
      m.pipelineInterval = I ∧ m.weightCacheBlockNum = B ∧ m.newPipeline = new := by
  simp only [LlamaModel.shape, Prod.mk.injEq]

/-- Behind the run of head `c` the load is issued that `Rolling.load` is about. -/
theorem Rolling.loadBehind (hp : Pipeline L D I B) (hD : 3 ≤ D) (h : Rolling start L D I B m c)
    (hc : c < D) (hevent : m.synchAfter (c * I) = m.trace.runs.length)
    (hclear : m.trace.Clear (m.weightCacheBlockIdx (c * I)) m.trace.runs.length) :
    ∃ m', m.loadBehind (c * I) = .ok m' ∧ Rolling start L D I B m' (c + 1) := by
  obtain ⟨-, hdeg, hint, hblk, hnew⟩ := shape_eq_iff.mp h.shape
  have hhead : c % D * I = c * I := by rw [Nat.mod_eq_of_lt hc]
  have hload := h.load hp hD (by rw [hhead]; exact hclear)
  have htarget : (c * I / m.pipelineInterval + 2) % m.pipelineDegree * m.pipelineInterval =
      (c + 2) % D * I := by
    rw [hint, hdeg, Nat.mul_div_cancel c hp.interval_pos]
  have hne : (c + 2) % D * I ≠ c * I := by
    rw [← hhead]
    exact fun heq => mod_ne_mod_add c Nat.two_pos (by omega)
      (Nat.eq_of_mul_eq_mul_right hp.interval_pos heq).symm
  have hshared : ∀ k, m.weightCacheBlockIdx (k % D * I) = 0 ∨
      m.weightCacheBlockIdx (k % D * I) = m.weightCacheBlockNum - 1 := by
    rw [hblk]
    exact fun k => h.shared _ (hp.head_lt k (by omega)) (Nat.mul_mod_left _ I)
  refine ⟨_, ?_, hload⟩
  rw [LlamaModel.loadBehind, htarget, hnew, if_neg (by simp), if_pos hne,
    LlamaModel.loadLayerParams, hnew, hhead]
  dsimp only
  rw [loadLayerParamsNoDynamic_ok (by rw [hblk]; exact hp.two_le_block) (hshared (c + 2))
    (hhead ▸ hshared c) (h.params _ (hp.head_lt (c + 2) (by omega))), hevent]

/-- One layer of a pass; `heads i I` heads have run before layer `i`. -/
theorem Rolling.forwardLayer (hp : Pipeline L D I B) (hD : 3 ≤ D) (hi : i < L)
    (h : Rolling start L D I B m (heads i I)) :
    ∃ m', m.forwardLayer i = .ok m' ∧ Rolling start L D I B m' (heads (i + 1) I) := by
  obtain ⟨-, -, hint, -, -⟩ := shape_eq_iff.mp h.shape
  rw [LlamaModel.forwardLayer, heads_succ hp.interval_pos]
  change ∃ m', (if i % m.pipelineInterval = 0 then _ else _) = _ ∧ _
  rw [hint]
  split
  · rename_i hmod
    have hhead : heads i I * I = i := by
      rw [heads_of_head hp.interval_pos hmod]
      exact Nat.div_mul_cancel (Nat.dvd_of_mod_eq_zero hmod)
    have hlt : heads i I < D := by
      rw [hp.degree]
      exact (lt_heads_iff hp.interval_pos).mpr (by omega)
    have hready : Ready start m i := by
      have := h.next
      rwa [Nat.mod_eq_of_lt hlt, hhead] at this
    have hload := ((h.runLayer hi hready).recordSynch i).loadBehind hp hD hlt
    rw [hhead] at hload
    refine hload ?_ ?_
    · change (Function.update m.synchCompEvents i
        (some (m.runLayer i).trace.runs.length) i).getD _ = _
      rw [Function.update_self]
      rfl
    · change ((m.runLayer i).recordSynch i).trace.Clear (m.weightCacheBlockIdx i) _
      rw [← h.params i hi]
      exact clear_runLayer hready
  · rename_i hmod
    exact ⟨_, rfl, h.runLayer hi (h.resident i hi hmod)⟩

/-- A pass later the same head is next. -/
theorem Rolling.wrap (h : Rolling start L D I B m D) : Rolling start L D I B m 0 := by
  have hzero : D % D = 0 % D := by rw [Nat.mod_self, Nat.zero_mod]
  have hone : (D + 1) % D = (0 + 1) % D := by rw [Nat.add_mod_left, Nat.zero_add]
  refine ⟨h.shape, h.staged, h.params, h.resident, h.slots, h.shared, ?_, ?_, ?_, h.below, h.fresh⟩
  · rw [← hzero]
    exact h.next
  · rw [← hone]
    exact h.afterNext
  · rw [← hzero, ← hone]
    exact h.other

end

/-! ## One or two heads -/

/-- Every layer is in a slot of its own. -/
structure Still (start : Nat → Option Nat) (L D I B : Nat) (m : LlamaModel) : Prop where
  shape : m.shape = (L, D, I, B, none)
  staged : Staged start m.trace
  params : ∀ l < L, m.layerParams l = m.weightCacheBlockIdx l
  ready : ∀ l < L, Ready start m l

section

variable {L D I B i : Nat} {m : LlamaModel}

theorem loadBehind_of_eq
    (h : (i / m.pipelineInterval + 2) % m.pipelineDegree * m.pipelineInterval = i) :
    m.loadBehind i = .ok m := by
  rw [LlamaModel.loadBehind, h]
  split
  · rfl
  · rw [if_neg (not_not.mpr rfl)]

/-- The head two places further on is the head itself: nothing is loaded. -/
theorem Still.forwardLayer (hp : Pipeline L D I B) (hD : D ≤ 2) (hi : i < L)
    (h : Still start L D I B m) :
    ∃ m', m.forwardLayer i = .ok m' ∧ Still start L D I B m' ∧
      m'.weightCacheBlockIdx = m.weightCacheBlockIdx := by
  obtain ⟨-, hdeg, hint, -, hnew⟩ := shape_eq_iff.mp h.shape
  have hready := h.ready i hi
  rw [LlamaModel.forwardLayer]
  change ∃ m', (if i % m.pipelineInterval = 0 then _ else _) = _ ∧ _
  rw [hint]
  split
  · rename_i hmod
    have hlt : i / I < D := by
      rw [hp.degree, lt_heads_iff hp.interval_pos]
      exact Nat.lt_of_le_of_lt (Nat.div_mul_le_self i I) hi
    have htarget : (i / m.pipelineInterval + 2) % m.pipelineDegree * m.pipelineInterval = i := by
      rw [hint, hdeg]
      have hmod2 : (i / I + 2) % D = i / I := by
        generalize i / I = c at hlt ⊢
        obtain rfl | rfl : D = 1 ∨ D = 2 := by omega
        · omega
        · omega
      rw [hmod2]
      exact Nat.div_mul_cancel (Nat.dvd_of_mod_eq_zero hmod)
    have hnone : ((m.runLayer i).recordSynch i).loadBehind i =
        .ok ((m.runLayer i).recordSynch i) := loadBehind_of_eq htarget
    exact ⟨_, hnone, ⟨h.shape, staged_runLayer h.staged hready, h.params,
      fun l hl => (h.ready l hl).runLayer hready⟩, rfl⟩
  · exact ⟨_, rfl, ⟨h.shape, staged_runLayer h.staged hready, h.params,
      fun l hl => (h.ready l hl).runLayer hready⟩, rfl⟩

end

/-! ## Whole passes -/

/-- What the loads of a pass leave alone. -/
def LlamaModel.frame (m : LlamaModel) :
    (Nat × Nat × Nat × Nat × Option (Nat × Nat)) × Nat × Nat × List (Run Nat Nat) :=
  (m.shape, m.extraWeightCacheNum, m.extraWeightCacheBlkI, m.trace.runs)

theorem frame_loadLayerParamsNoDynamic {m m' : LlamaModel} {l last : Nat}
    (h : m.loadLayerParamsNoDynamicIncreaseOnCardWeight l last = .ok m') :
    m'.frame = m.frame := by
  rw [LlamaModel.loadLayerParamsNoDynamicIncreaseOnCardWeight] at h
  dsimp only at h
  split at h
  · split at h
    · change (if _ then _ else _) = _ at h
      split at h
      · obtain rfl := Except.ok.inj h
        rfl
      · cases h
    · cases h
  · change (if _ then _ else _) = _ at h
    split at h
    · obtain rfl := Except.ok.inj h
      rfl
    · cases h

theorem frame_loadLayerParamsWhenDynamic {m m' : LlamaModel} {newD newI l : Nat}
    (h : m.loadLayerParamsWhenDynamicIncreaseOnCardWeight newD newI l = .ok m') :
    m'.frame = m.frame := by
  rw [LlamaModel.loadLayerParamsWhenDynamicIncreaseOnCardWeight] at h
  dsimp only at h
  split at h
  · obtain rfl := Except.ok.inj h
    rfl
  · cases h

theorem frame_loadLayerParams {m m' : LlamaModel} {l last : Nat}
    (h : m.loadLayerParams l last = .ok m') : m'.frame = m.frame := by
  rw [LlamaModel.loadLayerParams] at h
  split at h
  · exact frame_loadLayerParamsNoDynamic h
  · split at h
    · exact frame_loadLayerParamsNoDynamic h
    · rename_i newD newI _ _
      cases hload : m.loadLayerParamsWhenDynamicIncreaseOnCardWeight newD newI l with
      | error e =>
        rw [hload] at h
        cases h
      | ok m₁ =>
        rw [hload] at h
        have hframe := frame_loadLayerParamsWhenDynamic hload
        change (if _ then _ else _) = _ at h
        split at h
        · exact (frame_loadLayerParamsNoDynamic h).trans hframe
        · obtain rfl := Except.ok.inj h
          exact hframe

/-- One iteration of the loop issues exactly one run, from where the parameters point. -/
theorem frame_forwardLayer {m m' : LlamaModel} {i : Nat} (h : m.forwardLayer i = .ok m') :
    m'.frame = (m.shape, m.extraWeightCacheNum, m.extraWeightCacheBlkI,
      m.trace.runs ++ [⟨i, m.layerParams i, m.waits i⟩]) := by
  rw [LlamaModel.forwardLayer] at h
  split at h
  · rw [LlamaModel.loadBehind] at h
    split at h
    · obtain rfl := Except.ok.inj h
      rfl
    · split at h
      · exact frame_loadLayerParams h
      · obtain rfl := Except.ok.inj h
        rfl
  · obtain rfl := Except.ok.inj h
    rfl

theorem trace_runs_forwardLayer {m m' : LlamaModel} {i : Nat} (h : m.forwardLayer i = .ok m') :
    m'.trace.runs = m.trace.runs ++ [⟨i, m.layerParams i, m.waits i⟩] :=
  congrArg (fun f => f.2.2.2) (frame_forwardLayer h)

theorem extra_forwardLayer {m m' : LlamaModel} {i : Nat} (h : m.forwardLayer i = .ok m') :
    m'.extraWeightCacheNum = m.extraWeightCacheNum ∧
      m'.extraWeightCacheBlkI = m.extraWeightCacheBlkI :=
  ⟨congrArg (fun f => f.2.1) (frame_forwardLayer h),
    congrArg (fun f => f.2.2.1) (frame_forwardLayer h)⟩

/-- An invariant of the loop over the layers. -/
theorem forwardLayers_of_step {P : Nat → LlamaModel → Prop} {m : LlamaModel} {n : Nat}
    (hstep : ∀ i < n, ∀ m, P i m → ∃ m', m.forwardLayer i = .ok m' ∧ P (i + 1) m') (h : P 0 m) :
    ∃ m', (List.range n).foldlM LlamaModel.forwardLayer m = .ok m' ∧ P n m' := by
  induction n with
  | zero => exact ⟨m, rfl, h⟩
  | succ n ih =>
    obtain ⟨m₁, hm₁, h₁⟩ := ih fun i hi => hstep i (by omega)
    obtain ⟨m₂, hm₂, h₂⟩ := hstep n (Nat.lt_succ_self n) m₁ h₁
    refine ⟨m₂, ?_, h₂⟩
    rw [List.range_succ, List.foldlM_append, hm₁]
    change ([n].foldlM LlamaModel.forwardLayer m₁ : Except Err LlamaModel) = _
    rw [List.foldlM_cons, hm₂]
    rfl

/-- The state in front of layer `i` of a pass without an increase. -/
structure Steady (start : Nat → Option Nat) (L D I B : Nat) (m : LlamaModel) (i : Nat) : Prop where
  shape : m.shape = (L, D, I, B, none)
  staged : Staged start m.trace
  params : ∀ l < L, m.layerParams l = m.weightCacheBlockIdx l
  slots : Apart L I B m.weightCacheBlockIdx
  turn : 3 ≤ D ∧ Rolling start L D I B m (heads i I) ∨ D ≤ 2 ∧ Still start L D I B m

section

variable {L D I B i : Nat} {m : LlamaModel}

theorem Steady.of_rolling (hD : 3 ≤ D) (h : Rolling start L D I B m (heads i I)) :
    Steady start L D I B m i :=
  ⟨h.shape, h.staged, h.params, h.slots, .inl ⟨hD, h⟩⟩

theorem Steady.of_still (hD : D ≤ 2) (h : Still start L D I B m)
    (hslots : Apart L I B m.weightCacheBlockIdx) : Steady start L D I B m i :=
  ⟨h.shape, h.staged, h.params, hslots, .inr ⟨hD, h⟩⟩

theorem Steady.forwardLayer (hp : Pipeline L D I B) (hi : i < L) (h : Steady start L D I B m i) :
    ∃ m', m.forwardLayer i = .ok m' ∧ Steady start L D I B m' (i + 1) := by
  rcases h.turn with ⟨hD, hr⟩ | ⟨hD, hs⟩
  · obtain ⟨m', hm', hr'⟩ := hr.forwardLayer hp hD hi
    exact ⟨m', hm', .of_rolling hD hr'⟩
  · obtain ⟨m', hm', hs', hidx⟩ := hs.forwardLayer hp hD hi
    exact ⟨m', hm', .of_still hD hs' (hidx ▸ h.slots)⟩

theorem Steady.wrap (hp : Pipeline L D I B) (h : Steady start L D I B m L) :
    Steady start L D I B m 0 := by
  rcases h.turn with ⟨hD, hr⟩ | ⟨hD, hs⟩
  · rw [← hp.degree] at hr
    have hzero : heads 0 I = 0 :=
      Nat.div_eq_of_lt (by have := hp.interval_pos; omega)
    exact .of_rolling hD (by rw [hzero]; exact hr.wrap)
  · exact .of_still hD hs h.slots

end

/-- The state in front of layer `i`, after `p` passes without an increase. -/
def LlamaModel.beforeLayer (m : LlamaModel) (p i : Nat) : Except Err LlamaModel := do
  let m ← m.forwardPasses (List.replicate p 0)
  (List.range i).foldlM LlamaModel.forwardLayer m

/-- The run of layer `i` of pass `p` reads the slot that the index list had for the layer just
then, when the slots of the other layers were apart from each other and from the shared ones. -/
def RunFromSlot (m₀ : LlamaModel) (T : Trace Nat Nat) (p i : Nat) : Prop :=
  ∃ m r, m₀.beforeLayer p i = .ok m ∧ T.runs[p * m₀.layerNum + i]? = some r ∧ r.content = i ∧
    r.slot = m.weightCacheBlockIdx i ∧
    Apart m₀.layerNum m₀.pipelineInterval m₀.weightCacheBlockNum m.weightCacheBlockIdx

/-- From the start any number of passes without an increase goes through; in each the layers run
from the slots in the index list, and every execution of what they issue is right. -/
def SteadyRight (layerNum weightLoadDegree : Nat) (dynamic : Bool) : Prop :=
  ∃ m₀, LlamaModel.init layerNum weightLoadDegree dynamic = .ok m₀ ∧
    ∀ n, ∃ m, m₀.forwardPasses (List.replicate n 0) = .ok m ∧
      m.trace.runs.length = n * layerNum ∧
      (∀ p < n, ∀ i < layerNum, RunFromSlot m₀ m.trace p i) ∧
      Safe m₀.loadedSlots m.trace

/-- Within a pass no slot is taken from the KV cache. -/
theorem extra_forwardLayers {m m' : LlamaModel} {n : Nat}
    (h : (List.range n).foldlM LlamaModel.forwardLayer m = .ok m') :
    m'.extraWeightCacheNum = m.extraWeightCacheNum ∧
      m'.extraWeightCacheBlkI = m.extraWeightCacheBlkI := by
  generalize List.range n = layers at h
  induction layers generalizing m with
  | nil =>
    obtain rfl := Except.ok.inj h
    exact ⟨rfl, rfl⟩
  | cons i layers ih =>
    rw [List.foldlM_cons] at h
    cases hm : m.forwardLayer i with
    | error e =>
      rw [hm] at h
      cases h
    | ok m₁ =>
      rw [hm] at h
      obtain ⟨hnum, hblk⟩ := extra_forwardLayer hm
      obtain ⟨hnum', hblk'⟩ := ih h
      exact ⟨hnum'.trans hnum, hblk'.trans hblk⟩

theorem postIncreaseOncardLayers_eq {m : LlamaModel} {newD newI : Nat}
    (h : m.newPipeline = some (newD, newI)) :
    m.postIncreaseOncardLayers =
      { m with pipelineDegree := newD, pipelineInterval := newI, newPipeline := none } := by
  rw [LlamaModel.postIncreaseOncardLayers, h]

theorem forwardOurs_ok {m m₁ m₂ : LlamaModel} {n : Nat}
    (hpre : m.preIncreaseOncardLayers n = .ok m₁)
    (h : (List.range m₁.layerNum).foldlM LlamaModel.forwardLayer m₁ = .ok m₂) :
    m.forwardOurs n = .ok m₂.postIncreaseOncardLayers := by
  rw [LlamaModel.forwardOurs, hpre]
  change ((List.range m₁.layerNum).foldlM LlamaModel.forwardLayer m₁ >>= fun m =>
    pure m.postIncreaseOncardLayers) = _
  rw [h]
  rfl

theorem forwardOurs_zero {m m' : LlamaModel}
    (h : (List.range m.layerNum).foldlM LlamaModel.forwardLayer m = .ok m')
    (hnew : m'.newPipeline = none) : m.forwardOurs 0 = .ok m' := by
  rw [forwardOurs_ok (preIncreaseOncardLayers_zero m) h, LlamaModel.postIncreaseOncardLayers, hnew]

section

variable {L D I B i p : Nat} {m₀ m : LlamaModel}

/-- What is known in front of layer `i` of pass `p`. -/
structure Passed (start : Nat → Option Nat) (L D I B : Nat) (m₀ : LlamaModel) (p i : Nat)
    (m : LlamaModel) : Prop where
  before : m₀.beforeLayer p i = .ok m
  steady : Steady start L D I B m i
  length : m.trace.runs.length = p * L + i
  runs : ∀ p' i', i' < L → p' * L + i' < p * L + i → RunFromSlot m₀ m.trace p' i'

theorem Passed.layer (hp : Pipeline L D I B) (h₀ : m₀.shape = (L, D, I, B, none)) (hi : i < L)
    (h : Passed start L D I B m₀ p i m) : ∃ m', Passed start L D I B m₀ p (i + 1) m' := by
  obtain ⟨hlayer, -, hint, hblk, -⟩ := shape_eq_iff.mp h₀
  obtain ⟨m', hm', hsteady⟩ := h.steady.forwardLayer hp hi
  have hruns := trace_runs_forwardLayer hm'
  refine ⟨m', ?_, hsteady, ?_, fun p' i' hi' hlt => ?_⟩
  · have hbefore := h.before
    rw [LlamaModel.beforeLayer] at hbefore ⊢
    cases hpass : m₀.forwardPasses (List.replicate p 0) with
    | error e =>
      rw [hpass] at hbefore
      cases hbefore
    | ok m₁ =>
      rw [hpass] at hbefore
      change (List.range i).foldlM LlamaModel.forwardLayer m₁ = .ok m at hbefore
      change (List.range (i + 1)).foldlM LlamaModel.forwardLayer m₁ = .ok m'
      rw [List.range_succ, List.foldlM_append, hbefore]
      change ([i].foldlM LlamaModel.forwardLayer m : Except Err LlamaModel) = _
      rw [List.foldlM_cons, hm']
      rfl
  · rw [hruns, List.length_append, h.length, List.length_singleton, Nat.add_assoc]
  · rcases Nat.lt_succ_iff_lt_or_eq.mp (show p' * L + i' < p * L + i + 1 by omega) with hlt | heq
    · obtain ⟨mi, r, hbefore, hr, hrest⟩ := h.runs p' i' hi' hlt
      refine ⟨mi, r, hbefore, ?_, hrest⟩
      rw [hruns, List.getElem?_append_left (List.getElem?_eq_some_iff.mp hr).1, hr]
    · have hp' : p' = p := by
        have : (p' * L + i') / L = (p * L + i) / L := by rw [heq]
        rwa [Nat.mul_comm p' L, Nat.mul_comm p L, Nat.mul_add_div (by omega),
          Nat.mul_add_div (by omega), Nat.div_eq_of_lt hi', Nat.div_eq_of_lt hi] at this
      subst hp'
      obtain rfl : i' = i := Nat.add_left_cancel heq
      refine ⟨m, ⟨i', m.layerParams i', m.waits i'⟩, h.before, ?_, rfl, h.steady.params i' hi, ?_⟩
      · rw [hruns, hlayer, ← h.length, List.getElem?_concat_length]
      · rw [hlayer, hint, hblk]
        exact h.steady.slots

theorem Passed.pass (hp : Pipeline L D I B) (h₀ : m₀.shape = (L, D, I, B, none))
    (h : Passed start L D I B m₀ p 0 m) : ∃ m', Passed start L D I B m₀ (p + 1) 0 m' := by
  have hlayers : ∀ i ≤ L, ∃ m', Passed start L D I B m₀ p i m' := by
    intro i
    induction i with
    | zero => exact fun _ => ⟨m, h⟩
    | succ i ih =>
      intro hi
      obtain ⟨m₁, h₁⟩ := ih (by omega)
      exact h₁.layer hp h₀ hi
  obtain ⟨m', h'⟩ := hlayers L (le_refl L)
  obtain ⟨hlayer, -, -, -, -⟩ := shape_eq_iff.mp h.steady.shape
  obtain ⟨-, -, -, -, hnew⟩ := shape_eq_iff.mp h'.steady.shape
  have hpass : m₀.forwardPasses (List.replicate p 0) = .ok m := by
    have := h.before
    rw [LlamaModel.beforeLayer, List.range_zero] at this
    change (m₀.forwardPasses (List.replicate p 0) >>= pure) = _ at this
    rwa [bind_pure] at this
  have hours : m.forwardOurs 0 = .ok m' := by
    refine forwardOurs_zero ?_ hnew
    have := h'.before
    rw [LlamaModel.beforeLayer, hpass] at this
    rw [hlayer]
    exact this
  refine ⟨m', ?_, h'.steady.wrap hp, ?_, fun p' i' hi' hlt => h'.runs p' i' hi' ?_⟩
  · rw [LlamaModel.beforeLayer, List.range_zero, List.replicate_succ', LlamaModel.forwardPasses,
      List.foldlM_append]
    rw [LlamaModel.forwardPasses] at hpass
    rw [hpass]
    change (([0].foldlM LlamaModel.forwardOurs m : Except Err LlamaModel) >>= pure) = _
    rw [List.foldlM_cons, hours]
    rfl
  · rw [h'.length, Nat.add_mul, Nat.one_mul, Nat.add_zero]
  · rwa [Nat.add_mul, Nat.one_mul, Nat.add_zero] at hlt

end

/-- The start is a steady state. -/
theorem Started.steady {L d : Nat} {dynamic : Bool} {m : LlamaModel} (h : Started L d dynamic m) :
    Pipeline L m.pipelineDegree m.pipelineInterval m.weightCacheBlockNum ∧
    Steady m.loadedSlots L m.pipelineDegree m.pipelineInterval m.weightCacheBlockNum m 0 := by
  have hIpos := h.interval_pos
  have hle := heads_le (L := L) hIpos
  have hpos := heads_pos hIpos h.layers_pos
  have hdeg := h.degree
  have hblk := h.blockNum
  have hint := h.interval
  have hparams : ∀ l < L, m.layerParams l = m.weightCacheBlockIdx l := fun l _ => by rw [h.params]
  have hshape : m.shape =
      (L, m.pipelineDegree, m.pipelineInterval, m.weightCacheBlockNum, none) :=
    shape_eq_iff.mpr ⟨h.layerNum, rfl, rfl, rfl, h.newPipeline⟩
  have hstaged : Staged m.loadedSlots m.trace := by
    rw [h.trace]
    exact .empty
  have hready : ∀ l, m.loadedSlots (m.layerParams l) = some l → Ready m.loadedSlots m l :=
    fun l hl => ⟨by rw [h.trace]; exact hl, by rw [h.trace]; simp [Trace.empty]⟩
  have hslots : Apart L m.pipelineInterval m.weightCacheBlockNum m.weightCacheBlockIdx := by
    rw [hint, hblk]
    refine ⟨fun l hl hmod => ?_, fun l hl l' hl' hmod hmod' heq => ?_⟩
    · have := startSlot_resident hIpos hl hmod
      rw [h.idx l hl]
      omega
    · rw [h.idx l hl, h.idx l' hl'] at heq
      exact startSlot_inj hIpos hmod hmod' heq
  refine ⟨⟨by rw [hint]; exact hIpos, by rw [hint]; exact hdeg, by omega⟩, ?_⟩
  -- with three heads or more they take turns; with two every layer has a slot of its own
  rcases Nat.lt_or_ge 2 m.pipelineDegree with hD | hD
  · obtain ⟨hzero, hone, hresident⟩ := h.loadedSlots_of_three hD
    have hhead : ∀ k, k * normInterval L d < L →
        m.weightCacheBlockIdx (k * normInterval L d) = k % 2 * (m.weightCacheBlockNum - 1) := by
      intro k hk
      rw [h.idx _ hk, startSlot_head hIpos, hblk, Nat.add_sub_cancel]
    have hslot₀ := hhead 0 (by rw [Nat.zero_mul]; exact h.layers_pos)
    have hslot₁ := hhead 1 ((lt_heads_iff hIpos).mp (by omega))
    rw [Nat.zero_mul, Nat.zero_mod, Nat.zero_mul] at hslot₀
    rw [Nat.one_mul, Nat.one_mod, Nat.one_mul, ← hint] at hslot₁
    have hnone : heads 0 m.pipelineInterval = 0 := Nat.div_eq_of_lt (by omega)
    have hshared : ∀ l < L, l % m.pipelineInterval = 0 →
        m.weightCacheBlockIdx l = 0 ∨ m.weightCacheBlockIdx l = m.weightCacheBlockNum - 1 := by
      intro l hl hmod
      rw [h.idx l hl, hblk, Nat.add_sub_cancel]
      exact startSlot_shared (hint ▸ hmod)
    have hfirst : 0 % m.pipelineDegree * m.pipelineInterval = 0 := by
      rw [Nat.zero_mod, Nat.zero_mul]
    have hsecond : (0 + 1) % m.pipelineDegree * m.pipelineInterval = m.pipelineInterval := by
      rw [Nat.mod_eq_of_lt (by omega), Nat.zero_add, Nat.one_mul]
    refine .of_rolling hD ⟨hshape, hstaged, hparams, fun l hl hmod =>
      hready l (by rw [h.params]; exact hresident l hl hmod), hslots, hshared, ?_, ?_, ?_,
      ⟨h.extraBlkI.ge, fun l hl => ?_⟩, fun q _ => ?_⟩
    · rw [hnone, hfirst]
      exact hready 0 (by rw [h.params, hslot₀]; exact hzero)
    · rw [hnone, hsecond]
      exact hready _ (by rw [h.params, hslot₁]; exact hone)
    · rw [hnone, hfirst, hsecond, hslot₀, hslot₁]
      omega
    · rw [h.extraBlkI]
      by_cases hmod : l % m.pipelineInterval = 0
      · have := hshared l hl hmod
        omega
      · have := startSlot_resident hIpos hl (hint ▸ hmod)
        rw [h.idx l hl]
        omega
    · rw [h.trace]
      exact ⟨fun t r hr => by simp [Trace.empty] at hr, fun k l hl => by simp [Trace.empty] at hl⟩
  · obtain ⟨-, hload⟩ := h.loadedSlots_of_two hD
    exact .of_still hD ⟨hshape, hstaged, hparams, fun l hl =>
      hready l (by rw [h.params]; exact hload l hl)⟩ hslots

/-- Double-buffered offloading is right in every pass without an increase. -/
theorem steady_passes {L d : Nat} (dynamic : Bool) (hL : 0 < L) (hd : 0 < d) :
    SteadyRight L d dynamic := by
  obtain ⟨m₀, hm₀⟩ := init_exists hL hd dynamic
  have hstarted := init_started hm₀
  obtain ⟨hp, hsteady⟩ := hstarted.steady
  refine ⟨m₀, hm₀, fun n => ?_⟩
  have hpassed : ∃ m, Passed m₀.loadedSlots L m₀.pipelineDegree m₀.pipelineInterval
      m₀.weightCacheBlockNum m₀ n 0 m := by
    induction n with
    | zero =>
      refine ⟨m₀, rfl, hsteady, ?_, fun p' i' _ hlt => by omega⟩
      rw [hstarted.trace, Nat.zero_mul]
      rfl
    | succ n ih =>
      obtain ⟨m, hm⟩ := ih
      exact hm.pass hp hsteady.shape
  obtain ⟨m, hm⟩ := hpassed
  refine ⟨m, ?_, hm.length, fun p hpn i hi => hm.runs p i hi ?_, hm.steady.staged.safe⟩
  · have := hm.before
    rw [LlamaModel.beforeLayer, List.range_zero] at this
    change (m₀.forwardPasses (List.replicate n 0) >>= pure) = _ at this
    rwa [bind_pure] at this
  · have := Nat.mul_le_mul_right L hpn
    rw [Nat.succ_mul] at this
    omega

/-- Seven layers of which four are loaded in turn. -/
theorem steady_passes_seven : SteadyRight 7 4 false := steady_passes false (by decide) (by decide)

end Mil.Weights
