import Mil.Weights.Steady

/-!
# What an increase does to the slots

An increase gives the heads that stop being heads slots of their own, behind all slots used so far,
one after the other. With more than two heads left, the heads that stay take turns in the two
shared slots, starting with the slot of layer 0. This is stated for a new interval that is a
multiple of the old one: then the heads that stay are exactly the new heads, and as many slots are
taken as the degree goes down.
-/

set_option autoImplicit false

namespace Mil.Weights

open Mil.Lib.Staging

/-! ## More than two heads left -/

section

variable {I a : Nat}

/-- The slot of head `k` when every `a`-th head stays a head. -/
def headSlot (m : LlamaModel) (a k : Nat) : Nat :=
  if k % a ≠ 0 then m.extraWeightCacheBlkI + (k - heads k a)
  else if k / a < 2 then m.weightCacheBlockIdx 0
  else (m.weightCacheBlockIdx 0 / (m.weightCacheBlockNum - 1) + k / a - 1) % 2 *
    (m.weightCacheBlockNum - 1)

/-- The slots of all layers after the first `n` heads have been moved as `slot` says. -/
def movedIdx (m : LlamaModel) (slot : Nat → Nat) (n l : Nat) : Nat :=
  if l % m.pipelineInterval = 0 ∧ l / m.pipelineInterval < n then slot (l / m.pipelineInterval)
  else m.weightCacheBlockIdx l

theorem movedIdx_zero (m : LlamaModel) (slot : Nat → Nat) :
    movedIdx m slot 0 = m.weightCacheBlockIdx := by
  funext l
  rw [movedIdx, if_neg fun h => Nat.not_lt_zero _ h.2]

theorem movedIdx_head (m : LlamaModel) (slot : Nat → Nat) (hI : 0 < m.pipelineInterval) {n k : Nat}
    (hk : k < n) : movedIdx m slot n (k * m.pipelineInterval) = slot k := by
  rw [movedIdx, Nat.mul_div_cancel k hI, if_pos ⟨Nat.mul_mod_left k _, hk⟩]

theorem movedIdx_resident (m : LlamaModel) (slot : Nat → Nat) (n : Nat) {l : Nat}
    (hl : l % m.pipelineInterval ≠ 0) : movedIdx m slot n l = m.weightCacheBlockIdx l := by
  rw [movedIdx, if_neg fun h => hl h.1]

theorem movedIdx_succ (m : LlamaModel) (slot : Nat → Nat) (hI : 0 < m.pipelineInterval) (n : Nat) :
    movedIdx m slot (n + 1) =
      Function.update (movedIdx m slot n) (n * m.pipelineInterval) (slot n) := by
  funext l
  by_cases hl : l = n * m.pipelineInterval
  · subst hl
    rw [movedIdx_head m slot hI (Nat.lt_succ_self n), Function.update_self]
  · rw [Function.update_of_ne hl, movedIdx, movedIdx]
    have hne : l % m.pipelineInterval = 0 → l / m.pipelineInterval ≠ n := fun hmod heq => hl (by
      rw [← heq]
      exact (Nat.div_mul_cancel (Nat.dvd_of_mod_eq_zero hmod)).symm)
    congr 1
    refine propext (and_congr_right fun hmod => ?_)
    have := hne hmod
    omega

theorem head_mod (hI : 0 < I) (k : Nat) : k * I % (a * I) = 0 ↔ k % a = 0 := by
  rw [Nat.mul_mod_mul_right]
  exact ⟨fun h => (Nat.mul_eq_zero.mp h).resolve_right hI.ne', fun h => by rw [h, Nat.zero_mul]⟩

/-- The heads that stop being heads get the next slots, the others take turns. -/
theorem foldl_moveHead (m : LlamaModel) (hI : 0 < m.pipelineInterval) (ha : 0 < a) (n : Nat) :
    (List.range n).foldl (LlamaModel.moveHead (a * m.pipelineInterval)) m =
      { m with
        weightCacheBlockIdx := movedIdx m (headSlot m a) n
        extraWeightCacheBlkI := m.extraWeightCacheBlkI + (n - heads n a) } := by
  induction n with
  | zero => rw [movedIdx_zero, Nat.zero_sub, Nat.add_zero]; rfl
  | succ n ih =>
    have hle := heads_le (L := n) ha
    have hsucc := heads_succ (L := n) ha
    have hfirst : movedIdx m (headSlot m a) n 0 = m.weightCacheBlockIdx 0 := by
      rcases Nat.eq_zero_or_pos n with rfl | hn
      · rw [movedIdx_zero]
      · have := movedIdx_head m (headSlot m a) hI hn
        rw [Nat.zero_mul] at this
        rw [this, headSlot, Nat.zero_mod, if_neg (not_not.mpr rfl), Nat.zero_div,
          if_pos Nat.two_pos]
    rw [List.range_succ, List.foldl_append, ih, List.foldl_cons, List.foldl_nil,
      LlamaModel.moveHead, movedIdx_succ m _ hI]
    dsimp only
    rw [hfirst, headSlot, Nat.mul_div_mul_right _ _ hI]
    by_cases hmod : n % a = 0
    · rw [if_neg (not_not.mpr ((head_mod hI n).mpr hmod)), if_neg (not_not.mpr hmod)]
      have hextra : n + 1 - heads (n + 1) a = n - heads n a := by
        rw [hsucc, if_pos hmod]
        omega
      rw [hextra]
      split
      · rfl
      · rfl
    · rw [if_pos fun h => hmod ((head_mod hI n).mp h), if_pos hmod]
      have hextra : n + 1 - heads (n + 1) a = n - heads n a + 1 := by
        rw [hsucc, if_neg hmod]
        omega
      rw [hextra]
      rfl

/-- The number of heads before `k` that stop being heads grows by one behind each of them. -/
theorem sub_heads_lt (ha : 0 < a) {k k' : Nat} (hk : k % a ≠ 0) (hlt : k < k') :
    k - heads k a < k' - heads k' a := by
  induction k' with
  | zero => exact absurd hlt (Nat.not_lt_zero k)
  | succ k' ih =>
    have hle := heads_le (L := k') ha
    have hsucc := heads_succ (L := k') ha
    rcases Nat.lt_succ_iff_lt_or_eq.mp hlt with hlt | rfl
    · have := ih hlt
      split at hsucc <;> omega
    · rw [if_neg hk] at hsucc
      omega

end

/-! ## Two heads left -/

/-- The slot of head `k` when only the first two heads stay. -/
def headSlotOfTwo (m : LlamaModel) (k : Nat) : Nat :=
  if k ≥ 2 then m.extraWeightCacheBlkI + (k - 2)
  else m.weightCacheBlockIdx (k * m.pipelineInterval)

theorem foldl_moveHeadToTwo (m : LlamaModel) (hI : 0 < m.pipelineInterval) (n : Nat) :
    (List.range n).foldl LlamaModel.moveHeadToTwo m =
      { m with
        weightCacheBlockIdx := movedIdx m (headSlotOfTwo m) n
        extraWeightCacheBlkI := m.extraWeightCacheBlkI + (n - 2) } := by
  induction n with
  | zero => rw [movedIdx_zero]; rfl
  | succ n ih =>
    rw [List.range_succ, List.foldl_append, ih, List.foldl_cons, List.foldl_nil,
      LlamaModel.moveHeadToTwo, movedIdx_succ m _ hI, headSlotOfTwo]
    by_cases hn : n ≥ 2
    · have hextra : n + 1 - 2 = n - 2 + 1 := by omega
      rw [if_pos hn, if_pos hn, hextra]
      rfl
    · have hextra : n + 1 - 2 = n - 2 := by omega
      have hsame : movedIdx m (headSlotOfTwo m) n (n * m.pipelineInterval) =
          m.weightCacheBlockIdx (n * m.pipelineInterval) := by
        rw [movedIdx, if_neg fun h => ?_]
        have := h.2
        rw [Nat.mul_div_cancel n hI] at this
        exact Nat.lt_irrefl n this
      rw [if_neg hn, if_neg hn, hextra, ← hsame, Function.update_eq_self]

/-! ## A load for a head that stops being one -/

section

variable {start : Nat → Option Nat} {m : LlamaModel} {l : Nat}

theorem Ready.pointParams (h : Ready start m l) {l' slot : Nat} (hne : l ≠ l') :
    Ready start (m.pointParams l' slot) l :=
  h.congr rfl (Function.update_of_ne hne ..) rfl

/-- A load that does not wait takes effect at any time from its issue. -/
theorem loadLayerParamsWhenDynamic_of_not_wait {newD newI : Nat}
    (hbuf : m.hasBuffer (m.weightCacheBlockIdx l)) (hwait : ¬ (l % newI = 0 ∧ newD ≠ 2)) :
    m.loadLayerParamsWhenDynamicIncreaseOnCardWeight newD newI l =
      .ok ((m.pointParams l (m.weightCacheBlockIdx l)).issueLoad l (m.weightCacheBlockIdx l)
        m.trace.runs.length) := by
  rw [LlamaModel.loadLayerParamsWhenDynamicIncreaseOnCardWeight, if_pos hbuf, if_neg hwait]

/-- A load that waits takes effect at any time from the event of the layer it follows. -/
theorem loadLayerParamsWhenDynamic_of_wait {newD newI : Nat}
    (hbuf : m.hasBuffer (m.weightCacheBlockIdx l)) (hwait : l % newI = 0 ∧ newD ≠ 2) :
    m.loadLayerParamsWhenDynamicIncreaseOnCardWeight newD newI l =
      .ok ((m.pointParams l (m.weightCacheBlockIdx l)).issueLoad l (m.weightCacheBlockIdx l)
        (m.synchAfter (m.newLastLastLayer newD newI l))) := by
  rw [LlamaModel.loadLayerParamsWhenDynamicIncreaseOnCardWeight, if_pos hbuf, if_pos hwait]

end

/-! ## The pass that leaves two heads -/

/-- The slots above the shared ones are different. -/
def ExtraApart (L B : Nat) (idx : Nat → Nat) : Prop :=
  ∀ l < L, ∀ l' < L, B ≤ idx l → idx l = idx l' → l = l'

/-- After the runs of `c` heads of the pass that leaves two heads: the heads up to the next but one
and all other layers are ready, and the slots from `E + c` on are untouched. -/
structure LeavingTwo (start : Nat → Option Nat) (L D I B newI E : Nat) (idx : Nat → Nat)
    (m : LlamaModel) (c : Nat) : Prop where
  shape : m.shape = (L, D, I, B, some (2, newI))
  staged : Staged start m.trace
  extraNum : E + (D - 2) ≤ B + m.extraWeightCacheNum
  slots : m.weightCacheBlockIdx = idx
  params : ∀ l < L, (l % I ≠ 0 ∨ l / I ≤ c + 1) → m.layerParams l = idx l
  ready : ∀ l < L, (l % I ≠ 0 ∨ l / I ≤ c + 1) → Ready start m l
  fresh : ∀ p, E + c ≤ p → m.trace.Clear p 0

/-- The slots while all heads but two stop being heads. -/
structure SlotsOfTwo (L D I B E : Nat) (idx : Nat → Nat) : Prop where
  below : B ≤ E ∧ ∀ l < L, (l % I ≠ 0 ∨ l / I < 2) → idx l < E
  extra : ∀ k, 2 ≤ k → k < D → idx (k * I) = E + (k - 2)

section

variable {start : Nat → Option Nat} {L D I B newI E c i : Nat} {idx : Nat → Nat} {m : LlamaModel}

/-- A head that does not stay has one of the new slots. -/
theorem SlotsOfTwo.of_not_low (hs : SlotsOfTwo L D I B E idx) (hp : Pipeline L D I B) {l : Nat}
    (hl : l < L) (h : ¬ (l % I ≠ 0 ∨ l / I < 2)) :
    l / I * I = l ∧ 2 ≤ l / I ∧ idx l = E + (l / I - 2) := by
  have hmod : l % I = 0 := by
    by_contra hmod
    exact h (.inl hmod)
  have hhead : l / I * I = l := Nat.div_mul_cancel (Nat.dvd_of_mod_eq_zero hmod)
  have htwo : 2 ≤ l / I := Nat.le_of_not_lt fun hlt => h (.inr hlt)
  have hlt : l / I < D := by
    rw [hp.degree, lt_heads_iff hp.interval_pos, hhead]
    exact hl
  have hidx := hs.extra (l / I) htwo hlt
  rw [hhead] at hidx
  exact ⟨hhead, htwo, hidx⟩

/-- The slots of the layers loaded so far are below the next one. -/
theorem SlotsOfTwo.lt (hs : SlotsOfTwo L D I B E idx) (hp : Pipeline L D I B) {l : Nat} (hl : l < L)
    (h : l % I ≠ 0 ∨ l / I ≤ c + 1) : idx l < E + c := by
  by_cases hlow : l % I ≠ 0 ∨ l / I < 2
  · have := hs.below.2 l hl hlow
    omega
  · obtain ⟨-, htwo, hidx⟩ := hs.of_not_low hp hl hlow
    have := h.resolve_left fun hmod => hlow (.inl hmod)
    omega

theorem SlotsOfTwo.extraApart (hs : SlotsOfTwo L D I B E idx) (hp : Pipeline L D I B)
    {idx₀ : Nat → Nat} (h₀ : ExtraApart L B idx₀)
    (hlow : ∀ l < L, (l % I ≠ 0 ∨ l / I < 2) → idx l = idx₀ l) : ExtraApart L B idx := by
  intro l hl l' hl' hB heq
  by_cases hl₁ : l % I ≠ 0 ∨ l / I < 2
  · have hlt := hs.below.2 l hl hl₁
    by_cases hl₂ : l' % I ≠ 0 ∨ l' / I < 2
    · rw [hlow l hl hl₁] at hB
      rw [hlow l hl hl₁, hlow l' hl' hl₂] at heq
      exact h₀ l hl l' hl' hB heq
    · have := hs.of_not_low hp hl' hl₂
      omega
  · obtain ⟨hhead, htwo, hidx⟩ := hs.of_not_low hp hl hl₁
    by_cases hl₂ : l' % I ≠ 0 ∨ l' / I < 2
    · have := hs.below.2 l' hl' hl₂
      omega
    · obtain ⟨hhead', htwo', hidx'⟩ := hs.of_not_low hp hl' hl₂
      have hk : l / I = l' / I := by omega
      rw [← hhead, ← hhead', hk]

theorem LeavingTwo.runLayer (hs : SlotsOfTwo L D I B E idx) (hp : Pipeline L D I B)
    (h : LeavingTwo start L D I B newI E idx m c) (hi : i < L)
    (hin : i % I ≠ 0 ∨ i / I ≤ c) : LeavingTwo start L D I B newI E idx (m.runLayer i) c := by
  have hin' : i % I ≠ 0 ∨ i / I ≤ c + 1 := hin.imp id Nat.le_succ_of_le
  have hready := h.ready i hi hin'
  refine ⟨h.shape, staged_runLayer h.staged hready, h.extraNum, h.slots, h.params,
    fun l hl hl' => (h.ready l hl hl').runLayer hready, fun p hp' => (h.fresh p hp').addRun ?_⟩
  have := hs.lt hp hi hin'
  rw [← h.params i hi hin'] at this
  exact Nat.ne_of_lt (Nat.lt_of_lt_of_le this hp')

/-- The load for head `c + 2`, which gets the first untouched slot. -/
theorem LeavingTwo.load (hs : SlotsOfTwo L D I B E idx) (hp : Pipeline L D I B)
    (h : LeavingTwo start L D I B newI E idx m c) (hc : c + 2 < D) :
    LeavingTwo start L D I B newI E idx
      ((m.pointParams ((c + 2) * I) (E + c)).issueLoad ((c + 2) * I) (E + c)
        m.trace.runs.length) (c + 1) := by
  have hslot : idx ((c + 2) * I) = E + c := hs.extra (c + 2) (by omega) hc
  have hold : ∀ l < L, (l % I ≠ 0 ∨ l / I ≤ c + 1 + 1) → l ≠ (c + 2) * I →
      l % I ≠ 0 ∨ l / I ≤ c + 1 := by
    intro l _ hl hne
    rcases hl with hl | hl
    · exact .inl hl
    · by_cases hmod : l % I = 0
      · refine .inr (Nat.le_of_lt_succ (Nat.lt_of_le_of_ne hl fun heq => hne ?_))
        rw [← Nat.div_mul_cancel (Nat.dvd_of_mod_eq_zero hmod), heq]
      · exact .inl hmod
  have hclear := h.fresh (E + c) (le_refl _)
  refine ⟨h.shape, ?_, h.extraNum, h.slots, fun l hl hl' => ?_, fun l hl hl' => ?_,
    fun p hp' => ?_⟩
  · exact staged_issueLoad (m := m.pointParams _ _) h.staged (hclear.mono (Nat.zero_le _))
  · change Function.update m.layerParams ((c + 2) * I) (E + c) l = idx l
    by_cases heq : l = (c + 2) * I
    · rw [heq, Function.update_self, hslot]
    · rw [Function.update_of_ne heq]
      exact h.params l hl (hold l hl hl' heq)
  · by_cases heq : l = (c + 2) * I
    · subst heq
      exact ready_issueLoad (m := m.pointParams _ _) hclear (Nat.zero_le _)
        (Function.update_self ..)
    · have hl₀ := hold l hl hl' heq
      refine ((h.ready l hl hl₀).pointParams heq).issueLoad heq ?_
      change Function.update m.layerParams ((c + 2) * I) (E + c) l ≠ E + c
      rw [Function.update_of_ne heq, h.params l hl hl₀]
      exact Nat.ne_of_lt (hs.lt hp hl hl₀)
  · refine (h.fresh p (by omega)).addLoad (l := ⟨_, E + c, _⟩) ?_
    exact Nat.ne_of_lt (show E + c < p by omega)

/-- The last two heads load nothing. -/
theorem LeavingTwo.skip (hp : Pipeline L D I B) (h : LeavingTwo start L D I B newI E idx m c)
    (hc : D ≤ c + 2) : LeavingTwo start L D I B newI E idx m (c + 1) := by
  have hall : ∀ l < L, l / I ≤ c + 1 := by
    intro l hl
    have : l / I < D := by
      rw [hp.degree, lt_heads_iff hp.interval_pos]
      exact Nat.lt_of_le_of_lt (Nat.div_mul_le_self l I) hl
    omega
  exact ⟨h.shape, h.staged, h.extraNum, h.slots, fun l hl _ => h.params l hl (.inr (hall l hl)),
    fun l hl _ => h.ready l hl (.inr (hall l hl)), fun p hp' => h.fresh p (by omega)⟩

theorem LeavingTwo.loadBehind (hs : SlotsOfTwo L D I B E idx) (hp : Pipeline L D I B)
    (h : LeavingTwo start L D I B newI E idx m c) (hc : c < D) (hD : 3 ≤ D) :
    ∃ m', m.loadBehind (c * I) = .ok m' ∧ LeavingTwo start L D I B newI E idx m' (c + 1) := by
  obtain ⟨-, hdeg, hint, hblk, hnew⟩ := shape_eq_iff.mp h.shape
  have hdiv : ∀ k, k * I / I = k := fun k => Nat.mul_div_cancel k hp.interval_pos
  rw [LlamaModel.loadBehind, hint, hdeg, hdiv, hdiv]
  rcases Nat.lt_or_ge (c + 2) D with hlt | hge
  · have hload := h.load hs hp hlt
    have hslot : m.weightCacheBlockIdx ((c + 2) * I) = E + c := by
      rw [h.slots, hs.extra (c + 2) (by omega) hlt, Nat.add_sub_cancel]
    have hne : (c + 2) * I ≠ c * I := fun heq => by
      have := Nat.eq_of_mul_eq_mul_right hp.interval_pos heq
      omega
    have hzero : (c + 2) * I ≠ 0 := Nat.mul_ne_zero (by omega) hp.interval_pos.ne'
    have hbuf : m.hasBuffer (m.weightCacheBlockIdx ((c + 2) * I)) := by
      have := h.extraNum
      have := hs.below.1
      rw [LlamaModel.hasBuffer, hslot, hblk]
      omega
    rw [Nat.mod_eq_of_lt hlt, if_neg fun h => by omega, if_pos hne, LlamaModel.loadLayerParams,
      hnew]
    dsimp only
    rw [if_neg hzero, loadLayerParamsWhenDynamic_of_not_wait hbuf fun h => h.2 rfl, hslot]
    change ∃ m', (if (c + 2) * I / m.pipelineInterval = 1 then _ else _) = _ ∧ _
    rw [hint, hdiv, if_neg (by omega)]
    exact ⟨_, rfl, hload⟩
  · have hmod : (c + 2) % D < 2 := by
      rw [Nat.mod_eq_sub_mod hge, Nat.mod_eq_of_lt (by omega)]
      omega
    have htwo : Option.map Prod.fst m.newPipeline = some 2 := by rw [hnew]; rfl
    rw [if_pos ⟨htwo, hmod⟩]
    exact ⟨_, rfl, h.skip hp hge⟩

theorem LeavingTwo.forwardLayer (hs : SlotsOfTwo L D I B E idx) (hp : Pipeline L D I B)
    (hD : 3 ≤ D) (hi : i < L) (h : LeavingTwo start L D I B newI E idx m (heads i I)) :
    ∃ m', m.forwardLayer i = .ok m' ∧
      LeavingTwo start L D I B newI E idx m' (heads (i + 1) I) := by
  obtain ⟨-, -, hint, -, -⟩ := shape_eq_iff.mp h.shape
  rw [LlamaModel.forwardLayer, heads_succ hp.interval_pos]
  change ∃ m', (if i % m.pipelineInterval = 0 then _ else _) = _ ∧ _
  rw [hint]
  split
  · rename_i hmod
    have hc := heads_of_head hp.interval_pos hmod
    have hhead : heads i I * I = i := by
      rw [hc]
      exact Nat.div_mul_cancel (Nat.dvd_of_mod_eq_zero hmod)
    have hlt : heads i I < D := by
      rw [hp.degree]
      exact (lt_heads_iff hp.interval_pos).mpr (by omega)
    have hrun := h.runLayer hs hp hi (.inr hc.ge)
    have hsynch : LeavingTwo start L D I B newI E idx ((m.runLayer i).recordSynch i)
        (heads i I) :=
      ⟨hrun.shape, hrun.staged, hrun.extraNum, hrun.slots, hrun.params, hrun.ready, hrun.fresh⟩
    have hload := hsynch.loadBehind hs hp hlt hD
    rwa [hhead] at hload
  · rename_i hmod
    exact ⟨_, rfl, h.runLayer hs hp hi (.inl hmod)⟩

end

theorem preIncreaseOncardLayers_two {m : LlamaModel} {n : Nat} (hn : n ≠ 0)
    (htwo : m.pipelineDegree - n = 2) (hL : 0 < m.layerNum) (hacc : Accepted m.layerNum 2) :
    m.preIncreaseOncardLayers n = .ok ((List.range m.pipelineDegree).foldl
      LlamaModel.moveHeadToTwo { m with newPipeline := some (2, (m.layerNum + 2 - 1) / 2) }) := by
  have hI : (m.layerNum + 2 - 1) / 2 ≠ 0 := by omega
  unfold Accepted at hacc
  rw [LlamaModel.preIncreaseOncardLayers, if_neg hn, htwo]
  dsimp only
  rw [if_neg (by decide), if_neg hI, if_neg (fun h => h hacc), if_pos rfl]

/-- The model in the pass that leaves two heads, before its first layer. -/
def LlamaModel.leavingTwo (m : LlamaModel) : LlamaModel :=
  { m with
    newPipeline := some (2, (m.layerNum + 2 - 1) / 2)
    weightCacheBlockIdx := movedIdx m (headSlotOfTwo m) m.pipelineDegree
    extraWeightCacheBlkI := m.extraWeightCacheBlkI + (m.pipelineDegree - 2) }

theorem preIncreaseOncardLayers_leavingTwo {m : LlamaModel} (hD : 3 ≤ m.pipelineDegree)
    (hI : 0 < m.pipelineInterval) (hL : 0 < m.layerNum) (hacc : Accepted m.layerNum 2) :
    m.preIncreaseOncardLayers (m.pipelineDegree - 2) = .ok m.leavingTwo := by
  rw [preIncreaseOncardLayers_two (by omega) (by omega) hL hacc]
  exact congrArg Except.ok (foldl_moveHeadToTwo
    { m with newPipeline := some (2, (m.layerNum + 2 - 1) / 2) } hI m.pipelineDegree)

section

variable {start : Nat → Option Nat} {L D I B : Nat} {m : LlamaModel}

theorem Rolling.extraApart {c : Nat} (hp : Pipeline L D I B) (h : Rolling start L D I B m c) :
    ExtraApart L B m.weightCacheBlockIdx := by
  have hshared : ∀ l < L, B ≤ m.weightCacheBlockIdx l → l % I ≠ 0 := by
    intro l hl hB hmod
    have := h.shared l hl hmod
    have := hp.two_le_block
    omega
  intro l hl l' hl' hB heq
  exact h.slots.inj l hl l' hl' (hshared l hl hB) (hshared l' hl' (heq ▸ hB)) heq

theorem Rolling.slotsOfTwo (hp : Pipeline L D I B) (h : Rolling start L D I B m 0) :
    (∀ l < L, (l % I ≠ 0 ∨ l / I < 2) →
      m.leavingTwo.weightCacheBlockIdx l = m.weightCacheBlockIdx l) ∧
    SlotsOfTwo L D I B m.extraWeightCacheBlkI m.leavingTwo.weightCacheBlockIdx := by
  obtain ⟨rfl, rfl, rfl, rfl, -⟩ := shape_eq_iff.mp h.shape
  have hI := hp.interval_pos
  have hlow : ∀ l < m.layerNum, (l % m.pipelineInterval ≠ 0 ∨ l / m.pipelineInterval < 2) →
      movedIdx m (headSlotOfTwo m) m.pipelineDegree l = m.weightCacheBlockIdx l := by
    intro l _ hl
    by_cases hmod : l % m.pipelineInterval = 0
    · have hhead := Nat.div_mul_cancel (Nat.dvd_of_mod_eq_zero hmod)
      rw [movedIdx]
      split
      · rw [headSlotOfTwo, if_neg (Nat.not_le_of_lt (hl.resolve_left (not_not.mpr hmod))), hhead]
      · rfl
    · exact movedIdx_resident m _ _ hmod
  refine ⟨hlow, ⟨h.below.1, fun l hl hl' => ?_⟩, fun k hk hkD => ?_⟩
  · exact lt_of_eq_of_lt (hlow l hl hl') (h.below.2 l hl)
  · exact (movedIdx_head m _ hI hkD).trans (if_pos hk)

/-- The pass in which all heads but two stop being heads. -/
theorem Rolling.increaseToTwo (hp : Pipeline L D I B) (hD : 3 ≤ D)
    (h : Rolling start L D I B m 0)
    (hextra : m.extraWeightCacheBlkI + (D - 2) ≤ B + m.extraWeightCacheNum)
    (hacc : Accepted L 2) :
    ∃ m', m.forwardOurs (D - 2) = .ok m' ∧ Still start L 2 ((L + 2 - 1) / 2) B m' ∧
      m'.extraWeightCacheBlkI = m.extraWeightCacheBlkI + (D - 2) ∧
      ExtraApart L B m'.weightCacheBlockIdx := by
  obtain ⟨hlow, hs⟩ := h.slotsOfTwo hp
  obtain ⟨hlayer, hdeg, hint, hblk, -⟩ := shape_eq_iff.mp h.shape
  have hI := hp.interval_pos
  have hL : 0 < L := Nat.lt_of_le_of_lt (Nat.zero_le _) (hp.head_lt 0 (by omega))
  have hpre := preIncreaseOncardLayers_leavingTwo (m := m) (by rw [hdeg]; exact hD)
    (by rw [hint]; exact hI) (by rw [hlayer]; exact hL) (by rw [hlayer]; exact hacc)
  rw [hdeg] at hpre
  have hfirst : heads 0 I = 0 := Nat.div_eq_of_lt (by omega)
  have hstart : LeavingTwo start L D I B ((L + 2 - 1) / 2) m.extraWeightCacheBlkI
      m.leavingTwo.weightCacheBlockIdx m.leavingTwo (heads 0 I) := by
    have hlow' : ∀ l, (l % I ≠ 0 ∨ l / I ≤ 0 + 1) → l % I ≠ 0 ∨ l / I < 2 :=
      fun l hl => hl.imp id Nat.lt_succ_of_le
    rw [hfirst]
    refine ⟨shape_eq_iff.mpr ⟨hlayer, hdeg, hint, hblk, by rw [← hlayer]; rfl⟩, h.staged, hextra,
      rfl, fun l hl hl' => (h.params l hl).trans (hlow l hl (hlow' l hl')).symm,
      fun l hl hl' => ?_, fun p hp' => h.fresh p hp'⟩
    -- only the first two heads and the residents are needed, and they are loaded
    have hready : Ready start m l := by
      by_cases hmod : l % I = 0
      · have hhead : l / I * I = l := Nat.div_mul_cancel (Nat.dvd_of_mod_eq_zero hmod)
        have hle := hl'.resolve_left (not_not.mpr hmod)
        rcases Nat.le_one_iff_eq_zero_or_eq_one.mp hle with hk | hk
        · have := h.next
          rwa [Nat.zero_mod, ← hk, hhead] at this
        · have := h.afterNext
          rwa [Nat.zero_add, Nat.mod_eq_of_lt (by omega), ← hk, hhead] at this
      · exact h.resident l hl hmod
    exact hready.congr rfl rfl rfl
  obtain ⟨m₂, hm₂, h₂⟩ := forwardLayers_of_step (n := L)
    (P := fun i m' => LeavingTwo start L D I B ((L + 2 - 1) / 2) m.extraWeightCacheBlkI
      m.leavingTwo.weightCacheBlockIdx m' (heads i I))
    (fun i hi m' h' => h'.forwardLayer hs hp hD hi) hstart
  obtain ⟨-, -, -, -, hnew₂⟩ := shape_eq_iff.mp h₂.shape
  have hloop : (List.range m.leavingTwo.layerNum).foldlM LlamaModel.forwardLayer m.leavingTwo =
      .ok m₂ := by
    rw [show m.leavingTwo.layerNum = L from hlayer]
    exact hm₂
  have hours := forwardOurs_ok hpre hloop
  have hdone : ∀ l < L, l / I < D := by
    intro l hl
    rw [hp.degree, lt_heads_iff hI]
    exact Nat.lt_of_le_of_lt (Nat.div_mul_le_self l I) hl
  have hall : ∀ l < L, l % I ≠ 0 ∨ l / I ≤ heads L I + 1 := by
    intro l hl
    have := hdone l hl
    rw [hp.degree] at this
    exact .inr (Nat.le_succ_of_le this.le)
  refine ⟨_, hours, ?_, ?_, ?_⟩
  · refine ⟨postIncreaseOncardLayers_shape h₂.shape, ?_, fun l hl => ?_, fun l hl => ?_⟩
    · rw [postIncreaseOncardLayers_eq hnew₂]
      exact h₂.staged
    · rw [postIncreaseOncardLayers_eq hnew₂]
      exact (h₂.params l hl (hall l hl)).trans (congrFun h₂.slots l).symm
    · rw [postIncreaseOncardLayers_eq hnew₂]
      exact (h₂.ready l hl (hall l hl)).congr rfl rfl rfl
  · rw [postIncreaseOncardLayers_eq hnew₂, ← hdeg]
    exact (extra_forwardLayers hm₂).2
  · rw [postIncreaseOncardLayers_eq hnew₂]
    change ExtraApart L B m₂.weightCacheBlockIdx
    rw [h₂.slots]
    exact hs.extraApart hp (h.extraApart hp) hlow

end

end Mil.Weights
