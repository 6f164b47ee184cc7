import Mathlib.Tactic.LinearCombination
import Mathlib.Tactic.Ring
import Mil.Weights.Slots

/-!
# How many layers are put on the card

The scheduler halves the number of layers that are loaded from elsewhere as often as the free KV
blocks allow, and retires the blocks; the worker takes the number of layers off its pipeline
degree and checks that the degree suits its layers. The two sides compute the degree on their own.

Both stay in range for every sequence of calls exactly when every halving of the degree does:
down to two it must be a degree the worker accepts, and it must never be three, whose half is one
(`residencyInRange_iff`).
-/

set_option autoImplicit false

namespace Mil.Weights

/-- The class variables of `KVBlkPerLayerWeight` that the scheduler uses. -/
structure KVBlkPerLayerWeight where
  blkNumPerLayer : Nat
  cachedLayerNum : Int
  loadMoreLayerOnCardNum : Int

/-- The `while` loop of `increase_layer_weight_on_comp_gpu`: the last number of layers for which
there are enough free blocks. -/
def lastLayersToLoad (kv : KVBlkPerLayerWeight) (numFreeBlocks : Nat) (newCachedLayerNum : Int)
    (last : Option Int) : Option Int :=
  let numLayersToLoad := kv.cachedLayerNum + 2 - newCachedLayerNum
  if kv.blkNumPerLayer * numLayersToLoad ≤ numFreeBlocks then
    if kv.cachedLayerNum - numLayersToLoad ≤ 0 then some numLayersToLoad
    else lastLayersToLoad kv numFreeBlocks (newCachedLayerNum / 2) (some numLayersToLoad)
  else last
termination_by newCachedLayerNum.toNat
decreasing_by omega

/-- The number of layers that `increase_layer_weight_on_comp_gpu` asks for, if any. -/
def layersToLoad (kv : KVBlkPerLayerWeight) (numWaiting numFreeBlocks : Nat) : Option Int :=
  if kv.cachedLayerNum = 0 then none
  else if numWaiting > 0 then none
  else lastLayersToLoad kv numFreeBlocks ((kv.cachedLayerNum + 2) / 2) none

/-- The counters of the scheduler's side and the model on the worker's side. -/
structure Residency where
  kv : KVBlkPerLayerWeight
  actualGpuBlkRngEnd : Int
  model : LlamaModel

/-- The first lines of `reorganize_gpu_blocks`. -/
def Residency.reorganize (s : Residency) (numLayerToLoad : Int) : Residency :=
  { s with
    kv := { s.kv with
      cachedLayerNum := s.kv.cachedLayerNum - numLayerToLoad
      loadMoreLayerOnCardNum := numLayerToLoad }
    actualGpuBlkRngEnd := s.actualGpuBlkRngEnd - s.kv.blkNumPerLayer * numLayerToLoad }

/-- `increase_layer_weight_on_comp_gpu`. -/
def Residency.increase (s : Residency) (numWaiting numFreeBlocks : Nat) : Residency :=
  match layersToLoad s.kv numWaiting numFreeBlocks with
  | none => s
  | some n => s.reorganize n

/-- One call of `schedule` and the worker's part in it; afterwards the engine sets
`load_more_layer_on_card_num` back to 0. -/
def Residency.step (s : Residency) (numWaiting numFreeBlocks : Nat) : Except Err Residency := do
  let s := s.increase numWaiting numFreeBlocks
  let m ← s.model.preIncreaseOncardLayers s.kv.loadMoreLayerOnCardNum.toNat
  .ok { s with
    kv := { s.kv with loadMoreLayerOnCardNum := 0 }
    model := m.postIncreaseOncardLayers }

/-- The start: `cached_layer_num` is `layer_num - weight_cache_block_num`. -/
def Residency.start (layerNum weightLoadDegree blkNumPerLayer : Nat) (gpuBlkNum : Int) :
    Except Err Residency := do
  let m ← LlamaModel.init layerNum weightLoadDegree true
  .ok ⟨⟨blkNumPerLayer, m.layerNum - m.weightCacheBlockNum, 0⟩, gpuBlkNum, m⟩

/-- A sequence of calls, each with the number of waiting requests and of free blocks it sees. -/
def Residency.run (s : Residency) (calls : List (Nat × Nat)) : Except Err Residency :=
  calls.foldlM (fun s c => s.step c.1 c.2) s

/-! ## The property -/

/-- What holds after some calls, of which the first state was `s₀`: the cached layers and the
degree are in range, the blocks retired are those of the layers loaded, and the next call loads
at most the cached layers, none if there are none. -/
structure InRange (s₀ s : Residency) : Prop where
  cached_nonneg : 0 ≤ s.kv.cachedLayerNum
  degree : 2 ≤ s.model.pipelineDegree
  accepted : Accepted s.model.layerNum s.model.pipelineDegree
  retired : s₀.actualGpuBlkRngEnd - s.actualGpuBlkRngEnd =
    s₀.kv.blkNumPerLayer * (s₀.kv.cachedLayerNum - s.kv.cachedLayerNum)
  at_most : ∀ numWaiting numFreeBlocks n,
    layersToLoad s.kv numWaiting numFreeBlocks = some n → n ≤ s.kv.cachedLayerNum
  nothing : s.kv.cachedLayerNum = 0 → ∀ numWaiting numFreeBlocks,
    s.increase numWaiting numFreeBlocks = s

/-- For every number of blocks per layer and every sequence of calls, nothing is raised and
everything stays in range. -/
def ResidencyInRange (layerNum weightLoadDegree : Nat) : Prop :=
  ∀ (blkNumPerLayer : Nat) (gpuBlkNum : Int) (calls : List (Nat × Nat)), ∃ s₀ s,
    Residency.start layerNum weightLoadDegree blkNumPerLayer gpuBlkNum = .ok s₀ ∧
    s₀.run calls = .ok s ∧ InRange s₀ s

/-- Halved again and again the degree gets to two, and not by way of three, through degrees that
the worker accepts. -/
def HalvesInRange (layerNum weightLoadDegree : Nat) : Prop :=
  2 ≤ normDegree layerNum weightLoadDegree ∧
  ∀ k, 2 ≤ normDegree layerNum weightLoadDegree / 2 ^ k →
    normDegree layerNum weightLoadDegree / 2 ^ k ≠ 3 ∧
    Accepted layerNum (normDegree layerNum weightLoadDegree / 2 ^ k)

/-! ## The start -/

theorem start_ok {L d blk : Nat} {gpuBlkNum : Int} {s : Residency}
    (h : Residency.start L d blk gpuBlkNum = .ok s) :
    0 < L ∧ s.kv = ⟨blk, (normDegree L d : Int) - 2, 0⟩ ∧ s.actualGpuBlkRngEnd = gpuBlkNum ∧
      s.model.layerNum = L ∧ s.model.pipelineDegree = normDegree L d ∧
      s.model.newPipeline = none := by
  rw [Residency.start] at h
  cases hm : LlamaModel.init L d true with
  | error e =>
    rw [hm] at h
    cases h
  | ok m =>
    rw [hm] at h
    obtain rfl := Except.ok.inj h
    have hs := init_started hm
    have hpos := heads_pos hs.interval_pos hs.layers_pos
    have hle := heads_le (L := L) hs.interval_pos
    refine ⟨hs.layers_pos, ?_, rfl, hs.layerNum, hs.degree, hs.newPipeline⟩
    change KVBlkPerLayerWeight.mk blk ((m.layerNum : Int) - m.weightCacheBlockNum) 0 = _
    rw [hs.layerNum, hs.blockNum, normDegree]
    congr 1
    omega

theorem start_exists {L d : Nat} (blk : Nat) (gpuBlkNum : Int) (h : 2 ≤ normDegree L d) :
    ∃ s, Residency.start L d blk gpuBlkNum = .ok s := by
  have hd : 0 < d := by
    refine Nat.pos_of_ne_zero ?_
    rintro rfl
    rw [normDegree, normInterval, Nat.div_zero, heads, Nat.div_zero] at h
    omega
  have hL : 0 < L := by
    refine Nat.pos_of_ne_zero ?_
    rintro rfl
    rw [normDegree, normInterval, Nat.div_eq_of_lt (by omega), heads, Nat.div_zero] at h
    omega
  obtain ⟨m, hm⟩ := init_exists hL hd true
  rw [Residency.start, hm]
  exact ⟨_, rfl⟩

/-! ## One call -/

section

variable {kv : KVBlkPerLayerWeight} {q : Nat}

/-- The loop asks for what leaves some halving of the degree, as long as no halving is three. -/
theorem lastLayersToLoad_halves (hq : kv.cachedLayerNum = (q : Int) - 2)
    (hthree : ∀ j, q / 2 ^ j ≠ 3) (free : Nat) {j : Nat} (hj : 2 ≤ q / 2 ^ (j + 1))
    {last : Option Int}
    (hlast : ∀ n, last = some n → ∃ i, 2 ≤ q / 2 ^ (i + 1) ∧ n = (q : Int) - (q / 2 ^ (i + 1) : Nat))
    {n : Int} (h : lastLayersToLoad kv free (q / 2 ^ (j + 1) : Nat) last = some n) :
    ∃ i, 2 ≤ q / 2 ^ (i + 1) ∧ n = (q : Int) - (q / 2 ^ (i + 1) : Nat) := by
  generalize hc : ((q / 2 ^ (j + 1) : Nat) : Int) = newC at h
  fun_induction lastLayersToLoad kv free newC last generalizing j with
  | case1 newC last num hfree =>
    obtain rfl := Option.some.inj h
    exact ⟨j, hj, by omega⟩
  | case2 newC last num hfree hgo =>
    rename_i ih
    have hhalf : q / 2 ^ (j + 1 + 1) = q / 2 ^ (j + 1) / 2 := by
      rw [pow_succ 2 (j + 1), Nat.div_div_eq_div_mul]
    have := hthree (j + 1)
    refine ih (j := j + 1) (by omega) (fun n hn => ?_) (by rw [← hc, hhalf]; omega) h
    obtain rfl := Option.some.inj hn
    exact ⟨j, hj, by omega⟩
  | case3 newC last num => exact hlast n h

theorem layersToLoad_halves (hq : kv.cachedLayerNum = (q : Int) - 2) (htwo : 2 ≤ q)
    (hthree : ∀ j, q / 2 ^ j ≠ 3) {numWaiting free : Nat} {n : Int}
    (h : layersToLoad kv numWaiting free = some n) :
    ∃ i, 2 ≤ q / 2 ^ (i + 1) ∧ n = (q : Int) - (q / 2 ^ (i + 1) : Nat) := by
  rw [layersToLoad] at h
  split at h
  · cases h
  split at h
  · cases h
  have h3 := hthree 0
  rw [pow_zero, Nat.div_one] at h3
  have hhalf : ((q / 2 ^ (0 + 1) : Nat) : Int) = (kv.cachedLayerNum + 2) / 2 := by
    rw [Nat.zero_add, pow_one, hq]
    omega
  rw [← hhalf] at h
  refine lastLayersToLoad_halves hq hthree free (by omega) (fun n hn => ?_) h
  cases hn

/-- With one block per layer and just enough free blocks the degree is halved once. -/
theorem layersToLoad_half (hq : kv.cachedLayerNum = (q : Int) - 2) (htwo : 3 ≤ q)
    (hblk : kv.blkNumPerLayer = 1) :
    layersToLoad kv 0 (q - q / 2) = some ((q - q / 2 : Nat) : Int) := by
  rw [layersToLoad, if_neg (by omega), if_neg (Nat.lt_irrefl 0), lastLayersToLoad]
  have hn : kv.cachedLayerNum + 2 - (kv.cachedLayerNum + 2) / 2 = ((q - q / 2 : Nat) : Int) := by
    omega
  rw [hn, hblk, if_pos (by omega)]
  split
  · rfl
  · rw [lastLayersToLoad, hblk, if_neg (by omega)]

end

/-- The state after some calls: the degree has been halved `k` times and the counters agree. -/
structure Halved (L D blk : Nat) (gpuBlkNum : Int) (s : Residency) (k : Nat) : Prop where
  layerNum : s.model.layerNum = L
  degree : s.model.pipelineDegree = D / 2 ^ k
  newPipeline : s.model.newPipeline = none
  two_le : 2 ≤ D / 2 ^ k
  kv : s.kv = ⟨blk, (D / 2 ^ k : Nat) - 2, 0⟩
  retired : gpuBlkNum - s.actualGpuBlkRngEnd = blk * ((D : Int) - (D / 2 ^ k : Nat))

section

variable {L D blk k : Nat} {gpuBlkNum : Int} {s : Residency}

theorem Halved.start {d : Nat} (htwo : 2 ≤ normDegree L d)
    (h : Residency.start L d blk gpuBlkNum = .ok s) :
    0 < L ∧ Halved L (normDegree L d) blk gpuBlkNum s 0 := by
  obtain ⟨hL, hkv, hend, hlayer, hdegree, hnew⟩ := start_ok h
  have hone : normDegree L d / 2 ^ 0 = normDegree L d := by rw [pow_zero, Nat.div_one]
  refine ⟨hL, hlayer, by rw [hone, hdegree], hnew, by rwa [hone], by rw [hone, hkv], ?_⟩
  rw [hone, hend, Int.sub_self, Int.sub_self, Int.mul_zero]

/-- The call after a state that asks for nothing changes nothing. -/
theorem step_of_none {numWaiting free : Nat} (hload : s.kv.loadMoreLayerOnCardNum = 0)
    (hnew : s.model.newPipeline = none) (h : layersToLoad s.kv numWaiting free = none) :
    s.step numWaiting free = .ok s := by
  obtain ⟨⟨blk, cached, load⟩, rngEnd, m⟩ := s
  dsimp only at hload hnew
  subst hload
  rw [Residency.step, Residency.increase, h]
  dsimp only
  rw [Int.toNat_zero, preIncreaseOncardLayers_zero]
  change Except.ok _ = _
  rw [LlamaModel.postIncreaseOncardLayers, hnew]

/-- The call after a state that asks for `n` layers, when the worker accepts the new degree. -/
theorem Halved.step_load (h : Halved L D blk gpuBlkNum s k) {numWaiting free i : Nat}
    (htwo : 2 ≤ D / 2 ^ (k + i + 1))
    (hload : layersToLoad s.kv numWaiting free =
      some ((D / 2 ^ k - D / 2 ^ (k + i + 1) : Nat) : Int))
    {s' : Residency} (hs' : s.step numWaiting free = .ok s') :
    Halved L D blk gpuBlkNum s' (k + i + 1) := by
  have hle : D / 2 ^ (k + i + 1) < D / 2 ^ k := by
    have : D / 2 ^ (k + i + 1) = D / 2 ^ k / 2 ^ (i + 1) := by
      rw [Nat.div_div_eq_div_mul, ← pow_add, Nat.add_assoc]
    rw [this]
    exact Nat.div_lt_self (by have := h.two_le; omega) (Nat.one_lt_two_pow (Nat.succ_ne_zero i))
  rw [Residency.step, Residency.increase, hload] at hs'
  dsimp only [Residency.reorganize] at hs'
  rw [Int.toNat_natCast] at hs'
  cases hpre : s.model.preIncreaseOncardLayers (D / 2 ^ k - D / 2 ^ (k + i + 1)) with
  | error e =>
    rw [hpre] at hs'
    cases hs'
  | ok m =>
    rw [hpre] at hs'
    obtain rfl := Except.ok.inj hs'
    have hshape := postIncreaseOncardLayers_shape
      (preIncreaseOncardLayers_shape (by omega) hpre)
    simp only [LlamaModel.shape, Prod.mk.injEq] at hshape
    obtain ⟨hlayer, hdegree, -, -, hnew⟩ := hshape
    have hkv := h.kv
    refine ⟨hlayer.trans h.layerNum, hdegree.trans ?_, hnew, htwo, ?_, ?_⟩
    · rw [h.degree]
      omega
    · dsimp only
      rw [hkv]
      simp only [KVBlkPerLayerWeight.mk.injEq, and_true, true_and]
      omega
    · dsimp only
      rw [hkv]
      dsimp only
      have := h.retired
      rw [Nat.cast_sub hle.le]
      linear_combination this

theorem Halved.step (h : Halved L D blk gpuBlkNum s k) (hL : 0 < L)
    (hthree : ∀ j, D / 2 ^ j ≠ 3) (hacc : ∀ j, 2 ≤ D / 2 ^ j → Accepted L (D / 2 ^ j))
    (numWaiting free : Nat) :
    ∃ s' k', s.step numWaiting free = .ok s' ∧ Halved L D blk gpuBlkNum s' k' := by
  have hkv := h.kv
  cases hload : layersToLoad s.kv numWaiting free with
  | none => exact ⟨s, k, step_of_none (by rw [hkv]) h.newPipeline hload, h⟩
  | some n =>
    have hdiv : ∀ j, D / 2 ^ k / 2 ^ j = D / 2 ^ (k + j) := fun j => by
      rw [Nat.div_div_eq_div_mul, ← pow_add]
    obtain ⟨i, htwo, hn⟩ := layersToLoad_halves (q := D / 2 ^ k) (by rw [hkv]) h.two_le
      (fun j => by rw [hdiv]; exact hthree _) hload
    rw [hdiv, ← Nat.add_assoc] at htwo hn
    have hle : D / 2 ^ (k + i + 1) ≤ D / 2 ^ k :=
      Nat.div_le_div_left (Nat.pow_le_pow_right (by decide) (by omega)) (Nat.two_pow_pos k)
    have hload' : layersToLoad s.kv numWaiting free =
        some ((D / 2 ^ k - D / 2 ^ (k + i + 1) : Nat) : Int) := by
      rw [hload, hn]
      congr 1
      omega
    obtain ⟨m, hm⟩ := preIncreaseOncardLayers_accepted (m := s.model)
      (n := D / 2 ^ k - D / 2 ^ (k + i + 1)) (by rw [h.degree]; omega) (by rw [h.layerNum]; exact hL)
      (by
        rw [h.degree, h.layerNum, Nat.sub_sub_self hle]
        exact hacc _ htwo)
    have hstep : ∃ s', s.step numWaiting free = .ok s' := by
      rw [Residency.step, Residency.increase, hload']
      dsimp only [Residency.reorganize]
      rw [Int.toNat_natCast, hm]
      exact ⟨_, rfl⟩
    obtain ⟨s', hs'⟩ := hstep
    exact ⟨s', _, hs', h.step_load htwo hload' hs'⟩

theorem Halved.run (h : Halved L D blk gpuBlkNum s k) (hL : 0 < L)
    (hthree : ∀ j, D / 2 ^ j ≠ 3) (hacc : ∀ j, 2 ≤ D / 2 ^ j → Accepted L (D / 2 ^ j))
    (calls : List (Nat × Nat)) :
    ∃ s' k', s.run calls = .ok s' ∧ Halved L D blk gpuBlkNum s' k' := by
  induction calls generalizing s k with
  | nil => exact ⟨s, k, rfl, h⟩
  | cons c calls ih =>
    obtain ⟨s₁, k₁, hs₁, h₁⟩ := h.step hL hthree hacc c.1 c.2
    obtain ⟨s₂, k₂, hs₂, h₂⟩ := ih h₁
    refine ⟨s₂, k₂, ?_, h₂⟩
    rw [Residency.run, List.foldlM_cons, hs₁]
    exact hs₂

theorem Halved.inRange (h : Halved L D blk gpuBlkNum s k) {s₀ : Residency}
    (h₀ : Halved L D blk gpuBlkNum s₀ 0) (hthree : ∀ j, D / 2 ^ j ≠ 3)
    (hacc : Accepted L (D / 2 ^ k)) : InRange s₀ s := by
  have hkv := h.kv
  refine ⟨?_, by rw [h.degree]; exact h.two_le, by rwa [h.layerNum, h.degree], ?_,
    fun numWaiting free n hn => ?_, fun hzero numWaiting free => ?_⟩
  · rw [hkv]
    have := h.two_le
    dsimp only
    omega
  · have hr := h.retired
    have hr₀ := h₀.retired
    rw [h₀.kv, hkv]
    dsimp only
    linear_combination hr - hr₀
  · obtain ⟨i, htwo, rfl⟩ := layersToLoad_halves (q := D / 2 ^ k) (by rw [hkv]) h.two_le
      (fun j => by rw [Nat.div_div_eq_div_mul, ← pow_add]; exact hthree _) hn
    rw [hkv]
    dsimp only
    omega
  · rw [Residency.increase, layersToLoad, if_pos hzero]

end

/-! ## Both directions -/

theorem residencyInRange_of_halves {L d : Nat} (h : HalvesInRange L d) : ResidencyInRange L d := by
  obtain ⟨htwo, hk⟩ := h
  intro blk gpuBlkNum calls
  have hthree : ∀ j, normDegree L d / 2 ^ j ≠ 3 := fun j h3 => (hk j (by omega)).1 h3
  have hacc : ∀ j, 2 ≤ normDegree L d / 2 ^ j → Accepted L (normDegree L d / 2 ^ j) :=
    fun j hj => (hk j hj).2
  obtain ⟨s₀, hs₀⟩ := start_exists blk gpuBlkNum htwo
  obtain ⟨hL, h₀⟩ := Halved.start htwo hs₀
  obtain ⟨s, k, hs, hhalved⟩ := h₀.run hL hthree hacc calls
  exact ⟨s₀, s, hs₀, hs, hhalved.inRange h₀ hthree (hacc k hhalved.two_le)⟩

theorem ResidencyInRange.two_le {L d : Nat} (h : ResidencyInRange L d) : 2 ≤ normDegree L d := by
  obtain ⟨s₀, s, hs₀, hs, hr⟩ := h 1 0 []
  obtain rfl := Except.ok.inj hs
  obtain ⟨-, -, -, -, hdegree, -⟩ := start_ok hs₀
  rw [← hdegree]
  exact hr.degree

/-- With one block per layer every halving of the degree is reached. -/
theorem ResidencyInRange.reaches {L d : Nat} (h : ResidencyInRange L d) {k : Nat}
    (hk : 2 ≤ normDegree L d / 2 ^ k) :
    ∃ calls s₀ s, Residency.start L d 1 0 = .ok s₀ ∧ s₀.run calls = .ok s ∧ InRange s₀ s ∧
      Halved L (normDegree L d) 1 0 s k := by
  induction k with
  | zero =>
    obtain ⟨s₀, s, hs₀, hs, hr⟩ := h 1 0 []
    obtain rfl := Except.ok.inj hs
    exact ⟨[], s₀, s₀, hs₀, rfl, hr, (Halved.start h.two_le hs₀).2⟩
  | succ k ih =>
    have hhalf : normDegree L d / 2 ^ (k + 1) = normDegree L d / 2 ^ k / 2 := by
      rw [pow_succ, Nat.div_div_eq_div_mul]
    obtain ⟨calls, s₀, s, hs₀, hs, -, hhalved⟩ := ih (by omega)
    have hkv := hhalved.kv
    have hload : layersToLoad s.kv 0 (normDegree L d / 2 ^ k - normDegree L d / 2 ^ k / 2) = _ :=
      layersToLoad_half (by rw [hkv]) (by omega) (by rw [hkv])
    rw [← hhalf] at hload
    obtain ⟨s₀', s', hs₀', hs', hr⟩ := h 1 0
      (calls ++ [(0, normDegree L d / 2 ^ k - normDegree L d / 2 ^ (k + 1))])
    obtain rfl := Except.ok.inj (hs₀.symm.trans hs₀')
    refine ⟨_, s₀, s', hs₀, hs', hr, ?_⟩
    rw [Residency.run, List.foldlM_append] at hs'
    rw [Residency.run] at hs
    rw [hs] at hs'
    refine hhalved.step_load (i := 0) hk hload ?_
    change (s.step _ _ >>= pure) = _ at hs'
    rwa [bind_pure] at hs'

theorem halves_of_residencyInRange {L d : Nat} (h : ResidencyInRange L d) : HalvesInRange L d := by
  refine ⟨h.two_le, fun k hk => ?_⟩
  obtain ⟨calls, s₀, s, -, -, hr, hhalved⟩ := h.reaches hk
  have hkv := hhalved.kv
  refine ⟨fun h3 => ?_, ?_⟩
  · have hload : layersToLoad s.kv 0 (3 - 3 / 2) = _ :=
      layersToLoad_half (by rw [hkv, h3]) (le_refl 3) (by rw [hkv])
    have := hr.at_most 0 _ _ hload
    rw [hkv, h3] at this
    revert this
    decide
  · have := hr.accepted
    rwa [hhalved.layerNum, hhalved.degree] at this

/-- The weight-residency arithmetic stays in range in every run exactly when all halvings of the
normalised degree do. -/
theorem residencyInRange_iff (L d : Nat) : ResidencyInRange L d ↔ HalvesInRange L d :=
  ⟨halves_of_residencyInRange, residencyInRange_of_halves⟩

/-- Three layers loaded one by one: two free blocks are enough to load two layers though only one
is cached elsewhere. -/
theorem not_residencyInRange_three : ¬ ResidencyInRange 3 3 := fun h =>
  (halves_of_residencyInRange h).2 0 (by decide) |>.1 (by decide)

end Mil.Weights
