import Mathlib.Tactic.Ring
import Mil.Weights.Model

/-!
# The slots at the start

The list of slot numbers is built by assigning overlapping slices, the last of which may run past
the last layer. What comes out is simple: a layer that is not a head has its number less the number
of heads before it, which leaves slot 0 and the last slot to the heads, and the heads alternate
between these two.
-/

set_option autoImplicit false

namespace Mil.Weights

/-- The interval that `LlamaModel` makes of the degree it is asked for. -/
def normInterval (layerNum weightLoadDegree : Nat) : Nat :=
  (layerNum + weightLoadDegree - 1) / weightLoadDegree

/-- The number of intervals. -/
def heads (layerNum interval : Nat) : Nat := (layerNum + interval - 1) / interval

/-- The degree that `LlamaModel` makes of the one it is asked for. -/
def normDegree (layerNum weightLoadDegree : Nat) : Nat :=
  heads layerNum (normInterval layerNum weightLoadDegree)

theorem lt_heads_iff {L I k : Nat} (hI : 0 < I) : k < heads L I ↔ k * I < L := by
  rw [heads, Nat.lt_iff_add_one_le, Nat.le_div_iff_mul_le hI, Nat.add_mul, Nat.one_mul]
  omega

theorem heads_le {L I : Nat} (hI : 0 < I) : heads L I ≤ L := by
  refine Nat.le_of_not_lt fun h => ?_
  have := (lt_heads_iff hI).mp h
  exact absurd (Nat.le_mul_of_pos_right L hI) (Nat.not_le_of_lt this)

theorem heads_pos {L I : Nat} (hI : 0 < I) (hL : 0 < L) : 0 < heads L I :=
  (lt_heads_iff hI).mpr (by rwa [Nat.zero_mul])

/-- The heads among the layers up to a head. -/
theorem heads_of_head {L I : Nat} (hI : 0 < I) (hmod : L % I = 0) : heads L I = L / I := by
  obtain ⟨k, rfl⟩ := Nat.dvd_of_mod_eq_zero hmod
  rw [heads, Nat.mul_div_cancel_left k hI, Nat.div_eq_iff hI, Nat.mul_comm I k]
  omega

/-- One layer more is one head more, if it is a head. -/
theorem heads_succ {L I : Nat} (hI : 0 < I) :
    heads (L + 1) I = heads L I + if L % I = 0 then 1 else 0 := by
  split
  · rename_i hmod
    rw [heads_of_head hI hmod, heads, Nat.add_right_comm, Nat.add_sub_cancel, Nat.add_div_right L hI]
  · rename_i hmod
    have hdvd : ¬ I ∣ L + I - 1 + 1 := by
      rw [Nat.sub_add_cancel (by omega), Nat.dvd_add_self_right]
      exact fun h => hmod (Nat.mod_eq_zero_of_dvd h)
    rw [Nat.add_zero, heads, heads, ← Nat.succ_div_of_not_dvd hdvd]
    congr 1
    omega

/-- The slot of layer `l` at the start. -/
def startSlot (L I l : Nat) : Nat :=
  if l % I = 0 then l / I % 2 * (L - (heads L I - 1)) else l - l / I

/-! ## Building the list -/

theorem getElem?_sliceAssign {xs ys : List Nat} {a j : Nat} (ha : a ≤ xs.length) :
    (sliceAssign xs a (a + ys.length) ys)[j]? =
      if j < a then xs[j]? else if j < a + ys.length then ys[j - a]? else xs[j]? := by
  rw [sliceAssign, List.append_assoc, List.getElem?_append, List.length_take_of_le ha]
  split
  · rename_i h
    rw [List.getElem?_take_of_lt h]
  · rename_i h
    rw [List.getElem?_append]
    split
    · rw [if_pos (by omega)]
    · rw [if_neg (by omega), List.getElem?_drop]
      congr 1
      omega

theorem length_sliceAssign {xs ys : List Nat} {a : Nat} (ha : a ≤ xs.length) :
    (sliceAssign xs a (a + ys.length) ys).length = max xs.length (a + ys.length) := by
  rw [sliceAssign, List.length_append, List.length_append, List.length_take_of_le ha,
    List.length_drop]
  omega

/-- After `n` intervals the first `n * I` slots are assigned. -/
theorem foldl_assignInterval {L I n : Nat} (hI : 0 < I) (hn : n ≤ heads L I) :
    let xs := (List.range n).foldl (assignInterval I (L - (heads L I - 1) + 1))
      (List.replicate L 0)
    L ≤ xs.length ∧ ∀ j < n * I, xs[j]? = some (startSlot L I j) := by
  induction n with
  | zero => simp
  | succ n ih =>
    obtain ⟨hlen, hslot⟩ := ih (by omega)
    rw [List.range_succ, List.foldl_append, List.foldl_cons, List.foldl_nil]
    generalize (List.range n).foldl (assignInterval I (L - (heads L I - 1) + 1))
      (List.replicate L 0) = xs at hlen hslot
    have hnL : n * I < L := (lt_heads_iff hI).mp hn
    have hend : (n + 1) * I = n * I + (List.range' (n * I - n) I).length := by
      rw [List.length_range', Nat.add_mul, Nat.one_mul]
    rw [assignInterval, hend]
    refine ⟨?_, fun j hj => ?_⟩
    · rw [List.length_set, length_sliceAssign (by omega)]
      omega
    · rw [List.length_range'] at hj
      rw [List.getElem?_set, length_sliceAssign (by omega), getElem?_sliceAssign (by omega),
        List.length_range']
      by_cases hhead : n * I = j
      · subst hhead
        rw [if_pos rfl, if_pos (by omega), startSlot, if_pos (Nat.mul_mod_left n I),
          Nat.mul_div_cancel n hI, Nat.add_sub_cancel]
      · rw [if_neg hhead]
        by_cases hlt : j < n * I
        · rw [if_pos hlt, hslot j hlt]
        · have hdiv : j / I = n := by
            rw [Nat.div_eq_iff hI]
            exact ⟨by omega, by omega⟩
          have hmod : j % I ≠ 0 := fun h => hhead (by
            rw [← hdiv]
            exact Nat.div_mul_cancel (Nat.dvd_of_mod_eq_zero h))
          have hle : n ≤ n * I := Nat.le_mul_of_pos_right n hI
          rw [if_neg hlt, if_pos hj, List.getElem?_range' (by omega), startSlot, if_neg hmod, hdiv]
          congr 1
          omega

/-! ## The slots -/

section

variable {L I : Nat}

theorem startSlot_head {k : Nat} (hI : 0 < I) :
    startSlot L I (k * I) = k % 2 * (L - (heads L I - 1)) := by
  rw [startSlot, if_pos (Nat.mul_mod_left k I), Nat.mul_div_cancel k hI]

theorem startSlot_shared {l : Nat} (hmod : l % I = 0) :
    startSlot L I l = 0 ∨ startSlot L I l = L - (heads L I - 1) := by
  rw [startSlot, if_pos hmod]
  rcases Nat.mod_two_eq_zero_or_one (l / I) with h | h
  · exact .inl (by rw [h, Nat.zero_mul])
  · exact .inr (by rw [h, Nat.one_mul])

/-- From one head to a later one there are at least as many layers as heads. -/
theorem head_add_le (hI : 0 < I) {a b : Nat} (h : a ≤ b) : a * I + (b - a) ≤ b * I := by
  obtain ⟨c, rfl⟩ := Nat.exists_eq_add_of_le h
  have : c ≤ c * I := Nat.le_mul_of_pos_right c hI
  rw [Nat.add_mul]
  omega

/-- A layer that is not a head lies between the shared slots. -/
theorem startSlot_resident (hI : 0 < I) {l : Nat} (hl : l < L) (hmod : l % I ≠ 0) :
    0 < startSlot L I l ∧ startSlot L I l < L - (heads L I - 1) := by
  have hdm := Nat.div_add_mod' l I
  have hlt := Nat.mod_lt l hI
  have hle : l / I ≤ l / I * I := Nat.le_mul_of_pos_right _ hI
  have hq : l / I < heads L I := (lt_heads_iff hI).mpr (by omega)
  have hlast : (heads L I - 1) * I < L :=
    (lt_heads_iff hI).mp (Nat.sub_one_lt_of_lt hq)
  rw [startSlot, if_neg hmod]
  generalize l / I = q at *
  refine ⟨by omega, ?_⟩
  rcases Nat.lt_or_ge (q + 1) (heads L I) with h | h
  · have := head_add_le hI (a := q + 1) (b := heads L I - 1) (by omega)
    rw [Nat.add_mul, Nat.one_mul] at this
    omega
  · omega

theorem startSlot_lt (hI : 0 < I) {l l' : Nat} (hmod : l % I ≠ 0) (hmod' : l' % I ≠ 0)
    (h : l < l') : startSlot L I l < startSlot L I l' := by
  have hdm := Nat.div_add_mod' l I
  have hdm' := Nat.div_add_mod' l' I
  have hlt := Nat.mod_lt l hI
  have hle : l / I ≤ l / I * I := Nat.le_mul_of_pos_right _ hI
  have hq : l / I ≤ l' / I := Nat.div_le_div_right h.le
  rw [startSlot, if_neg hmod, startSlot, if_neg hmod']
  generalize l / I = q at *
  generalize l' / I = q' at *
  rcases Nat.lt_or_ge q q' with hqq | hqq
  · have := head_add_le hI (a := q + 1) (b := q') hqq
    rw [Nat.add_mul, Nat.one_mul] at this
    omega
  · obtain rfl : q = q' := by omega
    omega

/-- Layers that are not heads have different slots. -/
theorem startSlot_inj (hI : 0 < I) {l l' : Nat} (hmod : l % I ≠ 0) (hmod' : l' % I ≠ 0)
    (h : startSlot L I l = startSlot L I l') : l = l' := by
  rcases Nat.lt_trichotomy l l' with hlt | heq | hlt
  · exact absurd h (startSlot_lt hI hmod hmod' hlt).ne
  · exact heq
  · exact absurd h (startSlot_lt hI hmod' hmod hlt).ne'

end

/-! ## The model at the start -/

/-- A model that starts at all has an interval, and its layers have the slots above. -/
structure Started (L d : Nat) (dynamic : Bool) (m : LlamaModel) : Prop where
  layers_pos : 0 < L
  interval_pos : 0 < normInterval L d
  layerNum : m.layerNum = L
  degree : m.pipelineDegree = heads L (normInterval L d)
  interval : m.pipelineInterval = normInterval L d
  blockNum : m.weightCacheBlockNum = L - (heads L (normInterval L d) - 1) + 1
  newPipeline : m.newPipeline = none
  extraNum : m.extraWeightCacheNum = if dynamic then L - m.weightCacheBlockNum else 0
  extraBlkI : m.extraWeightCacheBlkI = m.weightCacheBlockNum
  idx : ∀ l < L, m.weightCacheBlockIdx l = startSlot L (normInterval L d) l
  params : m.layerParams = m.weightCacheBlockIdx
  waiting : ∀ l, m.layerWaitingForParams l = false
  trace : m.trace = .empty

theorem init_started {L d : Nat} {dynamic : Bool} {m : LlamaModel}
    (h : LlamaModel.init L d dynamic = .ok m) : Started L d dynamic m := by
  rw [LlamaModel.init] at h
  split at h
  · cases h
  dsimp only at h
  split at h
  · cases h
  rename_i hd hI
  have hIpos : 0 < normInterval L d := Nat.pos_of_ne_zero hI
  have hL : 0 < L := by
    rcases Nat.eq_zero_or_pos L with rfl | hL
    · exact absurd (Nat.div_eq_of_lt (by omega)) hI
    · exact hL
  obtain rfl := Except.ok.inj h
  refine ⟨hL, hIpos, rfl, rfl, rfl, rfl, rfl, rfl, rfl, fun l hl => ?_, rfl, fun _ => rfl, rfl⟩
  obtain ⟨-, hslot⟩ := foldl_assignInterval hIpos (le_refl (heads L (normInterval L d)))
  have hend : L ≤ heads L (normInterval L d) * normInterval L d := by
    refine Nat.le_of_not_lt fun hlt => ?_
    exact Nat.lt_irrefl _ ((lt_heads_iff hIpos).mpr hlt)
  have hl' : l < heads L (normInterval L d) * normInterval L d := Nat.lt_of_lt_of_le hl hend
  exact List.getD_eq_getElem?_getD.trans (congrArg (Option.getD · 0) (hslot l hl'))

theorem init_exists {L d : Nat} (hL : 0 < L) (hd : 0 < d) (dynamic : Bool) :
    ∃ m, LlamaModel.init L d dynamic = .ok m := by
  have hI : (L + d - 1) / d ≠ 0 := (Nat.div_pos (by omega) hd).ne'
  rw [LlamaModel.init, if_neg hd.ne']
  dsimp only
  rw [if_neg hI]
  exact ⟨_, rfl⟩

/-! ## What the slots hold at the start -/

/-- Loading layers into different slots leaves each in its slot. -/
theorem foldl_update_slot {idx : Nat → Nat} {skip : Nat → Prop} [DecidablePred skip] {n l : Nat}
    (hinj : ∀ l', l' < n → ¬ skip l' → idx l = idx l' → l = l') (hl : l < n) (hskip : ¬ skip l) :
    (List.range n).foldl (fun slots l => if skip l then slots
      else Function.update slots (idx l) (some l)) (fun _ => none) (idx l) = some l := by
  induction n with
  | zero => exact absurd hl (Nat.not_lt_zero l)
  | succ n ih =>
    rw [List.range_succ, List.foldl_append, List.foldl_cons, List.foldl_nil]
    by_cases heq : l = n
    · subst heq
      rw [if_neg hskip, Function.update_self]
    · have hold := ih (fun l' hl' => hinj l' (by omega)) (by omega)
      split
      · exact hold
      · rename_i hn
        rwa [Function.update_of_ne fun h => heq (hinj n (Nat.lt_succ_self n) hn h)]

section

variable {L d : Nat} {dynamic : Bool} {m : LlamaModel}

/-- With three heads or more, the layers that are not heads and the first two heads are loaded. -/
theorem Started.loadedSlots_of_three (h : Started L d dynamic m) (hD : 3 ≤ m.pipelineDegree) :
    m.loadedSlots 0 = some 0 ∧
    m.loadedSlots (m.weightCacheBlockNum - 1) = some m.pipelineInterval ∧
    ∀ l < L, l % m.pipelineInterval ≠ 0 →
      m.loadedSlots (m.weightCacheBlockIdx l) = some l := by
  have hIpos := h.interval_pos
  have hle := heads_le (L := L) hIpos
  have hdeg := h.degree
  have hblk := h.blockNum
  have hcache : m.layerNum > m.weightCacheBlockNum := by
    rw [h.layerNum]
    omega
  rw [LlamaModel.loadedSlots, if_pos hcache]
  refine ⟨?_, ?_, fun l hl hmod => ?_⟩
  · rw [Function.update_of_ne (by omega), Function.update_self]
  · rw [Function.update_self]
  · rw [h.interval] at hmod
    obtain ⟨hpos, hlt⟩ := startSlot_resident hIpos hl hmod
    rw [← h.idx l hl] at hpos hlt
    rw [Function.update_of_ne (by omega), Function.update_of_ne (by omega), h.layerNum]
    refine foldl_update_slot (fun l' hl' hskip heq => ?_) hl (fun hs => hmod (h.interval ▸ hs.1))
    have hmod' : l' % normInterval L d ≠ 0 := fun h0 =>
      hskip ⟨by rw [h.interval]; exact h0, by rw [← h.layerNum]; exact hcache⟩
    rw [h.idx l hl, h.idx l' hl'] at heq
    exact startSlot_inj hIpos hmod hmod' heq

/-- With one or two heads every layer is loaded, into a slot of its own. -/
theorem Started.loadedSlots_of_two (h : Started L d dynamic m) (hD : m.pipelineDegree ≤ 2) :
    (∀ l < L, ∀ l' < L, m.weightCacheBlockIdx l = m.weightCacheBlockIdx l' → l = l') ∧
    ∀ l < L, m.loadedSlots (m.weightCacheBlockIdx l) = some l := by
  have hIpos := h.interval_pos
  have hpos := heads_pos hIpos h.layers_pos
  have hle := heads_le (L := L) hIpos
  have hdeg := h.degree
  have hblk := h.blockNum
  have hcache : ¬ m.layerNum > m.weightCacheBlockNum := by
    rw [h.layerNum]
    omega
  have hinj : ∀ l < L, ∀ l' < L, m.weightCacheBlockIdx l = m.weightCacheBlockIdx l' → l = l' := by
    intro l hl l' hl' heq
    rw [h.idx l hl, h.idx l' hl'] at heq
    by_cases hmod : l % normInterval L d = 0
    · by_cases hmod' : l' % normInterval L d = 0
      · obtain ⟨k, rfl⟩ := Nat.dvd_of_mod_eq_zero hmod
        obtain ⟨k', rfl⟩ := Nat.dvd_of_mod_eq_zero hmod'
        rw [Nat.mul_comm _ k] at hl heq
        rw [Nat.mul_comm _ k'] at hl' heq
        have hk := (lt_heads_iff hIpos).mpr hl
        have hk' := (lt_heads_iff hIpos).mpr hl'
        rw [startSlot_head hIpos, startSlot_head hIpos, Nat.mod_eq_of_lt (by omega),
          Nat.mod_eq_of_lt (by omega)] at heq
        rw [Nat.eq_of_mul_eq_mul_right (by omega) heq]
      · have := startSlot_shared (L := L) hmod
        have := startSlot_resident hIpos hl' hmod'
        omega
    · by_cases hmod' : l' % normInterval L d = 0
      · have := startSlot_shared (L := L) hmod'
        have := startSlot_resident hIpos hl hmod
        omega
      · exact startSlot_inj hIpos hmod hmod' heq
  refine ⟨hinj, fun l hl => ?_⟩
  rw [LlamaModel.loadedSlots, if_neg hcache, h.layerNum]
  refine foldl_update_slot (fun l' hl' _ heq => hinj l hl l' hl' heq) hl fun hs => hcache ?_
  rw [h.layerNum]
  exact hs.2

end

end Mil.Weights
