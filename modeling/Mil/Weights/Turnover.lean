import Mil.Weights.Transition

/-!
# The turnover to fewer heads

The end of the pass of an increase hands over to the rolling state of the new interval: the old
second head is loaded into its own slot, the second new head into the shared slot that layer 0 does
not have. Together with the loads before it this is one step per layer, and the steps make the
whole pass (`Rolling.increase`).
-/

set_option autoImplicit false

namespace Mil.Weights

open Mil.Lib.Staging

section

variable {start : Nat → Option Nat} {g : Change} {m : LlamaModel} {b c : Nat}

/-! ## The end of the pass -/

theorem Change.newInterval_ne (hg : g.Ok) : g.a * g.I ≠ 0 ∧ g.a * g.I ≠ g.I ∧ g.a * g.I < g.L := by
  have hI := hg.pipeline.interval_pos
  have ha := hg.two_le
  have hthree := hg.three_le
  refine ⟨Nat.mul_ne_zero (by omega) hI.ne', fun h => ?_, head_lt hg ?_⟩
  · have := Nat.eq_of_mul_eq_mul_right hI (h.trans (Nat.one_mul g.I).symm)
    omega
  · have := (mul_lt_iff hg).mp (show 1 < g.newD by omega)
    rwa [Nat.one_mul] at this

/-- The layers that are not new heads: those that were no heads, and the heads that stop. -/
theorem Change.not_newHead (hg : g.Ok) {l : Nat} (hl : l < g.L) (hmod : l % (g.a * g.I) ≠ 0) :
    l % g.I ≠ 0 ∨ ∃ k < g.D, k % g.a ≠ 0 ∧ l = k * g.I := by
  by_cases hhead : l % g.I = 0
  · have hmul := Nat.div_mul_cancel (Nat.dvd_of_mod_eq_zero hhead)
    refine .inr ⟨l / g.I, div_lt hg hl, fun h => hmod ?_, hmul.symm⟩
    rw [← hmul]
    exact (head_mod hg.pipeline.interval_pos _).mpr h
  · exact .inl hhead

theorem Change.newHead (hg : g.Ok) {l : Nat} (hl : l < g.L) (hmod : l % (g.a * g.I) = 0) :
    ∃ j, l = j * g.a * g.I ∧ j * g.a < g.D := by
  obtain ⟨j, rfl⟩ := Nat.dvd_of_mod_eq_zero hmod
  have heq : g.a * g.I * j = j * g.a * g.I := by ring
  refine ⟨j, heq, ?_⟩
  rw [heq] at hl
  rw [hg.pipeline.degree, lt_heads_iff hg.pipeline.interval_pos]
  exact hl

/-- The slots before the next pass keep the layers apart that are not new heads. -/
theorem Change.apart (hg : g.Ok) {idx : Nat → Nat}
    (hidx : ∀ l < g.L, l % (g.a * g.I) ≠ 0 → idx l = g.idx l) :
    Apart g.L (g.a * g.I) g.B idx := by
  have hB := hg.block_le
  have htwo := hg.pipeline.two_le_block
  refine ⟨fun l hl hmod => ?_, fun l hl l' hl' hmod hmod' heq => ?_⟩
  · rw [hidx l hl hmod]
    rcases not_newHead hg hl hmod with hlow | ⟨k, hk, hk', rfl⟩
    · exact (hg.low l hl hlow).2
    · have := (extra_range hg hk hk').1
      omega
  · rw [hidx l hl hmod, hidx l' hl' hmod'] at heq
    rcases not_newHead hg hl hmod with hlow | ⟨k, hk, hk', rfl⟩ <;>
      rcases not_newHead hg hl' hmod' with hlow' | ⟨k', hkk, hkk', rfl⟩
    · exact hg.lowInj l hl l' hl' hlow hlow' heq
    · have := (hg.low l hl hlow).1
      have := (extra_range hg hkk hkk').1
      omega
    · have := (hg.low l' hl' hlow').1
      have := (extra_range hg hk hk').1
      omega
    · rw [extra_inj hg hk hkk hk' hkk' heq]

/-- At the end of the runs every layer but the old second head has its parameters in its slot. -/
theorem InPass.params_end (hg : g.Ok) (h : InPass start g m g.D (g.D + 1)) {l : Nat} (hl : l < g.L)
    (hne : l ≠ g.I) : m.layerParams l = m.weightCacheBlockIdx l := by
  by_cases hzero : l = 0
  · rw [hzero]
    exact h.zeroParams
  · rw [h.slots l hl hzero]
    refine h.params l hl (or_iff_not_imp_left.mpr fun hmod => ?_)
    obtain ⟨-, htwo, hlt⟩ := Change.head_of_slotAt hg hl hzero hne (not_not.mp hmod)
    exact ⟨htwo, Nat.lt_succ_of_lt hlt⟩

/-- At the end of the runs the layers that are not loaded any more in this pass are ready: layer 0,
and all that will not be heads, but the old second head. -/
theorem InPass.ready_end (hg : g.Ok) (h : InPass start g m g.D (g.D + 1)) {l : Nat} (hl : l < g.L)
    (hne : l ≠ g.I) (hl' : l = 0 ∨ l % (g.a * g.I) ≠ 0) : Ready start m l := by
  have hI := hg.pipeline.interval_pos
  refine h.ready l hl ?_
  rcases hl' with rfl | hmod
  · exact .inr (.inr (.inr ⟨Nat.zero_div _, Nat.lt_succ_self _⟩))
  · rcases Change.not_newHead hg hl hmod with hlow | ⟨k, hk, hk', rfl⟩
    · exact .inl hlow
    · rw [Nat.mul_div_cancel k hI]
      refine .inr (.inr (.inl ⟨Nat.le_of_not_lt fun hlt => ?_, hk, hk'⟩))
      rcases Nat.le_one_iff_eq_zero_or_eq_one.mp (Nat.le_of_lt_succ hlt) with rfl | rfl
      · exact hk' (Nat.zero_mod _)
      · exact hne (Nat.one_mul _)

/-- The state after the last two loads of the pass: the old second head goes to its own slot, and
the second new head is loaded for the next pass. -/
def InPass.loaded (g : Change) (m : LlamaModel) : LlamaModel :=
  ((((m.pointParams g.I (g.idx g.I)).issueLoad g.I (g.idx g.I) m.trace.runs.length).retarget
    (g.a * g.I) (g.turn (g.newD + 1))).issueLoad (g.a * g.I) (g.turn (g.newD + 1))
      (g.t₀ + g.prev (g.newD + 1) * g.I + 1))

theorem InPass.loaded_shape : (InPass.loaded g m).shape = m.shape := rfl

/-- What the end of the pass needs to know about the two slots that are loaded last. -/
structure LastLoads (g : Change) (m : LlamaModel) : Prop where
  second : g.E ≤ g.idx g.I ∧ g.idx g.I < g.E + (g.D - g.newD)
  freshSecond : m.trace.Clear (g.idx g.I) 0
  turnClear : m.trace.Clear (g.turn (g.newD + 1)) (g.t₀ + g.prev (g.newD + 1) * g.I + 1)
  prev_le : g.t₀ + g.prev (g.newD + 1) * g.I + 1 ≤ m.trace.runs.length
  turn_ne : g.turn g.newD ≠ g.turn (g.newD + 1)

theorem InPass.lastLoads (hg : g.Ok) (h : InPass start g m g.D (g.D + 1))
    (hlen : g.t₀ + (g.D - 1) * g.I < m.trace.runs.length) : LastLoads g m := by
  have ha := hg.two_le
  have hthree := hg.three_le
  have hlast : (g.newD - 1) * g.a < g.D := (Change.mul_lt_iff hg).mp (by omega)
  have hprev : g.prev (g.newD + 1) = (g.newD - 1) * g.a := by
    rw [Change.prev, if_neg (by omega), if_neg (by omega)]
    congr 1
  have hone : 1 % g.a ≠ 0 := by
    rw [Nat.mod_eq_of_lt (by omega)]
    decide
  have honeD : 1 < g.D := by
    have : 1 * g.a < g.D := (Change.mul_lt_iff hg).mp (by omega)
    omega
  have hextra := Change.extra_range hg honeD hone
  have hfresh := h.fresh 1 honeD hone (.inl rfl)
  rw [Nat.one_mul] at hextra hfresh
  refine ⟨hextra, hfresh, h.clear (g.newD + 1) (by omega) (by omega) (by omega) (by omega), ?_,
    fun heq => ?_⟩
  · have : g.prev (g.newD + 1) * g.I ≤ (g.D - 1) * g.I := Nat.mul_le_mul_right _ (by omega)
    omega
  · have := Change.parity_of_turn_eq hg heq
    omega

theorem InPass.ready_loaded {l : Nat} (h : Ready start m l)
    (hI : l ≠ g.I) (hnewI : l ≠ g.a * g.I) (he : m.layerParams l ≠ g.idx g.I)
    (hq : m.layerParams l ≠ g.turn (g.newD + 1)) : Ready start (InPass.loaded g m) l := by
  have hoff : (m.pointParams g.I (g.idx g.I)).layerParams l = m.layerParams l :=
    Function.update_of_ne hI ..
  have hoff' : ∀ m₁ : LlamaModel, (m₁.retarget (g.a * g.I) (g.turn (g.newD + 1))).layerParams l =
      m₁.layerParams l := fun m₁ => m₁.retarget_params_of_ne _ hnewI
  have hfirst : Ready start ((m.pointParams g.I (g.idx g.I)).issueLoad g.I (g.idx g.I)
      m.trace.runs.length) l :=
    (h.pointParams hI).issueLoad hI (hoff ▸ he)
  refine (hfirst.retarget hnewI).issueLoad hnewI ?_
  rw [hoff']
  exact hoff.symm ▸ hq

theorem InPass.loaded_idx_of_ne {l : Nat} (hl : l ≠ g.a * g.I) :
    (InPass.loaded g m).weightCacheBlockIdx l = m.weightCacheBlockIdx l :=
  Function.update_of_ne hl ..

theorem InPass.loaded_idx_self :
    (InPass.loaded g m).weightCacheBlockIdx (g.a * g.I) = g.turn (g.newD + 1) :=
  Function.update_self ..

/-- Layers that are no heads any more keep their slots. -/
theorem InPass.loaded_kept (h : InPass start g m g.D (g.D + 1)) {l : Nat} (hl : l < g.L)
    (hmod : l % (g.a * g.I) ≠ 0) : (InPass.loaded g m).weightCacheBlockIdx l = g.idx l := by
  have hnew : l ≠ g.a * g.I := fun heq => hmod (by rw [heq, Nat.mod_self])
  have hzero : l ≠ 0 := fun heq => hmod (by rw [heq, Nat.zero_mod])
  rw [InPass.loaded_idx_of_ne hnew, h.slots l hl hzero]

theorem Change.interval_lt (hg : g.Ok) : g.I < g.L := by
  obtain ⟨-, -, hnewL⟩ := Change.newInterval_ne hg
  have : g.I ≤ g.a * g.I := Nat.le_mul_of_pos_left _ (by have := hg.two_le; omega)
  omega

/-- After the last two loads every layer has its parameters in its slot. -/
theorem InPass.loaded_params (hg : g.Ok) (h : InPass start g m g.D (g.D + 1)) {l : Nat}
    (hl : l < g.L) :
    (InPass.loaded g m).layerParams l = (InPass.loaded g m).weightCacheBlockIdx l := by
  by_cases heq : l = g.a * g.I
  · rw [heq, InPass.loaded_idx_self]
    exact Function.update_self ..
  · rw [InPass.loaded_idx_of_ne heq]
    refine (Function.update_of_ne heq ..).trans ?_
    by_cases heq' : l = g.I
    · rw [heq', h.slots g.I (Change.interval_lt hg) hg.pipeline.interval_pos.ne']
      exact Function.update_self ..
    · exact (Function.update_of_ne heq' ..).trans (h.params_end hg hl heq')

/-- The slot of the old second head is used by no other layer. -/
theorem InPass.params_ne_second (hg : g.Ok) (h : InPass start g m g.D (g.D + 1)) {l : Nat}
    (hl : l < g.L) (hlI : l ≠ g.I) : m.layerParams l ≠ g.idx g.I := by
  have hD : l / g.I < g.D + 1 := Nat.lt_succ_of_lt (Change.div_lt hg hl)
  rw [h.params_eq hg hl (.inr hD)]
  have hone : 1 % g.a ≠ 0 := by
    rw [Nat.mod_eq_of_lt (by have := hg.two_le; omega)]
    decide
  have := Change.slotAt_ne_extra (b := g.D + 1) hg (k := 1) ?_ hone hl (by rwa [Nat.one_mul])
  · rwa [Nat.one_mul] at this
  · have := Change.div_lt hg (Change.interval_lt hg)
    rwa [Nat.div_self hg.pipeline.interval_pos] at this

/-- All slots are in front of those that the pass has given up. -/
theorem InPass.loaded_idx_lt (hg : g.Ok) (h : InPass start g m g.D (g.D + 1))
    (hlast : LastLoads g m) {l : Nat} (hl : l < g.L) :
    (InPass.loaded g m).weightCacheBlockIdx l < g.E + (g.D - g.newD) := by
  obtain ⟨hsecondE, hsecondLt⟩ := hlast.second
  by_cases heq : l = g.a * g.I
  · have hqlt := Change.turn_lt hg (g.newD + 1)
    have hB := hg.block_le
    rw [heq, InPass.loaded_idx_self]
    omega
  · rw [InPass.loaded_idx_of_ne heq]
    by_cases heq' : l = g.I
    · rw [heq', h.slots g.I (Change.interval_lt hg) hg.pipeline.interval_pos.ne']
      exact hsecondLt
    · have hD : l / g.I < g.D + 1 := Nat.lt_succ_of_lt (Change.div_lt hg hl)
      rw [← h.params_end hg hl heq', h.params_eq hg hl (.inr hD)]
      exact Change.slotAt_lt hg hl

/-- The new heads are in the first and the last slot. -/
theorem InPass.loaded_shared (hg : g.Ok) (h : InPass start g m g.D (g.D + 1)) {l : Nat}
    (hl : l < g.L) (hmod : l % (g.a * g.I) = 0) :
    (InPass.loaded g m).weightCacheBlockIdx l = 0 ∨
      (InPass.loaded g m).weightCacheBlockIdx l = g.B - 1 := by
  by_cases heq : l = g.a * g.I
  · rw [heq, InPass.loaded_idx_self]
    exact Change.turn_shared hg.first (g.newD + 1)
  · rw [InPass.loaded_idx_of_ne heq]
    by_cases heq' : l = 0
    · rw [heq', h.zero.trans (if_neg (Nat.not_le_of_lt (Nat.lt_succ_self _)))]
      exact Change.turn_shared hg.first _
    · obtain ⟨j, rfl, hj⟩ := Change.newHead hg hl hmod
      have hjpos : 1 ≤ j := Nat.pos_of_ne_zero fun h0 => heq' (by
        rw [h0, Nat.zero_mul, Nat.zero_mul])
      rw [h.slots _ hl heq', hg.turns j hjpos hj]
      exact Change.turn_shared hg.first j

/-- The other layers are ready: the old second head is loaded here, the others have been before. -/
theorem InPass.loaded_ready (hg : g.Ok) (h : InPass start g m g.D (g.D + 1))
    (hlast : LastLoads g m) {l : Nat} (hl : l < g.L) (hmod : l % (g.a * g.I) ≠ 0) :
    Ready start (InPass.loaded g m) l := by
  obtain ⟨-, hnewI', -⟩ := Change.newInterval_ne hg
  have hslots := Change.apart hg fun l hl hmod => h.loaded_kept hl hmod
  have hqshared := Change.turn_shared hg.first (g.newD + 1)
  by_cases heq : l = g.I
  · have hready : Ready start ((m.pointParams g.I (g.idx g.I)).issueLoad g.I (g.idx g.I)
        m.trace.runs.length) g.I :=
      ready_issueLoad (m := m.pointParams _ _) hlast.freshSecond (Nat.zero_le _)
        (Function.update_self ..)
    have hsame : ((m.pointParams g.I (g.idx g.I)).issueLoad g.I (g.idx g.I)
        m.trace.runs.length).layerParams g.I = g.idx g.I := Function.update_self ..
    rw [heq]
    refine (hready.retarget hnewI'.symm).issueLoad hnewI'.symm ?_
    obtain ⟨hsecondE, -⟩ := hlast.second
    have hqlt := Change.turn_lt hg (g.newD + 1)
    have hB := hg.block_le
    rw [LlamaModel.retarget_params_of_ne _ _ hnewI'.symm, hsame]
    omega
  · have hnewHead : l ≠ g.a * g.I := fun h' => hmod (by rw [h', Nat.mod_self])
    refine InPass.ready_loaded (h.ready_end hg hl heq (.inr hmod)) heq hnewHead
      (h.params_ne_second hg hl heq) ?_
    have := hslots.unshared l hl hmod
    rw [InPass.loaded_idx_of_ne hnewHead, ← h.params_end hg hl heq] at this
    omega

/-- After the last head the heads take turns as before, with the new interval. -/
theorem InPass.finish (hg : g.Ok) (h : InPass start g m g.D (g.D + 1))
    (hlen : g.t₀ + (g.D - 1) * g.I < m.trace.runs.length) :
    Rolling start g.L g.newD (g.a * g.I) g.B (InPass.loaded g m).postIncreaseOncardLayers 0 := by
  have hlast := h.lastLoads hg hlen
  have hI := hg.pipeline.interval_pos
  have hthree := hg.three_le
  have hB := hg.block_le
  obtain ⟨hsecondE, hsecondLt⟩ := hlast.second
  have hqlt := Change.turn_lt hg (g.newD + 1)
  obtain ⟨hnewI, hnewI', hnewL⟩ := Change.newInterval_ne hg
  obtain ⟨hlayer, -, -, hblk, hnew⟩ := shape_eq_iff.mp h.shape
  rw [postIncreaseOncardLayers_eq (m := InPass.loaded g m) hnew]
  have hzero : m.weightCacheBlockIdx 0 = g.turn g.newD :=
    h.zero.trans (if_neg (Nat.not_le_of_lt (Nat.lt_succ_self _)))
  have hsecondClear := hlast.turnClear.addLoad
    (l := ⟨g.I, g.idx g.I, m.trace.runs.length⟩) (show g.idx g.I ≠ g.turn (g.newD + 1) by omega)
  have hstaged : Staged start (m.trace.addLoad ⟨g.I, g.idx g.I, m.trace.runs.length⟩) :=
    .load _ h.staged (hlast.freshSecond.mono (Nat.zero_le _))
  -- the next pass begins with layer 0, and the second new head is loaded behind it
  have hzeroMod : 0 % g.newD * (g.a * g.I) = 0 := by rw [Nat.zero_mod, Nat.zero_mul]
  have honeMod : (0 + 1) % g.newD * (g.a * g.I) = g.a * g.I := by
    rw [Nat.mod_eq_of_lt (by omega), Nat.zero_add, Nat.one_mul]
  refine ⟨shape_eq_iff.mpr ⟨hlayer, rfl, rfl, hblk, rfl⟩, .load _ hstaged hsecondClear,
    fun l hl => h.loaded_params hg hl,
    fun l hl hmod => (h.loaded_ready hg hlast hl hmod).congr rfl rfl rfl,
    Change.apart hg fun l hl hmod => h.loaded_kept hl hmod,
    fun l hl hmod => h.loaded_shared hg hl hmod, ?_, ?_, ?_, ⟨?_, fun l hl => ?_⟩, fun p hp => ?_⟩
  · rw [hzeroMod]
    refine (InPass.ready_loaded (h.ready_end hg (by omega) hI.ne (.inl rfl)) hI.ne
      hnewI.symm (h.params_ne_second hg (by omega) hI.ne) ?_).congr rfl rfl rfl
    rw [h.zeroParams, hzero]
    exact hlast.turn_ne
  · rw [honeMod]
    have hready : Ready start (InPass.loaded g m) (g.a * g.I) :=
      ready_issueLoad (m := LlamaModel.retarget _ _ _) hsecondClear hlast.prev_le
        (LlamaModel.retarget_params_self ..)
    exact hready.congr rfl rfl rfl
  · rw [hzeroMod, honeMod]
    change (InPass.loaded g m).weightCacheBlockIdx 0 ≠
      (InPass.loaded g m).weightCacheBlockIdx (g.a * g.I)
    rw [InPass.loaded_idx_self, InPass.loaded_idx_of_ne hnewI.symm, hzero]
    exact hlast.turn_ne
  · change g.B ≤ m.extraWeightCacheBlkI
    rw [h.extraBlkI]
    omega
  · change (InPass.loaded g m).weightCacheBlockIdx l < m.extraWeightCacheBlkI
    rw [h.extraBlkI]
    exact h.loaded_idx_lt hg hlast hl
  · change m.extraWeightCacheBlkI ≤ p at hp
    rw [h.extraBlkI] at hp
    have hclear := (h.beyond p hp).addLoad (l := ⟨g.I, g.idx g.I, m.trace.runs.length⟩)
      (show g.idx g.I ≠ p by omega)
    exact hclear.addLoad (l := ⟨g.a * g.I, g.turn (g.newD + 1), _⟩)
      (show g.turn (g.newD + 1) ≠ p by omega)

/-! ## The load behind a head -/

theorem pyMod_sub_of_le {j n : Nat} (k : Nat) (hk : k ≤ j) (hlt : j - k < n) :
    pyMod ((j : Int) - k) n = j - k := by
  rw [pyMod, ← Int.ofNat_sub hk, ← Int.natCast_mod, Nat.mod_eq_of_lt hlt, Int.toNat_natCast]

theorem pyMod_neg {k n : Nat} (hk : 0 < k) (hle : k ≤ n) : pyMod (-(k : Int)) n = n - k := by
  rw [pyMod, ← Int.add_emod_right, show -(k : Int) + n = ((n - k : Nat) : Int) by omega,
    ← Int.natCast_mod, Nat.mod_eq_of_lt (by omega), Int.toNat_natCast]

/-- The layer that a load for the new head `j` waits for. -/
theorem Change.newLastLastLayer (hg : g.Ok) (hint : m.pipelineInterval = g.I) {j : Nat}
    (hj : 1 ≤ j) (hlt : j < g.newD) :
    m.newLastLastLayer g.newD (g.a * g.I) (j * g.a * g.I) = g.prev j * g.I := by
  have hpos : 0 < g.a * g.I := Nat.pos_of_ne_zero (newInterval_ne hg).1
  have hdiv : j * g.a * g.I / (g.a * g.I) = j := by
    rw [Nat.mul_assoc, Nat.mul_div_cancel j hpos]
  rw [LlamaModel.newLastLastLayer, hdiv, prev, hint]
  split
  · rw [Nat.zero_mul]
  split
  · rw [Nat.one_mul]
  · have := pyMod_sub_of_le (j := j) (n := g.newD) 2 (by omega) (by omega)
    rw [Nat.cast_ofNat] at this
    rw [this, Nat.mul_assoc]

theorem InPass.synchAfter (h : InPass start g m c b) {k : Nat} (hk : k < c) :
    m.synchAfter (k * g.I) = g.t₀ + k * g.I + 1 := by
  rw [LlamaModel.synchAfter, h.events k hk]
  rfl

/-- Every slot that a layer gets in the pass can be loaded. -/
theorem InPass.hasBuffer (hg : g.Ok) (h : InPass start g m c b) {k : Nat} (hk : k < g.D)
    (hpos : 1 ≤ k) : m.hasBuffer (m.weightCacheBlockIdx (k * g.I)) := by
  obtain ⟨-, -, -, hblk, -⟩ := shape_eq_iff.mp h.shape
  have hI := hg.pipeline.interval_pos
  have hB := hg.block_le
  have hnum := h.extraNum
  have hthree := hg.three_le
  rw [LlamaModel.hasBuffer, hblk, h.slots _ (Change.head_lt hg hk)
    (Nat.mul_ne_zero (by omega) hI.ne')]
  by_cases hmod : k % g.a = 0
  · obtain ⟨-, -, hturn⟩ := Change.turns_of_mod hg hk hpos hmod
    have := Change.turn_shared hg.first (k / g.a)
    omega
  · have := Change.extra_range hg hk hmod
    omega

/-- Behind head `c` the head two places further on is loaded, as long as there is one. -/
theorem InPass.loadBehind_lt (hg : g.Ok) (h : InPass start g m (c + 1) (c + 2))
    (hc : c + 2 < g.D) (hlen : m.trace.runs.length = g.t₀ + c * g.I + 1) :
    ∃ m', m.loadBehind (c * g.I) = .ok m' ∧ InPass start g m' (c + 1) (c + 3) := by
  obtain ⟨-, hdeg, hint, -, hnew⟩ := shape_eq_iff.mp h.shape
  have hI := hg.pipeline.interval_pos
  have hthree := hg.three_le
  have hdiv : ∀ k, k * g.I / g.I = k := fun k => Nat.mul_div_cancel k hI
  have hne : (c + 2) * g.I ≠ c * g.I := fun heq => by
    have := Nat.eq_of_mul_eq_mul_right hI heq
    omega
  have hzero : (c + 2) * g.I ≠ 0 := Nat.mul_ne_zero (by omega) hI.ne'
  have hbuf := h.hasBuffer hg hc (by omega)
  have hslot : m.weightCacheBlockIdx ((c + 2) * g.I) = g.idx ((c + 2) * g.I) :=
    h.slots _ (Change.head_lt hg hc) hzero
  have htwo : Option.map Prod.fst m.newPipeline ≠ some 2 := by
    rw [hnew]
    exact fun heq => by
      have := Option.some.inj heq
      omega
  rw [LlamaModel.loadBehind, hint, hdeg, hdiv c, Nat.mod_eq_of_lt hc, if_neg fun h' => htwo h'.1,
    if_pos hne, LlamaModel.loadLayerParams, hnew]
  dsimp only
  rw [if_neg hzero]
  have hsecond : ∀ m₁ : LlamaModel, m₁.pipelineInterval = g.I →
      (c + 2) * g.I / m₁.pipelineInterval ≠ 1 := by
    intro m₁ h₁
    rw [h₁, hdiv]
    omega
  by_cases hmod : (c + 2) % g.a = 0
  · obtain ⟨hj, hmul, -⟩ := Change.turns_of_mod hg hc (by omega) hmod
    have hlt : (c + 2) / g.a < g.newD := (Change.mul_lt_iff hg).mpr (hmul.symm ▸ hc)
    have hprev : g.prev ((c + 2) / g.a) < c + 1 := by
      have := Change.prev_lt hg hj
      omega
    have hlast := Change.newLastLastLayer (m := m) hg hint hj hlt
    rw [hmul] at hlast
    have hload := h.loadShared hg rfl hj hmul.symm hc (hlen ▸ Nat.lt_succ_self _)
    rw [loadLayerParamsWhenDynamic_of_wait hbuf
      ⟨(head_mod hI _).mpr hmod, by omega⟩, hlast, h.synchAfter hprev, hslot]
    exact ⟨_, if_neg (hsecond _ hint), hload⟩
  · have hload := h.loadExtra hg (Nat.lt_succ_self _) (by omega) hc hmod (le_refl _)
    rw [loadLayerParamsWhenDynamic_of_not_wait hbuf
      fun h' => hmod ((head_mod hI _).mp h'.1), hslot]
    exact ⟨_, if_neg (hsecond _ hint), hload⟩

theorem InPass.ne_two (hg : g.Ok) (h : InPass start g m c b) :
    Option.map Prod.fst m.newPipeline ≠ some 2 := by
  obtain ⟨-, -, -, -, hnew⟩ := shape_eq_iff.mp h.shape
  have := hg.three_le
  rw [hnew]
  intro heq
  have := Option.some.inj heq
  omega

theorem Change.newDegree_le (hg : g.Ok) : g.newD ≤ g.D := by
  rw [hg.newDegree]
  exact heads_le (by have := hg.two_le; omega)

/-- Behind the last head but one layer 0 is loaded for the next pass. -/
theorem InPass.loadBehind_zero (hg : g.Ok) (h : InPass start g m (c + 1) (c + 2))
    (hc : c + 2 = g.D) (hlen : m.trace.runs.length = g.t₀ + c * g.I + 1) :
    ∃ m', m.loadBehind (c * g.I) = .ok m' ∧ InPass start g m' (c + 1) (c + 3) := by
  obtain ⟨-, hdeg, hint, hblk, hnew⟩ := shape_eq_iff.mp h.shape
  have hI := hg.pipeline.interval_pos
  have hthree := hg.three_le
  have hnewD := Change.newDegree_le hg
  have ha := hg.two_le
  have hdiv : ∀ k, k * g.I / g.I = k := fun k => Nat.mul_div_cancel k hI
  have hne : (0 : Nat) ≠ c * g.I := (Nat.mul_ne_zero (by omega) hI.ne').symm
  have hlastHead : (g.newD - 2) * g.a < g.D := (Change.mul_lt_iff hg).mp (by omega)
  have hprev : (g.newD - 2) * g.a = g.prev g.newD := by
    rw [Change.prev, if_neg (by omega), if_neg (by omega)]
  have hprevLt := Change.prev_lt hg (j := g.newD) (by omega)
  have hprevLt' : g.prev g.newD < c + 1 := by
    have : (g.newD - 2 + 1) * g.a < g.D := (Change.mul_lt_iff hg).mp (by omega)
    rw [← hprev]
    rw [Nat.add_mul] at this
    omega
  have hmodNeg : pyMod (-2) g.newD * (g.a * g.I) = g.prev g.newD * g.I := by
    rw [show (-2 : Int) = -((2 : Nat) : Int) from rfl, pyMod_neg Nat.two_pos (by omega), ← hprev,
      Nat.mul_assoc]
  have hidx : m.weightCacheBlockIdx (g.prev g.newD * g.I) = g.turn g.newD := by
    rw [h.slots _ (Change.head_lt hg (hprev ▸ hlastHead)) (Nat.mul_ne_zero ?_ hI.ne'), ← hprev,
      hg.turns _ (by omega) hlastHead, ← Change.turn_add_two, Nat.sub_add_cancel (by omega)]
    rw [← hprev]
    exact Nat.mul_ne_zero (by omega) (by omega)
  have hzero : m.weightCacheBlockIdx 0 = g.turn 1 := h.zero.trans (if_pos (by omega))
  have hload := (hc ▸ h : InPass start g m (c + 1) g.D).loadZero hg hc
    (hlen ▸ Nat.lt_succ_self _)
  rw [LlamaModel.loadBehind, hint, hdeg, hdiv c, hc, Nat.mod_self, Nat.zero_mul, Nat.zero_div,
    if_neg fun h' => h.ne_two hg h'.1, if_pos hne, LlamaModel.loadLayerParams, hnew]
  dsimp only
  rw [if_pos rfl, hmodNeg, loadLayerParamsNoDynamic_ok (by rw [hblk]; exact hg.pipeline.two_le_block)
    (by rw [hblk, hzero]; exact Change.turn_shared hg.first 1)
    (by rw [hblk, hidx]; exact Change.turn_shared hg.first g.newD) h.zeroParams, hidx,
    h.synchAfter hprevLt']
  exact ⟨_, rfl, by rwa [show c + 3 = g.D + 1 by omega]⟩

/-- Behind the last head come the last two loads of the pass. -/
theorem InPass.loadBehind_last (hg : g.Ok) (h : InPass start g m g.D (g.D + 1)) :
    m.loadBehind ((g.D - 1) * g.I) = .ok (InPass.loaded g m) := by
  obtain ⟨-, hdeg, hint, hblk, hnew⟩ := shape_eq_iff.mp h.shape
  have hI := hg.pipeline.interval_pos
  have hthree := hg.three_le
  have hnewD := Change.newDegree_le hg
  have ha := hg.two_le
  obtain ⟨hnewI, hnewI', hnewL⟩ := Change.newInterval_ne hg
  have hdiv : ∀ k, k * g.I / g.I = k := fun k => Nat.mul_div_cancel k hI
  have hmod : (g.D - 1 + 2) % g.D = 1 := by
    rw [show g.D - 1 + 2 = g.D + 1 by omega, Nat.add_mod_left, Nat.mod_eq_of_lt (by omega)]
  have hne : 1 * g.I ≠ (g.D - 1) * g.I := fun heq => by
    have := Nat.eq_of_mul_eq_mul_right hI heq
    omega
  have hbuf := h.hasBuffer hg (k := 1) (by omega) (le_refl 1)
  rw [Nat.one_mul] at hbuf hne
  have hIL : g.I < g.L := by
    have := Change.head_lt hg (k := 1) (by omega)
    rwa [Nat.one_mul] at this
  have hslot : m.weightCacheBlockIdx g.I = g.idx g.I := h.slots g.I hIL hI.ne'
  have honeMod : g.I % (g.a * g.I) ≠ 0 := by
    intro heq
    have := (head_mod (a := g.a) hI 1).mp (by rwa [Nat.one_mul])
    rw [Nat.mod_eq_of_lt (by omega)] at this
    omega
  have hmodNeg : pyMod (-1) g.newD * (g.a * g.I) = (g.newD - 1) * g.a * g.I := by
    rw [show (-1 : Int) = -((1 : Nat) : Int) from rfl, pyMod_neg Nat.one_pos (by omega),
      Nat.mul_assoc]
  have hlastHead : (g.newD - 1) * g.a < g.D := (Change.mul_lt_iff hg).mp (by omega)
  have hprev : g.prev (g.newD + 1) = (g.newD - 1) * g.a := by
    rw [Change.prev, if_neg (by omega), if_neg (by omega)]
    congr 1
  have hidxLast : m.weightCacheBlockIdx ((g.newD - 1) * g.a * g.I) = g.turn (g.newD + 1) := by
    rw [h.slots _ (Change.head_lt hg hlastHead) (Nat.mul_ne_zero (Nat.mul_ne_zero (by omega)
      (by omega)) hI.ne'), hg.turns _ (by omega) hlastHead, ← Change.turn_add_two]
    congr 1
    omega
  have hidxNew : m.weightCacheBlockIdx (g.a * g.I) = g.turn 1 := by
    have honeHead : 1 * g.a < g.D := (Change.mul_lt_iff hg).mp (by omega)
    have := hg.turns 1 (le_refl 1) honeHead
    rw [Nat.one_mul] at this
    rw [h.slots _ hnewL hnewI, this]
  have hparamsNew : m.layerParams (g.a * g.I) = m.weightCacheBlockIdx (g.a * g.I) :=
    h.params_end hg hnewL hnewI'
  rw [LlamaModel.loadBehind, hint, hdeg, hdiv (g.D - 1), hmod, Nat.one_mul,
    if_neg fun h' => h.ne_two hg h'.1, if_pos hne, LlamaModel.loadLayerParams, hnew]
  dsimp only
  rw [if_neg hI.ne', loadLayerParamsWhenDynamic_of_not_wait hbuf fun h' => honeMod h'.1, hslot]
  change (if g.I / m.pipelineInterval = 1 then _ else _) = _
  rw [hint, Nat.div_self hI, if_pos rfl, hmodNeg]
  refine (loadLayerParamsNoDynamic_ok (m := LlamaModel.issueLoad _ _ _ _) ?_ ?_ ?_ ?_).trans ?_
  · change 2 ≤ m.weightCacheBlockNum
    rw [hblk]
    exact hg.pipeline.two_le_block
  · change m.weightCacheBlockIdx (g.a * g.I) = 0 ∨
      m.weightCacheBlockIdx (g.a * g.I) = m.weightCacheBlockNum - 1
    rw [hblk, hidxNew]
    exact Change.turn_shared hg.first 1
  · change m.weightCacheBlockIdx ((g.newD - 1) * g.a * g.I) = 0 ∨
      m.weightCacheBlockIdx ((g.newD - 1) * g.a * g.I) = m.weightCacheBlockNum - 1
    rw [hblk, hidxLast]
    exact Change.turn_shared hg.first _
  · exact (Function.update_of_ne hnewI' ..).trans hparamsNew
  · have hsynch : m.synchAfter ((g.newD - 1) * g.a * g.I) =
        g.t₀ + g.prev (g.newD + 1) * g.I + 1 := by
      rw [h.synchAfter hlastHead, hprev]
    change Except.ok (((((m.pointParams g.I (g.idx g.I)).issueLoad g.I (g.idx g.I)
      m.trace.runs.length).retarget (g.a * g.I)
        (m.weightCacheBlockIdx ((g.newD - 1) * g.a * g.I))).issueLoad (g.a * g.I)
          (m.weightCacheBlockIdx ((g.newD - 1) * g.a * g.I))
            (m.synchAfter ((g.newD - 1) * g.a * g.I)))) = _
    rw [hidxLast, hsynch]
    rfl

theorem InPass.loadBehind (hg : g.Ok) (h : InPass start g m (c + 1) (c + 2)) (hc : c + 1 < g.D)
    (hlen : m.trace.runs.length = g.t₀ + c * g.I + 1) :
    ∃ m', m.loadBehind (c * g.I) = .ok m' ∧ InPass start g m' (c + 1) (c + 3) := by
  rcases Nat.lt_or_eq_of_le (Nat.succ_le_of_lt hc) with hlt | heq
  · exact h.loadBehind_lt hg hlt hlen
  · exact h.loadBehind_zero hg heq hlen

/-! ## The pass -/

/-- The state in front of layer `i` of the pass: the heads are still being loaded, or the last of
them has run and the next pass could begin. -/
inductive AtLayer (start : Nat → Option Nat) (g : Change) (i : Nat) (m : LlamaModel) : Prop
  | turning : i ≤ (g.D - 1) * g.I → m.trace.runs.length = g.t₀ + i →
      InPass start g m (heads i g.I) (heads i g.I + 2) → AtLayer start g i m
  | turned : (g.D - 1) * g.I < i → m.shape = (g.L, g.D, g.I, g.B, some (g.newD, g.a * g.I)) →
      Rolling start g.L g.newD (g.a * g.I) g.B m.postIncreaseOncardLayers 0 → AtLayer start g i m

/-- A head runs, and what comes behind it is loaded. -/
theorem InPass.forwardHead (hg : g.Ok) (h : InPass start g m c (c + 2)) (hc : c < g.D)
    (hlen : m.trace.runs.length = g.t₀ + c * g.I) :
    ∃ m', m.forwardLayer (c * g.I) = .ok m' ∧ AtLayer start g (c * g.I + 1) m' := by
  have hI := hg.pipeline.interval_pos
  obtain ⟨-, -, hint, -, -⟩ := shape_eq_iff.mp h.shape
  have hrun := h.runHead hg hc (by omega) (le_refl _) hlen
  have hlen' : ((m.runLayer (c * g.I)).recordSynch (c * g.I)).trace.runs.length =
      g.t₀ + c * g.I + 1 := by
    rw [← hlen]
    exact length_runLayer
  have hlayer : m.forwardLayer (c * g.I) =
      ((m.runLayer (c * g.I)).recordSynch (c * g.I)).loadBehind (c * g.I) := by
    rw [LlamaModel.forwardLayer]
    exact if_pos (hint.symm ▸ Nat.mul_mod_left c g.I)
  have hsucc : heads (c * g.I + 1) g.I = c + 1 := by
    rw [heads_succ hI, if_pos (Nat.mul_mod_left c g.I),
      heads_of_head hI (Nat.mul_mod_left c g.I), Nat.mul_div_cancel c hI]
  rcases Nat.lt_or_eq_of_le (Nat.succ_le_of_lt hc) with hlt | hlast
  · obtain ⟨m', hm', h'⟩ := hrun.loadBehind hg hlt hlen'
    rw [← hlayer] at hm'
    refine ⟨m', hm', .turning ?_ ?_ (by rw [hsucc]; exact h')⟩
    · have : (c + 1) * g.I ≤ (g.D - 1) * g.I := Nat.mul_le_mul_right _ (by omega)
      rw [Nat.add_mul] at this
      omega
    · rw [trace_runs_forwardLayer hm', List.length_append, hlen]
      rfl
  · have hlast' : c + 1 = g.D := hlast
    have hcD : g.D - 1 = c := by omega
    have hend : InPass start g ((m.runLayer (c * g.I)).recordSynch (c * g.I)) g.D (g.D + 1) := by
      rw [← hlast']
      exact hrun
    have hload := hend.loadBehind_last hg
    have hfinish := hend.finish hg (by rw [hcD, hlen']; exact Nat.lt_succ_self _)
    rw [hcD, ← hlayer] at hload
    refine ⟨_, hload, .turned ?_ ?_ hfinish⟩
    · rw [hcD]
      exact Nat.lt_succ_self _
    · rw [InPass.loaded_shape]
      exact hend.shape

theorem AtLayer.forwardLayer (hg : g.Ok) {i : Nat} (hi : i < g.L) (h : AtLayer start g i m) :
    ∃ m', m.forwardLayer i = .ok m' ∧ AtLayer start g (i + 1) m' := by
  have hI := hg.pipeline.interval_pos
  have hdiv := Change.div_lt hg hi
  cases h with
  | turning hle hlen hin =>
    obtain ⟨-, -, hint, -, -⟩ := shape_eq_iff.mp hin.shape
    by_cases hmod : i % g.I = 0
    · have hhead : i / g.I * g.I = i := Nat.div_mul_cancel (Nat.dvd_of_mod_eq_zero hmod)
      rw [heads_of_head hI hmod] at hin
      have hstep := hin.forwardHead hg hdiv (by rw [hhead]; exact hlen)
      rwa [hhead] at hstep
    · have hlt : i < (g.D - 1) * g.I := Nat.lt_of_le_of_ne hle fun heq => hmod (by
        rw [heq, Nat.mul_mod_left])
      have hsame : heads (i + 1) g.I = heads i g.I := by
        rw [heads_succ hI, if_neg hmod, Nat.add_zero]
      refine ⟨m.runLayer i, ?_, .turning hlt ?_ ?_⟩
      · rw [LlamaModel.forwardLayer]
        exact if_neg (hint.symm ▸ hmod)
      · rw [length_runLayer, hlen]
        rfl
      · rw [hsame]
        exact hin.runResident hg hi hmod
  | turned hlt hshape hroll =>
    obtain ⟨-, -, hint, -, hnew⟩ := shape_eq_iff.mp hshape
    have hmod : i % g.I ≠ 0 := by
      intro hmod
      have hhead : i / g.I * g.I = i := Nat.div_mul_cancel (Nat.dvd_of_mod_eq_zero hmod)
      have : i / g.I * g.I ≤ (g.D - 1) * g.I := Nat.mul_le_mul_right _ (Nat.le_sub_one_of_lt hdiv)
      omega
    have hmod' : i % (g.a * g.I) ≠ 0 := fun h' =>
      hmod (Nat.mod_eq_zero_of_dvd ((Nat.dvd_mul_left g.I g.a).trans (Nat.dvd_of_mod_eq_zero h')))
    have hnext := hroll.runLayer hi (hroll.resident i hi hmod')
    have hpost : (m.runLayer i).postIncreaseOncardLayers = m.postIncreaseOncardLayers.runLayer i := by
      rw [postIncreaseOncardLayers_eq hnew, postIncreaseOncardLayers_eq (m := m.runLayer i) hnew]
      rfl
    refine ⟨m.runLayer i, ?_, .turned (Nat.lt_succ_of_lt hlt) hshape (hpost ▸ hnext)⟩
    rw [LlamaModel.forwardLayer]
    exact if_neg (hint.symm ▸ hmod)

end

/-! ## From the rolling state to the pass -/

/-- The heads among the heads are the heads of the longer interval. -/
theorem heads_heads {L I a : Nat} (hI : 0 < I) (ha : 0 < a) :
    heads (heads L I) a = heads L (a * I) := by
  have hiff : ∀ k, k < heads (heads L I) a ↔ k < heads L (a * I) := by
    intro k
    rw [lt_heads_iff ha, lt_heads_iff hI, lt_heads_iff (Nat.mul_pos ha hI), Nat.mul_assoc]
  exact Nat.le_antisymm (Nat.le_of_not_lt fun h => Nat.lt_irrefl _ ((hiff _).mp h))
    (Nat.le_of_not_lt fun h => Nat.lt_irrefl _ ((hiff _).mpr h))

theorem heads_lt {D a : Nat} (ha : 2 ≤ a) (hD : 2 ≤ D) : heads D a < D := by
  refine Nat.lt_of_not_le fun hle => ?_
  have hmul := (lt_heads_iff (L := D) (show 0 < a by omega)).mp
    (show D - 1 < heads D a by omega)
  have : (D - 1) * 2 ≤ (D - 1) * a := Nat.mul_le_mul_left _ ha
  omega

/-- The model in the pass that leaves more than two heads, before its first layer. -/
def LlamaModel.turning (m : LlamaModel) (newD a : Nat) : LlamaModel :=
  { m with
    newPipeline := some (newD, a * m.pipelineInterval)
    weightCacheBlockIdx := movedIdx m (headSlot m a) m.pipelineDegree
    extraWeightCacheBlkI := m.extraWeightCacheBlkI + (m.pipelineDegree - heads m.pipelineDegree a) }

theorem preIncreaseOncardLayers_turning {m : LlamaModel} {newD a : Nat}
    (hlt : newD < m.pipelineDegree) (hthree : 3 ≤ newD) (ha : 0 < a) (hI : 0 < m.pipelineInterval)
    (hnewI : (m.layerNum + newD - 1) / newD = a * m.pipelineInterval)
    (hacc : Accepted m.layerNum newD) :
    m.preIncreaseOncardLayers (m.pipelineDegree - newD) = .ok (m.turning newD a) := by
  unfold Accepted at hacc
  rw [LlamaModel.preIncreaseOncardLayers, if_neg (by omega), Nat.sub_sub_self hlt.le]
  dsimp only
  rw [if_neg (by omega), if_neg (hnewI ▸ Nat.mul_ne_zero ha.ne' hI.ne'),
    if_neg (fun h => h hacc), if_neg (by omega), hnewI]
  exact congrArg Except.ok (foldl_moveHead
    { m with newPipeline := some (newD, a * m.pipelineInterval) } hI ha m.pipelineDegree)

/-- The numbers of an increase out of a rolling state. -/
def LlamaModel.change (m : LlamaModel) (newD a : Nat) : Change where
  L := m.layerNum
  D := m.pipelineDegree
  I := m.pipelineInterval
  B := m.weightCacheBlockNum
  newD := newD
  a := a
  E := m.extraWeightCacheBlkI
  x := m.weightCacheBlockIdx 0
  t₀ := m.trace.runs.length
  idx := movedIdx m (headSlot m a) m.pipelineDegree

section

variable {start : Nat → Option Nat} {L D I B newD a : Nat} {m : LlamaModel}

theorem Rolling.changeOk (hp : Pipeline L D I B) (h : Rolling start L D I B m 0) (ha : 2 ≤ a)
    (hnewD : newD = heads D a) (hthree : 3 ≤ newD) : (m.change newD a).Ok := by
  obtain ⟨rfl, rfl, rfl, rfl, -⟩ := shape_eq_iff.mp h.shape
  have hI := hp.interval_pos
  have htwoB := hp.two_le_block
  have hD : 0 < m.pipelineDegree := by
    have := heads_le (L := m.pipelineDegree) (show 0 < a by omega)
    omega
  have hLpos : 0 < m.layerNum := Nat.lt_of_le_of_lt (Nat.zero_le _) (hp.head_lt 0 hD)
  have hfirst := h.shared 0 hLpos (Nat.zero_mod _)
  have hkept : ∀ l, l % m.pipelineInterval ≠ 0 →
      (m.change newD a).idx l = m.weightCacheBlockIdx l := fun l => movedIdx_resident m _ _
  have hhead : ∀ k < m.pipelineDegree, (m.change newD a).idx (k * m.pipelineInterval) =
      headSlot m a k := fun k hk => movedIdx_head m _ hI hk
  refine ⟨hp, ha, hnewD, hthree, hfirst, h.below.1, fun l hl hmod => ?_,
    fun l hl l' hl' hmod hmod' heq => ?_, fun k hk hmod => ?_, fun j hj hlt => ?_⟩
  · rw [hkept l hmod]
    exact ⟨h.below.2 l hl, h.slots.unshared l hl hmod⟩
  · rw [hkept l hmod, hkept l' hmod'] at heq
    exact h.slots.inj l hl l' hl' hmod hmod' heq
  · exact (hhead k hk).trans (if_pos hmod)
  · refine (hhead (j * a) hlt).trans ?_
    rw [headSlot, if_neg (not_not.mpr (Nat.mul_mod_left j a)),
      Nat.mul_div_cancel j (show 0 < a by omega), Change.turn]
    change _ = if j % 2 = 1 then m.weightCacheBlockIdx 0
      else m.weightCacheBlockNum - 1 - m.weightCacheBlockIdx 0
    split
    · obtain rfl : j = 1 := by omega
      rw [if_pos rfl]
    · rcases hfirst with hx | hx <;> rw [hx]
      · rw [Nat.zero_div, Nat.zero_add]
        rcases Nat.mod_two_eq_zero_or_one j with hj' | hj'
        · rw [if_neg (by omega), show (j - 1) % 2 = 1 by omega, Nat.one_mul, Nat.sub_zero]
        · rw [if_pos hj', show (j - 1) % 2 = 0 by omega, Nat.zero_mul]
      · rw [Nat.div_self (by omega), Nat.add_sub_cancel_left, Nat.sub_self]
        rcases Nat.mod_two_eq_zero_or_one j with hj' | hj'
        · rw [if_neg (by omega), hj', Nat.zero_mul]
        · rw [if_pos hj', hj', Nat.one_mul]

theorem Rolling.inPass (hp : Pipeline L D I B) (h : Rolling start L D I B m 0) (ha : 2 ≤ a)
    (hnewD : newD = heads D a) (hthree : 3 ≤ newD)
    (hextra : m.extraWeightCacheBlkI + (D - 2) ≤ B + m.extraWeightCacheNum) :
    InPass start (m.change newD a) (m.turning newD a) 0 2 := by
  have hg := h.changeOk hp ha hnewD hthree
  obtain ⟨rfl, rfl, rfl, rfl, -⟩ := shape_eq_iff.mp h.shape
  have hI := hp.interval_pos
  have hD : 3 ≤ m.pipelineDegree := by
    have := heads_le (L := m.pipelineDegree) (show 0 < a by omega)
    omega
  have hLpos : 0 < m.layerNum := Nat.lt_of_le_of_lt (Nat.zero_le _) (hp.head_lt 0 (by omega))
  have hfirst : (m.turning newD a).weightCacheBlockIdx 0 = m.weightCacheBlockIdx 0 := by
    have := movedIdx_head m (headSlot m a) hI (show 0 < m.pipelineDegree by omega)
    rw [Nat.zero_mul] at this
    refine this.trans ?_
    rw [headSlot, Nat.zero_mod, if_neg (not_not.mpr rfl), Nat.zero_div, if_pos Nat.two_pos]
  have hIL : m.pipelineInterval < m.layerNum := by
    have := hp.head_lt 1 (by omega)
    rwa [Nat.mod_eq_of_lt (by omega), Nat.one_mul] at this
  have hsecond : m.weightCacheBlockIdx m.pipelineInterval =
      m.weightCacheBlockNum - 1 - m.weightCacheBlockIdx 0 := by
    have hne := h.other
    rw [Nat.zero_mod, Nat.zero_mul, Nat.zero_add, Nat.mod_eq_of_lt (by omega), Nat.one_mul] at hne
    have := h.shared 0 hLpos (Nat.zero_mod _)
    have := h.shared m.pipelineInterval hIL (Nat.mod_self _)
    omega
  refine ⟨?_, h.staged, hextra, ?_, fun l _ _ => rfl, ?_, ?_, ?_, fun l hl hl' => ?_,
    fun l hl hl' => ?_, fun k hk => absurd hk (Nat.not_lt_zero k),
    fun j _ hprev => absurd hprev (Nat.not_lt_zero _), fun k hk hmod _ => ?_, fun p hp' => ?_⟩
  · exact shape_eq_iff.mpr ⟨rfl, rfl, rfl, rfl, rfl⟩
  · rw [hnewD]
    rfl
  · rw [hfirst]
    exact (if_pos (show 2 ≤ m.pipelineDegree by omega)).symm
  · rw [hfirst]
    exact h.params 0 hLpos
  · exact (h.params _ hIL).trans hsecond
  · have hmod := hl'.resolve_right fun hin => by omega
    exact (h.params l hl).trans (movedIdx_resident m _ _ hmod).symm
  · have hready : Ready start m l := by
      by_cases hmod : l % m.pipelineInterval = 0
      · have hmul := Nat.div_mul_cancel (Nat.dvd_of_mod_eq_zero hmod)
        have hin := hl'.resolve_left (not_not.mpr hmod)
        change (m.change newD a).InTurn 0 2 (l / m.pipelineInterval) at hin
        generalize l / m.pipelineInterval = k at hmul hin
        subst hmul
        have htwo : k < 2 := by
          rcases hin with hin | hin | hin <;> omega
        rcases Nat.le_one_iff_eq_zero_or_eq_one.mp (Nat.le_of_lt_succ htwo) with rfl | rfl
        · have := h.next
          rwa [Nat.zero_mod] at this
        · have := h.afterNext
          rwa [Nat.zero_add, Nat.mod_eq_of_lt (by omega)] at this
      · exact h.resident l hl hmod
    exact hready.congr rfl rfl rfl
  · exact h.fresh _ (Change.extra_range hg hk hmod).1
  · exact h.fresh p (Nat.le_trans (Nat.le_add_right _ _) hp')

/-- The pass in which some heads stop being heads and three or more stay. -/
theorem Rolling.increase (hp : Pipeline L D I B) (h : Rolling start L D I B m 0) (ha : 2 ≤ a)
    (hnewD : newD = heads D a) (hthree : 3 ≤ newD) (hnewI : (L + newD - 1) / newD = a * I)
    (hacc : Accepted L newD)
    (hextra : m.extraWeightCacheBlkI + (D - 2) ≤ B + m.extraWeightCacheNum) :
    ∃ m', m.forwardOurs (D - newD) = .ok m' ∧ Rolling start L newD (a * I) B m' 0 ∧
      m'.extraWeightCacheBlkI = m.extraWeightCacheBlkI + (D - newD) ∧
      m'.extraWeightCacheNum = m.extraWeightCacheNum := by
  have hg := h.changeOk hp ha hnewD hthree
  have hin := h.inPass hp ha hnewD hthree hextra
  obtain ⟨rfl, rfl, rfl, rfl, -⟩ := shape_eq_iff.mp h.shape
  have hI := hp.interval_pos
  have hlt : newD < m.pipelineDegree := by
    have := heads_le (L := m.pipelineDegree) (show 0 < a by omega)
    rw [hnewD]
    exact heads_lt ha (by omega)
  have hpre := preIncreaseOncardLayers_turning hlt hthree (by omega) hI hnewI hacc
  have hnone : heads 0 m.pipelineInterval = 0 := Nat.div_eq_of_lt (by omega)
  have hstart : AtLayer start (m.change newD a) 0 (m.turning newD a) := by
    refine .turning (Nat.zero_le _) rfl ?_
    change InPass start (m.change newD a) _ (heads 0 m.pipelineInterval)
      (heads 0 m.pipelineInterval + 2)
    rwa [hnone]
  obtain ⟨m₂, hm₂, h₂⟩ := forwardLayers_of_step (n := m.layerNum)
    (P := AtLayer start (m.change newD a)) (fun i hi m' h' => h'.forwardLayer hg hi) hstart
  obtain ⟨hnum, hblk⟩ := extra_forwardLayers hm₂
  have hours := forwardOurs_ok hpre hm₂
  cases h₂ with
  | turning hle =>
    have := Change.head_lt hg (k := m.pipelineDegree - 1) (show _ < m.pipelineDegree by omega)
    exact absurd hle (Nat.not_le_of_lt this)
  | turned _ hshape hroll =>
    obtain ⟨-, -, -, -, hnew⟩ := shape_eq_iff.mp hshape
    refine ⟨_, hours, hroll, ?_, ?_⟩
    · rw [postIncreaseOncardLayers_eq hnew]
      rw [hnewD]
      exact hblk
    · rw [postIncreaseOncardLayers_eq hnew]
      exact hnum

end

end Mil.Weights
