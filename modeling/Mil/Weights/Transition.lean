import Mil.Weights.Increase

/-!
# The pass that leaves more than two heads

In the pass of an increase the model runs with the old interval while it loads for the new one.
The first two heads run from the two shared slots as before. Each later head is loaded two heads
ahead: into its own new slot if it stops being a head, else into one of the shared slots, which the
heads that stay take in turn. A load into a shared slot waits for the event of the head that used
the slot before, which may be long past when the load is issued. At the end of the pass the first
two new heads are loaded for the next pass, and layer `I`, the old second head, into its own slot.

`InPass` is the state after the runs of `c` heads when the heads before `b` have been loaded, where
head `D` stands for layer 0 in the next pass.
-/

set_option autoImplicit false

namespace Mil.Weights

open Mil.Lib.Staging

/-! ## The numbers of an increase -/

/-- What an increase starts from, where every `a`-th head stays: the layers, heads, interval and
slots before it, the number of heads that stay, the first new slot, the slot of layer 0, the runs
issued so far, and the slots after it. -/
structure Change where
  L : Nat
  D : Nat
  I : Nat
  B : Nat
  newD : Nat
  a : Nat
  E : Nat
  x : Nat
  t₀ : Nat
  idx : Nat → Nat

/-- The shared slot of the new head `j`. -/
def Change.turn (g : Change) (j : Nat) : Nat := if j % 2 = 1 then g.x else g.B - 1 - g.x

/-- The head that used the shared slot of the new head `j` before. -/
def Change.prev (g : Change) (j : Nat) : Nat :=
  if j = 1 then 0 else if j = 2 then 1 else (j - 2) * g.a

structure Change.Ok (g : Change) : Prop where
  pipeline : Pipeline g.L g.D g.I g.B
  two_le : 2 ≤ g.a
  newDegree : g.newD = heads g.D g.a
  three_le : 3 ≤ g.newD
  first : g.x = 0 ∨ g.x = g.B - 1
  block_le : g.B ≤ g.E
  low : ∀ l < g.L, l % g.I ≠ 0 → g.idx l < g.E ∧ g.idx l ≠ 0 ∧ g.idx l ≠ g.B - 1
  lowInj : ∀ l < g.L, ∀ l' < g.L, l % g.I ≠ 0 → l' % g.I ≠ 0 → g.idx l = g.idx l' → l = l'
  extra : ∀ k < g.D, k % g.a ≠ 0 → g.idx (k * g.I) = g.E + (k - heads k g.a)
  turns : ∀ j, 1 ≤ j → j * g.a < g.D → g.idx (j * g.a * g.I) = g.turn j

section

variable {g : Change}

theorem Change.turn_shared (h : g.x = 0 ∨ g.x = g.B - 1) (j : Nat) :
    g.turn j = 0 ∨ g.turn j = g.B - 1 := by
  rw [turn]
  split <;> omega

theorem Change.turn_lt (hg : g.Ok) (j : Nat) : g.turn j < g.B := by
  have := turn_shared hg.first j
  have := hg.pipeline.two_le_block
  omega

theorem Change.turn_add_two (j : Nat) : g.turn (j + 2) = g.turn j := by
  rw [turn, turn, Nat.add_mod_right]

/-- New heads that share a slot are an even number apart. -/
theorem Change.parity_of_turn_eq (hg : g.Ok) {j j' : Nat} (h : g.turn j = g.turn j') :
    j % 2 = j' % 2 := by
  have := hg.first
  have := hg.pipeline.two_le_block
  rw [turn, turn] at h
  split at h <;> split at h <;> omega

/-- Two new heads apart, the slot was used by a head that is not before the earlier one. -/
theorem Change.prev_le (hg : g.Ok) {j j' : Nat} (hj : 1 ≤ j) (hlt : j < j')
    (h : g.turn j = g.turn j') : j * g.a ≤ g.prev j' := by
  have := parity_of_turn_eq hg h
  rw [prev, if_neg (by omega), if_neg (by omega)]
  exact Nat.mul_le_mul_right _ (by omega)

/-- The head that used the slot of a new head before is done two heads ahead of it. -/
theorem Change.prev_lt (hg : g.Ok) {j : Nat} (hj : 1 ≤ j) : g.prev j + 1 < j * g.a := by
  have ha := hg.two_le
  rw [prev]
  split
  · subst j
    omega
  split
  · subst j
    omega
  · obtain ⟨i, rfl⟩ : ∃ i, j = i + 2 := ⟨j - 2, by omega⟩
    rw [Nat.add_sub_cancel, Nat.add_mul]
    omega

theorem Change.mul_lt_iff (hg : g.Ok) {j : Nat} : j < g.newD ↔ j * g.a < g.D := by
  rw [hg.newDegree]
  exact lt_heads_iff (by have := hg.two_le; omega)

theorem Change.head_lt (hg : g.Ok) {k : Nat} (hk : k < g.D) : k * g.I < g.L := by
  have := (lt_heads_iff hg.pipeline.interval_pos).mp (hg.pipeline.degree ▸ hk)
  exact this

theorem Change.div_lt (hg : g.Ok) {l : Nat} (hl : l < g.L) : l / g.I < g.D := by
  rw [hg.pipeline.degree, lt_heads_iff hg.pipeline.interval_pos]
  exact Nat.lt_of_le_of_lt (Nat.div_mul_le_self l g.I) hl

/-- The new slots lie behind all others. -/
theorem Change.extra_range (hg : g.Ok) {k : Nat} (hk : k < g.D) (hmod : k % g.a ≠ 0) :
    g.E ≤ g.idx (k * g.I) ∧ g.idx (k * g.I) < g.E + (g.D - g.newD) := by
  have ha : 0 < g.a := by have := hg.two_le; omega
  have := sub_heads_lt ha hmod hk
  rw [hg.extra k hk hmod, hg.newDegree]
  omega

theorem Change.extra_inj (hg : g.Ok) {k k' : Nat} (hk : k < g.D) (hk' : k' < g.D)
    (hmod : k % g.a ≠ 0) (hmod' : k' % g.a ≠ 0)
    (h : g.idx (k * g.I) = g.idx (k' * g.I)) : k = k' := by
  have ha : 0 < g.a := by have := hg.two_le; omega
  rw [hg.extra k hk hmod, hg.extra k' hk' hmod'] at h
  rcases Nat.lt_trichotomy k k' with hlt | heq | hlt
  · have := sub_heads_lt ha hmod hlt
    omega
  · exact heq
  · have := sub_heads_lt ha hmod' hlt
    omega

/-- The slot of a head that stays. -/
theorem Change.turns_of_mod (hg : g.Ok) {k : Nat} (hk : k < g.D) (hpos : 0 < k)
    (hmod : k % g.a = 0) : 1 ≤ k / g.a ∧ k / g.a * g.a = k ∧ g.idx (k * g.I) = g.turn (k / g.a) := by
  have hmul : k / g.a * g.a = k := Nat.div_mul_cancel (Nat.dvd_of_mod_eq_zero hmod)
  have hone : 1 ≤ k / g.a := by
    refine Nat.pos_of_ne_zero fun h => ?_
    rw [h, Nat.zero_mul] at hmul
    omega
  have := hg.turns (k / g.a) hone (by rwa [hmul])
  rw [hmul] at this
  exact ⟨hone, hmul, this⟩

end

/-! ## The state within the pass -/

/-- The heads whose layers are ready after the runs of `c` heads, with the heads before `b`
loaded. -/
def Change.InTurn (g : Change) (c b k : Nat) : Prop :=
  c ≤ k ∧ k < b ∨ 2 ≤ k ∧ k < c ∧ k % g.a ≠ 0 ∨ k = 0 ∧ g.D < b

structure InPass (start : Nat → Option Nat) (g : Change) (m : LlamaModel) (c b : Nat) : Prop where
  shape : m.shape = (g.L, g.D, g.I, g.B, some (g.newD, g.a * g.I))
  staged : Staged start m.trace
  extraNum : g.E + (g.D - 2) ≤ g.B + m.extraWeightCacheNum
  extraBlkI : m.extraWeightCacheBlkI = g.E + (g.D - g.newD)
  slots : ∀ l < g.L, l ≠ 0 → m.weightCacheBlockIdx l = g.idx l
  zero : m.weightCacheBlockIdx 0 = if b ≤ g.D then g.x else g.turn g.newD
  zeroParams : m.layerParams 0 = m.weightCacheBlockIdx 0
  second : m.layerParams g.I = g.B - 1 - g.x
  params : ∀ l < g.L, (l % g.I ≠ 0 ∨ 2 ≤ l / g.I ∧ l / g.I < b) → m.layerParams l = g.idx l
  ready : ∀ l < g.L, (l % g.I ≠ 0 ∨ g.InTurn c b (l / g.I)) → Ready start m l
  events : ∀ k < c, m.synchCompEvents (k * g.I) = some (g.t₀ + k * g.I + 1)
  clear : ∀ j, 1 ≤ j → g.prev j < c → (j < g.newD → b ≤ j * g.a) → (j = g.newD → b ≤ g.D) →
    m.trace.Clear (g.turn j) (g.t₀ + g.prev j * g.I + 1)
  fresh : ∀ k < g.D, k % g.a ≠ 0 → (k = 1 ∨ b ≤ k) → m.trace.Clear (g.idx (k * g.I)) 0
  beyond : ∀ p, g.E + (g.D - g.newD) ≤ p → m.trace.Clear p 0

/-- The slot that the parameters of a layer point to when the heads before `b` are loaded. -/
def Change.slotAt (g : Change) (b l : Nat) : Nat :=
  if l = 0 then if b ≤ g.D then g.turn 1 else g.turn g.newD
  else if l = g.I then g.turn 2
  else g.idx l

section

variable {start : Nat → Option Nat} {g : Change} {m : LlamaModel} {b c : Nat}

theorem InPass.params_eq (hg : g.Ok) (h : InPass start g m c b) {l : Nat} (hl : l < g.L)
    (hb : l % g.I ≠ 0 ∨ l / g.I < b) : m.layerParams l = g.slotAt b l := by
  have hI := hg.pipeline.interval_pos
  rw [Change.slotAt]
  split
  · subst l
    rw [h.zeroParams, h.zero]
    rfl
  split
  · subst l
    exact h.second
  · rename_i hzero hone
    refine h.params l hl (or_iff_not_imp_left.mpr fun hmod => ?_)
    rw [not_not] at hmod
    have hhead : l / g.I * g.I = l := Nat.div_mul_cancel (Nat.dvd_of_mod_eq_zero hmod)
    refine ⟨Nat.le_of_not_lt fun hlt => ?_, hb.resolve_left (not_not.mpr hmod)⟩
    rcases Nat.le_one_iff_eq_zero_or_eq_one.mp (Nat.le_of_lt_succ hlt) with hk | hk
    · exact hzero (by rw [← hhead, hk, Nat.zero_mul])
    · exact hone (by rw [← hhead, hk, Nat.one_mul])

/-- A head other than the first two. -/
theorem Change.head_of_slotAt (hg : g.Ok) {l : Nat} (hl : l < g.L) (hzero : l ≠ 0)
    (hone : l ≠ g.I) (hmod : l % g.I = 0) :
    l / g.I * g.I = l ∧ 2 ≤ l / g.I ∧ l / g.I < g.D := by
  have hhead : l / g.I * g.I = l := Nat.div_mul_cancel (Nat.dvd_of_mod_eq_zero hmod)
  refine ⟨hhead, Nat.le_of_not_lt fun hlt => ?_, div_lt hg hl⟩
  rcases Nat.le_one_iff_eq_zero_or_eq_one.mp (Nat.le_of_lt_succ hlt) with hk | hk
  · exact hzero (by rw [← hhead, hk, Nat.zero_mul])
  · exact hone (by rw [← hhead, hk, Nat.one_mul])

/-- No other layer points to the new slot of a head that stops being one. -/
theorem Change.slotAt_ne_extra (hg : g.Ok) {k l : Nat} (hk : k < g.D) (hmod : k % g.a ≠ 0)
    (hl : l < g.L) (hne : l ≠ k * g.I) : g.slotAt b l ≠ g.idx (k * g.I) := by
  have hE := (extra_range hg hk hmod).1
  have hB := hg.block_le
  rw [slotAt]
  split
  · have := turn_lt hg 1
    have := turn_lt hg g.newD
    split <;> omega
  split
  · have := turn_lt hg 2
    omega
  · rename_i hzero hone
    by_cases hhead : l % g.I = 0
    · obtain ⟨hmul, htwo, hlt⟩ := head_of_slotAt hg hl hzero hone hhead
      by_cases hl' : l / g.I % g.a = 0
      · obtain ⟨-, -, hturn⟩ := turns_of_mod hg hlt (by omega) hl'
        have := turn_lt hg (l / g.I / g.a)
        rw [hmul] at hturn
        omega
      · intro heq
        rw [← hmul] at heq
        exact hne (by rw [← hmul, extra_inj hg hlt hk hl' hmod heq])
    · have := (hg.low l hl hhead).1
      omega

/-- A layer that points to a shared slot is layer 0, layer `I` or a head that stays. -/
theorem Change.of_slotAt_eq_turn (hg : g.Ok) {j l : Nat} (hl : l < g.L)
    (h : g.slotAt b l = g.turn j) :
    l = 0 ∧ g.turn j = (if b ≤ g.D then g.turn 1 else g.turn g.newD) ∨
    l = g.I ∧ g.turn j = g.turn 2 ∨
    ∃ i, 1 ≤ i ∧ l = i * g.a * g.I ∧ 2 ≤ i * g.a ∧ g.turn i = g.turn j := by
  rw [slotAt] at h
  split at h
  · rename_i hzero
    exact .inl ⟨hzero, h.symm⟩
  split at h
  · rename_i hone
    exact .inr (.inl ⟨hone, h.symm⟩)
  · rename_i hzero hone
    have hB := hg.block_le
    have hturn := turn_shared hg.first j
    have hlt := turn_lt hg j
    by_cases hhead : l % g.I = 0
    · obtain ⟨hmul, htwo, hD⟩ := head_of_slotAt hg hl hzero hone hhead
      by_cases hl' : l / g.I % g.a = 0
      · obtain ⟨hi, hmul', hi'⟩ := turns_of_mod hg hD (by omega) hl'
        rw [hmul] at hi'
        exact .inr (.inr ⟨l / g.I / g.a, hi, by rw [hmul', hmul], by rwa [hmul'],
          hi'.symm.trans h⟩)
      · have := (extra_range hg hD hl').1
        rw [hmul] at this
        omega
    · have := hg.low l hl hhead
      omega

theorem Change.slotAt_lt (hg : g.Ok) {l : Nat} (hl : l < g.L) :
    g.slotAt b l < g.E + (g.D - g.newD) := by
  have hB := hg.block_le
  rw [slotAt]
  split
  · have := turn_lt hg 1
    have := turn_lt hg g.newD
    split <;> omega
  split
  · have := turn_lt hg 2
    omega
  · rename_i hzero hone
    by_cases hhead : l % g.I = 0
    · obtain ⟨hmul, htwo, hD⟩ := head_of_slotAt hg hl hzero hone hhead
      by_cases hl' : l / g.I % g.a = 0
      · obtain ⟨-, -, hi'⟩ := turns_of_mod hg hD (by omega) hl'
        rw [hmul] at hi'
        have := turn_lt hg (l / g.I / g.a)
        omega
      · have := (extra_range hg hD hl').2
        rwa [hmul] at this
    · have := (hg.low l hl hhead).1
      omega

/-! ## Runs -/

/-- A layer that is not a head runs. -/
theorem InPass.runResident (hg : g.Ok) (h : InPass start g m c b) {i : Nat} (hi : i < g.L)
    (hmod : i % g.I ≠ 0) : InPass start g (m.runLayer i) c b := by
  have hready := h.ready i hi (.inl hmod)
  have hslot := h.params_eq hg hi (.inl hmod)
  have hlow := hg.low i hi hmod
  have hi' : g.slotAt b i = g.idx i := by
    rw [Change.slotAt, if_neg fun h0 => hmod (by rw [h0, Nat.zero_mod]),
      if_neg fun h1 => hmod (by rw [h1, Nat.mod_self])]
  rw [hi'] at hslot
  refine ⟨h.shape, staged_runLayer h.staged hready, h.extraNum, h.extraBlkI, h.slots, h.zero,
    h.zeroParams, h.second, h.params, fun l hl hl' => (h.ready l hl hl').runLayer hready, h.events,
    fun j hj hprev hlt hlt' => (h.clear j hj hprev hlt hlt').addRun ?_,
    fun k hk hk' hk'' => (h.fresh k hk hk' hk'').addRun ?_,
    fun p hp => (h.beyond p hp).addRun ?_⟩
  · change m.layerParams i ≠ g.turn j
    have := Change.turn_shared hg.first j
    omega
  · change m.layerParams i ≠ g.idx (k * g.I)
    have := (Change.extra_range hg hk hk').1
    omega
  · change m.layerParams i ≠ p
    omega

theorem Change.slotAt_second (hg : g.Ok) : g.slotAt b g.I = g.turn 2 := by
  rw [slotAt, if_neg hg.pipeline.interval_pos.ne', if_pos rfl]

theorem Change.slotAt_head (hg : g.Ok) {k : Nat} (hk : 2 ≤ k) :
    g.slotAt b (k * g.I) = g.idx (k * g.I) := by
  have hI := hg.pipeline.interval_pos
  rw [slotAt, if_neg (Nat.mul_ne_zero (by omega) hI.ne'), if_neg]
  intro h
  have := Nat.eq_of_mul_eq_mul_right hI (h.trans (Nat.one_mul g.I).symm)
  omega

/-- Head `c` does not run from the slot of a new head that waits to be loaded. -/
theorem Change.slotAt_ne_turn (hg : g.Ok) (hc : c < g.D) (hcb : c < b) {j : Nat} (hj : 1 ≤ j)
    (hprev : g.prev j < c) (hnot : j < g.newD → b ≤ j * g.a) :
    g.slotAt b (c * g.I) ≠ g.turn j := by
  have hI := hg.pipeline.interval_pos
  have ha := hg.two_le
  intro h
  rcases of_slotAt_eq_turn hg (head_lt hg hc) h with ⟨hzero, -⟩ | ⟨hone, hturn⟩ |
    ⟨i, hi, heq, -, hturn⟩
  · have := (Nat.mul_eq_zero.mp hzero).resolve_right hI.ne'
    omega
  · obtain rfl : c = 1 := Nat.eq_of_mul_eq_mul_right hI (hone.trans (Nat.one_mul g.I).symm)
    have hpar := parity_of_turn_eq hg hturn
    rcases Nat.lt_or_ge 2 j with hlt | hge
    · have := prev_le hg (j := 2) (by decide) hlt hturn.symm
      omega
    · obtain rfl : j = 2 := by omega
      exact absurd hprev (Nat.lt_irrefl 1)
  · obtain rfl : c = i * g.a := Nat.eq_of_mul_eq_mul_right hI heq
    have hlt : i < j := by
      rcases Nat.lt_or_ge j g.newD with hj' | hj'
      · exact Nat.lt_of_mul_lt_mul_right (Nat.lt_of_lt_of_le hcb (hnot hj'))
      · exact Nat.lt_of_lt_of_le ((mul_lt_iff hg).mpr hc) hj'
    exact absurd (prev_le hg hi hlt hturn) (Nat.not_le_of_lt hprev)

/-- Head `c` runs from the shared slot that the new head after it in this slot gets. -/
theorem Change.slotAt_prev (hg : g.Ok) {j : Nat} (hj : 1 ≤ j) (hD : g.prev j < g.D)
    (hb : g.prev j = 0 → b ≤ g.D) : g.slotAt b (g.prev j * g.I) = g.turn j := by
  have ha := hg.two_le
  rcases Nat.lt_or_ge j 3 with hlt | hge
  · obtain rfl | rfl : j = 1 ∨ j = 2 := by omega
    · have hzero : g.prev 1 = 0 := rfl
      rw [hzero, Nat.zero_mul, slotAt, if_pos rfl, if_pos (hb hzero)]
    · have hone : g.prev 2 = 1 := rfl
      rw [hone, Nat.one_mul, slotAt_second hg]
  · obtain ⟨i, rfl⟩ : ∃ i, j = i + 2 := ⟨j - 2, by omega⟩
    have hprev : g.prev (i + 2) = i * g.a := by
      rw [prev, if_neg (by omega), if_neg (by omega), Nat.add_sub_cancel]
    have hpos : g.a ≤ i * g.a := Nat.le_mul_of_pos_left _ (by omega)
    rw [hprev] at hD ⊢
    rw [slotAt_head hg (by omega), hg.turns i (by omega) hD, turn_add_two]

/-- Head `c` runs. -/
theorem InPass.runHead (hg : g.Ok) (h : InPass start g m c b) (hc : c < g.D) (hcb : c < b)
    (hb : b ≤ c + 2) (hlen : m.trace.runs.length = g.t₀ + c * g.I) :
    InPass start g ((m.runLayer (c * g.I)).recordSynch (c * g.I)) (c + 1) b := by
  have hI := hg.pipeline.interval_pos
  have hD : 3 ≤ g.D := by
    have := heads_le (L := g.D) (I := g.a) (by have := hg.two_le; omega)
    have := hg.three_le
    rw [← hg.newDegree] at *
    omega
  have hdiv : c * g.I / g.I = c := Nat.mul_div_cancel c hI
  have hcL := Change.head_lt hg hc
  have hready := h.ready (c * g.I) hcL (.inr (.inl ⟨hdiv.ge, hdiv.symm ▸ hcb⟩))
  have hslot := h.params_eq hg hcL (.inr (by rwa [hdiv]))
  have hlen' : (m.runLayer (c * g.I)).trace.runs.length = g.t₀ + c * g.I + 1 := by
    rw [length_runLayer, hlen]
  have hclear := clear_runLayer hready
  rw [hslot, hlen'] at hclear
  refine ⟨h.shape, staged_runLayer h.staged hready, h.extraNum, h.extraBlkI, h.slots, h.zero,
    h.zeroParams, h.second, h.params, fun l hl hl' => ?_, fun k hk => ?_,
    fun j hj hprev hlt hlt' => ?_, fun k hk hk' hk'' => ?_, fun p hp => ?_⟩
  · have hl'' : l % g.I ≠ 0 ∨ g.InTurn c b (l / g.I) := by
      refine hl'.imp id fun hin => ?_
      rcases hin with hin | hin | hin
      · exact .inl ⟨by omega, hin.2⟩
      · rcases Nat.lt_succ_iff_lt_or_eq.mp hin.2.1 with hlt | heq
        · exact .inr (.inl ⟨hin.1, hlt, hin.2.2⟩)
        · exact .inl ⟨heq.ge, by omega⟩
      · exact .inr (.inr hin)
    exact ((h.ready l hl hl'').runLayer hready).congr rfl rfl rfl
  · change Function.update m.synchCompEvents (c * g.I)
      (some (m.runLayer (c * g.I)).trace.runs.length) (k * g.I) = _
    rcases Nat.lt_succ_iff_lt_or_eq.mp hk with hlt | rfl
    · rw [Function.update_of_ne fun heq => hlt.ne (Nat.eq_of_mul_eq_mul_right hI heq)]
      exact h.events k hlt
    · rw [Function.update_self, hlen']
  · change (m.runLayer (c * g.I)).trace.Clear _ _
    rcases Nat.lt_succ_iff_lt_or_eq.mp hprev with hprev | hprev
    · refine (h.clear j hj hprev hlt hlt').addRun ?_
      change m.layerParams (c * g.I) ≠ g.turn j
      rw [hslot]
      exact Change.slotAt_ne_turn hg hc hcb hj hprev hlt
    · have hturn := Change.slotAt_prev (b := b) hg hj (hprev ▸ hc) (by omega)
      rw [hprev] at hturn ⊢
      rwa [hturn] at hclear
  · refine (h.fresh k hk hk' hk'').addRun ?_
    change m.layerParams (c * g.I) ≠ g.idx (k * g.I)
    rw [hslot]
    by_cases heq : c = k
    · obtain rfl : c = 1 := by omega
      subst heq
      have := (Change.extra_range hg hk hk').1
      have := hg.block_le
      have := Change.turn_lt hg 2
      rw [Nat.one_mul] at *
      rw [Change.slotAt_second hg]
      omega
    · exact Change.slotAt_ne_extra hg hk hk' hcL fun h' =>
        heq (Nat.eq_of_mul_eq_mul_right hI h')
  · refine (h.beyond p hp).addRun ?_
    change m.layerParams (c * g.I) ≠ p
    have := Change.slotAt_lt (b := b) hg hcL
    omega

/-! ## Loads -/

/-- Head `b` is loaded into its slot, which nothing else needs. -/
theorem InPass.loadHead (hg : g.Ok) (h : InPass start g m c b) (hb : 2 ≤ b) (hbD : b < g.D)
    {after : Nat} (hafter : after ≤ m.trace.runs.length)
    (hclear : m.trace.Clear (g.idx (b * g.I)) after)
    (hready : ∀ l < g.L, (l % g.I ≠ 0 ∨ g.InTurn c b (l / g.I)) → l ≠ b * g.I →
      m.layerParams l ≠ g.idx (b * g.I))
    (hturn : ∀ j, 1 ≤ j → g.prev j < c → (j < g.newD → b + 1 ≤ j * g.a) →
      g.idx (b * g.I) ≠ g.turn j)
    (hfresh : ∀ k < g.D, k % g.a ≠ 0 → (k = 1 ∨ b + 1 ≤ k) →
      g.idx (b * g.I) ≠ g.idx (k * g.I)) :
    InPass start g ((m.pointParams (b * g.I) (g.idx (b * g.I))).issueLoad (b * g.I)
      (g.idx (b * g.I)) after) c (b + 1) := by
  have hI := hg.pipeline.interval_pos
  have hbL := Change.head_lt hg hbD
  have hbI : b * g.I ≠ 0 := Nat.mul_ne_zero (by omega) hI.ne'
  have hoff : ∀ l, l ≠ b * g.I → Function.update m.layerParams (b * g.I) (g.idx (b * g.I)) l =
      m.layerParams l := fun l hl => Function.update_of_ne hl ..
  have hhead : ∀ l, l % g.I = 0 → l ≠ b * g.I → l / g.I ≠ b := fun l hmod hl heq => hl (by
    rw [← heq]
    exact (Nat.div_mul_cancel (Nat.dvd_of_mod_eq_zero hmod)).symm)
  refine ⟨h.shape, staged_issueLoad (m := m.pointParams _ _) h.staged hclear, h.extraNum,
    h.extraBlkI, h.slots, ?_, (hoff 0 hbI.symm).trans h.zeroParams, (hoff g.I ?_).trans h.second,
    fun l hl hl' => ?_, fun l hl hl' => ?_, h.events, fun j hj hprev hlt hlt' => ?_,
    fun k hk hk' hk'' => ?_, fun p hp => ?_⟩
  · refine h.zero.trans ?_
    rw [if_pos hbD.le, if_pos (Nat.succ_le_of_lt hbD)]
  · intro heq
    have := Nat.eq_of_mul_eq_mul_right hI ((Nat.one_mul g.I).trans heq)
    omega
  · change Function.update m.layerParams (b * g.I) (g.idx (b * g.I)) l = g.idx l
    by_cases heq : l = b * g.I
    · rw [heq, Function.update_self]
    · rw [hoff l heq]
      refine h.params l hl (or_iff_not_imp_left.mpr fun hmod => ?_)
      have := hl'.resolve_left hmod
      have := hhead l (not_not.mp hmod) heq
      omega
  · by_cases heq : l = b * g.I
    · subst heq
      exact ready_issueLoad (m := m.pointParams _ _) hclear hafter (Function.update_self ..)
    · have hl'' : l % g.I ≠ 0 ∨ g.InTurn c b (l / g.I) := by
        refine or_iff_not_imp_left.mpr fun hmod => ?_
        have hne := hhead l (not_not.mp hmod) heq
        rcases hl'.resolve_left hmod with hin | hin | hin
        · exact .inl ⟨hin.1, by omega⟩
        · exact .inr (.inl hin)
        · omega
      refine ((h.ready l hl hl'').pointParams heq).issueLoad heq ?_
      exact fun hp => hready l hl hl'' heq ((hoff l heq).symm.trans hp)
  · refine (h.clear j hj hprev (fun hj' => ?_) fun hj' => hbD.le).addLoad ?_
    · exact Nat.le_of_succ_le (hlt hj')
    · exact hturn j hj hprev hlt
  · refine (h.fresh k hk hk' (hk''.imp id Nat.le_of_succ_le)).addLoad ?_
    exact hfresh k hk hk' hk''
  · refine (h.beyond p hp).addLoad ?_
    change g.idx (b * g.I) ≠ p
    have := Change.slotAt_lt (b := b) hg hbL
    rw [Change.slotAt_head hg hb] at this
    omega

/-- A head that stops being one is loaded into its own slot. -/
theorem InPass.loadExtra (hg : g.Ok) (h : InPass start g m c b) (hcb : c < b) (hb : 2 ≤ b)
    (hbD : b < g.D) (hmod : b % g.a ≠ 0) {after : Nat} (hafter : after ≤ m.trace.runs.length) :
    InPass start g ((m.pointParams (b * g.I) (g.idx (b * g.I))).issueLoad (b * g.I)
      (g.idx (b * g.I)) after) c (b + 1) := by
  have hclear := h.fresh b hbD hmod (.inr (le_refl b))
  refine h.loadHead hg hb hbD hafter (hclear.mono (Nat.zero_le _)) (fun l hl hl' hne => ?_)
    (fun j _ _ _ => ?_) (fun k hk hk' hk'' heq => ?_)
  · have hlb : l % g.I ≠ 0 ∨ l / g.I < b := by
      refine hl'.imp id fun hin => ?_
      rcases hin with hin | hin | hin <;> omega
    rw [h.params_eq hg hl hlb]
    exact Change.slotAt_ne_extra hg hbD hmod hl hne
  · have := (Change.extra_range hg hbD hmod).1
    have := hg.block_le
    have := Change.turn_lt hg j
    omega
  · have := Change.extra_inj hg hbD hk hmod hk' heq
    omega

/-- A head that stays is loaded into the shared slot whose turn it is. -/
theorem InPass.loadShared (hg : g.Ok) (h : InPass start g m c b) (hcb : c + 1 = b) {j : Nat}
    (hj : 1 ≤ j) (hbj : b = j * g.a) (hbD : b < g.D)
    (hlen : g.t₀ + (c - 1) * g.I < m.trace.runs.length) :
    InPass start g ((m.pointParams (b * g.I) (g.idx (b * g.I))).issueLoad (b * g.I)
      (g.idx (b * g.I)) (g.t₀ + g.prev j * g.I + 1)) c (b + 1) := by
  have hI := hg.pipeline.interval_pos
  have ha := hg.two_le
  have hb : 2 ≤ b := by
    have : g.a ≤ j * g.a := Nat.le_mul_of_pos_left _ hj
    omega
  have hprev : g.prev j < c := by
    have := Change.prev_lt hg hj
    omega
  have hnewD : j < g.newD := (Change.mul_lt_iff hg).mpr (hbj ▸ hbD)
  have hslot : g.idx (b * g.I) = g.turn j := by
    rw [hbj]
    exact hg.turns j hj (hbj ▸ hbD)
  have hclear := h.clear j hj hprev (fun _ => hbj.le) fun heq => absurd heq hnewD.ne
  -- two heads that stay are never next to each other
  have halone : ∀ i, i * g.a ≠ c := by
    intro i hi
    have hlt : i < j := Nat.lt_of_mul_lt_mul_right (a := g.a) (by omega)
    have : (i + 1) * g.a ≤ j * g.a := Nat.mul_le_mul_right _ hlt
    rw [Nat.add_mul] at this
    omega
  refine h.loadHead hg hb hbD ?_ (hslot ▸ hclear) (fun l hl hl' hne heq => ?_)
    (fun j' hj' hprev' hlt' heq => ?_) (fun k hk hk' _ => ?_)
  · have : g.prev j * g.I ≤ (c - 1) * g.I := Nat.mul_le_mul_right _ (by omega)
    omega
  · have hlb : l % g.I ≠ 0 ∨ l / g.I < b := by
      refine hl'.imp id fun hin => ?_
      rcases hin with hin | hin | hin <;> omega
    rw [h.params_eq hg hl hlb, hslot] at heq
    rcases Change.of_slotAt_eq_turn hg hl heq with ⟨rfl, -⟩ | ⟨rfl, hturn⟩ |
      ⟨i, hi, hli, htwo, hturn⟩
    · have := hl'.resolve_left (not_not.mpr (Nat.zero_mod _))
      rw [Nat.zero_div] at this
      rcases this with hin | hin | hin <;> omega
    · have := hl'.resolve_left (not_not.mpr (Nat.mod_self _))
      rw [Nat.div_self hI] at this
      obtain rfl : c = 1 := by rcases this with hin | hin | hin <;> omega
      obtain rfl : j = 1 := by
        refine Nat.le_antisymm (Nat.le_of_not_lt fun hlt => ?_) hj
        have : 2 * g.a ≤ j * g.a := Nat.mul_le_mul_right _ hlt
        omega
      exact absurd (Change.parity_of_turn_eq hg hturn) (by decide)
    · subst hli
      have := hl'.resolve_left (not_not.mpr (Nat.mul_mod_left _ _))
      rw [Nat.mul_div_cancel _ hI] at this
      rcases this with hin | hin | hin
      · exact halone i (by omega)
      · exact hin.2.2 (Nat.mul_mod_left i g.a)
      · omega
  · rw [hslot] at heq
    have hlt : j < j' := by
      rcases Nat.lt_or_ge j' g.newD with hlt | hge
      · exact Nat.lt_of_mul_lt_mul_right (a := g.a) (by have := hlt' hlt; omega)
      · exact Nat.lt_of_lt_of_le hnewD hge
    have := Change.prev_le hg hj hlt heq
    omega
  · have := (Change.extra_range hg hk hk').1
    have := hg.block_le
    have := Change.turn_lt hg j
    omega

/-- No other layer that is still needed is in the slot that layer 0 gets for the next pass. -/
theorem InPass.params_ne_turn (hg : g.Ok) (h : InPass start g m c g.D) (hc : c + 1 = g.D) {l : Nat}
    (hl : l < g.L) (hne : l ≠ 0) (hl' : l % g.I ≠ 0 ∨ g.InTurn c g.D (l / g.I)) :
    m.layerParams l ≠ g.turn g.newD := by
  have hI := hg.pipeline.interval_pos
  have ha := hg.two_le
  have hthree := hg.three_le
  have hlast : (g.newD - 1) * g.a < g.D := (Change.mul_lt_iff hg).mp (by omega)
  rw [h.params_eq hg hl (hl'.imp id fun _ => Change.div_lt hg hl)]
  intro hturn
  rcases Change.of_slotAt_eq_turn hg hl hturn with ⟨hzero, -⟩ | ⟨rfl, -⟩ |
    ⟨i, hi, rfl, htwo, hturn'⟩
  · exact hne hzero
  -- the old second head has run already
  · have : g.newD ≤ g.D := by
      rw [hg.newDegree]
      exact heads_le (by omega)
    rcases hl'.resolve_left (not_not.mpr (Nat.mod_self _)) with hin | hin | hin <;>
      rw [Nat.div_self hI] at hin <;> omega
  -- of the new heads only the last one can be left, and the slots of the two differ
  · have hin := hl'.resolve_left (not_not.mpr (Nat.mul_mod_left _ _))
    rw [Nat.mul_div_cancel _ hI] at hin
    rcases hin with hin | hin | hin
    · obtain rfl : i = g.newD - 1 := by
        refine Nat.le_antisymm ?_ ?_
        · have := (Change.mul_lt_iff hg).mpr hin.2
          omega
        · refine Nat.le_of_not_lt fun hlt => ?_
          have : (i + 1) * g.a ≤ (g.newD - 1) * g.a := Nat.mul_le_mul_right _ hlt
          rw [Nat.add_mul] at this
          omega
      have := Change.parity_of_turn_eq hg hturn'
      omega
    · exact hin.2.2 (Nat.mul_mod_left i g.a)
    · omega

/-- With the last head still to run layer 0 is loaded for the next pass. -/
theorem InPass.loadZero (hg : g.Ok) (h : InPass start g m c g.D) (hc : c + 1 = g.D)
    (hlen : g.t₀ + (c - 1) * g.I < m.trace.runs.length) :
    InPass start g ((m.retarget 0 (g.turn g.newD)).issueLoad 0 (g.turn g.newD)
      (g.t₀ + g.prev g.newD * g.I + 1)) c (g.D + 1) := by
  have hI := hg.pipeline.interval_pos
  have ha := hg.two_le
  have hthree := hg.three_le
  have hlast : (g.newD - 1) * g.a < g.D := (Change.mul_lt_iff hg).mp (by omega)
  have hprev : g.prev g.newD + g.a = (g.newD - 1) * g.a := by
    obtain ⟨i, hi⟩ : ∃ i, g.newD = i + 2 := ⟨g.newD - 2, by omega⟩
    rw [Change.prev, if_neg (by omega), if_neg (by omega), hi, Nat.add_sub_cancel,
      show i + 2 - 1 = i + 1 by omega, Nat.add_mul, Nat.one_mul]
  have hclear := h.clear g.newD (by omega) (by omega) (fun h => absurd h (Nat.lt_irrefl _))
    fun _ => le_refl _
  have hoff : ∀ {f : Nat → Nat} {l : Nat}, l ≠ 0 →
      Function.update f 0 (g.turn g.newD) l = f l := fun hl => Function.update_of_ne hl ..
  refine ⟨h.shape, staged_issueLoad (m := m.retarget _ _) h.staged hclear, h.extraNum,
    h.extraBlkI, fun l hl hl' => (hoff hl').trans (h.slots l hl hl'), ?_, ?_,
    (hoff hI.ne').trans h.second, fun l hl hl' => ?_, fun l hl hl' => ?_, h.events,
    fun j hj hprev' hlt hlt' => ?_, fun k hk hk' hk'' => ?_, fun p hp => ?_⟩
  · rw [if_neg (by omega)]
    exact m.retarget_idx_self 0 _
  · exact (m.retarget_params_self 0 _).trans (m.retarget_idx_self 0 _).symm
  · have hne : l ≠ 0 := by
      rintro rfl
      rcases hl' with hl' | hl'
      · exact hl' (Nat.zero_mod _)
      · rw [Nat.zero_div] at hl'
        omega
    refine (hoff hne).trans (h.params l hl (hl'.imp id fun hin => ⟨hin.1, ?_⟩))
    have := Change.div_lt hg hl
    omega
  · by_cases heq : l = 0
    · subst heq
      refine ready_issueLoad (m := m.retarget _ _) hclear ?_ (m.retarget_params_self 0 _)
      change _ ≤ m.trace.runs.length
      have : g.prev g.newD * g.I ≤ (c - 1) * g.I := Nat.mul_le_mul_right _ (by omega)
      omega
    · have hl'' : l % g.I ≠ 0 ∨ g.InTurn c g.D (l / g.I) := by
        refine or_iff_not_imp_left.mpr fun hmod => ?_
        have := Change.div_lt hg hl
        rcases hl'.resolve_left hmod with hin | hin | hin
        · exact .inl ⟨hin.1, this⟩
        · exact .inr (.inl hin)
        · have hhead := Nat.div_mul_cancel (Nat.dvd_of_mod_eq_zero (not_not.mp hmod))
          rw [hin.1, Nat.zero_mul] at hhead
          exact absurd hhead.symm heq
      have hready := h.ready l hl hl''
      have hparams : (m.retarget 0 (g.turn g.newD)).layerParams l = m.layerParams l := hoff heq
      refine (hready.retarget heq).issueLoad heq ?_
      rw [hparams]
      exact h.params_ne_turn hg hc hl heq hl''
  · have hnewD : g.newD < j := by
      refine Nat.lt_of_not_le fun hle => ?_
      rcases Nat.lt_or_eq_of_le hle with hj' | rfl
      · have := hlt hj'
        have := (Change.mul_lt_iff hg).mp hj'
        omega
      · have := hlt' rfl
        omega
    refine (h.clear j hj hprev' (fun hj' => by omega) fun hj' => by omega).addLoad ?_
    intro heq
    have hmul := Change.prev_le hg (by omega) hnewD heq
    have : g.D ≤ g.newD * g.a := Nat.le_of_not_lt fun h =>
      Nat.lt_irrefl _ ((Change.mul_lt_iff hg).mpr h)
    omega
  · refine (h.fresh k hk hk' (hk''.imp id (by omega))).addLoad ?_
    change g.turn g.newD ≠ _
    have := (Change.extra_range hg hk hk').1
    have := hg.block_le
    have := Change.turn_lt hg g.newD
    omega
  · refine (h.beyond p hp).addLoad ?_
    change g.turn g.newD ≠ p
    have := hg.block_le
    have := Change.turn_lt hg g.newD
    omega

end

end Mil.Weights
