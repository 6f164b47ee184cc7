import Mathlib.Algebra.BigOperators.Group.List.Basic
import Mil.Weights.Turnover

/-!
# Passes with increases

A run of the model is a list of passes, each with the number of layers that the scheduler puts on
the card for it. The interval is always the one that belongs to the degree, so the degrees say how
the run goes. As long as each increase leaves two heads, or a new interval that is a multiple of
the old one, every layer runs from its own weights and every increase takes as many slots of the
KV cache as it puts layers on the card (`resident_of_nested`). Otherwise the old heads that are no
new heads are more than the increase has booked (`not_resident_eleven`).
-/

set_option autoImplicit false

namespace Mil.Weights

open Mil.Lib.Staging

/-! ## What a run of passes is asked for -/

/-- The increases keep a degree of at least two and pass the assertion of
`pre_increase_oncard_layers`. -/
def Increases (L : Nat) : Nat → List Nat → Prop
  | _, [] => True
  | D, more :: mores =>
    (more = 0 ∨ 2 ≤ D - more ∧ Accepted L (D - more)) ∧ Increases L (D - more) mores

/-- Each increase leaves two heads, or the new heads are among the old ones. -/
def Nested (L : Nat) : Nat → List Nat → Prop
  | _, [] => True
  | D, more :: mores =>
    (more = 0 ∨ D - more = 2 ∨ normInterval L D ∣ normInterval L (D - more)) ∧
      Nested L (D - more) mores

instance (L : Nat) : ∀ (mores : List Nat) (D : Nat), Decidable (Increases L D mores)
  | [], _ => isTrue trivial
  | more :: mores, D =>
    haveI := instDecidableIncreases L mores (D - more)
    inferInstanceAs (Decidable (_ ∧ _))

instance (L : Nat) : ∀ (mores : List Nat) (D : Nat), Decidable (Nested L D mores)
  | [], _ => isTrue trivial
  | more :: mores, D =>
    haveI := instDecidableNested L mores (D - more)
    inferInstanceAs (Decidable (_ ∧ _))

/-- After the passes every layer has run in each of them, from its own weights in every execution,
and the slots taken from the KV cache are different and as many as were asked for. -/
structure Resident (m₀ : LlamaModel) (mores : List Nat) (m : LlamaModel) : Prop where
  passes : m₀.forwardPasses mores = .ok m
  runs : m.trace.runs.map Run.content =
    (List.replicate mores.length (List.range m₀.layerNum)).flatten
  safe : Safe m₀.loadedSlots m.trace
  apart : ExtraApart m₀.layerNum m₀.weightCacheBlockNum m.weightCacheBlockIdx
  used : m.extraWeightCacheBlkI = m₀.extraWeightCacheBlkI + mores.sum

/-- The model can be set up for increases, and is right after each pass of the run. -/
def ResidentThroughout (L d : Nat) (mores : List Nat) : Prop :=
  ∃ m₀, LlamaModel.init L d true = .ok m₀ ∧
    ∀ n ≤ mores.length, ∃ m, Resident m₀ (mores.take n) m

/-! ## The interval of a degree -/

theorem accepted_iff {L D : Nat} : Accepted L D ↔ D = normDegree L D := Iff.rfl

/-- The model keeps the interval that belongs to its degree. -/
theorem normInterval_normDegree {L d : Nat} (hL : 0 < L) (hd : 0 < d) :
    normInterval L (normDegree L d) = normInterval L d := by
  have hI : 0 < normInterval L d := Nat.div_pos (by omega) hd
  have hD : 0 < normDegree L d := heads_pos hI hL
  -- both are the least number whose product with the degree reaches all layers
  have hle : ∀ {n : Nat}, 0 < n → ∀ k, normInterval L n ≤ k ↔ L ≤ k * n := by
    intro n hn k
    rw [normInterval, ← Nat.lt_succ_iff, Nat.div_lt_iff_lt_mul hn, Nat.succ_mul]
    omega
  refine Nat.le_antisymm ((hle hD _).mpr ?_) ((hle hd _).mpr ?_)
  · refine Nat.le_of_not_lt fun hlt => ?_
    rw [Nat.mul_comm] at hlt
    exact Nat.lt_irrefl _ ((lt_heads_iff hI).mpr hlt)
  · have hdeg : normDegree L d ≤ d := by
      refine Nat.le_of_not_lt fun hlt => ?_
      have hmul := (lt_heads_iff hI).mp hlt
      have := (hle hd (normInterval L d)).mp (le_refl _)
      rw [Nat.mul_comm] at hmul
      omega
    exact ((hle hD _).mp (le_refl _)).trans (Nat.mul_le_mul_left _ hdeg)

/-- A new interval that is a multiple of the old one: how many old heads make a new one. -/
theorem exists_multiple {L D newD : Nat} (hL : 0 < L) (hpos : 0 < newD) (hlt : newD < D)
    (hacc : Accepted L D) (hacc' : Accepted L newD)
    (hdvd : normInterval L D ∣ normInterval L newD) :
    ∃ a, 2 ≤ a ∧ normInterval L newD = a * normInterval L D ∧ newD = heads D a := by
  obtain ⟨a, ha⟩ := hdvd
  rw [Nat.mul_comm] at ha
  have hI : 0 < normInterval L D := Nat.div_pos (by omega) (by omega)
  have hnewI : 0 < normInterval L newD := Nat.div_pos (by omega) hpos
  have hapos : 0 < a := Nat.pos_of_ne_zero fun h0 => by
    rw [h0, Nat.zero_mul] at ha
    omega
  have hnewD : newD = heads D a := by
    have hD : D = heads L (normInterval L D) := hacc
    have hnew : newD = heads L (normInterval L newD) := hacc'
    rw [hnew, ha, ← heads_heads hI hapos, ← hD]
  refine ⟨a, ?_, ha, hnewD⟩
  refine Nat.lt_of_le_of_ne hapos fun h1 => ?_
  subst h1
  have hone : heads D 1 = D := Nat.div_one _
  omega

/-! ## Between two passes -/

/-- The model between two passes, with `D` heads. -/
structure Between (start : Nat → Option Nat) (L B D : Nat) (m : LlamaModel) : Prop where
  pipeline : Pipeline L D (normInterval L D) B
  accepted : Accepted L D
  staged : Staged start m.trace
  layers : m.layerNum = L
  turn : 3 ≤ D ∧ Rolling start L D (normInterval L D) B m 0 ∧
      m.extraWeightCacheBlkI + (D - 2) ≤ B + m.extraWeightCacheNum ∨
    D ≤ 2 ∧ Still start L D (normInterval L D) B m
  apart : ExtraApart L B m.weightCacheBlockIdx

section

variable {start : Nat → Option Nat} {L B D : Nat} {m : LlamaModel}

theorem Between.of_rolling (hp : Pipeline L D (normInterval L D) B) (hacc : Accepted L D)
    (hD : 3 ≤ D) (h : Rolling start L D (normInterval L D) B m 0)
    (hextra : m.extraWeightCacheBlkI + (D - 2) ≤ B + m.extraWeightCacheNum) :
    Between start L B D m :=
  ⟨hp, hacc, h.staged, (shape_eq_iff.mp h.shape).1, .inl ⟨hD, h, hextra⟩, h.extraApart hp⟩

theorem Between.of_still (hp : Pipeline L D (normInterval L D) B) (hacc : Accepted L D)
    (hD : D ≤ 2) (h : Still start L D (normInterval L D) B m)
    (hapart : ExtraApart L B m.weightCacheBlockIdx) : Between start L B D m :=
  ⟨hp, hacc, h.staged, (shape_eq_iff.mp h.shape).1, .inr ⟨hD, h⟩, hapart⟩

/-- A pass without an increase. -/
theorem Between.steady (h : Between start L B D m) :
    ∃ m', m.forwardOurs 0 = .ok m' ∧ Between start L B D m' ∧
      m'.extraWeightCacheBlkI = m.extraWeightCacheBlkI := by
  have hp := h.pipeline
  have hI := hp.interval_pos
  rcases h.turn with ⟨hD, hr, hextra⟩ | ⟨hD, hs⟩
  · have hnone : heads 0 (normInterval L D) = 0 := Nat.div_eq_of_lt (by omega)
    obtain ⟨m', hm', h'⟩ := forwardLayers_of_step (n := L)
      (P := fun i m' => Rolling start L D (normInterval L D) B m' (heads i (normInterval L D)))
      (fun i hi m' h' => h'.forwardLayer hp hD hi) (by rw [hnone]; exact hr)
    obtain ⟨-, -, -, -, hnew⟩ := shape_eq_iff.mp h'.shape
    obtain ⟨hnum, hblk⟩ := extra_forwardLayers hm'
    rw [← h.layers] at hm'
    rw [← hp.degree] at h'
    exact ⟨m', forwardOurs_zero hm' hnew, .of_rolling hp h.accepted hD h'.wrap
      (by rw [hnum, hblk]; exact hextra), hblk⟩
  · obtain ⟨m', hm', h', hidx⟩ := forwardLayers_of_step (n := L)
      (P := fun _ m' => Still start L D (normInterval L D) B m' ∧
        m'.weightCacheBlockIdx = m.weightCacheBlockIdx)
      (fun i hi m' h' => by
        obtain ⟨m₁, hm₁, hs₁, hidx₁⟩ := h'.1.forwardLayer hp hD hi
        exact ⟨m₁, hm₁, hs₁, hidx₁.trans h'.2⟩) ⟨hs, rfl⟩
    obtain ⟨-, -, -, -, hnew⟩ := shape_eq_iff.mp h'.shape
    obtain ⟨-, hblk⟩ := extra_forwardLayers hm'
    rw [← h.layers] at hm'
    exact ⟨m', forwardOurs_zero hm' hnew, .of_still hp h.accepted hD h' (hidx ▸ h.apart), hblk⟩

/-- A pass with an increase that is accepted and nested. -/
theorem Between.increase {more : Nat} (h : Between start L B D m) (hmore : more ≠ 0)
    (htwo : 2 ≤ D - more) (hacc : Accepted L (D - more))
    (hnest : D - more = 2 ∨ normInterval L D ∣ normInterval L (D - more)) :
    ∃ m', m.forwardOurs more = .ok m' ∧ Between start L B (D - more) m' ∧
      m'.extraWeightCacheBlkI = m.extraWeightCacheBlkI + more := by
  have hp := h.pipeline
  rcases h.turn with ⟨hD, hr, hextra⟩ | ⟨hD, -⟩
  · have hL : 0 < L := Nat.lt_of_le_of_lt (Nat.zero_le _) (hp.head_lt 0 (by omega))
    have hpipe : Pipeline L (D - more) (normInterval L (D - more)) B :=
      ⟨Nat.div_pos (by omega) (by omega), hacc, hp.two_le_block⟩
    rcases Nat.lt_or_eq_of_le htwo with hthree | heq
    · obtain ⟨a, ha, hnewI, hnewD⟩ := exists_multiple hL (by omega) (Nat.sub_lt (by omega) (by omega))
        h.accepted hacc (hnest.resolve_left hthree.ne')
      obtain ⟨m', hm', h', hblk, hnum⟩ := hr.increase hp ha hnewD hthree hnewI hacc hextra
      have hback : D - (D - more) = more := by omega
      rw [hback] at hm' hblk
      refine ⟨m', hm', .of_rolling hpipe hacc hthree (hnewI.symm ▸ h') ?_, hblk⟩
      rw [hblk, hnum]
      omega
    · have hmore' : more = D - 2 := by omega
      obtain ⟨m', hm', h', hblk, hapart⟩ := hr.increaseToTwo hp hD hextra (heq.symm ▸ hacc)
      rw [← hmore'] at hm' hblk
      refine ⟨m', hm', .of_still hpipe hacc heq.ge ?_ hapart, hblk⟩
      rw [← heq]
      exact h'
  · omega

/-- A run of passes. -/
theorem Between.passes {mores : List Nat} (h : Between start L B D m)
    (hinc : Increases L D mores) (hnest : Nested L D mores) :
    ∃ m', m.forwardPasses mores = .ok m' ∧ Between start L B (D - mores.sum) m' ∧
      m'.extraWeightCacheBlkI = m.extraWeightCacheBlkI + mores.sum := by
  induction mores generalizing D m with
  | nil => exact ⟨m, rfl, h, rfl⟩
  | cons more mores ih =>
    have hstep : ∃ m₁, m.forwardOurs more = .ok m₁ ∧ Between start L B (D - more) m₁ ∧
        m₁.extraWeightCacheBlkI = m.extraWeightCacheBlkI + more := by
      by_cases hmore : more = 0
      · subst hmore
        exact h.steady
      · obtain ⟨htwo, hacc⟩ := hinc.1.resolve_left hmore
        exact h.increase hmore htwo hacc (hnest.1.resolve_left hmore)
    obtain ⟨m₁, hm₁, h₁, hblk₁⟩ := hstep
    obtain ⟨m', hm', h', hblk'⟩ := ih h₁ hinc.2 hnest.2
    refine ⟨m', ?_, ?_, ?_⟩
    · rw [LlamaModel.forwardPasses, List.foldlM_cons, hm₁]
      exact hm'
    · rw [List.sum_cons, ← Nat.sub_sub]
      exact h'
    · rw [List.sum_cons, hblk', hblk₁, Nat.add_assoc]

end

/-! ## Which layers run -/

section

variable {m m' : LlamaModel}

theorem trace_preIncreaseOncardLayers {n : Nat} (h : m.preIncreaseOncardLayers n = .ok m') :
    m'.trace = m.trace ∧ m'.layerNum = m.layerNum := by
  by_cases hn : n = 0
  · subst hn
    obtain rfl := Except.ok.inj h
    exact ⟨rfl, rfl⟩
  · refine ⟨?_, (shape_eq_iff.mp (preIncreaseOncardLayers_shape hn h)).1⟩
    rw [LlamaModel.preIncreaseOncardLayers, if_neg hn] at h
    dsimp only at h
    split at h
    · cases h
    split at h
    · cases h
    split at h
    · cases h
    split at h
    · obtain rfl := Except.ok.inj h
      refine foldl_eq_of_step LlamaModel.trace (fun m k => ?_) _ _
      unfold LlamaModel.moveHeadToTwo
      split <;> rfl
    · obtain rfl := Except.ok.inj h
      refine foldl_eq_of_step LlamaModel.trace (fun m k => ?_) _ _
      unfold LlamaModel.moveHead
      dsimp only
      split
      · rfl
      · split <;> rfl

/-- The loop over the layers issues one run for each. -/
theorem content_forwardLayers {layers : List Nat}
    (h : layers.foldlM LlamaModel.forwardLayer m = .ok m') :
    m'.layerNum = m.layerNum ∧
      m'.trace.runs.map Run.content = m.trace.runs.map Run.content ++ layers := by
  induction layers generalizing m with
  | nil =>
    obtain rfl := Except.ok.inj h
    exact ⟨rfl, (List.append_nil _).symm⟩
  | cons i layers ih =>
    rw [List.foldlM_cons] at h
    cases hm : m.forwardLayer i with
    | error e =>
      rw [hm] at h
      cases h
    | ok m₁ =>
      rw [hm] at h
      obtain ⟨hlayer, hcontent⟩ := ih h
      have hshape : m₁.shape = m.shape := congrArg Prod.fst (frame_forwardLayer hm)
      refine ⟨hlayer.trans (congrArg Prod.fst hshape), ?_⟩
      rw [hcontent, trace_runs_forwardLayer hm, List.map_append, List.map_cons, List.map_nil,
        List.append_assoc, List.singleton_append]

theorem content_forwardOurs {n : Nat} (h : m.forwardOurs n = .ok m') :
    m'.layerNum = m.layerNum ∧
      m'.trace.runs.map Run.content =
        m.trace.runs.map Run.content ++ List.range m.layerNum := by
  rw [LlamaModel.forwardOurs] at h
  cases hpre : m.preIncreaseOncardLayers n with
  | error e =>
    rw [hpre] at h
    cases h
  | ok m₁ =>
    rw [hpre] at h
    change ((List.range m₁.layerNum).foldlM LlamaModel.forwardLayer m₁ >>= fun m =>
      pure m.postIncreaseOncardLayers) = _ at h
    obtain ⟨htrace, hlayer⟩ := trace_preIncreaseOncardLayers hpre
    cases hloop : (List.range m₁.layerNum).foldlM LlamaModel.forwardLayer m₁ with
    | error e =>
      rw [hloop] at h
      cases h
    | ok m₂ =>
      rw [hloop] at h
      obtain rfl := Except.ok.inj h
      obtain ⟨hlayer₂, hcontent⟩ := content_forwardLayers hloop
      have hpost : m₂.postIncreaseOncardLayers.layerNum = m₂.layerNum ∧
          m₂.postIncreaseOncardLayers.trace = m₂.trace := by
        rw [LlamaModel.postIncreaseOncardLayers]
        split <;> exact ⟨rfl, rfl⟩
      rw [hpost.1, hpost.2, hcontent, htrace, hlayer₂, hlayer]
      exact ⟨rfl, rfl⟩

theorem content_forwardPasses {mores : List Nat} (h : m.forwardPasses mores = .ok m') :
    m'.trace.runs.map Run.content = m.trace.runs.map Run.content ++
      (List.replicate mores.length (List.range m.layerNum)).flatten := by
  induction mores generalizing m with
  | nil =>
    obtain rfl := Except.ok.inj h
    exact (List.append_nil _).symm
  | cons more mores ih =>
    rw [LlamaModel.forwardPasses, List.foldlM_cons] at h
    cases hm : m.forwardOurs more with
    | error e =>
      rw [hm] at h
      cases h
    | ok m₁ =>
      rw [hm] at h
      obtain ⟨hlayer, hcontent⟩ := content_forwardOurs hm
      rw [ih h, hcontent, hlayer, List.append_assoc]
      rfl

end

/-! ## Runs from the start -/

theorem Increases.take {L : Nat} {mores : List Nat} : ∀ {D : Nat} (n : Nat),
    Increases L D mores → Increases L D (mores.take n) := by
  induction mores with
  | nil =>
    intro D n _
    rw [List.take_nil]
    trivial
  | cons more mores ih =>
    intro D n h
    cases n with
    | zero => trivial
    | succ n => exact ⟨h.1, ih n h.2⟩

theorem Nested.take {L : Nat} {mores : List Nat} : ∀ {D : Nat} (n : Nat),
    Nested L D mores → Nested L D (mores.take n) := by
  induction mores with
  | nil =>
    intro D n _
    rw [List.take_nil]
    trivial
  | cons more mores ih =>
    intro D n h
    cases n with
    | zero => trivial
    | succ n => exact ⟨h.1, ih n h.2⟩

theorem Started.between {L d : Nat} {m : LlamaModel} (h : Started L d true m) (hd : 0 < d) :
    Between m.loadedSlots L m.weightCacheBlockNum (normDegree L d) m := by
  obtain ⟨hp, hsteady⟩ := h.steady
  have hI := normInterval_normDegree h.layers_pos hd
  have hdeg : m.pipelineDegree = normDegree L d := h.degree
  have hint : m.pipelineInterval = normInterval L (normDegree L d) := h.interval.trans hI.symm
  have hacc : Accepted L (normDegree L d) := by
    rw [accepted_iff]
    exact congrArg (heads L) hI.symm
  rw [hdeg, hint] at hp hsteady
  have hnone : heads 0 (normInterval L (normDegree L d)) = 0 :=
    Nat.div_eq_of_lt (by have := hp.interval_pos; omega)
  rcases hsteady.turn with ⟨hD, hr⟩ | ⟨hD, hs⟩
  · rw [hnone] at hr
    refine .of_rolling hp hacc hD hr ?_
    have hle := heads_le (L := L) h.interval_pos
    have hblk := h.blockNum
    have hD' : normDegree L d = heads L (normInterval L d) := rfl
    rw [h.extraBlkI, h.extraNum, if_pos rfl]
    omega
  · obtain ⟨hinj, -⟩ := h.loadedSlots_of_two (by rw [hdeg]; exact hD)
    exact .of_still hp hacc hD hs fun l hl l' hl' _ heq => hinj l hl l' hl' heq

/-- As long as the new heads are always old ones, every layer runs from its own weights in every
pass, and each increase takes exactly the slots it puts layers into. -/
theorem resident_of_nested {L d : Nat} {mores : List Nat} (hL : 0 < L) (hd : 0 < d)
    (hinc : Increases L (normDegree L d) mores) (hnest : Nested L (normDegree L d) mores) :
    ResidentThroughout L d mores := by
  obtain ⟨m₀, hm₀⟩ := init_exists hL hd true
  have hstarted := init_started hm₀
  refine ⟨m₀, hm₀, fun n _ => ?_⟩
  obtain ⟨m, hm, hbetween, hblk⟩ := (hstarted.between hd).passes (hinc.take n) (hnest.take n)
  refine ⟨m, hm, ?_, hbetween.staged.safe, ?_, hblk⟩
  · rw [content_forwardPasses hm, hstarted.trace]
    exact List.nil_append _
  · rw [hstarted.layerNum]
    exact hbetween.apart

/-- Twelve layers, of which six, then three and then two are heads. -/
theorem resident_of_nested_twelve : ResidentThroughout 12 6 [0, 3, 0, 1, 0] :=
  resident_of_nested (by decide) (by decide) (by decide) (by decide)

/-- Thirty-two layers with eleven heads: six more on the card leave five heads, of which only two
are old ones. -/
theorem not_resident_eleven :
    Increases 32 (normDegree 32 11) [6] ∧ ¬ ResidentThroughout 32 11 [6] := by
  refine ⟨by decide, fun ⟨m₀, hm₀, h⟩ => ?_⟩
  obtain ⟨m, hm⟩ := h 1 (le_refl 1)
  have hrun : (LlamaModel.init 32 11 true >>= fun m => m.forwardPasses [6]).map
      LlamaModel.layerNum = .ok m.layerNum := by
    rw [hm₀]
    exact congrArg (Except.map LlamaModel.layerNum) hm.passes
  have hraised : (LlamaModel.init 32 11 true >>= fun m => m.forwardPasses [6]).map
      LlamaModel.layerNum = .error .keyError := by decide +kernel
  rw [hraised] at hrun
  cases hrun

end Mil.Weights
