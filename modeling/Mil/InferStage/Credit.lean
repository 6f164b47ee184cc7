import Mil.InferStage.Plan

/-!
# Which iterations are credited

A worker stops after the first iteration that ends at the stop time or later, and the stop time is
cut off at the end of the last iteration. So an iteration is credited when it starts before both,
and the first one always is. An iteration that is credited without having started before the stop
can only be the first one, with a stop time that is not positive; one that has started and is not
credited takes no time at the end of the schedule.
-/

set_option autoImplicit false

namespace Mil.InferStage

open Mil.Lib Mil.Fcfs

/-! ## Counting iterations -/

theorem countP_range_interval (n a b : Nat) :
    ((List.range n).countP fun t => decide (a ≤ t ∧ t ≤ b)) = min n (b + 1) - a := by
  induction n with
  | zero => simp
  | succ n ih =>
    rw [List.range_succ, List.countP_append, ih, List.countP_singleton]
    by_cases h : a ≤ n ∧ n ≤ b
    · rw [if_pos (decide_eq_true h)]
      omega
    · rw [if_neg (by simpa using h)]
      omega

theorem countP_or_of_disjoint {α : Type} (l : List α) (p q : α → Bool)
    (h : ∀ a ∈ l, p a = true → q a = false) :
    (l.countP fun a => p a || q a) = l.countP p + l.countP q := by
  induction l with
  | nil => rfl
  | cons a l ih =>
    have hrest := ih fun b hb => h b (.tail _ hb)
    rw [List.countP_cons, List.countP_cons, List.countP_cons, hrest]
    cases hp : p a
    · cases hq : q a <;> simp [Nat.add_assoc]
    · simp [h a (.head _) hp]
      omega

/-- The tokens up to iteration `i` are the iterations up to `i` the request takes part in. -/
theorem doneBy_eq_countP {row : List Rng} {n : Nat} (hinc : Increasing 0 row)
    (hend : EndsBefore row n) (i : Nat) :
    doneBy i row = (List.range n).countP fun t => decide (Attends row t ∧ t ≤ i) := by
  induction row with
  | nil => simp [doneBy]
  | cons r row ih =>
    have hr := hinc.le r (.head _)
    have hn := hend r (.head _)
    have hsplit : (fun t => decide (Attends (r :: row) t ∧ t ≤ i)) =
        fun t => decide (r.1 ≤ t ∧ t ≤ min i r.2) || decide (Attends row t ∧ t ≤ i) := by
      funext t
      rw [← Bool.decide_or]
      refine decide_eq_decide.mpr ((and_congr_left' (attends_cons r row t)).trans ⟨?_, ?_⟩)
      · rintro ⟨h | h, hi⟩
        · exact .inl ⟨h.1, Nat.le_min.mpr ⟨hi, h.2⟩⟩
        · exact .inr ⟨h, hi⟩
      · rintro (⟨h₁, h₂⟩ | ⟨h, hi⟩)
        · exact ⟨.inl ⟨h₁, (Nat.le_min.mp h₂).2⟩, (Nat.le_min.mp h₂).1⟩
        · exact ⟨.inr h, hi⟩
    have hdone : doneBy i (r :: row) =
        (if r.1 ≤ i then min i r.2 - r.1 + 1 else 0) + doneBy i row := by
      simp [doneBy]
    rw [hsplit, countP_or_of_disjoint, countP_range_interval, hdone,
      ih hinc.of_cons fun q hq => hend q (.tail _ hq)]
    · refine congrArg (· + _) ?_
      split <;> omega
    · intro t _ ht
      rw [decide_eq_true_eq] at ht
      refine decide_eq_false fun hboth => ?_
      obtain ⟨⟨q, hq, hq₁, -⟩, -⟩ := hboth
      have := hinc.lt_of_cons hq
      omega

/-! ## The stop iteration -/

variable {τ : Type} [LinearOrder τ]

theorem le_of_getLast? {cumsum : List τ} {last x : τ} (hsorted : cumsum.Pairwise (· ≤ ·))
    (hlast : cumsum.getLast? = some last) (hx : x ∈ cumsum) : x ≤ last := by
  obtain ⟨init, rfl⟩ := List.getLast?_eq_some_iff.mp hlast
  rcases List.mem_append.mp hx with hx | hx
  · exact (List.pairwise_append.mp hsorted).2.2 x hx last (.head _)
  · rw [List.mem_singleton.mp hx]

variable [Zero τ]

/-- When an iteration starts: when the one before it ends. -/
def startOf (cumsumLatencys : List τ) (t : Nat) : τ :=
  if t = 0 then 0 else cumsumLatencys.getD (t - 1) 0

omit [LinearOrder τ] in
theorem startOf_succ {cumsum : List τ} {t : Nat} (ht : t < cumsum.length) :
    startOf cumsum (t + 1) = cumsum[t] := by
  rw [startOf, if_neg (Nat.succ_ne_zero t), Nat.add_sub_cancel, List.getD_eq_getElem?_getD,
    List.getElem?_eq_getElem ht, Option.getD_some]

/-- The iterations up to the stop iteration are the first one and those that start before the
stop. -/
theorem le_stopIter_iff {cumsum : List τ} (hsorted : cumsum.Pairwise (· ≤ ·)) {last stop : τ}
    {t : Nat} (ht : t < cumsum.length) :
    t ≤ stopIter cumsum last stop ↔ t = 0 ∨ startOf cumsum t < min last stop := by
  rw [stopIter, searchsortedLeft]
  cases t with
  | zero => simp
  | succ t =>
    have hlt : t < cumsum.length := Nat.lt_of_succ_lt ht
    rw [startOf_succ hlt]
    constructor
    · intro hle
      have := List.not_of_lt_findIdx (Nat.lt_of_succ_le hle)
      exact .inr (lt_of_not_ge (by simpa using this))
    · rintro (h | h)
      · exact absurd h (Nat.succ_ne_zero t)
      · by_contra hcon
        set j := cumsum.findIdx fun x => decide (min last stop ≤ x) with hj
        have hjt : j ≤ t := by omega
        have hjl : j < cumsum.length := Nat.lt_of_le_of_lt hjt hlt
        have hfound : min last stop ≤ cumsum[j] :=
          of_decide_eq_true (List.findIdx_getElem (w := hjl))
        have hmono : cumsum[j] ≤ cumsum[t] := by
          rcases Nat.lt_or_eq_of_le hjt with hlt' | heq
          · exact List.pairwise_iff_getElem.mp hsorted j t hjl hlt hlt'
          · simp [heq]
        exact absurd h (not_lt_of_ge (hfound.trans hmono))

/-- The iterations of a request that start before the stop. -/
def startedBefore (cumsumLatencys : List τ) (stop : τ) (row : List Rng) : Nat :=
  (List.range cumsumLatencys.length).countP fun t =>
    decide (Attends row t ∧ startOf cumsumLatencys t < stop)

/-- The stop time is positive if the request takes part in the first iteration, and it does not lie
after the last end of an iteration if the request takes part in one that starts only then. -/
def ClearStop (cumsumLatencys : List τ) (last stop : τ) (row : List Rng) : Prop :=
  ∀ t, Attends row t → (t = 0 → 0 < stop) ∧
    (0 < t → last ≤ startOf cumsumLatencys t → stop ≤ last)

theorem countP_eq_of_imp {α : Type} {l : List α} {p q : α → Bool}
    (himp : ∀ a ∈ l, p a = true → q a = true) :
    l.countP p = l.countP q ↔ ∀ a ∈ l, q a = true → p a = true := by
  constructor
  · intro h
    induction l with
    | nil => simp
    | cons a l ih =>
      have hrest : l.countP p ≤ l.countP q :=
        List.countP_mono_left fun b hb => himp b (.tail _ hb)
      rw [List.countP_cons, List.countP_cons] at h
      have ha := himp a (.head _)
      have hcount : l.countP p = l.countP q ∧ (q a = true → p a = true) := by
        by_cases hq : q a = true
        · by_cases hp : p a = true
          · rw [if_pos hp, if_pos hq] at h
            exact ⟨Nat.succ.inj h, fun _ => hp⟩
          · rw [if_neg hp, if_pos hq] at h
            omega
        · rw [if_neg fun hp => hq (ha hp), if_neg hq] at h
          exact ⟨h, fun hq' => absurd hq' hq⟩
      intro b hb
      rcases List.mem_cons.mp hb with rfl | hb
      · exact hcount.2
      · exact ih (fun b hb => himp b (.tail _ hb)) hcount.1 b hb
  · intro h
    exact List.countP_congr fun a ha => ⟨himp a ha, h a ha⟩

/-- The tokens credited to a request are the iterations that start before the stop exactly when the
stop is clear for it. -/
theorem credit_eq_iff {cumsum : List τ} {last : τ} (stop : τ) {row : List Rng}
    (hsorted : cumsum.Pairwise (· ≤ ·)) (hnonneg : ∀ t ∈ cumsum, 0 ≤ t)
    (hlast : cumsum.getLast? = some last) (hinc : Increasing 0 row)
    (hend : EndsBefore row cumsum.length) :
    doneBy (stopIter cumsum last stop) row = startedBefore cumsum stop row ↔
      ClearStop cumsum last stop row := by
  rw [doneBy_eq_countP hinc hend, startedBefore]
  have hle : ∀ t < cumsum.length, (t ≤ stopIter cumsum last stop ↔
      t = 0 ∨ startOf cumsum t < min last stop) := fun t ht => le_stopIter_iff hsorted ht
  have hstart : ∀ t < cumsum.length, 0 ≤ startOf cumsum t := by
    intro t ht
    cases t with
    | zero => exact le_refl _
    | succ t =>
      rw [startOf_succ (Nat.lt_of_succ_lt ht)]
      exact hnonneg _ (List.getElem_mem _)
  rcases lt_or_ge 0 stop with hpos | hneg
  · -- With a positive stop time whatever is credited has started.
    rw [countP_eq_of_imp]
    · constructor
      · intro h t hat
        refine ⟨fun _ => hpos, fun ht hge => le_of_not_gt fun hlt => ?_⟩
        have hn := hat.lt hend
        have hmem := h t (List.mem_range.mpr hn)
        rw [decide_eq_true_eq, decide_eq_true_eq, hle t hn] at hmem
        have heq : startOf cumsum t ≤ last := by
          obtain ⟨u, rfl⟩ := Nat.exists_eq_succ_of_ne_zero (Nat.ne_of_gt ht)
          rw [startOf_succ (Nat.lt_of_succ_lt hn)]
          exact le_of_getLast? hsorted hlast (List.getElem_mem _)
        rcases (hmem ⟨hat, heq.trans_lt hlt⟩).2 with hzero | hmin
        · omega
        · exact absurd (hmin.trans_le (min_le_left _ _)) (not_lt_of_ge hge)
      · intro h t ht
        have hn := List.mem_range.mp ht
        rw [decide_eq_true_eq, decide_eq_true_eq, hle t hn]
        rintro ⟨hat, hlt⟩
        refine ⟨hat, or_iff_not_imp_left.mpr fun hzero => lt_min ?_ hlt⟩
        refine lt_of_not_ge fun hge => ?_
        exact absurd (hge.trans_lt hlt)
          (not_lt_of_ge ((h t hat).2 (Nat.pos_of_ne_zero hzero) hge))
    · intro t ht
      have hn := List.mem_range.mp ht
      rw [decide_eq_true_eq, decide_eq_true_eq, hle t hn]
      rintro ⟨hat, rfl | hlt⟩
      · exact ⟨hat, hpos⟩
      · exact ⟨hat, hlt.trans_le (min_le_right _ _)⟩
  · -- Otherwise nothing has started, and only the first iteration is credited.
    have hzero : ((List.range cumsum.length).countP fun t =>
        decide (Attends row t ∧ startOf cumsum t < stop)) = 0 := by
      refine List.countP_eq_zero.mpr fun t ht => ?_
      rw [decide_eq_true_eq]
      exact fun h => absurd (h.2.trans_le hneg) (not_lt_of_ge (hstart t (List.mem_range.mp ht)))
    have hlastpos : 0 ≤ last := hnonneg _ (List.mem_of_getLast? hlast)
    rw [hzero, List.countP_eq_zero]
    constructor
    · intro h t hat
      refine ⟨fun ht => ?_, fun _ _ => hneg.trans hlastpos⟩
      have hn := hat.lt hend
      refine absurd ?_ (h t (List.mem_range.mpr hn))
      rw [decide_eq_true_eq, hle t hn]
      exact ⟨hat, .inl ht⟩
    · intro h t ht
      have hn := List.mem_range.mp ht
      rw [decide_eq_true_eq, hle t hn]
      rintro ⟨hat, hzero | hlt⟩
      · exact absurd ((h t hat).1 hzero) (not_lt_of_ge hneg)
      · exact absurd (hlt.trans_le ((min_le_right _ _).trans hneg)) (not_lt_of_ge (hstart t hn))

end Mil.InferStage
