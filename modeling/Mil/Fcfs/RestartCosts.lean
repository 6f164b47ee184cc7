import Mathlib.Algebra.BigOperators.Group.List.Basic
import Mathlib.Algebra.Order.BigOperators.Group.List
import Mathlib.Algebra.Order.Field.Basic
import Mathlib.Algebra.Field.Rat
import Mathlib.Algebra.Order.Ring.Rat
import Mil.Fcfs.Removal

/-!
# What a restart costs

A restart puts the latencies of its prefill steps in front of what is left of the cumulated ones. The
iterations it removes are taken out of the cumulated latencies, so the time of a removed iteration
stays in all values after it. The cumulated latencies are therefore the sums of the latencies of what
is left exactly when a removed iteration takes no time or nothing comes after it, and when the loop
finds all the iterations that have to go (`updateMetadata_costLaw_iff`).
-/

set_option autoImplicit false

namespace Mil.Fcfs

open Mil.Lib

section

variable {L : Type} [Field L]

/-! ## The law -/

/-- `get_finish_times_from_rng_infos`. -/
def getFinishTimesFromRngInfos (m : Metadata L) : List L :=
  let lastIters := m.rngs.cumRngNums.tail.map fun cum => m.rngs.rngEnds.getD (cum - 1) 0
  lastIters.map fun i => m.cumsumLatencys.getD i 0

/-- Whether some request takes part in an iteration after the stop, counted from there, when the
first decode steps of the running requests have been dropped. -/
def stillAttended (m : Metadata L) (rows : List (List Rng)) (stopIter : Nat) : Nat → Bool :=
  attendedBy (RngArrays.ofRows (droppedRows m rows stopIter))

/-- The iterations after the stop that stay. -/
def keptIters (m : Metadata L) (rows : List (List Rng)) (stopIter : Nat) : List Nat :=
  (List.range (m.isPrefillSteps.length - (stopIter + 1))).filter (stillAttended m rows stopIter)

/-- The iterations after the stop all of whose requests do prefill steps instead. -/
def lostIters (m : Metadata L) (rows : List (List Rng)) (stopIter : Nat) : List Nat :=
  (List.range (m.isPrefillSteps.length - (stopIter + 1))).filter
    fun t => !stillAttended m rows stopIter t

/-- The latencies of the prefill steps of the restart. -/
def newPrefillLatencys (cost : CostTable L) (maxNumBatchedTokens : Nat) (inp : List Nat)
    (m : Metadata L) (rows : List (List Rng)) (stopIter : Nat) : Option (List L) :=
  (updatePrefillLogs maxNumBatchedTokens ((runningIds m rows stopIter).map fun id =>
      (inp.getD id 0 + (getInfoAtStopTime m.rngs stopIter).getD id 0, id))
    ⟨[], [], List.replicate inp.length [], 0⟩).map fun p =>
      cost.prefillLatencys p.prefillLogs p.validPrefillLogs

/-- The cumulated latencies are those of the new prefill steps and of the iterations that stay, and a
request finishes when its last iteration ends. -/
structure CostLaw (cost : CostTable L) (maxNumBatchedTokens : Nat) (inp : List Nat)
    (m : Metadata L) (rows : List (List Rng)) (stopIter : Nat) (latencys : List L)
    (m' : Metadata L) (valid : List Nat) : Prop where
  cumsum : ∃ prefill, newPrefillLatencys cost maxNumBatchedTokens inp m rows stopIter =
      some prefill ∧ m'.cumsumLatencys = cumsumLatency
        (prefill ++ (keptIters m rows stopIter).map fun t => latencys.getD (stopIter + 1 + t) 0)
  finish : getFinishTimesFromRngInfos m' = (List.range valid.length).map fun k =>
    m'.cumsumLatencys.getD ((m'.rngs.row k).getLastD (0, 0)).2 0

/-- A lost iteration takes no time, or none that stays comes after it. -/
def LostAreFree (m : Metadata L) (rows : List (List Rng)) (stopIter : Nat) (latencys : List L) :
    Prop :=
  ∀ t ∈ lostIters m rows stopIter, (∃ k ∈ keptIters m rows stopIter, t < k) →
    latencys.getD (stopIter + 1 + t) 0 = 0

/-- The lost iterations before one that stays. -/
def lostBetween (m : Metadata L) (rows : List (List Rng)) (stopIter : Nat) : List Nat :=
  (lostIters m rows stopIter).filter fun t => (keptIters m rows stopIter).any (t < ·)

/-- The lost iterations before one that stays, each moved back by the number of lost ones before it,
are different iterations at which running requests go on. (The loop looks at these under the indices
they have before the first removal.) -/
def AllFound (m : Metadata L) (rows : List (List Rng)) (stopIter : Nat) : Prop :=
  ((lostBetween m rows stopIter).zipIdx.map fun p => p.1 - p.2).Sublist
    (firstDecodeIters m rows stopIter)

instance (m : Metadata L) (rows : List (List Rng)) (stopIter : Nat) :
    Decidable (AllFound m rows stopIter) :=
  inferInstanceAs (Decidable (List.Sublist _ _))

/-! ## Cumulated latencies -/

theorem scanl_add_eq_map_range (a : L) (l : List L) :
    l.scanl (· + ·) a = (List.range (l.length + 1)).map fun i => a + (l.take i).sum := by
  induction l generalizing a with
  | nil => simp
  | cons x l ih =>
    rw [List.scanl_cons, ih, List.length_cons, List.range_succ_eq_map (n := l.length + 1),
      List.map_cons, List.map_map]
    refine congrArg₂ _ (by simp) (List.map_congr_left fun i _ => ?_)
    simp [add_assoc]

theorem cumsumLatency_eq_map_range (l : List L) :
    cumsumLatency l = (List.range l.length).map fun i => (l.take (i + 1)).sum := by
  rw [cumsumLatency, scanl_add_eq_map_range, List.range_succ_eq_map, List.map_cons, List.tail_cons,
    List.map_map]
  exact List.map_congr_left fun i _ => zero_add _

theorem getD_cumsumLatency {l : List L} {i : Nat} (hi : i < l.length) :
    (cumsumLatency l).getD i 0 = (l.take (i + 1)).sum := by
  rw [cumsumLatency_eq_map_range]
  simp [List.getD_eq_getElem?_getD, hi]

theorem cumsumLatency_append (a b : List L) :
    cumsumLatency (a ++ b) = cumsumLatency a ++ (cumsumLatency b).map (a.sum + ·) := by
  rw [cumsumLatency_eq_map_range, cumsumLatency_eq_map_range, cumsumLatency_eq_map_range,
    List.length_append, List.range_add, List.map_append, List.map_map, List.map_map]
  refine congrArg₂ _ (List.map_congr_left fun i hi => ?_) (List.map_congr_left fun i _ => ?_)
  · have hle : i + 1 ≤ a.length := List.mem_range.mp hi
    rw [List.take_append_of_le_length hle]
  · show ((a ++ b).take (a.length + i + 1)).sum = a.sum + (b.take (i + 1)).sum
    rw [Nat.add_assoc, List.take_length_add_append, List.sum_append]

/-- Of increasing numbers, the cumulated values up to each of them. -/
theorem cumsumLatency_map {l : List Nat} (hl : l.Pairwise (· < ·)) (f : Nat → L) :
    cumsumLatency (l.map f) = l.map fun k => ((l.filter (· ≤ k)).map f).sum := by
  induction l using List.reverseRecOn with
  | nil => rfl
  | append_singleton l k ih =>
    obtain ⟨hl, -, hlast⟩ := List.pairwise_append.mp hl
    have hlt : ∀ j ∈ l, j < k := fun j hj => hlast j hj k (List.mem_singleton_self k)
    have hbefore : ∀ j ∈ l, (l ++ [k]).filter (· ≤ j) = l.filter (· ≤ j) := fun j hj => by
      have hnot : ¬ k ≤ j := Nat.not_le.mpr (hlt j hj)
      simp [List.filter_append, hnot]
    have hall : (l ++ [k]).filter (· ≤ k) = l ++ [k] := by
      refine List.filter_eq_self.mpr fun j hj => ?_
      rcases List.mem_append.mp hj with hj | hj
      · exact decide_eq_true (hlt j hj).le
      · exact decide_eq_true (List.mem_singleton.mp hj).le
    have hone : cumsumLatency [f k] = [f k] := by simp [cumsumLatency]
    rw [List.map_append, cumsumLatency_append, ih hl, List.map_append, List.map_singleton, hone]
    refine congrArg₂ _ (List.map_congr_left fun j hj => by rw [hbefore j hj]) ?_
    rw [List.map_singleton, List.map_singleton, hall, List.map_append, List.sum_append,
      List.map_singleton, List.sum_singleton]

/-- Two increasing lists, one with all elements of the other. -/
theorem map_eq_map_iff_of_subset {β : Type} {l l' : List Nat} (hl : l.Pairwise (· < ·))
    (hl' : l'.Pairwise (· < ·)) (hsub : l ⊆ l') (f g : Nat → β) :
    l'.map f = l.map g ↔ l'.length = l.length ∧ ∀ k ∈ l, f k = g k := by
  have heq : l'.length = l.length → l' = l := fun hlength => by
    have hsubperm : l.Subperm l' := List.subperm_of_subset (hl.imp (fun h => h.ne)) hsub
    have hperm := hsubperm.perm_of_length_le hlength.le
    exact (hperm.eq_of_pairwise (fun a b _ _ hab hba => absurd hab (Nat.lt_asymm hba)) hl hl').symm
  constructor
  · intro hmap
    have hlength : l'.length = l.length := by simpa using congrArg List.length hmap
    rw [heq hlength] at hmap
    exact ⟨hlength, fun k hk => List.map_inj_left.mp hmap k hk⟩
  · rintro ⟨hlength, hvalues⟩
    rw [heq hlength]
    exact List.map_congr_left hvalues

theorem sum_map_filter_add {M : Type} [AddCommMonoid M] (p : Nat → Bool) (f : Nat → M)
    (l : List Nat) : ((l.filter p).map f).sum + ((l.filter fun t => !p t).map f).sum =
      (l.map f).sum := by
  induction l with
  | nil => simp
  | cons t l ih =>
    rw [List.map_cons, List.sum_cons, ← ih]
    cases hp : p t
    · rw [List.filter_cons_of_neg (by simp [hp]), List.filter_cons_of_pos (by simp [hp]),
        List.map_cons, List.sum_cons, add_left_comm]
    · rw [List.filter_cons_of_pos hp, List.filter_cons_of_neg (by simp [hp]), List.map_cons,
        List.sum_cons, add_assoc]

/-! ## The loop and what comes after it -/

/-- Prompts that could be batched are prefilled, each once. -/
theorem prefilled_of_foldlM {maxNumBatchedTokens : Nat} {prompts : List (Nat × Nat)} :
    ∀ {p p' : Progress} {seqs : List (Nat × Nat)}, Recorded p →
    ((seqs ++ prompts).map Prod.snd).Nodup →
    (∀ id ∈ (seqs ++ prompts).map Prod.snd, id < p.inferProgress.length) →
    (prompts.foldlM (batchPrompt maxNumBatchedTokens) (p, seqs)).bind
        (fun s => recordPrefill s.1 s.2) = some p' →
    Prefilled p p' ((seqs ++ prompts).map Prod.snd) := by
  have hstep : ∀ {p p' : Progress} {seqs : List (Nat × Nat)}, Recorded p →
      (seqs.map Prod.snd).Nodup → (∀ id ∈ seqs.map Prod.snd, id < p.inferProgress.length) →
      recordPrefill p seqs = some p' → Prefilled p p' (seqs.map Prod.snd) := by
    intro p p' seqs h hnodup hids hrecord
    have hne : seqs ≠ [] := by
      rintro rfl
      cases hrecord
    obtain ⟨p'', hrecord', hp''⟩ := recordPrefill_spec h hnodup hids hne
    obtain rfl := Option.some.inj (hrecord.symm.trans hrecord')
    exact hp''
  induction prompts with
  | nil =>
    intro p p' seqs h hnodup hids hrecord
    rw [List.append_nil] at hnodup hids ⊢
    exact hstep h hnodup hids hrecord
  | cons prompt prompts ih =>
    intro p p' seqs h hnodup hids hrecord
    rw [List.foldlM_cons] at hrecord
    by_cases hbatch : ((seqs.map Prod.fst).foldr max prompt.1) * (seqs.length + 1) ≤
        maxNumBatchedTokens
    · have hrest : Prefilled p p' (((seqs ++ [prompt]) ++ prompts).map Prod.snd) :=
        ih h (by simpa using hnodup) (by simpa using hids)
          (by simpa [batchPrompt, if_pos hbatch] using hrecord)
      simpa using hrest
    · rw [List.map_append] at hnodup hids ⊢
      cases hfull : recordPrefill p seqs with
      | none => simp [batchPrompt, if_neg hbatch, hfull] at hrecord
      | some p₁ =>
        have hp₁ := hstep h hnodup.of_append_left
          (fun id hid => hids id (List.mem_append_left _ hid)) hfull
        have hrest : Prefilled p₁ p' (([prompt] ++ prompts).map Prod.snd) :=
          ih hp₁.recorded hnodup.of_append_right
            (fun id hid => hp₁.length_eq ▸ hids id (List.mem_append_right _ hid))
            (by simpa [batchPrompt, if_neg hbatch, hfull] using hrecord)
        exact hp₁.trans hrest hnodup

theorem prefilled_of_updatePrefillLogs {maxNumBatchedTokens : Nat} {prompts : List (Nat × Nat)}
    {p p' : Progress} (h : Recorded p) (hnodup : (prompts.map Prod.snd).Nodup)
    (hids : ∀ id ∈ prompts.map Prod.snd, id < p.inferProgress.length)
    (hupdate : updatePrefillLogs maxNumBatchedTokens prompts p = some p') :
    Prefilled p p' (prompts.map Prod.snd) := by
  by_cases hnil : prompts = []
  · subst hnil
    obtain rfl : p = p' := Option.some.inj hupdate
    exact ⟨Advanced.nil h 1, rfl, le_rfl⟩
  · rw [updatePrefillLogs, if_neg hnil] at hupdate
    have hall : Prefilled p p' (([] ++ prompts).map Prod.snd) :=
      prefilled_of_foldlM h hnodup hids hupdate
    exact hall

/-- What finishing an update asks of the ranges. -/
theorem finishUpdate_eq_some {L : Type} {m m' : Metadata L} {rows : List (List Rng)}
    {valid : List Nat} (hrngs : m.rngs = RngArrays.ofRows rows)
    (h : finishUpdate m = some (m', valid)) :
    m'.cumsumLatencys = m.cumsumLatencys ∧
      (∀ row ∈ rows, EndsBefore row m.isPrefillSteps.length) ∧
      m'.rngs = RngArrays.ofRows (rows.filter fun row => row.length ≠ 0) ∧
      valid.length = (rows.filter fun row => row.length ≠ 0).length := by
  have hfinish := h
  simp only [finishUpdate, Option.bind_eq_bind, Option.bind_eq_some_iff] at h
  obtain ⟨lastIter, hmax, h⟩ := h
  split at h
  · rename_i hchecks
    obtain ⟨-, hlatencys, hlast, -⟩ := hchecks
    obtain ⟨hmem, hall⟩ := List.max?_eq_some_iff.mp hmax
    rw [hrngs] at hmem hall
    have hends : ∀ row ∈ rows, EndsBefore row m.isPrefillSteps.length := fun row hrow r hr => by
      have hle := hall r.2 (List.mem_map_of_mem (List.mem_flatten.mpr ⟨row, hrow, hr⟩))
      omega
    obtain ⟨r, hr, heq⟩ := List.mem_map.mp hmem
    obtain ⟨row, hrow, hr⟩ := List.mem_flatten.mp hr
    rw [finishUpdate_ofRows hrngs hlatencys hends ⟨row, hrow, r, hr, by rw [heq]; exact hlast⟩,
      Option.some.injEq, Prod.mk.injEq] at hfinish
    obtain ⟨rfl, rfl⟩ := hfinish
    refine ⟨rfl, hends, rfl, ?_⟩
    rw [filter_eq_map_getD rows _ [], List.length_map]
  · cases h

/-- The finish times of requests that all have ranges. -/
theorem getFinishTimesFromRngInfos_ofRows {m : Metadata L} {rows : List (List Rng)}
    (hrngs : m.rngs = RngArrays.ofRows rows) (hne : ∀ row ∈ rows, row ≠ []) :
    getFinishTimesFromRngInfos m = (List.range rows.length).map fun k =>
      m.cumsumLatencys.getD ((m.rngs.row k).getLastD (0, 0)).2 0 := by
  have htail : (cumLens rows).tail =
      (List.range rows.length).map fun k => (cumLens rows).getD (k + 1) 0 := by
    have hall := map_eq_map_range (cumLens rows) id 0
    rw [List.map_id, cumLens_length, List.range_succ_eq_map, List.map_cons,
      List.map_map] at hall
    exact congrArg List.tail hall
  have hcum : m.rngs.cumRngNums = cumLens rows := by rw [hrngs]; rfl
  rw [getFinishTimesFromRngInfos, hcum, htail, List.map_map, List.map_map]
  refine List.map_congr_left fun k hk => ?_
  have hk : k < rows.length := List.mem_range.mp hk
  have hrow := List.getElem?_eq_getElem hk
  obtain ⟨init, r, hsnoc⟩ := (List.eq_nil_or_concat rows[k]).resolve_left
    (hne _ (List.getElem_mem hk))
  rw [List.concat_eq_append] at hsnoc
  have hlast : m.rngs.rngEnds.getD ((cumLens rows).getD (k + 1) 0 - 1) 0 = r.2 := by
    rw [hrngs]
    show (rows.flatten.map Prod.snd).getD _ 0 = r.2
    have hindex : (cumLens rows).getD (k + 1) 0 - 1 =
        (rows.take k).flatten.length + init.length := by
      rw [getD_cumLens_succ hrow, getD_cumLens hk.le, hsnoc, List.length_append,
        List.length_singleton]
      omega
    rw [hindex, flatten_split hrow, hsnoc, List.getD_eq_getElem?_getD, List.getElem?_map,
      List.getElem?_append_right (Nat.le_add_right _ _), Nat.add_sub_cancel_left,
      List.append_assoc, List.getElem?_append_right le_rfl, Nat.sub_self]
    rfl
  rw [Function.comp_apply, Function.comp_apply, hlast, hrngs, row_ofRows hrow, hsnoc,
    List.getLastD_concat]

/-! ## One restart -/

variable {cost : CostTable L} {m m' : Metadata L} {rows : List (List Rng)} {inp out valid : List Nat}
  {stopIter maxNumBatchedTokens : Nat} {latencys : List L}

/-- What the iterations after the stop take, up to each of them. -/
theorem cumsum_sub_stop {t : Nat} (ht : stopIter + 1 + t < latencys.length) :
    (cumsumLatency latencys).getD (stopIter + 1 + t) 0 -
        (cumsumLatency latencys).getD (stopIter + 1 - 1) 0 =
      ((List.range (t + 1)).map fun u => latencys.getD (stopIter + 1 + u) 0).sum := by
  have hafter : (latencys.drop (stopIter + 1)).take (t + 1) =
      (List.range (t + 1)).map fun u => latencys.getD (stopIter + 1 + u) 0 := by
    refine List.ext_getElem ?_ fun u h₁ h₂ => ?_
    · rw [List.length_take, List.length_drop, List.length_map, List.length_range]
      omega
    · have hu : u < t + 1 := by simpa using h₂
      have hlt : stopIter + 1 + u < latencys.length := by omega
      simp [List.getD_eq_getElem?_getD, hlt]
  have hsplit : stopIter + 1 + t + 1 = stopIter + 1 + (t + 1) := rfl
  rw [Nat.add_sub_cancel, getD_cumsumLatency ht, getD_cumsumLatency (by omega), hsplit,
    List.take_add, List.sum_append, hafter, add_sub_cancel_left]

/-- The metadata that enter the loop. -/
theorem removing_prependPrefill (h : m.WellFormed rows out)
    (hcumsum : m.cumsumLatencys = cumsumLatency latencys) (p : Progress) :
    Removing (droppedRows m rows stopIter)
      (cumsumLatency (cost.prefillLatencys p.prefillLogs p.validPrefillLogs))
      (fun t => (cost.prefillLatencys p.prefillLogs p.validPrefillLogs).sum +
        ((List.range (t + 1)).map fun u => latencys.getD (stopIter + 1 + u) 0).sum)
      (m.isPrefillSteps.length - (stopIter + 1))
      (prependPrefill cost m (stopIter + 1) p (RngArrays.ofRows (droppedRows m rows stopIter)))
      [] 0 id (droppedRows m rows stopIter) := by
  have hcounted : (prependPrefill cost m (stopIter + 1) p
      (RngArrays.ofRows (droppedRows m rows stopIter))).Partial (droppedRows m rows stopIter)
      p.prefillLogs.length (m.isPrefillSteps.length - (stopIter + 1)) :=
    partial_prependPrefill cost h p
  have hlength : latencys.length = m.isPrefillSteps.length := by
    rw [← h.latencys_length, hcumsum, cumsumLatency_length]
  have hdrop : m.cumsumLatencys.drop (stopIter + 1) =
      (List.range (m.isPrefillSteps.length - (stopIter + 1))).map fun t =>
        (cumsumLatency latencys).getD (stopIter + 1 + t) 0 := by
    refine List.ext_getElem (by simp [hcumsum, hlength]) fun t _ h₂ => ?_
    have ht : t < m.isPrefillSteps.length - (stopIter + 1) := by simpa using h₂
    have hlt : stopIter + 1 + t < latencys.length := by omega
    simp [hcumsum, List.getD_eq_getElem?_getD, hlt]
  refine ⟨rfl, rfl, hcounted.increasing, fun t => Iff.rfl, strictMono_id, fun t _ => ⟨t, rfl⟩,
    fun t ht => absurd ht List.not_mem_nil, fun t _ => rfl, ?_, ?_⟩
  · rw [prependPrefill, hdrop, List.map_map, hcumsum]
    refine congrArg₂ _ rfl (List.map_congr_left fun t ht => ?_)
    have ht : t < m.isPrefillSteps.length - (stopIter + 1) := List.mem_range.mp ht
    simp only [Function.comp_apply, id_eq, ← List.sum_eq_foldl]
    rw [cumsum_sub_stop (by omega)]
  · rw [hcounted.flags_length, cumsumLatency_length, cost.prefillLatencys_length]
    rfl

theorem exists_mem_prependRng {r q : Rng} {l : List Rng} (hq : q ∈ l) :
    ∃ q' ∈ prependRng r l, q'.2 = q.2 := by
  cases l with
  | nil => cases hq
  | cons q₀ l =>
    rw [prependRng]
    split
    · exact ⟨q, .tail _ hq, rfl⟩
    · rcases List.mem_cons.mp hq with rfl | hq
      · exact ⟨_, .head _, rfl⟩
      · exact ⟨q, .tail _ hq, rfl⟩

/-- The prefill ranges are put in front of the ranges after the stop, which stay as long as they
are. -/
theorem ends_after_prefill {ids : List Nat} {prefill : Nat → Rng} {num n : Nat}
    (hends : ∀ row ∈ onRows ids (fun id => prependRng (prefill id)) (rows.map (shiftBy num)),
      EndsBefore row (num + n)) : ∀ row ∈ rows, EndsBefore row n := by
  intro row hrow r hr
  obtain ⟨id, hid⟩ := List.mem_iff_getElem?.mp hrow
  have hget : (onRows ids (fun id => prependRng (prefill id)) (rows.map (shiftBy num)))[id]? =
      some (if id ∈ ids then prependRng (prefill id) (shiftBy num row) else shiftBy num row) := by
    rw [getElem?_onRows, List.getElem?_map, hid, Option.map_some, Option.map_some]
  have hshift : (r.1 + num, r.2 + num) ∈ shiftBy num row := mem_shiftBy.mpr ⟨r, hr, rfl⟩
  have hlast := hends _ (List.mem_of_getElem? hget)
  split at hlast
  · obtain ⟨q, hq, heq⟩ := exists_mem_prependRng (r := prefill id) hshift
    have hlt := hlast q hq
    rw [heq] at hlt
    simp only at hlt
    omega
  · have hlt := hlast _ hshift
    simp only at hlt
    omega

omit [Field L] in
theorem firstDecodeIters_length_le (h : m.WellFormed rows out) :
    (firstDecodeIters m rows stopIter).length ≤ m.isPrefillSteps.length - (stopIter + 1) := by
  have hsub : (firstDecodeIters m rows stopIter).Subperm
      (List.range (m.isPrefillSteps.length - (stopIter + 1))) :=
    List.subperm_of_subset ((unique_pairwise _).imp fun h => h.ne) fun i hi =>
      List.mem_range.mpr (firstDecodeIters_lt h i hi)
  simpa using hsub.length_le

/-- What a restart returns: the latencies of its prefill steps and those of the iterations that are
left: all that stay, and those before them that the loop has not found. -/
theorem updateMetadata_costs (h : m.WellFormed rows out) (hinp : inp.length = out.length)
    (hcumsum : m.cumsumLatencys = cumsumLatency latencys)
    (hupdate : updateMetadata cost maxNumBatchedTokens inp m stopIter = some (m', valid)) :
    ∃ prefill left, newPrefillLatencys cost maxNumBatchedTokens inp m rows stopIter =
        some prefill ∧
      m'.cumsumLatencys = cumsumLatency prefill ++ left.map (fun t => prefill.sum +
        ((List.range (t + 1)).map fun u => latencys.getD (stopIter + 1 + u) 0).sum) ∧
      left.Pairwise (· < ·) ∧ keptIters m rows stopIter ⊆ left ∧
      (∀ k ∈ keptIters m rows stopIter, ∀ t < k, t ∉ removedIters (stillAttended m rows stopIter)
        (firstDecodeIters m rows stopIter) 0 → t ∈ left) ∧
      left.length + (removedIters (stillAttended m rows stopIter)
        (firstDecodeIters m rows stopIter) 0).length = m.isPrefillSteps.length - (stopIter + 1) ∧
      getFinishTimesFromRngInfos m' = (List.range valid.length).map fun k =>
        m'.cumsumLatencys.getD ((m'.rngs.row k).getLastD (0, 0)).2 0 := by
  rw [updateMetadata_eq cost maxNumBatchedTokens inp h, Option.bind_eq_some_iff] at hupdate
  obtain ⟨p, hprompts, hfinish⟩ := hupdate
  have hids : ((runningIds m rows stopIter).map fun id =>
      (inp.getD id 0 + (getInfoAtStopTime m.rngs stopIter).getD id 0, id)).map Prod.snd =
      runningIds m rows stopIter := by
    rw [List.map_map]
    exact List.map_id _
  have hp := prefilled_of_updatePrefillLogs (recorded_replicate inp.length)
    (by rw [hids]; exact runningIds_nodup)
    (by
      rw [hids]
      intro id hid
      rw [List.length_replicate, hinp, ← h.rows_length]
      exact (mem_runningIds hid).1) hprompts
  rw [hids] at hp
  obtain ⟨prefill, hprefill, hnone, -⟩ := exists_prefill hp
  -- the loop over the iterations that may be removed; `label` gives those that are left
  have hsorted : (firstDecodeIters m rows stopIter).Pairwise (· < ·) := unique_pairwise _
  have hroom : (firstDecodeIters m rows stopIter).length ≤
      m.isPrefillSteps.length - (stopIter + 1) := firstDecodeIters_length_le h
  obtain ⟨bound, label, rows', hloop, hle⟩ := (removing_prependPrefill
    h hcumsum p).loop hsorted (fun i _ => Nat.zero_le i) (by simpa using hroom)
  have hrows'_length : rows'.length = inp.length := by
    rw [hloop.rows_length, droppedRows, onRows_length, aliveRows_length, h.rows_length, hinp]
  have hpre : (cumsumLatency (cost.prefillLatencys p.prefillLogs p.validPrefillLogs)).length =
      p.prefillLogs.length := by
    rw [cumsumLatency_length, cost.prefillLatencys_length]
  rw [hpre] at hloop
  set m₂ := (firstDecodeIters m rows stopIter).foldl (removeIfUnattended p.prefillLogs.length)
    (prependPrefill cost m (stopIter + 1) p (RngArrays.ofRows (droppedRows m rows stopIter)))
  -- the prefill ranges are put in front of the rows that the loop leaves
  have hadd : addPrefillRngs inp.length (runningIds m rows stopIter) p.inferProgress
      { m₂.rngs with
        rngStarts := m₂.rngs.rngStarts.map (· + p.prefillLogs.length)
        rngEnds := m₂.rngs.rngEnds.map (· + p.prefillLogs.length) } =
      RngArrays.ofRows (onRows (runningIds m rows stopIter) (fun id => prependRng (prefill id))
        (rows'.map (shiftBy p.prefillLogs.length))) := by
    rw [hloop.rngs_eq, ← ofRows_shiftBy,
      ← addPrefillRngs_ofRows (fun id hid => (hprefill id hid).1) hnone, List.length_map,
      hrows'_length]
  simp only [hadd] at hfinish
  obtain ⟨hcum, hends, hrngs, hvalid⟩ := finishUpdate_eq_some rfl hfinish
  have hflags := hloop.flags_length
  rw [hpre] at hflags
  simp only [hflags] at hends
  have hends' := ends_after_prefill hends
  set removed := removedIters (attendedBy (RngArrays.ofRows (droppedRows m rows stopIter)))
    (firstDecodeIters m rows stopIter) 0 with hremoved
  -- an iteration that stays is attended, so it is never removed and keeps an index
  have hkept : ∀ k ∈ keptIters m rows stopIter, ∃ i, label i = k ∧
      i < m.isPrefillSteps.length - (stopIter + 1) - removed.length := by
    intro k hk
    obtain ⟨-, hat⟩ := List.mem_filter.mp hk
    have hat := (attendedBy_ofRows _ k).mp hat
    obtain ⟨i, rfl⟩ := hloop.onto k fun hgone => hloop.unattended k hgone hat
    obtain ⟨row, hrow, r, hr, -, hir⟩ := (hloop.attends i).mpr hat
    exact ⟨i, rfl, hir.trans_lt (hends' row hrow r hr)⟩
  refine ⟨_, (List.range (m.isPrefillSteps.length - (stopIter + 1) - removed.length)).map label,
    by rw [newPrefillLatencys, hprompts]; rfl, ?_, ?_, ?_, ?_, ?_, ?_⟩
  · rw [hcum, List.map_map]
    exact hloop.cumsum
  · rw [List.pairwise_map]
    exact List.pairwise_lt_range.imp fun hlt => hloop.strictMono hlt
  · intro k hk
    obtain ⟨i, rfl, hi⟩ := hkept k hk
    exact List.mem_map_of_mem (List.mem_range.mpr hi)
  · intro k hk t htk ht
    obtain ⟨i, rfl, hi⟩ := hkept k hk
    obtain ⟨j, rfl⟩ := hloop.onto t ht
    have hji := hloop.strictMono.lt_iff_lt.mp htk
    exact List.mem_map_of_mem (List.mem_range.mpr (hji.trans hi))
  · rw [List.length_map, List.length_range]
    exact Nat.sub_add_cancel hle
  · have hne : ∀ row ∈ (onRows (runningIds m rows stopIter) (fun id => prependRng (prefill id))
        (rows'.map (shiftBy p.prefillLogs.length))).filter (fun row => row.length ≠ 0),
        row ≠ [] := fun row hrow hnil => by
      have hlength := (List.mem_filter.mp hrow).2
      rw [hnil] at hlength
      simp at hlength
    rw [hvalid]
    exact getFinishTimesFromRngInfos_ofRows hrngs hne

omit [Field L] in
/-- The loop removes all lost iterations before one that stays exactly when `AllFound` says so. -/
theorem forall_mem_removed_iff : (∀ t ∈ lostBetween m rows stopIter,
      t ∈ removedIters (stillAttended m rows stopIter) (firstDecodeIters m rows stopIter) 0) ↔
    AllFound m rows stopIter := by
  refine forall_mem_removedIters_iff (unique_pairwise _)
    ((List.pairwise_lt_range.filter _).filter _) (fun t _ => Nat.zero_le t) (fun t ht => ?_)
    fun i _ u _ hu ⟨t, ht, hut⟩ => ?_
  · simpa using (List.mem_filter.mp (List.mem_of_mem_filter ht)).2
  · obtain ⟨hlost, hafter⟩ := List.mem_filter.mp ht
    obtain ⟨k, hk, htk⟩ := List.any_eq_true.mp hafter
    have hrange := List.mem_range.mp (List.mem_of_mem_filter hlost)
    refine List.mem_filter.mpr ⟨List.mem_filter.mpr ⟨List.mem_range.mpr (hut.trans hrange),
      by simp [hu]⟩, List.any_eq_true.mpr ⟨k, hk, ?_⟩⟩
    exact decide_eq_true (hut.trans (of_decide_eq_true htk))

omit [Field L] in
/-- A lost iteration is on the list of the loop, which asks of each one there whether it is
attended. -/
theorem mem_firstDecodeIters_of_lost (h : m.WellFormed rows out) {t : Nat}
    (ht : t ∈ lostIters m rows stopIter) : t ∈ firstDecodeIters m rows stopIter := by
  obtain ⟨hrange, hun⟩ := List.mem_filter.mp ht
  rw [Bool.not_eq_true'] at hun
  by_contra hnot
  have hat := (attendedBy_ofRows _ t).mpr (dropped_attended h t (List.mem_range.mp hrange) hnot)
  exact absurd (hun.symm.trans hat) Bool.false_ne_true

omit [Field L] in
theorem mem_lostBetween_of_le {t k : Nat} (ht : t ∈ lostIters m rows stopIter)
    (hk : k ∈ keptIters m rows stopIter) (htk : t ≤ k) : t ∈ lostBetween m rows stopIter := by
  have hne : t ≠ k := by
    rintro rfl
    have hun := (List.mem_filter.mp ht).2
    rw [(List.mem_filter.mp hk).2] at hun
    exact Bool.false_ne_true hun
  exact List.mem_filter.mpr ⟨ht, List.any_eq_true.mpr ⟨k, hk, decide_eq_true (by omega)⟩⟩

omit [Field L] in
/-- No request takes part in an iteration after the last one that stays. -/
theorem not_stillAttended_of_late (h : m.WellFormed rows out) {t : Nat}
    (ht : (keptIters m rows stopIter).all (· < t) = true) :
    stillAttended m rows stopIter t = false := by
  by_contra hat
  rw [Bool.not_eq_false] at hat
  obtain ⟨row, hrow, r, hr, -, htr⟩ := (attendedBy_ofRows _ t).mp hat
  have hlt := htr.trans_lt (dropped_ends h row hrow r hr)
  have hkept : t ∈ keptIters m rows stopIter := List.mem_filter.mpr ⟨List.mem_range.mpr hlt, hat⟩
  exact absurd (of_decide_eq_true (List.all_eq_true.mp ht t hkept)) (Nat.lt_irrefl t)

omit [Field L] in
/-- When the loop has found these it has removed all that are lost: of those after the last one that
stays, each is on its list, and each index from there on removes something. -/
theorem lostIters_length_le (h : m.WellFormed rows out)
    (hfound : ∀ t ∈ lostBetween m rows stopIter,
      t ∈ removedIters (stillAttended m rows stopIter) (firstDecodeIters m rows stopIter) 0) :
    (lostIters m rows stopIter).length ≤ (removedIters (stillAttended m rows stopIter)
      (firstDecodeIters m rows stopIter) 0).length := by
  set removed := removedIters (stillAttended m rows stopIter) (firstDecodeIters m rows stopIter) 0
  set late : Nat → Bool := fun t => (keptIters m rows stopIter).all (· < t) with hlate_def
  have hmono : ∀ t u, t ≤ u → late t = true → late u = true := fun t u htu ht => by
    simp only [hlate_def, List.all_eq_true, decide_eq_true_eq] at ht ⊢
    exact fun k hk => (ht k hk).trans_le htu
  have hnodup : (lostIters m rows stopIter).Nodup := List.nodup_range.filter _
  -- those that are lost are counted on both sides of the last iteration that stays
  have hbefore : ((lostIters m rows stopIter).filter fun t => !late t).length ≤
      (removed.filter fun t => !late t).length :=
    (List.subperm_of_subset (hnodup.filter _) fun t ht => by
      obtain ⟨hmem, hearly⟩ := List.mem_filter.mp ht
      obtain ⟨k, hk, hkt⟩ := List.all_eq_false.mp (Bool.not_eq_true' _ ▸ hearly)
      have hle : t ≤ k := by simpa using hkt
      exact List.mem_filter.mpr ⟨hfound t (mem_lostBetween_of_le hmem hk hle), hearly⟩).length_le
  have hafter : ((lostIters m rows stopIter).filter late).length ≤ (removed.filter late).length :=
    ((List.subperm_of_subset (hnodup.filter _) fun t ht => by
      obtain ⟨hmem, hl⟩ := List.mem_filter.mp ht
      exact List.mem_filter.mpr ⟨mem_firstDecodeIters_of_lost h hmem, hl⟩).length_le).trans
      (length_filter_le_removedIters hmono fun t => not_stillAttended_of_late h)
  have hsplit := (List.filter_append_perm late (lostIters m rows stopIter)).length_eq
  have hsplit' := (List.filter_append_perm late removed).length_eq
  rw [List.length_append] at hsplit hsplit'
  omega

/-- The law compares the cumulated values at the iterations that are left with those at the
iterations that stay. -/
theorem costLaw_iff_map {prefill : List L} {left : List Nat}
    (hprefill : newPrefillLatencys cost maxNumBatchedTokens inp m rows stopIter = some prefill)
    (hcum : m'.cumsumLatencys = cumsumLatency prefill ++ left.map fun t => prefill.sum +
      ((List.range (t + 1)).map fun u => latencys.getD (stopIter + 1 + u) 0).sum)
    (hfinish : getFinishTimesFromRngInfos m' = (List.range valid.length).map fun k =>
      m'.cumsumLatencys.getD ((m'.rngs.row k).getLastD (0, 0)).2 0) :
    CostLaw cost maxNumBatchedTokens inp m rows stopIter latencys m' valid ↔
      left.map (fun t => prefill.sum +
          ((List.range (t + 1)).map fun u => latencys.getD (stopIter + 1 + u) 0).sum) =
        (keptIters m rows stopIter).map fun k => prefill.sum +
          (((keptIters m rows stopIter).filter (· ≤ k)).map fun u =>
            latencys.getD (stopIter + 1 + u) 0).sum := by
  have hkept : (keptIters m rows stopIter).Pairwise (· < ·) := List.pairwise_lt_range.filter _
  have hright : cumsumLatency (prefill ++ (keptIters m rows stopIter).map fun u =>
        latencys.getD (stopIter + 1 + u) 0) =
      cumsumLatency prefill ++ (keptIters m rows stopIter).map fun k => prefill.sum +
        (((keptIters m rows stopIter).filter (· ≤ k)).map fun u =>
          latencys.getD (stopIter + 1 + u) 0).sum := by
    rw [cumsumLatency_append, cumsumLatency_map hkept, List.map_map]
    rfl
  constructor
  · rintro ⟨⟨prefill', hprefill', hcum'⟩, -⟩
    obtain rfl := Option.some.inj (hprefill.symm.trans hprefill')
    rw [hcum, hright] at hcum'
    exact List.append_cancel_left hcum'
  · intro heq
    exact ⟨⟨prefill, hprefill, by rw [hcum, heq]; exact hright.symm⟩, hfinish⟩

variable [LinearOrder L] [IsStrictOrderedRing L]

/-- All latencies up to an iteration that stays add up to those of the iterations that stay exactly
when the others are zero. -/
theorem sum_range_eq_iff {p : Nat → Bool} {f : Nat → L} (hf : ∀ t, 0 ≤ f t) {k num : Nat}
    (hk : k < num) : ((List.range (k + 1)).map f).sum =
      ((((List.range num).filter p).filter (· ≤ k)).map f).sum ↔
      ∀ t ≤ k, p t = false → f t = 0 := by
  have hfilter : ((List.range num).filter p).filter (· ≤ k) = (List.range (k + 1)).filter p := by
    have hrange : (List.range num).filter (· ≤ k) = List.range (k + 1) := by
      obtain ⟨r, rfl⟩ := Nat.exists_eq_add_of_le (Nat.succ_le_of_lt hk)
      rw [List.range_add, List.filter_append, List.filter_eq_self.mpr, List.filter_eq_nil_iff.mpr,
        List.append_nil]
      · intro t ht
        obtain ⟨j, -, rfl⟩ := List.mem_map.mp ht
        simp
        omega
      · exact fun t ht => decide_eq_true (Nat.le_of_lt_succ (List.mem_range.mp ht))
    rw [List.filter_filter, ← hrange, List.filter_filter]
    exact List.filter_congr fun t _ => Bool.and_comm _ _
  rw [hfilter, ← sum_map_filter_add p, add_eq_left]
  constructor
  · intro hzero t ht hlost
    have hmem : f t ∈ ((List.range (k + 1)).filter fun t => !p t).map f :=
      List.mem_map_of_mem (List.mem_filter.mpr ⟨List.mem_range.mpr (by omega), by simp [hlost]⟩)
    have hnonneg : ∀ x ∈ ((List.range (k + 1)).filter fun t => !p t).map f, 0 ≤ x := fun x hx => by
      obtain ⟨u, -, rfl⟩ := List.mem_map.mp hx
      exact hf u
    exact le_antisymm (hzero ▸ List.single_le_sum hnonneg (f t) hmem) (hf t)
  · intro hall
    refine List.sum_eq_zero fun x hx => ?_
    obtain ⟨t, ht, rfl⟩ := List.mem_map.mp hx
    obtain ⟨hrange, hlost⟩ := List.mem_filter.mp ht
    exact hall t (Nat.le_of_lt_succ (List.mem_range.mp hrange)) (by simpa using hlost)

/-- The lost iterations take no time exactly when, up to each iteration that stays, all iterations
take as long as those that stay. -/
theorem lostAreFree_iff_sum_eq (hlatencys : ∀ l ∈ latencys, 0 ≤ l) :
    LostAreFree m rows stopIter latencys ↔ ∀ k ∈ keptIters m rows stopIter,
      ((List.range (k + 1)).map fun u => latencys.getD (stopIter + 1 + u) 0).sum =
        (((keptIters m rows stopIter).filter (· ≤ k)).map fun u =>
          latencys.getD (stopIter + 1 + u) 0).sum := by
  have hnonneg : ∀ t, 0 ≤ latencys.getD (stopIter + 1 + t) 0 := fun t => by
    rw [List.getD_eq_getElem?_getD]
    cases hget : latencys[stopIter + 1 + t]? with
    | none => exact le_refl 0
    | some l => exact hlatencys l (List.mem_of_getElem? hget)
  have hvalue : ∀ k ∈ keptIters m rows stopIter,
      (((List.range (k + 1)).map fun u => latencys.getD (stopIter + 1 + u) 0).sum =
        (((keptIters m rows stopIter).filter (· ≤ k)).map fun u =>
          latencys.getD (stopIter + 1 + u) 0).sum ↔
      ∀ t ≤ k, stillAttended m rows stopIter t = false →
        latencys.getD (stopIter + 1 + t) 0 = 0) := fun k hk =>
    sum_range_eq_iff hnonneg (List.mem_range.mp (List.mem_filter.mp hk).1)
  constructor
  · intro hfree k hk
    refine (hvalue k hk).mpr fun t htk hlost => ?_
    obtain ⟨hrange, hat⟩ := List.mem_filter.mp hk
    have hne : t ≠ k := by
      rintro rfl
      rw [hlost] at hat
      cases hat
    refine hfree t (List.mem_filter.mpr ⟨?_, by simp [hlost]⟩) ⟨k, hk, by omega⟩
    exact List.mem_range.mpr (htk.trans_lt (List.mem_range.mp hrange))
  · rintro hall t ht ⟨k, hk, htk⟩
    exact (hvalue k hk).mp (hall k hk) t htk.le (by simpa using (List.mem_filter.mp ht).2)

/-- The cumulated latencies of a restart follow the law exactly when the loop finds all the lost
iterations and those with an iteration after them that stays take no time. -/
theorem updateMetadata_costLaw_iff (h : m.WellFormed rows out) (hinp : inp.length = out.length)
    (hlatencys : ∀ l ∈ latencys, 0 ≤ l) (hcumsum : m.cumsumLatencys = cumsumLatency latencys)
    (hupdate : updateMetadata cost maxNumBatchedTokens inp m stopIter = some (m', valid)) :
    CostLaw cost maxNumBatchedTokens inp m rows stopIter latencys m' valid ↔
      LostAreFree m rows stopIter latencys ∧ AllFound m rows stopIter := by
  obtain ⟨prefill, left, hprefill, hcum, hleft, hsub, hunfound, hcount, hfinish⟩ :=
    updateMetadata_costs h hinp hcumsum hupdate
  have hkept : (keptIters m rows stopIter).Pairwise (· < ·) := List.pairwise_lt_range.filter _
  have hsplit : (keptIters m rows stopIter).length + (lostIters m rows stopIter).length =
      m.isPrefillSteps.length - (stopIter + 1) := by
    have hlength := length_eq_filter_add (stillAttended m rows stopIter)
      (List.range (m.isPrefillSteps.length - (stopIter + 1)))
    rw [sum_toNat_eq_countP, List.length_range] at hlength
    exact hlength.symm
  -- the values agree when the lost iterations are free, the lengths when the loop finds them all
  rw [costLaw_iff_map hprefill hcum hfinish, map_eq_map_iff_of_subset hkept hleft hsub, and_comm]
  refine and_congr ?_ ?_
  · rw [lostAreFree_iff_sum_eq hlatencys]
    exact forall₂_congr fun k _ => add_right_inj _
  · rw [← forall_mem_removed_iff]
    constructor
    · intro hlength t ht
      by_contra hnot
      obtain ⟨hlost, hafter⟩ := List.mem_filter.mp ht
      obtain ⟨k, hk, htk⟩ := List.any_eq_true.mp hafter
      have hperm : (keptIters m rows stopIter).Perm left :=
        (List.subperm_of_subset (hkept.imp fun hlt => hlt.ne) hsub).perm_of_length_le hlength.le
      have hstays := hperm.symm.subset (hunfound k hk t (of_decide_eq_true htk) hnot)
      have hat := (List.mem_filter.mp hstays).2
      have hun := (List.mem_filter.mp hlost).2
      rw [hat] at hun
      exact Bool.false_ne_true hun
    · intro hfound
      have hle := lostIters_length_le h hfound
      have hge := (List.subperm_of_subset (hkept.imp fun hlt => hlt.ne) hsub).length_le
      omega

end

/-! ## A single request -/

/-- Every iteration takes one unit of time. -/
def unitLatencys : CostTable ℚ where
  prefillLatencys logs _ := logs.map fun _ => 1
  decodeLatencys logs := logs.map fun _ => 1
  throughput _ _ _ flags _ := flags.map fun _ => 0
  prefillLatencys_length _ _ := List.length_map _
  decodeLatencys_length _ := List.length_map _
  throughput_length _ _ _ _ _ _ := List.length_map _

/-- The schedule of one request with 5 tokens. -/
def singleSchedule : Metadata ℚ :=
  ⟨[1, 2, 3, 4, 5], ⟨[0, 1], [0], [4]⟩, [true, false, false, false, false], [0, 0, 0, 0, 0]⟩

/-- The schedule of requests with 2, 5 and 1 tokens, the third of which waits for the first one. The
step at which the second one goes on takes no time. -/
def threeSchedule : Metadata ℚ :=
  ⟨[1, 2, 3, 3, 4, 5], ⟨[0, 1, 3, 4], [0, 0, 3, 2], [1, 1, 5, 2]⟩,
    [true, false, true, false, false, false], [0, 0, 0, 0, 0, 0]⟩

theorem singleSchedule_wellFormed : singleSchedule.WellFormed [[(0, 4)]] [5] where
  rngs_eq := by decide
  rows_length := rfl
  latencys_length := rfl
  throughput_length := rfl
  increasing row hrow := by
    obtain rfl := List.mem_singleton.mp hrow
    exact ⟨by decide, by decide⟩
  ends := by
    unfold EndsBefore
    decide
  tokens := by decide
  attended := by decide

theorem threeSchedule_wellFormed :
    threeSchedule.WellFormed [[(0, 1)], [(0, 1), (3, 5)], [(2, 2)]] [2, 5, 1] where
  rngs_eq := by decide
  rows_length := rfl
  latencys_length := rfl
  throughput_length := rfl
  increasing row hrow := by
    simp only [List.mem_cons, List.not_mem_nil, or_false] at hrow
    rcases hrow with rfl | rfl | rfl <;> exact ⟨by decide, by decide⟩
  ends := by
    unfold EndsBefore
    decide
  tokens := by decide
  attended := by decide

/-- Stopped after iteration 1, the request is prefilled again, the decode step 2 goes, and its time
stays: the two steps that are left end at 3 and 4 instead of 2 and 3. -/
theorem not_costLaw_singleSchedule :
    singleSchedule.WellFormed [[(0, 4)]] [5] ∧
      singleSchedule.cumsumLatencys = cumsumLatency [1, 1, 1, 1, 1] ∧
      ∃ m', updateMetadata unitLatencys 100 [1] singleSchedule 1 = some (m', [0]) ∧
        m'.cumsumLatencys = [1, 3, 4] ∧
        ¬ CostLaw unitLatencys 100 [1] singleSchedule [[(0, 4)]] 1 [1, 1, 1, 1, 1] m' [0] := by
  have hupdate : updateMetadata unitLatencys 100 [1] singleSchedule 1 =
      some (⟨[1, 3, 4], ⟨[0, 1], [0], [2]⟩, [true, false, false], [0, 0, 0]⟩, [0]) := by
    decide +kernel
  refine ⟨singleSchedule_wellFormed, by decide +kernel, _, hupdate, rfl, fun hlaw => ?_⟩
  obtain ⟨prefill, hprefill, hcum⟩ := hlaw.cumsum
  have hone : newPrefillLatencys unitLatencys 100 [1] singleSchedule [[(0, 4)]] 1 = some [1] := by
    decide
  obtain rfl := Option.some.inj (hone.symm.trans hprefill)
  have hsums : cumsumLatency ([1] ++ (keptIters singleSchedule [[(0, 4)]] 1).map fun t =>
      ([1, 1, 1, 1, 1] : List ℚ).getD (1 + 1 + t) 0) = [1, 2, 3] := by
    decide +kernel
  rw [hsums] at hcum
  exact absurd hcum (by decide)

/-- Stopped after iteration 1, the second request is prefilled again. The step at which it would have
gone on is removed from between two that stay. -/
theorem costLaw_threeSchedule :
    CostLaw unitLatencys 100 [1, 1, 1] threeSchedule [[(0, 1)], [(0, 1), (3, 5)], [(2, 2)]] 1
      [1, 1, 1, 0, 1, 1]
      ⟨[1, 2, 3, 4], ⟨[0, 2, 3], [0, 2, 1], [0, 3, 1]⟩, [true, true, false, false],
        [0, 0, 0, 0]⟩ [1, 2] ∧
      lostIters threeSchedule [[(0, 1)], [(0, 1), (3, 5)], [(2, 2)]] 1 = [1] := by
  have hlost : lostIters threeSchedule [[(0, 1)], [(0, 1), (3, 5)], [(2, 2)]] 1 = [1] := by
    decide
  refine ⟨(updateMetadata_costLaw_iff threeSchedule_wellFormed ?_ ?_ ?_ ?_).mpr ⟨?_, ?_⟩, hlost⟩
  · rfl
  · decide
  · decide +kernel
  · decide +kernel
  · intro t ht _
    rw [hlost, List.mem_singleton] at ht
    rw [ht]
    rfl
  · decide

end Mil.Fcfs
