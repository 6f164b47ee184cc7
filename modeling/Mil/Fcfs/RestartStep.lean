import Mil.Fcfs.Conservation
import Mil.Fcfs.RestartRows

/-!
# One restart

The metadata of a schedule, `WellFormed` for the output lengths of its requests, is restarted into
well-formed metadata for the tokens that are left, provided that the iterations that disappear are
handled with indices that are still right: `first_decode_iter_is` is computed before the first of
them is removed and used after it, so only the last one may disappear.
-/

set_option autoImplicit false

namespace Mil.Fcfs

open Mil.Lib

variable {L : Type}

/-- The metadata of requests with the ranges `rows`, which have `out` tokens to generate. -/
structure Metadata.WellFormed (m : Metadata L) (rows : List (List Rng)) (out : List Nat) :
    Prop where
  rngs_eq : m.rngs = RngArrays.ofRows rows
  rows_length : rows.length = out.length
  latencys_length : m.cumsumLatencys.length = m.isPrefillSteps.length
  throughput_length : m.throughput.length = m.isPrefillSteps.length
  increasing : ∀ row ∈ rows, Increasing 0 row
  ends : ∀ row ∈ rows, EndsBefore row m.isPrefillSteps.length
  tokens : rows.map iterNum = out
  attended : ∀ t < m.isPrefillSteps.length, ∃ row ∈ rows, Attends row t

/-- `t` is the first iteration after the stop that the request `id` takes part in, and a decode
step: the request is running at the stop. -/
structure FirstDecode (m : Metadata L) (stopIter id t : Nat) : Prop where
  after : stopIter < t
  decode : m.isPrefillSteps.getD t false = false
  attends : Attends (m.rngs.row id) t
  first : ∀ u, stopIter < u → u < t → ¬ Attends (m.rngs.row id) u

/-- When two requests running at the stop go on at different iterations, the earlier one of these
has a request that takes part in one between it and the stop too. -/
def EarlierKept (m : Metadata L) (num stopIter : Nat) : Prop :=
  ∀ id < num, ∀ t, FirstDecode m stopIter id t → ∀ id' < num, ∀ t', FirstDecode m stopIter id' t' →
    t < t' → ∃ k < num, Attends (m.rngs.row k) t ∧
      ∃ u, stopIter < u ∧ u < t ∧ Attends (m.rngs.row k) u

/-! ## Lengths -/

@[simp] theorem removeAt_length {β : Type} (i : Nat) (l : List β) :
    (removeAt i l).length = l.length - 1 := by
  simp only [removeAt, List.length_take, List.length_append, List.length_drop]
  omega

section

variable [Zero L] [Add L] [Sub L] [Mul L] [Div L]

omit [Sub L] [Mul L] [Div L] in
@[simp] theorem cumsumLatency_length (l : List L) : (cumsumLatency l).length = l.length := by
  simp [cumsumLatency]

theorem prependPrefill_flags_length (cost : CostTable L) (m : Metadata L) (start : Nat)
    (p : Progress) (rngs : RngArrays) : (prependPrefill cost m start p rngs).isPrefillSteps.length =
      p.prefillLogs.length + (m.isPrefillSteps.length - start) := by
  simp [prependPrefill]

theorem prependPrefill_latencys_length (cost : CostTable L) {m : Metadata L} (start : Nat)
    (p : Progress) (rngs : RngArrays) (h : m.cumsumLatencys.length = m.isPrefillSteps.length) :
    (prependPrefill cost m start p rngs).cumsumLatencys.length =
      (prependPrefill cost m start p rngs).isPrefillSteps.length := by
  simp [prependPrefill, cost.prefillLatencys_length, h]

theorem prependPrefill_throughput_length (cost : CostTable L) {m : Metadata L} {start : Nat}
    (hstart : 0 < start) (p : Progress) (rngs : RngArrays)
    (h : m.cumsumLatencys.length = m.isPrefillSteps.length)
    (h' : m.throughput.length = m.isPrefillSteps.length) :
    (prependPrefill cost m start p rngs).throughput.length =
      (prependPrefill cost m start p rngs).isPrefillSteps.length := by
  have hprefill : ∀ flags : List Bool, (cost.throughput p.prefillLogs p.validPrefillLogs []
      ((List.replicate p.prefillLogs.length true ++ flags).take p.prefillLogs.length)
      (cumsumLatency (cost.prefillLatencys p.prefillLogs p.validPrefillLogs))).length =
      p.prefillLogs.length := by
    intro flags
    rw [cost.throughput_length] <;> simp [cost.prefillLatencys_length]
  simp only [prependPrefill, List.length_append, hprefill, List.length_replicate,
    List.length_drop]
  split <;>
    simp only [List.length_zipWith, List.length_map, List.length_tail, List.length_drop, h, h'] <;>
    omega

end

/-! ## The loop over the first decode steps -/

/-- What the removal of the iteration `i` makes of the metadata. -/
theorem removeIfUnattended_ofRows (prefillNum i : Nat) {m : Metadata L} {rows : List (List Rng)}
    (hrngs : m.rngs = RngArrays.ofRows rows) :
    (∃ row ∈ rows, Attends row i) ∧ removeIfUnattended prefillNum m i = m ∨
    (∀ row ∈ rows, ¬ Attends row i) ∧ removeIfUnattended prefillNum m i =
      { cumsumLatencys := removeAt (i + prefillNum) m.cumsumLatencys
        rngs := RngArrays.ofRows (rows.map (closeGap i))
        isPrefillSteps := removeAt (i + prefillNum) m.isPrefillSteps
        throughput := removeAt (i + prefillNum) m.throughput } := by
  have hiff := attendedBy_ofRows rows i
  rw [← hrngs] at hiff
  by_cases h : ∃ row ∈ rows, Attends row i
  · exact .inl ⟨h, by rw [removeIfUnattended, if_pos (hiff.mpr h)]⟩
  · refine .inr ⟨fun row hrow hat => h ⟨row, hrow, hat⟩, ?_⟩
    rw [removeIfUnattended, if_neg (fun hat => h (hiff.mp hat)), ofRows_closeGap, hrngs]

/-- Only the last of the iterations is removed, if all the others have a request. -/
theorem foldl_removeIfUnattended (prefillNum : Nat) {m : Metadata L} {rows : List (List Rng)}
    (hrngs : m.rngs = RngArrays.ofRows rows) {iters : List Nat} (hsorted : iters.Pairwise (· < ·))
    (hkept : ∀ i ∈ iters, ∀ j ∈ iters, i < j → ∃ row ∈ rows, Attends row i) :
    (∀ i ∈ iters, ∃ row ∈ rows, Attends row i) ∧
      iters.foldl (removeIfUnattended prefillNum) m = m ∨
    ∃ i ∈ iters, (∀ row ∈ rows, ¬ Attends row i) ∧
      (∀ j ∈ iters, j ≠ i → ∃ row ∈ rows, Attends row j) ∧
      iters.foldl (removeIfUnattended prefillNum) m = removeIfUnattended prefillNum m i := by
  induction iters with
  | nil => exact .inl ⟨fun i hi => absurd hi List.not_mem_nil, rfl⟩
  | cons i iters ih =>
    obtain ⟨hlt, hsorted'⟩ := List.pairwise_cons.mp hsorted
    rw [List.foldl_cons]
    rcases removeIfUnattended_ofRows prefillNum i hrngs with
      ⟨hat, hsame⟩ | ⟨hnot, -⟩
    · rw [hsame]
      rcases ih hsorted' (fun j hj k hk => hkept j (.tail _ hj) k (.tail _ hk)) with
        ⟨hall, hfold⟩ | ⟨j, hj, hnot, hothers, hfold⟩
      · refine .inl ⟨fun j hj => ?_, hfold⟩
        rcases List.mem_cons.mp hj with rfl | hj
        · exact hat
        · exact hall j hj
      · refine .inr ⟨j, .tail _ hj, hnot, fun k hk hne => ?_, hfold⟩
        rcases List.mem_cons.mp hk with rfl | hk
        · exact hat
        · exact hothers k hk hne
    · -- The iteration is the last one: one after it would need a request here.
      have hlast : iters = [] := by
        refine List.eq_nil_iff_forall_not_mem.mpr fun j hj => ?_
        obtain ⟨row, hrow, hat⟩ := hkept i (.head _) j (.tail _ hj) (hlt j hj)
        exact hnot row hrow hat
      subst hlast
      refine .inr ⟨i, .head _, hnot, fun j hj hne => ?_, rfl⟩
      exact absurd (List.mem_singleton.mp hj) hne

/-! ## Prefill of the running requests -/

/-- Each request that is prefilled takes part in one prefill iteration, and no other request in
any. -/
theorem exists_prefill {num : Nat} {p : Progress} {ids : List Nat}
    (h : Prefilled ⟨[], [], List.replicate num [], 0⟩ p ids) :
    ∃ prefill : Nat → Rng,
      (∀ id ∈ ids, p.inferProgress.getD id [] = [prefill id] ∧
        (prefill id).1 = (prefill id).2 ∧ (prefill id).2 < p.prefillLogs.length) ∧
      (∀ id, id ∉ ids → p.inferProgress.getD id [] = []) ∧
      ∀ t < p.prefillLogs.length, ∃ id ∈ ids, (prefill id).1 = t := by
  have htot : p.totIterNum = p.prefillLogs.length := by simpa using h.logs_eq
  have htokens : ∀ id, p.tokens id = if id ∈ ids then 1 else 0 := by
    intro id
    have hzero : Progress.tokens ⟨[], [], List.replicate num [], 0⟩ id = 0 := by
      simp only [Progress.tokens, Progress.rngs, List.getD_eq_getElem?_getD,
        List.getElem?_replicate]
      split <;> rfl
    rw [h.tokens_eq, hzero, Nat.zero_add]
  have hnone : ∀ id, id ∉ ids → p.inferProgress.getD id [] = [] := fun id hid =>
    eq_nil_of_iterNum_eq_zero (h.recorded.increasing id) (by
      have := htokens id
      rwa [if_neg hid] at this)
  have hone : ∀ id ∈ ids, ∃ t, p.inferProgress.getD id [] = [(t, t)] := fun id hid =>
    eq_singleton_of_iterNum_eq_one (h.recorded.increasing id) (by
      have := htokens id
      rwa [if_pos hid] at this)
  choose! step hstep using hone
  refine ⟨fun id => (step id, step id), fun id hid => ⟨hstep id hid, rfl, ?_⟩, hnone,
    fun t ht => ?_⟩
  · rw [← htot]
    exact h.recorded.ends id (step id, step id)
      (by rw [Progress.rngs, hstep id hid]; exact .head _)
  · obtain ⟨id, -, hat⟩ := h.recorded.attended t (htot ▸ ht)
    by_cases hid : id ∈ ids
    · rw [Progress.rngs, hstep id hid] at hat
      refine ⟨id, hid, ?_⟩
      simp only [attends_cons, attends_nil, or_false] at hat
      simp only
      omega
    · rw [Progress.rngs, hnone id hid] at hat
      exact absurd hat (attends_nil t)

/-! ## The iterations after the stop -/

/-- The metadata during the update, when the iterations of `rows` come after the prefill steps. -/
structure Metadata.Partial (m : Metadata L) (rows : List (List Rng)) (prefillNum num : Nat) :
    Prop where
  rngs_eq : m.rngs = RngArrays.ofRows rows
  flags_length : m.isPrefillSteps.length = prefillNum + num
  latencys_length : m.cumsumLatencys.length = m.isPrefillSteps.length
  throughput_length : m.throughput.length = m.isPrefillSteps.length
  increasing : ∀ row ∈ rows, Increasing 0 row
  ends : ∀ row ∈ rows, EndsBefore row num

/-- After the loop every iteration has a request. -/
theorem Metadata.Partial.close {m : Metadata L} {rows : List (List Rng)} {prefillNum num : Nat}
    (h : m.Partial rows prefillNum num) {iters : List Nat} (hsorted : iters.Pairwise (· < ·))
    (hlt : ∀ i ∈ iters, i < num)
    (hkept : ∀ i ∈ iters, ∀ j ∈ iters, i < j → ∃ row ∈ rows, Attends row i)
    (hothers : ∀ t < num, t ∉ iters → ∃ row ∈ rows, Attends row t) :
    ∃ rows' num', (iters.foldl (removeIfUnattended prefillNum) m).Partial rows' prefillNum num' ∧
      rows'.map iterNum = rows.map iterNum ∧ ∀ t < num', ∃ row ∈ rows', Attends row t := by
  rcases foldl_removeIfUnattended prefillNum h.rngs_eq hsorted hkept with
    ⟨hall, hfold⟩ | ⟨i, hi, hnot, hrest, hfold⟩
  · refine ⟨rows, num, by rwa [hfold], rfl, fun t ht => ?_⟩
    by_cases hmem : t ∈ iters
    · exact hall t hmem
    · exact hothers t ht hmem
  · obtain ⟨num, rfl⟩ : ∃ n, num = n + 1 := ⟨num - 1, by have := hlt i hi; omega⟩
    rcases removeIfUnattended_ofRows prefillNum i h.rngs_eq with
      ⟨⟨row, hrow, hat⟩, -⟩ | ⟨-, hremove⟩
    · exact absurd hat (hnot row hrow)
    · refine ⟨rows.map (closeGap i), num, ?_, ?_, fun t ht => ?_⟩
      · rw [hfold, hremove]
        refine ⟨rfl, ?_, ?_, ?_, fun row' hrow' => ?_, fun row' hrow' => ?_⟩
        · rw [removeAt_length, h.flags_length]
          rfl
        · rw [removeAt_length, removeAt_length, h.latencys_length]
        · rw [removeAt_length, removeAt_length, h.throughput_length]
        · obtain ⟨row, hrow, rfl⟩ := List.mem_map.mp hrow'
          exact (h.increasing row hrow).closeGap (hnot row hrow)
        · obtain ⟨row, hrow, rfl⟩ := List.mem_map.mp hrow'
          exact (h.ends row hrow).closeGap (Nat.lt_succ_iff.mp (hlt i hi)) (h.increasing row hrow)
            (hnot row hrow)
      · rw [List.map_map]
        exact List.map_congr_left fun row hrow =>
          iterNum_closeGap (h.increasing row hrow) (hnot row hrow)
      · have hold : ∃ row ∈ rows, Attends row (if t < i then t else t + 1) := by
          by_cases hmem : (if t < i then t else t + 1) ∈ iters
          · exact hrest _ hmem (by split <;> omega)
          · exact hothers _ (by split <;> omega) hmem
        obtain ⟨row, hrow, hat⟩ := hold
        exact ⟨closeGap i row, List.mem_map_of_mem hrow,
          (attends_closeGap (h.increasing row hrow) (hnot row hrow) t).mpr hat⟩

theorem getD_onRows {rows : List (List Rng)} (ids : List Nat) (f : Nat → List Rng → List Rng)
    {id : Nat} (h : id < rows.length) : (onRows ids f rows).getD id [] =
      if id ∈ ids then f id (rows.getD id []) else rows.getD id [] := by
  simp only [List.getD_eq_getElem?_getD, getElem?_onRows, List.getElem?_eq_getElem h,
    Option.map_some, Option.getD_some]

theorem mem_onRows {rows : List (List Rng)} {ids : List Nat} {f : Nat → List Rng → List Rng}
    {row : List Rng} (h : row ∈ onRows ids f rows) : ∃ id, ∃ row₀ ∈ rows,
      rows[id]? = some row₀ ∧ row = if id ∈ ids then f id row₀ else row₀ := by
  obtain ⟨id, hid⟩ := List.mem_iff_getElem?.mp h
  rw [getElem?_onRows, Option.map_eq_some_iff] at hid
  obtain ⟨row₀, hrow₀, rfl⟩ := hid
  exact ⟨id, row₀, List.mem_of_getElem? hrow₀, hrow₀, rfl⟩

/-- The prefill steps go in front of the iterations after the stop. -/
theorem prepend_prefill {rows : List (List Rng)} (ids : List Nat) (prefill : Nat → Rng)
    {prefillNum num : Nat} (hincreasing : ∀ row ∈ rows, Increasing 0 row)
    (hends : ∀ row ∈ rows, EndsBefore row num) (hids : ∀ id ∈ ids, id < rows.length)
    (hprefill : ∀ id ∈ ids, (prefill id).1 = (prefill id).2 ∧ (prefill id).2 < prefillNum)
    (hsteps : ∀ t < prefillNum, ∃ id ∈ ids, (prefill id).1 = t)
    (hattended : ∀ t < num, ∃ row ∈ rows, Attends row t) :
    (∀ row ∈ onRows ids (fun id => prependRng (prefill id)) (rows.map (shiftBy prefillNum)),
      Increasing 0 row ∧ EndsBefore row (prefillNum + num)) ∧
    (∀ id < rows.length, iterNum ((onRows ids (fun id => prependRng (prefill id))
        (rows.map (shiftBy prefillNum))).getD id []) =
      iterNum (rows.getD id []) + if id ∈ ids then 1 else 0) ∧
    ∀ t < prefillNum + num, ∃ row ∈ onRows ids (fun id => prependRng (prefill id))
      (rows.map (shiftBy prefillNum)), Attends row t := by
  set rows' := onRows ids (fun id => prependRng (prefill id)) (rows.map (shiftBy prefillNum))
  -- every row is shifted behind the prefill steps, so a prefill range stays in front of it
  have hafter : ∀ id ∈ ids, ∀ row : List Rng, ∀ q ∈ shiftBy prefillNum row,
      (prefill id).2 < q.1 := by
    intro id hid row q hq
    obtain ⟨q, -, rfl⟩ := mem_shiftBy.mp hq
    have := (hprefill id hid).2
    simp only
    omega
  have hmem : ∀ id (h : id < rows.length), rows'[id]? = some (if id ∈ ids then
      prependRng (prefill id) (shiftBy prefillNum rows[id]) else shiftBy prefillNum rows[id]) := by
    intro id h
    rw [getElem?_onRows, List.getElem?_map, List.getElem?_eq_getElem h, Option.map_some,
      Option.map_some]
  refine ⟨fun row hrow => ?_, fun id hid => ?_, fun t ht => ?_⟩
  · obtain ⟨id, row₀, hrow₀, -, rfl⟩ := mem_onRows hrow
    obtain ⟨row₁, hrow₁, rfl⟩ := List.mem_map.mp hrow₀
    have hinc := (hincreasing row₁ hrow₁).shiftBy prefillNum
    have hend := (hends row₁ hrow₁).shiftBy prefillNum
    split
    · rename_i hid
      obtain ⟨hsingle, hlt⟩ := hprefill id hid
      exact ⟨Increasing.prependRng hsingle.le hinc (hafter id hid row₁),
        hend.prependRng (by omega)⟩
    · exact ⟨hinc, hend⟩
  · rw [List.getD_eq_getElem?_getD, hmem id hid, Option.getD_some, List.getD_eq_getElem?_getD,
      List.getElem?_eq_getElem hid, Option.getD_some]
    have hinc := (hincreasing _ (List.getElem_mem hid)).shiftBy prefillNum
    split
    · rename_i hid'
      obtain ⟨hsingle, -⟩ := hprefill id hid'
      rw [iterNum_prependRng hsingle.le hinc (hafter id hid' _), iterNum_shiftBy, Rng.size]
      omega
    · rw [iterNum_shiftBy, Nat.add_zero]
  -- a step is one of the prefill steps, or an old step in its new place
  · by_cases hstep : t < prefillNum
    · obtain ⟨id, hid, rfl⟩ := hsteps t hstep
      obtain ⟨hsingle, -⟩ := hprefill id hid
      have hid' := hids id hid
      have hinc := (hincreasing _ (List.getElem_mem hid')).shiftBy prefillNum
      have hrow := hmem id hid'
      rw [if_pos hid] at hrow
      exact ⟨_, List.mem_of_getElem? hrow,
        (attends_prependRng hsingle.le hinc (hafter id hid _) _).mpr (.inl ⟨le_rfl, hsingle.le⟩)⟩
    · obtain ⟨row, hrow, hat⟩ := hattended (t - prefillNum) (by omega)
      obtain ⟨id, hid, rfl⟩ := List.getElem_of_mem hrow
      have hshift : Attends (shiftBy prefillNum rows[id]) t :=
        (attends_shiftBy _ t).mpr ⟨by omega, hat⟩
      refine ⟨_, List.mem_of_getElem? (hmem id hid), ?_⟩
      split
      · rename_i hid'
        obtain ⟨hsingle, -⟩ := hprefill id hid'
        exact (attends_prependRng hsingle.le ((hincreasing _ hrow).shiftBy prefillNum)
          (hafter id hid' _) t).mpr (.inr hshift)
      · exact hshift

/-! ## The dropped decode step -/

theorem startsWithDecode_iff {isPrefillSteps : List Bool} {start : Nat} {row : List Rng} :
    startsWithDecode isPrefillSteps start row = true ↔
      ∃ r rest, row = r :: rest ∧ isPrefillSteps.getD (r.1 + start) false = false := by
  cases row with
  | nil => simp [startsWithDecode]
  | cons r rest => simp [startsWithDecode]

/-- The next iteration of a running request, counted from the stop, is its `FirstDecode`. -/
theorem firstDecode_of_restFrom {m : Metadata L} {rows : List (List Rng)} {out : List Nat}
    (h : m.WellFormed rows out) {stopIter id : Nat} {row : List Rng} (hrow : rows[id]? = some row)
    {r : Rng} {rest : List Rng} (hrest : restFrom (stopIter + 1) row = r :: rest)
    (hdecode : m.isPrefillSteps.getD (r.1 + (stopIter + 1)) false = false) :
    FirstDecode m stopIter id (r.1 + (stopIter + 1)) := by
  have hmrow : m.rngs.row id = row := by rw [h.rngs_eq, row_ofRows hrow]
  have hinc := (h.increasing row (List.mem_of_getElem? hrow)).restFrom (stopIter + 1)
  rw [hrest] at hinc
  refine ⟨by omega, hdecode, ?_, fun u hu hlt hat => ?_⟩
  · rw [hmrow, ← attends_restFrom, hrest]
    exact ⟨r, .head _, le_rfl, hinc.le r (.head _)⟩
  · rw [hmrow, show u = (u - (stopIter + 1)) + (stopIter + 1) by omega, ← attends_restFrom,
      hrest] at hat
    have := hinc.le_of_attends hat
    omega

variable {rows : List (List Rng)} {ids : List Nat}

/-- Dropping the first iterations of the requests `ids` leaves a request in every other one. -/
theorem attends_drop_of_ne (hinc : ∀ row ∈ rows, Increasing 0 row) {t : Nat}
    (hat : ∃ row ∈ rows, Attends row t)
    (hne : ∀ id ∈ ids, ∀ r rest, rows[id]? = some (r :: rest) → t ≠ r.1) :
    ∃ row ∈ onRows ids (fun _ => dropFirst) rows, Attends row t := by
  obtain ⟨row, hrow, hat⟩ := hat
  obtain ⟨id, hid, rfl⟩ := List.getElem_of_mem hrow
  have hmem : (onRows ids (fun _ => dropFirst) rows)[id]? =
      some (if id ∈ ids then dropFirst rows[id] else rows[id]) := by
    rw [getElem?_onRows, List.getElem?_eq_getElem hid, Option.map_some]
  refine ⟨_, List.mem_of_getElem? hmem, ?_⟩
  split
  · rename_i hid'
    cases hcons : rows[id] with
    | nil => rw [hcons] at hat; exact absurd hat (attends_nil t)
    | cons r rest =>
      have hinc' := hinc _ hrow
      rw [hcons] at hat hinc'
      exact (attends_dropFirst hinc' t).mpr
        ⟨hat, hne id hid' r rest (by rw [List.getElem?_eq_getElem hid, hcons])⟩
  · exact hat

/-- A request that takes part in an iteration before `t` too still takes part in `t`. -/
theorem attends_drop_of_earlier (hinc : ∀ row ∈ rows, Increasing 0 row) {t u : Nat}
    {row : List Rng} (hrow : row ∈ rows) (hat : Attends row t) (hu : Attends row u) (hlt : u < t) :
    ∃ row ∈ onRows ids (fun _ => dropFirst) rows, Attends row t := by
  obtain ⟨id, hid, rfl⟩ := List.getElem_of_mem hrow
  have hmem : (onRows ids (fun _ => dropFirst) rows)[id]? =
      some (if id ∈ ids then dropFirst rows[id] else rows[id]) := by
    rw [getElem?_onRows, List.getElem?_eq_getElem hid, Option.map_some]
  refine ⟨_, List.mem_of_getElem? hmem, ?_⟩
  split
  · cases hcons : rows[id] with
    | nil => rw [hcons] at hat; exact absurd hat (attends_nil t)
    | cons r rest =>
      have hinc' := hinc _ hrow
      rw [hcons] at hat hu hinc'
      have := hinc'.le_of_attends hu
      exact (attends_dropFirst hinc' t).mpr ⟨hat, by omega⟩
  · exact hat

/-- The tokens of the requests that lose an iteration. -/
theorem iterNum_drop (hinc : ∀ row ∈ rows, Increasing 0 row)
    (hids : ∀ id ∈ ids, ∃ r rest, rows[id]? = some (r :: rest)) {id : Nat} (hid : id < rows.length) :
    iterNum ((onRows ids (fun _ => dropFirst) rows).getD id []) + (if id ∈ ids then 1 else 0) =
      iterNum (rows.getD id []) := by
  rw [getD_onRows _ _ hid]
  split
  · rename_i hid'
    obtain ⟨r, rest, hrow⟩ := hids id hid'
    have hinc' := hinc _ (List.mem_of_getElem? hrow)
    rw [List.getD_eq_getElem?_getD, hrow, Option.getD_some]
    exact iterNum_dropFirst hinc'
  · rfl

end Mil.Fcfs
