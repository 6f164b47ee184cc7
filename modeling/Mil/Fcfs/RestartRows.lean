import Mil.Fcfs.Restart

/-!
# The restart, request by request

Every step of the restart on the three arrays is one on the lists of ranges of the requests, and
each request is handled by itself: its ranges are cut at the stop, a running one loses its first
iteration, an iteration that nobody takes part in is closed, and a running one gets its prefill
iteration in front.
-/

set_option autoImplicit false

namespace Mil.Fcfs

open Mil.Lib

/-- The arrays of the requests' ranges `rows`. -/
def RngArrays.ofRows (rows : List (List Rng)) : RngArrays :=
  ⟨cumLens rows, rows.flatten.map Prod.fst, rows.flatten.map Prod.snd⟩

/-- The ranges of the request `id`. -/
def RngArrays.row (a : RngArrays) (id : Nat) : List Rng :=
  (slice a.rngStarts (a.cumRngNums.getD id 0) (a.cumRngNums.getD (id + 1) 0)).zip
    (slice a.rngEnds (a.cumRngNums.getD id 0) (a.cumRngNums.getD (id + 1) 0))

variable {rows : List (List Rng)}

theorem zipWith_fst_snd {α β γ : Type} (l : List (α × β)) (f : α → β → γ) :
    List.zipWith f (l.map Prod.fst) (l.map Prod.snd) = l.map fun x => f x.1 x.2 := by
  rw [List.zipWith_map, List.zipWith_self]

theorem slice_map {α β : Type} (f : α → β) (l : List α) (start stop : Nat) :
    slice (l.map f) start stop = (slice l start stop).map f := by
  simp [slice]

theorem row_ofRows {id : Nat} {row : List Rng} (h : rows[id]? = some row) :
    (RngArrays.ofRows rows).row id = row := by
  simp only [RngArrays.row, RngArrays.ofRows, slice_map, slice_flatten h]
  rw [List.zip_map', List.map_id']

/-- `rows` with `f` applied to the ranges of the requests in `ids`. -/
def onRows (ids : List Nat) (f : Nat → List Rng → List Rng) (rows : List (List Rng)) :
    List (List Rng) :=
  rows.mapIdx fun id row => if id ∈ ids then f id row else row

theorem getElem?_onRows (ids : List Nat) (f : Nat → List Rng → List Rng) (id : Nat) :
    (onRows ids f rows)[id]? = rows[id]?.map fun row => if id ∈ ids then f id row else row := by
  simp [onRows]

@[simp] theorem onRows_length (ids : List Nat) (f : Nat → List Rng → List Rng) :
    (onRows ids f rows).length = rows.length := by
  simp [onRows]

/-! ## The ranges after the stop -/

theorem getInfoAtStopTime_ofRows (rows : List (List Rng)) (stopIter : Nat) :
    getInfoAtStopTime (RngArrays.ofRows rows) stopIter = rows.map (doneBy stopIter) := by
  simp only [getInfoAtStopTime, RngArrays.ofRows, zipWith_fst_snd, segDiff_cumLens]
  rfl

theorem sum_toNat_eq_countP {α : Type} (p : α → Bool) (l : List α) :
    (l.map fun x => (p x).toNat).sum = (l.filter p).length := by
  rw [← List.countP_eq_length_filter]
  induction l with
  | nil => rfl
  | cons x l ih =>
    rw [List.map_cons, List.sum_cons, ih, List.countP_cons]
    cases p x <;> simp [Nat.add_comm]

theorem aliveRngs_ofRows (rows : List (List Rng)) (start : Nat) :
    aliveRngs (RngArrays.ofRows rows) start =
      ((rows.map (restFrom start)).map List.length,
        RngArrays.ofRows (rows.map (restFrom start))) := by
  have hnums : segDiff (cumsum0 (((rows.flatten.map Prod.snd).map
        fun e => decide (start ≤ e)).map Bool.toNat)) (cumLens rows) =
      (rows.map (restFrom start)).map List.length := by
    rw [List.map_map, List.map_map, segDiff_cumLens, List.map_map]
    refine List.map_congr_left fun row _ => ?_
    simp only [Function.comp_apply, restFrom, List.length_map]
    exact sum_toNat_eq_countP (fun r : Rng => decide (start ≤ r.2)) row
  have hmask : ∀ f : Rng → Nat, mask ((rows.flatten.map f).map (· - start))
      ((rows.flatten.map Prod.snd).map fun e => decide (start ≤ e)) =
      ((rows.flatten.filter fun r => decide (start ≤ r.2)).map f).map (· - start) := by
    intro f
    rw [List.map_map, List.map_map, mask_map_map, List.map_map]
    rfl
  have hflat : (rows.map (restFrom start)).flatten =
      (rows.flatten.filter fun r => decide (start ≤ r.2)).map
        fun r => (r.1 - start, r.2 - start) := by
    rw [List.filter_flatten, List.map_flatten, List.map_map]
    rfl
  simp only [aliveRngs, RngArrays.ofRows, hnums, hmask, hflat]
  simp only [cumLens, List.map_map]
  rfl

/-- Whether a request with these ranges goes on with a decode step. -/
def startsWithDecode (isPrefillSteps : List Bool) (start : Nat) : List Rng → Bool
  | [] => false
  | r :: _ => !isPrefillSteps.getD (r.1 + start) false

theorem runningSeqIds_ofRows (isPrefillSteps : List Bool) (start : Nat) (rows : List (List Rng)) :
    runningSeqIds isPrefillSteps start (rows.map List.length) (RngArrays.ofRows rows) =
      (List.range rows.length).filter fun id =>
        startsWithDecode isPrefillSteps start (rows.getD id []) := by
  have halive : (rows.map List.length).map (fun num => decide (0 < num)) =
      (List.range rows.length).map fun id => decide (0 < (rows.getD id []).length) := by
    rw [List.map_map]
    exact map_eq_map_range rows _ []
  simp only [runningSeqIds, RngArrays.ofRows, halive, dropLast_cumLens, List.length_map,
    mask_map_map, mask_map, List.map_map]
  rw [List.filter_filter]
  refine List.filter_congr fun id hid => ?_
  have hid' : id < rows.length := List.mem_range.mp hid
  cases hrow : rows[id] with
  | nil => simp [List.getD_eq_getElem?_getD, hid', hrow, startsWithDecode]
  | cons r row =>
    have hfirst := getElem?_flatten_cumLens (List.getElem?_eq_some_iff.mpr ⟨hid', hrow⟩)
    have hstart : (rows.flatten.map Prod.fst).getD ((cumLens rows).getD id 0) 0 = r.1 := by
      rw [List.getD_eq_getElem?_getD, List.getElem?_map, hfirst]
      rfl
    have hgetD : rows.getD id [] = r :: row := by
      simp [List.getD_eq_getElem?_getD, hid', hrow]
    simp only [Function.comp_apply, hgetD, startsWithDecode, hstart, List.length_cons,
      Nat.zero_lt_succ, decide_true, Bool.and_true]

/-! ## The dropped decode step -/

/-- `dropFirst` before the empty range is removed. -/
def bumpFirst (row : List Rng) : List Rng := row.modifyHead fun r => (r.1 + 1, r.2)

theorem filter_bumpFirst {gap : Nat} {row : List Rng} (h : Increasing gap row) :
    (bumpFirst row).filter (fun r => decide (r.1 ≤ r.2)) = dropFirst row := by
  cases row with
  | nil => rfl
  | cons r row =>
    have hrow : row.filter (fun r => decide (r.1 ≤ r.2)) = row :=
      List.filter_eq_self.mpr fun q hq => by simpa using h.le q (.tail _ hq)
    rw [bumpFirst, List.modifyHead_cons, dropFirst]
    split
    · rename_i hle
      rw [List.filter_cons_of_pos (by simpa using hle), hrow]
    · rename_i hle
      rw [List.filter_cons_of_neg (by simpa using hle), hrow]

theorem getElem?_foldl_modify (f : List Rng → List Rng) {ids : List Nat} (hnodup : ids.Nodup)
    (rows : List (List Rng)) (id : Nat) :
    (ids.foldl (fun rows id => rows.modify id f) rows)[id]? =
      rows[id]?.map fun row => if id ∈ ids then f row else row := by
  induction ids generalizing rows with
  | nil => simp
  | cons j ids ih =>
    obtain ⟨hj, hrest⟩ := List.nodup_cons.mp hnodup
    rw [List.foldl_cons, ih hrest, List.getElem?_modify]
    by_cases hid : j = id
    · subst hid
      cases rows[j]? <;> simp [hj]
    · cases rows[id]? <;> simp [hid, Ne.symm hid]

theorem foldl_modify_eq_onRows (f : List Rng → List Rng) {ids : List Nat} (hnodup : ids.Nodup)
    (rows : List (List Rng)) :
    ids.foldl (fun rows id => rows.modify id f) rows = onRows ids (fun _ => f) rows :=
  List.ext_getElem? fun id => by rw [getElem?_foldl_modify f hnodup, getElem?_onRows]

/-- Adding one to starts at cumulated lengths is `bumpFirst` on the rows, one after the other. -/
theorem foldl_modify_starts {ids : List Nat} (hnodup : ids.Nodup) (rows : List (List Rng))
    (hrows : ∀ id ∈ ids, ∃ r row, rows[id]? = some (r :: row)) :
    (ids.map fun id => (cumLens rows).getD id 0).foldl (fun l i => l.modify i (· + 1))
        (rows.flatten.map Prod.fst) =
      (ids.foldl (fun rows id => rows.modify id bumpFirst) rows).flatten.map Prod.fst ∧
    (ids.foldl (fun rows id => rows.modify id bumpFirst) rows).flatten.map Prod.snd =
      rows.flatten.map Prod.snd ∧
    (ids.foldl (fun rows id => rows.modify id bumpFirst) rows).map List.length =
      rows.map List.length := by
  induction ids generalizing rows with
  | nil => exact ⟨rfl, rfl, rfl⟩
  | cons id ids ih =>
    obtain ⟨hid, hrest⟩ := List.nodup_cons.mp hnodup
    obtain ⟨r, row, hrow⟩ := hrows id (.head _)
    have hmodify := modify_flatten (fun r : Rng => (r.1 + 1, r.2)) hrow
    have hlength : (rows.modify id bumpFirst).map List.length = rows.map List.length :=
      map_length_modifyHead rows id _
    have hstarts : (rows.flatten.map Prod.fst).modify ((cumLens rows).getD id 0) (· + 1) =
        (rows.modify id bumpFirst).flatten.map Prod.fst := by
      show _ = (rows.modify id fun row => row.modifyHead fun r => (r.1 + 1, r.2)).flatten.map _
      rw [← hmodify]
      refine List.ext_getElem? fun i => ?_
      simp only [List.getElem?_map, List.getElem?_modify]
      split <;> cases rows.flatten[i]? <;> rfl
    have hends : (rows.modify id bumpFirst).flatten.map Prod.snd = rows.flatten.map Prod.snd := by
      show (rows.modify id fun row => row.modifyHead fun r => (r.1 + 1, r.2)).flatten.map _ = _
      rw [← hmodify]
      refine List.ext_getElem? fun i => ?_
      simp only [List.getElem?_map, List.getElem?_modify]
      split <;> cases rows.flatten[i]? <;> rfl
    have hstep := ih hrest (rows.modify id bumpFirst) fun j hj => by
      obtain ⟨q, row', hrow'⟩ := hrows j (.tail _ hj)
      have hne : id ≠ j := fun heq => hid (heq ▸ hj)
      exact ⟨q, row', by rw [List.getElem?_modify_ne _ _ hne, hrow']⟩
    rw [cumLens_congr hlength] at hstep
    refine ⟨?_, hstep.2.1.trans hends, hstep.2.2.trans hlength⟩
    rw [List.map_cons, List.foldl_cons, hstarts]
    exact hstep.1

theorem length_eq_filter_add {α : Type} (p : α → Bool) (l : List α) :
    l.length = (l.filter p).length + (l.map fun x => (!p x).toNat).sum := by
  rw [sum_toNat_eq_countP, ← List.countP_eq_length_filter, ← List.countP_eq_length_filter,
    List.length_eq_countP_add_countP p]
  simp

/-- The first decode steps of the running requests are dropped, -/
theorem dropFirstDecode_ofRows {ids : List Nat} (hnodup : ids.Nodup)
    (hinc : ∀ row ∈ rows, Increasing 0 row)
    (hrows : ∀ id ∈ ids, ∃ r row, rows[id]? = some (r :: row)) :
    (dropFirstDecode ids (RngArrays.ofRows rows)).1 =
      RngArrays.ofRows (onRows ids (fun _ => dropFirst) rows) := by
  obtain ⟨hstarts, hends, hlength⟩ := foldl_modify_starts hnodup rows hrows
  rw [foldl_modify_eq_onRows bumpFirst hnodup] at hstarts hends hlength
  set bumped := onRows ids (fun _ => bumpFirst) rows with hbumped
  have hdrop : bumped.map (List.filter fun r => decide (r.1 ≤ r.2)) =
      onRows ids (fun _ => dropFirst) rows := by
    refine List.ext_getElem? fun id => ?_
    rw [List.getElem?_map, hbumped, getElem?_onRows, getElem?_onRows, Option.map_map]
    cases hrow : rows[id]? with
    | none => rfl
    | some row =>
      have hrow' := hinc row (List.mem_of_getElem? hrow)
      simp only [Option.map_some, Function.comp_apply]
      split
      · rw [filter_bumpFirst hrow']
      · rw [List.filter_eq_self.mpr fun r hr => by simpa using hrow'.le r hr]
  have hflat : (onRows ids (fun _ => dropFirst) rows).flatten =
      bumped.flatten.filter fun r => decide (r.1 ≤ r.2) := by
    rw [← hdrop, List.filter_flatten]
  have hcum : (cumLens rows).head?.toList ++ List.zipWith (· - ·) (cumLens rows).tail
        (cumsum (segDiff (cumsum0 (bumped.flatten.map fun r => (decide (r.2 < r.1)).toNat))
          (cumLens rows))) = cumLens (onRows ids (fun _ => dropFirst) rows) := by
    have hlengths : (rows.map List.length) = bumped.map fun row =>
        (row.filter fun r => decide (r.1 ≤ r.2)).length +
          (row.map fun r => (decide (r.2 < r.1)).toNat).sum := by
      rw [← hlength]
      refine List.map_congr_left fun row _ => ?_
      rw [length_eq_filter_add (fun r : Rng => decide (r.1 ≤ r.2)) row]
      refine congrArg₂ _ rfl (congrArg _ (List.map_congr_left fun r _ => congrArg _ ?_))
      rw [← decide_not]
      exact decide_eq_decide.mpr Nat.not_le
    rw [← cumLens_congr hlength, segDiff_cumLens, cumLens_congr hlength, cumLens, hlengths,
      cumsum0_eq_cons, List.head?_cons, List.tail_cons, zipWith_sub_cumsum, ← hdrop, cumLens,
      cumsum0_eq_cons, List.map_map]
    rfl
  have hmap : ∀ f : Rng → Nat, mask (bumped.flatten.map f)
      (bumped.flatten.map fun r => decide (r.1 ≤ r.2)) =
      (onRows ids (fun _ => dropFirst) rows).flatten.map f := by
    intro f
    rw [mask_map_map, hflat]
  simp only [dropFirstDecode, RngArrays.ofRows]
  rw [hstarts, ← hends, zipWith_fst_snd, zipWith_fst_snd, List.map_map]
  simp only [hmap]
  rw [← hcum]
  rfl

/-- and their indices are returned. -/
theorem dropFirstDecode_ofRows_snd {ids : List Nat}
    (hrows : ∀ id ∈ ids, ∃ r row, rows[id]? = some (r :: row)) :
    (dropFirstDecode ids (RngArrays.ofRows rows)).2 =
      ids.map fun id => ((rows.getD id []).headD (0, 0)).1 := by
  simp only [dropFirstDecode, RngArrays.ofRows]
  rw [List.map_map]
  refine List.map_congr_left fun id hid => ?_
  obtain ⟨r, row, hrow⟩ := hrows id hid
  have hgetD : rows.getD id [] = r :: row := by simp [List.getD_eq_getElem?_getD, hrow]
  rw [Function.comp_apply, List.getD_eq_getElem?_getD, List.getElem?_map,
    getElem?_flatten_cumLens hrow, hgetD]
  rfl

/-! ## Iterations that disappear -/

theorem attendedBy_ofRows (rows : List (List Rng)) (i : Nat) :
    attendedBy (RngArrays.ofRows rows) i = true ↔ ∃ row ∈ rows, Attends row i := by
  simp only [attendedBy, RngArrays.ofRows, zipWith_fst_snd, List.any_map, List.any_eq_true,
    List.mem_flatten, Function.comp_apply, id_eq, decide_eq_true_eq, Attends]
  constructor
  · rintro ⟨r, ⟨row, hrow, hr⟩, h⟩
    exact ⟨row, hrow, r, hr, h⟩
  · rintro ⟨row, hrow, r, hr, h⟩
    exact ⟨r, ⟨row, hrow, hr⟩, h⟩

/-- The starts and ends may be changed by themselves. -/
theorem ofRows_map (f g : Nat → Nat) (rows : List (List Rng)) :
    RngArrays.ofRows (rows.map (List.map fun r => (f r.1, g r.2))) =
      { RngArrays.ofRows rows with
        rngStarts := (RngArrays.ofRows rows).rngStarts.map f
        rngEnds := (RngArrays.ofRows rows).rngEnds.map g } := by
  have hcum : cumLens (rows.map (List.map fun r => (f r.1, g r.2))) = cumLens rows :=
    cumLens_congr (by simp)
  have hflat : (rows.map (List.map fun r => (f r.1, g r.2))).flatten =
      rows.flatten.map fun r => (f r.1, g r.2) := List.map_flatten.symm
  rw [RngArrays.ofRows, hcum, hflat, List.map_map, List.map_map, RngArrays.ofRows]
  simp only [List.map_map]
  rfl

theorem ofRows_closeGap (i : Nat) (rows : List (List Rng)) :
    RngArrays.ofRows (rows.map (closeGap i)) =
      { RngArrays.ofRows rows with
        rngStarts := (RngArrays.ofRows rows).rngStarts.map fun s => if i ≤ s then s - 1 else s
        rngEnds := (RngArrays.ofRows rows).rngEnds.map fun e => if i ≤ e then e - 1 else e } :=
  ofRows_map (fun s => if i ≤ s then s - 1 else s) (fun e => if i ≤ e then e - 1 else e) rows

theorem ofRows_shiftBy (n : Nat) (rows : List (List Rng)) :
    RngArrays.ofRows (rows.map (shiftBy n)) =
      { RngArrays.ofRows rows with
        rngStarts := (RngArrays.ofRows rows).rngStarts.map (· + n)
        rngEnds := (RngArrays.ofRows rows).rngEnds.map (· + n) } :=
  ofRows_map (· + n) (· + n) rows

/-! ## The prefill ranges -/

/-- Whether `prependRng r row` has one range more than `row`. -/
def needsOwnRng (r : Rng) : List Rng → Bool
  | [] => true
  | q :: _ => decide (r.2 + 1 < q.1)

theorem length_prependRng (r : Rng) (row : List Rng) :
    (prependRng r row).length = row.length + (needsOwnRng r row).toNat := by
  cases row with
  | nil => rfl
  | cons q row =>
    rw [prependRng, needsOwnRng]
    split <;> rename_i h <;> simp [h]

variable {ids : List Nat} {inferProgress : List (List Rng)} {prefill : Nat → Rng}

theorem needAddRng_ofRows {id : Nat} {row : List Rng} (hrow : rows[id]? = some row)
    (hids : id ∈ ids → inferProgress.getD id [] = [prefill id]) :
    needAddRng ids inferProgress (RngArrays.ofRows rows) id =
      if id ∈ ids then needsOwnRng (prefill id) row else false := by
  simp only [needAddRng, RngArrays.ofRows, getD_cumLens_succ hrow]
  by_cases hid : id ∈ ids
  · simp only [if_pos hid, hids hid]
    cases row with
    | nil => simp [needsOwnRng]
    | cons q row =>
      have hstart : (rows.flatten.map Prod.fst).getD ((cumLens rows).getD id 0) 0 = q.1 := by
        rw [List.getD_eq_getElem?_getD, List.getElem?_map, getElem?_flatten_cumLens hrow]
        rfl
      simp only [hstart, needsOwnRng, List.headD_cons, List.length_cons, Nat.lt_add_right_iff_pos,
        Nat.zero_lt_succ, if_true]
  · simp only [if_neg hid]

/-- The places of the request `id` are filled with its ranges, its prefill range in front. -/
theorem fillRngs_spec {rows' : List (List Rng)} {needAdd : List Bool} {id : Nat}
    {row row' : List Rng} (hrow : rows[id]? = some row) (hrow' : rows'[id]? = some row')
    (hids : id ∈ ids → inferProgress.getD id [] = [prefill id])
    (hnot : id ∉ ids → inferProgress.getD id [] = [])
    (hneed : needAdd.getD id false = if id ∈ ids then needsOwnRng (prefill id) row else false)
    (hprepend : row' = if id ∈ ids then prependRng (prefill id) row else row)
    {done : List Rng} (hdone : done.length = (cumLens rows').getD id 0) {n : Nat}
    (hn : row'.length ≤ n) :
    fillRngs inferProgress (RngArrays.ofRows rows) (cumLens rows') needAdd
        (done.map Prod.fst ++ List.replicate n 0, done.map Prod.snd ++ List.replicate n 0) id =
      ((done ++ row').map Prod.fst ++ List.replicate (n - row'.length) 0,
        (done ++ row').map Prod.snd ++ List.replicate (n - row'.length) 0) := by
  have hwrite : ∀ (f : Rng → Nat) (vals : List Nat) (m : Nat), vals.length = m →
      writeSlice (done.map f ++ List.replicate n 0) done.length (done.length + m) vals =
        done.map f ++ vals ++ List.replicate (n - m) 0 := by
    rintro f vals _ rfl
    have := writeSlice_append_replicate (done.map f) vals n 0
    rwa [List.length_map] at this
  have hset : ∀ (f : Rng → Nat) (x : Nat) (vals : List Nat) (m : Nat), vals.length = m →
      m + 1 ≤ n →
      (writeSlice (done.map f ++ List.replicate n 0) (done.length + 1) (done.length + (m + 1))
        vals).set done.length x = done.map f ++ x :: vals ++ List.replicate (n - (m + 1)) 0 := by
    rintro f x vals _ rfl hle
    have := set_writeSlice (done.map f) vals (n - 1) 0 x
    rw [List.length_map, Nat.sub_add_cancel (by omega)] at this
    rw [Nat.add_comm vals.length, ← Nat.add_assoc, this, Nat.sub_add_eq]
  simp only [fillRngs, getD_cumLens_succ hrow', ← hdone, hneed]
  simp only [RngArrays.ofRows, slice_map, slice_flatten hrow]
  -- the range of the prefill is a range of its own, unless it touches the first one
  by_cases hid : id ∈ ids
  · rw [if_pos hid] at hprepend
    simp only [if_pos hid, hids hid]
    cases row with
    | nil =>
      obtain rfl : row' = [prefill id] := hprepend
      simp only [needsOwnRng, List.length_singleton, List.map_nil, List.headD_cons, if_true,
        hset _ _ [] 0 rfl hn, Nat.left_eq_add, Nat.one_ne_zero, if_false, List.map_append,
        List.map_singleton]
    | cons q row =>
      by_cases htouch : (prefill id).2 + 1 < q.1
      · obtain rfl : row' = prefill id :: q :: row := by rw [hprepend, prependRng, if_pos htouch]
        have hlength : ∀ f : Rng → Nat, ((q :: row).map f).length = row.length + 1 := by simp
        simp only [List.length_cons] at hn
        simp only [needsOwnRng, htouch, decide_true, if_true, List.headD_cons, List.length_cons,
          Nat.left_eq_add, Nat.add_one_ne_zero, if_false, hset _ _ _ _ (hlength _) hn]
        simp
      · obtain rfl : row' = ((prefill id).1, q.2) :: row := by
          rw [hprepend, prependRng, if_neg htouch]
        have hlength : ∀ f : Rng → Nat, ((q :: row).map f).length = row.length + 1 := by simp
        simp only [needsOwnRng, htouch, decide_false, List.headD_cons, List.length_cons,
          Nat.left_eq_add, Nat.add_one_ne_zero, if_false, hwrite _ _ _ (hlength _),
          Bool.false_eq_true, List.length_nil, Nat.zero_add]
        simp
  · rw [if_neg hid] at hprepend
    subst hprepend
    simp only [if_neg hid, hnot hid, Bool.false_eq_true, if_false, List.length_nil, if_true]
    cases row' with
    | nil => simp
    | cons q row =>
      have hlength : ∀ f : Rng → Nat, ((q :: row).map f).length = row.length + 1 := by simp
      simp only [List.length_cons, Nat.left_eq_add, Nat.add_one_ne_zero, if_false,
        hwrite _ _ _ (hlength _), List.map_append]

theorem addPrefillRngs_ofRows (hids : ∀ id ∈ ids, inferProgress.getD id [] = [prefill id])
    (hnot : ∀ id, id ∉ ids → inferProgress.getD id [] = []) :
    addPrefillRngs rows.length ids inferProgress (RngArrays.ofRows rows) =
      RngArrays.ofRows (onRows ids (fun id => prependRng (prefill id)) rows) := by
  set rows' := onRows ids (fun id => prependRng (prefill id)) rows with hrows'
  have hlen' : rows'.length = rows.length := onRows_length ids _
  set need := needAddRng ids inferProgress (RngArrays.ofRows rows) with hneed
  have hrow : ∀ id < rows.length, rows[id]? = some (rows.getD id []) := fun id h => by
    simp [List.getD_eq_getElem?_getD, h]
  have hrow' : ∀ id < rows.length, rows'[id]? = some
      (if id ∈ ids then prependRng (prefill id) (rows.getD id []) else rows.getD id []) := by
    intro id h
    rw [hrows', getElem?_onRows, hrow id h, Option.map_some]
  have hneed' : ∀ id < rows.length, need id =
      if id ∈ ids then needsOwnRng (prefill id) (rows.getD id []) else false := fun id h =>
    needAddRng_ofRows (hrow id h) (hids id)
  have hlengths : rows'.map List.length =
      (List.range rows.length).map fun id => (rows.getD id []).length + (need id).toNat := by
    rw [map_eq_map_range rows' _ [], hlen']
    refine List.map_congr_left fun id hid => ?_
    have h := List.mem_range.mp hid
    rw [List.getD_eq_getElem?_getD, hrow' id h, Option.getD_some, hneed' id h]
    split
    · exact length_prependRng _ _
    · rfl
  have hcum : (cumLens rows).head?.toList ++ List.zipWith (· + ·) (cumLens rows).tail
        (cumsum (((List.range rows.length).map need).map Bool.toNat)) = cumLens rows' := by
    rw [cumLens, map_eq_map_range rows _ [], List.map_map, cumsum0_eq_cons, List.head?_cons,
      List.tail_cons]
    simp only [Function.comp_def]
    rw [zipWith_add_cumsum, cumLens, hlengths, cumsum0_eq_cons]
    rfl
  have hsize : (rows.flatten.map Prod.fst).length +
      (((List.range rows.length).map need).map Bool.toNat).sum = rows'.flatten.length := by
    rw [List.length_map, List.length_flatten, List.length_flatten, hlengths,
      map_eq_map_range rows _ [], List.map_map]
    exact List.sum_map_add.symm
  -- after `n` requests the first `n` rows are written, and the rest is still zero
  have hfill : ∀ n ≤ rows.length, (List.range n).foldl
      (fillRngs inferProgress (RngArrays.ofRows rows) (cumLens rows')
        ((List.range rows.length).map need))
      (List.replicate rows'.flatten.length 0, List.replicate rows'.flatten.length 0) =
      ((rows'.take n).flatten.map Prod.fst ++
          List.replicate (rows'.flatten.length - (rows'.take n).flatten.length) 0,
        (rows'.take n).flatten.map Prod.snd ++
          List.replicate (rows'.flatten.length - (rows'.take n).flatten.length) 0) := by
    intro n hn
    induction n with
    | zero => simp
    | succ n ih =>
      have hsplit := flatten_split (hrow' n hn)
      have hle : (rows'.take n).flatten.length +
          (if n ∈ ids then prependRng (prefill n) (rows.getD n []) else rows.getD n []).length ≤
          rows'.flatten.length := by
        rw [hsplit, List.length_append, List.length_append]
        omega
      rw [List.range_succ, List.foldl_append, ih (Nat.le_of_succ_le hn), List.foldl_cons,
        List.foldl_nil, fillRngs_spec (hrow n hn) (hrow' n hn) (hids n) (hnot n) ?_ rfl
        (getD_cumLens (by omega)).symm (by omega), List.take_add_one, hrow' n hn]
      · simp only [Option.toList_some, List.flatten_append, List.flatten_singleton,
          List.length_append, Nat.sub_add_eq]
      · rw [← hneed' n hn]
        simp [List.getD_eq_getElem?_getD, Nat.lt_of_succ_le hn]
  have hall := hfill rows.length le_rfl
  rw [← hlen', List.take_length, hlen', Nat.sub_self] at hall
  simp only [addPrefillRngs, ← hneed]
  simp only [RngArrays.ofRows, hcum, hsize]
  simp only [RngArrays.ofRows] at hall
  rw [hall]
  simp

/-! ## The requests that are left -/

theorem flatten_filter_length {α : Type} (rows : List (List α)) :
    (rows.filter fun row => row.length ≠ 0).flatten = rows.flatten := by
  induction rows with
  | nil => rfl
  | cons row rows ih =>
    cases row with
    | nil => simpa using ih
    | cons x row => simpa using ih

theorem finishUpdate_ofRows {L : Type} {m : Metadata L} (hrngs : m.rngs = RngArrays.ofRows rows)
    (hlatencys : m.cumsumLatencys.length = m.isPrefillSteps.length)
    (hends : ∀ row ∈ rows, EndsBefore row m.isPrefillSteps.length)
    (hlast : ∃ row ∈ rows, ∃ r ∈ row, r.2 + 1 = m.isPrefillSteps.length) :
    finishUpdate m = some
      ({ m with rngs := RngArrays.ofRows (rows.filter fun row => row.length ≠ 0) },
        (List.range rows.length).filter fun id => (rows.getD id []).length ≠ 0) := by
  obtain ⟨row, hrow, r, hr, hlast⟩ := hlast
  have hmax : m.rngs.rngEnds.max? = some r.2 := by
    rw [hrngs]
    refine List.max?_eq_some_iff.mpr ⟨?_, fun e he => ?_⟩
    · exact List.mem_map_of_mem (List.mem_flatten.mpr ⟨row, hrow, hr⟩)
    · obtain ⟨q, hq, rfl⟩ := List.mem_map.mp he
      obtain ⟨row', hrow', hq'⟩ := List.mem_flatten.mp hq
      have := hends row' hrow' q hq'
      omega
  have hcount : (unique m.rngs.cumRngNums).getLast? = some m.rngs.rngStarts.length := by
    rw [hrngs]
    simp only [RngArrays.ofRows]
    rw [unique_cumLens, getLast?_cumLens, flatten_filter_length, List.length_map]
  have hlengths : m.rngs.rngStarts.length = m.rngs.rngEnds.length := by
    rw [hrngs]
    simp only [RngArrays.ofRows, List.length_map]
  have hleft : RngArrays.ofRows (rows.filter fun row => row.length ≠ 0) =
      { RngArrays.ofRows rows with cumRngNums := unique (cumLens rows) } := by
    rw [unique_cumLens, RngArrays.ofRows, flatten_filter_length]
    rfl
  simp only [finishUpdate, uniqueIndex, hmax, Option.bind_eq_bind, Option.bind_some]
  refine (if_pos ⟨hlengths, hlatencys, hlast, hcount⟩).trans ?_
  rw [hleft, hrngs, ← idxOf_cumLens, ← List.map_tail, List.map_map]
  rfl

end Mil.Fcfs
