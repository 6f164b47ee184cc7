import Mil.Fcfs.RestartStep

/-!
# One restart keeps the tokens

The metadata of a schedule are restarted into well-formed metadata for the tokens that are left:
the iterations after the stop that lose a request are closed or keep another one, and what the
running requests lose with the dropped decode step they get back with the prefill step.
-/

set_option autoImplicit false

namespace Mil.Fcfs

open Mil.Lib

variable {L : Type} {m : Metadata L} {rows : List (List Rng)} {out : List Nat} {stopIter : Nat}

/-! ## The parts of a restart -/

/-- The ranges of the requests after the stop, before anything is dropped. -/
def aliveRows (rows : List (List Rng)) (stopIter : Nat) : List (List Rng) :=
  rows.map (restFrom (stopIter + 1))

def runningIds (m : Metadata L) (rows : List (List Rng)) (stopIter : Nat) : List Nat :=
  (List.range (aliveRows rows stopIter).length).filter fun id =>
    startsWithDecode m.isPrefillSteps (stopIter + 1) ((aliveRows rows stopIter).getD id [])

theorem aliveRows_length : (aliveRows rows stopIter).length = rows.length := List.length_map _

theorem getElem?_aliveRows {id : Nat} {row : List Rng} (h : rows[id]? = some row) :
    (aliveRows rows stopIter)[id]? = some (restFrom (stopIter + 1) row) := by
  rw [aliveRows, List.getElem?_map, h, Option.map_some]

theorem Metadata.WellFormed.alive_increasing (h : m.WellFormed rows out) (stopIter : Nat) :
    ∀ row ∈ aliveRows rows stopIter, Increasing 0 row := by
  intro row hrow
  obtain ⟨row₀, hrow₀, rfl⟩ := List.mem_map.mp hrow
  exact (h.increasing row₀ hrow₀).restFrom _

theorem Metadata.WellFormed.alive_ends (h : m.WellFormed rows out) (stopIter : Nat) :
    ∀ row ∈ aliveRows rows stopIter, EndsBefore row (m.isPrefillSteps.length - (stopIter + 1)) := by
  intro row hrow
  obtain ⟨row₀, hrow₀, rfl⟩ := List.mem_map.mp hrow
  exact (h.ends row₀ hrow₀).restFrom _

theorem Metadata.WellFormed.alive_attended (h : m.WellFormed rows out) (stopIter : Nat) {t : Nat}
    (ht : t < m.isPrefillSteps.length - (stopIter + 1)) :
    ∃ row ∈ aliveRows rows stopIter, Attends row t := by
  obtain ⟨row, hrow, hat⟩ := h.attended (t + (stopIter + 1)) (by omega)
  exact ⟨_, List.mem_map_of_mem hrow, (attends_restFrom _ t).mpr hat⟩

/-- The tokens before the stop and those after it. -/
theorem Metadata.WellFormed.alive_tokens (h : m.WellFormed rows out) (stopIter : Nat) {id : Nat}
    (hid : id < out.length) :
    iterNum ((aliveRows rows stopIter).getD id []) +
      (getInfoAtStopTime m.rngs stopIter).getD id 0 = out.getD id 0 := by
  have hid' : id < rows.length := h.rows_length ▸ hid
  have hout : out.getD id 0 = iterNum rows[id] := by
    rw [← h.tokens]
    simp [List.getD_eq_getElem?_getD, hid']
  have hdone : (getInfoAtStopTime m.rngs stopIter).getD id 0 = doneBy stopIter rows[id] := by
    rw [h.rngs_eq, getInfoAtStopTime_ofRows]
    simp [List.getD_eq_getElem?_getD, hid']
  rw [List.getD_eq_getElem?_getD, getElem?_aliveRows (List.getElem?_eq_getElem hid'),
    Option.getD_some, hdone, hout]
  exact iterNum_restFrom (h.increasing _ (List.getElem_mem hid')) stopIter

theorem runningIds_nodup : (runningIds m rows stopIter).Nodup := List.nodup_range.filter _

theorem mem_runningIds {id : Nat} (hid : id ∈ runningIds m rows stopIter) :
    id < rows.length ∧ ∃ row r rest, rows[id]? = some row ∧
      restFrom (stopIter + 1) row = r :: rest ∧
      m.isPrefillSteps.getD (r.1 + (stopIter + 1)) false = false := by
  obtain ⟨hlt, hdecode⟩ := List.mem_filter.mp hid
  rw [List.mem_range, aliveRows_length] at hlt
  have hrow := List.getElem?_eq_getElem hlt
  rw [List.getD_eq_getElem?_getD, getElem?_aliveRows hrow, Option.getD_some] at hdecode
  obtain ⟨r, rest, hcons, hflag⟩ := startsWithDecode_iff.mp hdecode
  exact ⟨hlt, _, r, rest, hrow, hcons, hflag⟩

theorem runningIds_head : ∀ id ∈ runningIds m rows stopIter,
    ∃ r rest, (aliveRows rows stopIter)[id]? = some (r :: rest) := by
  intro id hid
  obtain ⟨-, row, r, rest, hrow, hcons, -⟩ := mem_runningIds hid
  exact ⟨r, rest, by rw [getElem?_aliveRows hrow, hcons]⟩

/-- The ranges after the first decode steps have been dropped. -/
def droppedRows (m : Metadata L) (rows : List (List Rng)) (stopIter : Nat) : List (List Rng) :=
  onRows (runningIds m rows stopIter) (fun _ => dropFirst) (aliveRows rows stopIter)

/-- `first_decode_iter_is`, sorted and without repetitions. -/
def firstDecodeIters (m : Metadata L) (rows : List (List Rng)) (stopIter : Nat) : List Nat :=
  unique ((runningIds m rows stopIter).map fun id =>
    (((aliveRows rows stopIter).getD id []).headD (0, 0)).1)

theorem mem_firstDecodeIters {i : Nat} : i ∈ firstDecodeIters m rows stopIter ↔
    ∃ id ∈ runningIds m rows stopIter, ∃ r rest,
      (aliveRows rows stopIter)[id]? = some (r :: rest) ∧ r.1 = i := by
  rw [firstDecodeIters, mem_unique, List.mem_map]
  refine exists_congr fun id => and_congr_right fun hid => ?_
  obtain ⟨r, rest, hrow⟩ := runningIds_head id hid
  simp only [List.getD_eq_getElem?_getD, hrow, Option.getD_some, List.headD_cons,
    Option.some.injEq, List.cons.injEq]
  constructor
  · rintro rfl
    exact ⟨r, rest, ⟨rfl, rfl⟩, rfl⟩
  · rintro ⟨r', rest', ⟨rfl, -⟩, rfl⟩
    rfl

/-- The iterations that lose a request but are not the last of these keep another one. -/
theorem firstDecodeIters_kept (h : m.WellFormed rows out)
    (hkept : EarlierKept m out.length stopIter) : ∀ i ∈ firstDecodeIters m rows stopIter,
      ∀ j ∈ firstDecodeIters m rows stopIter, i < j →
        ∃ row ∈ droppedRows m rows stopIter, Attends row i := by
  intro i hi j hj hlt
  have hfirst : ∀ i ∈ firstDecodeIters m rows stopIter, ∃ id < out.length,
      FirstDecode m stopIter id (i + (stopIter + 1)) := by
    intro i hi
    obtain ⟨id, hid, r, rest, hrow, rfl⟩ := mem_firstDecodeIters.mp hi
    obtain ⟨hlt, row, r', rest', hrow', hcons, hflag⟩ := mem_runningIds hid
    rw [getElem?_aliveRows hrow', hcons, Option.some.injEq, List.cons.injEq] at hrow
    obtain ⟨rfl, -⟩ := hrow
    exact ⟨id, h.rows_length ▸ hlt, firstDecode_of_restFrom h hrow' hcons hflag⟩
  obtain ⟨id, hid, hdecode⟩ := hfirst i hi
  obtain ⟨id', hid', hdecode'⟩ := hfirst j hj
  obtain ⟨k, hk, hat, u, hu, hult, hatu⟩ := hkept id hid _ hdecode id' hid' _ hdecode' (by omega)
  have hk' : k < rows.length := h.rows_length ▸ hk
  rw [h.rngs_eq, row_ofRows (List.getElem?_eq_getElem hk')] at hat hatu
  refine attends_drop_of_earlier (u := u - (stopIter + 1)) (h.alive_increasing _)
    (List.mem_map_of_mem (List.getElem_mem hk')) ((attends_restFrom _ _).mpr hat)
    ((attends_restFrom _ _).mpr ?_) (by omega)
  rwa [Nat.sub_add_cancel (by omega)]

theorem firstDecodeIters_lt (h : m.WellFormed rows out) :
    ∀ i ∈ firstDecodeIters m rows stopIter, i < m.isPrefillSteps.length - (stopIter + 1) := by
  intro i hi
  obtain ⟨id, -, r, rest, hrow, rfl⟩ := mem_firstDecodeIters.mp hi
  have hmem := List.mem_of_getElem? hrow
  exact Nat.lt_of_le_of_lt (h.alive_increasing _ _ hmem |>.le r (.head _))
    (h.alive_ends _ _ hmem r (.head _))

theorem dropped_ends (h : m.WellFormed rows out) : ∀ row ∈ droppedRows m rows stopIter,
    EndsBefore row (m.isPrefillSteps.length - (stopIter + 1)) := by
  intro row hrow
  obtain ⟨id, row₀, hrow₀, -, rfl⟩ := mem_onRows hrow
  split
  · exact (h.alive_ends _ row₀ hrow₀).dropFirst
  · exact h.alive_ends _ row₀ hrow₀

theorem dropped_attended (h : m.WellFormed rows out) :
    ∀ t < m.isPrefillSteps.length - (stopIter + 1), t ∉ firstDecodeIters m rows stopIter →
      ∃ row ∈ droppedRows m rows stopIter, Attends row t := by
  intro t ht hnot
  refine attends_drop_of_ne (h.alive_increasing _) (h.alive_attended _ ht)
    fun id hid r rest hrow heq => hnot ?_
  exact mem_firstDecodeIters.mpr ⟨id, hid, r, rest, hrow, heq.symm⟩

/-! ## Prefill and survivors -/

/-- The requests that have tokens left, given the tokens they have generated. -/
def unfinishedIds (finished out : List Nat) : List Nat :=
  (List.range out.length).filter fun id => finished.getD id 0 < out.getD id 0

/-- Before the first prompt nothing is recorded. -/
theorem recorded_replicate (num : Nat) : Recorded ⟨[], [], List.replicate num [], 0⟩ := by
  have hrngs : ∀ id, Progress.rngs ⟨[], [], List.replicate num [], 0⟩ id = [] := by
    intro id
    simp only [Progress.rngs, List.getD_eq_getElem?_getD, List.getElem?_replicate]
    split <;> rfl
  refine ⟨fun id => ?_, fun id => ?_, fun t ht => absurd ht (Nat.not_lt_zero t)⟩
  · rw [hrngs]
    exact Increasing.nil
  · rw [hrngs]
    exact fun _ hr => absurd hr List.not_mem_nil

/-- The prefill steps of a restart are recorded, every prompt fits a batch of its own. -/
theorem exists_restart_prefill (h : m.WellFormed rows out) (stopIter : Nat) {maxNumBatchedTokens : Nat}
    {inp : List Nat} (hinp : inp.length = out.length)
    (hbudget : ∀ id < out.length, inp.getD id 0 + out.getD id 0 ≤ maxNumBatchedTokens) :
    ∃ p, updatePrefillLogs maxNumBatchedTokens ((runningIds m rows stopIter).map fun id =>
        (inp.getD id 0 + (getInfoAtStopTime m.rngs stopIter).getD id 0, id))
      ⟨[], [], List.replicate inp.length [], 0⟩ = some p ∧
      Prefilled ⟨[], [], List.replicate inp.length [], 0⟩ p (runningIds m rows stopIter) := by
  have hids : ((runningIds m rows stopIter).map fun id =>
      (inp.getD id 0 + (getInfoAtStopTime m.rngs stopIter).getD id 0, id)).map Prod.snd =
      runningIds m rows stopIter := by
    rw [List.map_map]
    exact List.map_id _
  have hspec := updatePrefillLogs_spec maxNumBatchedTokens
    ((runningIds m rows stopIter).map fun id =>
      (inp.getD id 0 + (getInfoAtStopTime m.rngs stopIter).getD id 0, id))
    (recorded_replicate inp.length)
    (by rw [hids]; exact runningIds_nodup)
    (by
      rw [hids]
      intro id hid
      have := (mem_runningIds hid).1
      have := h.rows_length
      rw [List.length_replicate]
      omega)
    (by
      intro prompt hprompt
      obtain ⟨id, hid, rfl⟩ := List.mem_map.mp hprompt
      have hid' : id < out.length := h.rows_length ▸ (mem_runningIds hid).1
      have := hbudget id hid'
      have := h.alive_tokens stopIter hid'
      simp only
      omega)
  rwa [hids] at hspec

theorem filter_eq_map_getD {α : Type} (l : List α) (p : α → Bool) (d : α) :
    l.filter p = ((List.range l.length).filter fun i => p (l.getD i d)).map fun i => l.getD i d := by
  have hl := map_eq_map_range l id d
  rw [List.map_id] at hl
  conv_lhs => rw [hl, List.filter_map]
  rfl

/-- The requests that are left at the end. -/
theorem finish_wellFormed {m : Metadata L} {finalRows : List (List Rng)} {finished : List Nat}
    (hrngs : m.rngs = RngArrays.ofRows finalRows)
    (hlatencys : m.cumsumLatencys.length = m.isPrefillSteps.length)
    (hthroughput : m.throughput.length = m.isPrefillSteps.length)
    (hlength : finalRows.length = out.length)
    (hincreasing : ∀ row ∈ finalRows, Increasing 0 row)
    (hends : ∀ row ∈ finalRows, EndsBefore row m.isPrefillSteps.length)
    (htokens : ∀ id < out.length,
      iterNum (finalRows.getD id []) + finished.getD id 0 = out.getD id 0)
    (hattended : ∀ t < m.isPrefillSteps.length, ∃ row ∈ finalRows, Attends row t)
    (hsome : ∃ id < out.length, finished.getD id 0 < out.getD id 0) :
    ∃ m' rows', finishUpdate m = some (m', unfinishedIds finished out) ∧
      m'.WellFormed rows' ((unfinishedIds finished out).map fun id =>
        out.getD id 0 - finished.getD id 0) := by
  have hmem : ∀ id < out.length, finalRows.getD id [] ∈ finalRows := fun id hid => by
    rw [List.getD_eq_getElem?_getD, List.getElem?_eq_getElem (hlength ▸ hid)]
    exact List.getElem_mem _
  -- a request has a range left exactly when it has tokens left
  have hleft : ∀ id < out.length,
      (finalRows.getD id []).length ≠ 0 ↔ finished.getD id 0 < out.getD id 0 := by
    intro id hid
    have htok := htokens id hid
    have hinc := hincreasing _ (hmem id hid)
    constructor
    · intro hne
      have hzero : iterNum (finalRows.getD id []) ≠ 0 := fun hzero =>
        hne (by rw [eq_nil_of_iterNum_eq_zero hinc hzero]; rfl)
      omega
    · intro hlt hzero
      rw [List.eq_nil_of_length_eq_zero hzero, iterNum_nil] at htok
      omega
  have hvalid : ((List.range finalRows.length).filter fun id =>
      (finalRows.getD id []).length ≠ 0) = unfinishedIds finished out := by
    rw [unfinishedIds, hlength]
    exact List.filter_congr fun id hid => decide_eq_decide.mpr (hleft id (List.mem_range.mp hid))
  have hrows' : (finalRows.filter fun row => row.length ≠ 0) =
      (unfinishedIds finished out).map fun id => finalRows.getD id [] := by
    rw [filter_eq_map_getD _ _ [], hvalid]
  have hpos : 0 < m.isPrefillSteps.length := by
    obtain ⟨id, hid, hlt⟩ := hsome
    obtain ⟨r, rest, hcons⟩ := List.exists_cons_of_length_pos
      (Nat.pos_of_ne_zero ((hleft id hid).mpr hlt))
    have := hends _ (hmem id hid) r (by rw [hcons]; exact .head _)
    omega
  -- the last step is attended, so it ends a range and the lengths are cut nowhere else
  have hlast : ∃ row ∈ finalRows, ∃ r ∈ row, r.2 + 1 = m.isPrefillSteps.length := by
    obtain ⟨row, hrow, r, hr, -, hle⟩ := hattended (m.isPrefillSteps.length - 1) (by omega)
    have := hends row hrow r hr
    exact ⟨row, hrow, r, hr, by omega⟩
  have hfinish := finishUpdate_ofRows hrngs hlatencys hends hlast
  rw [hvalid] at hfinish
  refine ⟨_, _, hfinish, rfl, ?_, hlatencys, hthroughput, ?_, ?_, ?_, fun t ht => ?_⟩
  · rw [hrows', List.length_map, List.length_map]
  · exact fun row hrow => hincreasing row (List.mem_of_mem_filter hrow)
  · exact fun row hrow => hends row (List.mem_of_mem_filter hrow)
  · rw [hrows', List.map_map]
    refine List.map_congr_left fun id hid => ?_
    have := htokens id (List.mem_range.mp (List.mem_of_mem_filter hid))
    simp only [Function.comp_apply]
    omega
  · obtain ⟨row, hrow, hat⟩ := hattended t ht
    refine ⟨row, List.mem_filter.mpr ⟨hrow, ?_⟩, hat⟩
    cases row with
    | nil => exact absurd hat (attends_nil t)
    | cons r rest => rfl

/-! ## One restart -/

section

variable [Zero L] [Add L] [Sub L] [Mul L] [Div L]

/-- The metadata that enter the loop over the first decode steps. -/
theorem partial_prependPrefill (cost : CostTable L) (h : m.WellFormed rows out) (p : Progress) :
    (prependPrefill cost m (stopIter + 1) p
        (RngArrays.ofRows (droppedRows m rows stopIter))).Partial (droppedRows m rows stopIter)
      p.prefillLogs.length (m.isPrefillSteps.length - (stopIter + 1)) where
  rngs_eq := rfl
  flags_length := prependPrefill_flags_length cost m _ p _
  latencys_length := prependPrefill_latencys_length cost _ p _ h.latencys_length
  throughput_length := prependPrefill_throughput_length cost (Nat.succ_pos _) p _
    h.latencys_length h.throughput_length
  increasing row hrow := by
    obtain ⟨id, row₀, hrow₀, -, rfl⟩ := mem_onRows hrow
    split
    · exact (h.alive_increasing _ row₀ hrow₀).dropFirst
    · exact h.alive_increasing _ row₀ hrow₀
  ends := dropped_ends h

/-- The restart of well-formed metadata, up to the prefill of the running requests. -/
theorem updateMetadata_eq (cost : CostTable L) (maxNumBatchedTokens : Nat) (inp : List Nat)
    (h : m.WellFormed rows out) : updateMetadata cost maxNumBatchedTokens inp m stopIter =
      (updatePrefillLogs maxNumBatchedTokens ((runningIds m rows stopIter).map fun id =>
          (inp.getD id 0 + (getInfoAtStopTime m.rngs stopIter).getD id 0, id))
        ⟨[], [], List.replicate inp.length [], 0⟩).bind fun p =>
      let m' := (firstDecodeIters m rows stopIter).foldl (removeIfUnattended p.prefillLogs.length)
        (prependPrefill cost m (stopIter + 1) p
          (RngArrays.ofRows (droppedRows m rows stopIter)))
      let rngs := { m'.rngs with
        rngStarts := m'.rngs.rngStarts.map (· + p.prefillLogs.length)
        rngEnds := m'.rngs.rngEnds.map (· + p.prefillLogs.length) }
      finishUpdate { m' with
        rngs := addPrefillRngs inp.length (runningIds m rows stopIter) p.inferProgress rngs } := by
  have halive : aliveRngs m.rngs (stopIter + 1) = ((aliveRows rows stopIter).map List.length,
      RngArrays.ofRows (aliveRows rows stopIter)) := by
    rw [h.rngs_eq, aliveRngs_ofRows]
    rfl
  have hrunning : runningSeqIds m.isPrefillSteps (stopIter + 1)
      ((aliveRows rows stopIter).map List.length) (RngArrays.ofRows (aliveRows rows stopIter)) =
      runningIds m rows stopIter := runningSeqIds_ofRows _ _ _
  have hdropped : dropFirstDecode (runningIds m rows stopIter)
      (RngArrays.ofRows (aliveRows rows stopIter)) =
      (RngArrays.ofRows (droppedRows m rows stopIter),
        (runningIds m rows stopIter).map fun id =>
          (((aliveRows rows stopIter).getD id []).headD (0, 0)).1) :=
    Prod.ext (dropFirstDecode_ofRows runningIds_nodup (h.alive_increasing _) runningIds_head)
      (dropFirstDecode_ofRows_snd runningIds_head)
  simp only [updateMetadata, halive, hrunning, hdropped]
  refine congrArg _ (funext fun p => ?_)
  have hcount : (prependPrefill cost m (stopIter + 1) p
      (RngArrays.ofRows (droppedRows m rows stopIter))).rngs.cumRngNums.getLast? =
      some (prependPrefill cost m (stopIter + 1) p
        (RngArrays.ofRows (droppedRows m rows stopIter))).rngs.rngStarts.length := by
    simp only [prependPrefill, RngArrays.ofRows]
    rw [getLast?_cumLens, List.length_map]
  rw [if_pos hcount]
  rfl

/-- A restart of well-formed metadata is well formed for the tokens that are left, and the
requests it keeps are those that have some. -/
theorem updateMetadata_spec (cost : CostTable L) {maxNumBatchedTokens : Nat} {inp : List Nat}
    (h : m.WellFormed rows out) (hinp : inp.length = out.length)
    (hbudget : ∀ id < out.length, inp.getD id 0 + out.getD id 0 ≤ maxNumBatchedTokens)
    (hstop : stopIter + 1 < m.isPrefillSteps.length) (hkept : EarlierKept m out.length stopIter) :
    ∃ m' rows', updateMetadata cost maxNumBatchedTokens inp m stopIter =
        some (m', unfinishedIds (getInfoAtStopTime m.rngs stopIter) out) ∧
      m'.WellFormed rows' ((unfinishedIds (getInfoAtStopTime m.rngs stopIter) out).map fun id =>
        out.getD id 0 - (getInfoAtStopTime m.rngs stopIter).getD id 0) := by
  obtain ⟨p, hupdate, hp⟩ := exists_restart_prefill h stopIter hinp hbudget
  obtain ⟨prefill, hprefill, hnone, hsteps⟩ := exists_prefill hp
  have hsorted : (firstDecodeIters m rows stopIter).Pairwise (· < ·) := unique_pairwise _
  obtain ⟨rows', num', hshrunk, hiterNum, hattended⟩ :=
    (partial_prependPrefill cost h p).close hsorted (firstDecodeIters_lt h)
      (firstDecodeIters_kept h hkept) (dropped_attended h)
  rw [updateMetadata_eq cost maxNumBatchedTokens inp h, hupdate, Option.bind_some]
  set m' := (firstDecodeIters m rows stopIter).foldl (removeIfUnattended p.prefillLogs.length)
    (prependPrefill cost m (stopIter + 1) p (RngArrays.ofRows (droppedRows m rows stopIter)))
  have hlength : rows'.length = out.length := by
    have := congrArg List.length hiterNum
    simpa [droppedRows, aliveRows_length, h.rows_length] using this
  have hids : ∀ id ∈ runningIds m rows stopIter, id < rows'.length := fun id hid => by
    rw [hlength, ← h.rows_length]
    exact (mem_runningIds hid).1
  obtain ⟨hrows, htokens, hattended'⟩ := prepend_prefill (runningIds m rows stopIter)
    prefill hshrunk.increasing hshrunk.ends hids
    (fun id hid => (hprefill id hid).2) hsteps hattended
  have hadd : addPrefillRngs inp.length (runningIds m rows stopIter) p.inferProgress
      { m'.rngs with
        rngStarts := m'.rngs.rngStarts.map (· + p.prefillLogs.length)
        rngEnds := m'.rngs.rngEnds.map (· + p.prefillLogs.length) } =
      RngArrays.ofRows (onRows (runningIds m rows stopIter) (fun id => prependRng (prefill id))
        (rows'.map (shiftBy p.prefillLogs.length))) := by
    rw [hshrunk.rngs_eq, ← ofRows_shiftBy,
      ← addPrefillRngs_ofRows (fun id hid => (hprefill id hid).1) hnone, List.length_map, hlength,
      hinp]
  simp only [hadd]
  refine finish_wellFormed rfl hshrunk.latencys_length hshrunk.throughput_length
    (by rw [onRows_length, List.length_map, hlength]) (fun row hrow => (hrows row hrow).1)
    (fun row hrow => hshrunk.flags_length ▸ (hrows row hrow).2) (fun id hid => ?_)
    (by rw [hshrunk.flags_length]; exact hattended') ?_
  · have hdropped : iterNum (rows'.getD id []) =
        iterNum ((droppedRows m rows stopIter).getD id []) := by
      have := congrArg (fun l => l.getD id 0) hiterNum
      simpa [List.getD_eq_getElem?_getD, hlength, hid, droppedRows, aliveRows_length,
        h.rows_length] using this
    have hdrop := iterNum_drop (h.alive_increasing stopIter) (runningIds_head (m := m))
      ((aliveRows_length.trans h.rows_length).symm ▸ hid)
    rw [htokens id (hlength ▸ hid), hdropped, ← h.alive_tokens stopIter hid]
    exact congrArg (· + _) hdrop
  · -- The last iteration comes after the stop.
    obtain ⟨row, hrow, hat⟩ := h.alive_attended stopIter
      (t := m.isPrefillSteps.length - (stopIter + 1) - 1) (by omega)
    obtain ⟨id, hid, rfl⟩ := List.getElem_of_mem hrow
    have hid' : id < out.length := by rwa [aliveRows_length, h.rows_length] at hid
    refine ⟨id, hid', ?_⟩
    have htok := h.alive_tokens stopIter hid'
    rw [List.getD_eq_getElem?_getD, List.getElem?_eq_getElem hid, Option.getD_some] at htok
    have hne : iterNum (aliveRows rows stopIter)[id] ≠ 0 := fun hzero => by
      rw [eq_nil_of_iterNum_eq_zero (h.alive_increasing _ _ hrow) hzero] at hat
      exact attends_nil _ hat
    omega

end

end Mil.Fcfs
