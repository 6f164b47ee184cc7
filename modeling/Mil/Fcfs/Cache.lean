import Mil.Fcfs.Recording

/-!
# Cache room

Killing keeps a non-empty prefix of the running requests for which the next decode step has room,
and `get_max_iter_num` then finds at least one step to run. The two functions count differently:
the first charges the last request a whole new block, the second counts the requests that cross a
block boundary. `needed` is the common measure, the blocks held after the next step.
-/

set_option autoImplicit false

namespace Mil.Fcfs

open Mil.Lib

variable {cfg : Config} {blockSize : Nat}

theorem ceilBlocks_mono {m n : Nat} (h : m ≤ n) : ceilBlocks blockSize m ≤ ceilBlocks blockSize n :=
  Nat.div_le_div_right (by omega)

theorem ceilBlocks_succ (h : 0 < blockSize) (n : Nat) :
    ceilBlocks blockSize (n + 1) = n / blockSize + 1 := by
  rw [ceilBlocks, Nat.add_right_comm, Nat.add_sub_cancel, Nat.add_div_right n h]

theorem ceilBlocks_of_dvd (h : 0 < blockSize) {n : Nat} (hn : blockSize ∣ n) :
    ceilBlocks blockSize n = n / blockSize := by
  obtain ⟨k, rfl⟩ := hn
  rw [ceilBlocks, Nat.add_sub_assoc h, Nat.mul_add_div h, Nat.div_eq_of_lt (by omega),
    Nat.mul_div_cancel_left k h, Nat.add_zero]

theorem ceilBlocks_succ_le (h : 0 < blockSize) (n : Nat) :
    ceilBlocks blockSize (n + 1) ≤ ceilBlocks blockSize n + 1 := by
  rw [ceilBlocks_succ h]
  exact Nat.succ_le_succ (Nat.div_le_div_right (by omega))

theorem extraIterNum_pos (q : Seq) : 0 < extraIterNum blockSize q := Nat.succ_pos _

/-- A request whose last block is full needs a new one for the next step. -/
theorem blocks_add_le (h : 0 < blockSize) {q : Seq} (hlen : 1 ≤ q.len) :
    q.blocks blockSize + (if extraIterNum blockSize q = 1 then 1 else 0) ≤
      ceilBlocks blockSize q.len := by
  obtain ⟨n, hn⟩ : ∃ n, q.len = n + 1 := ⟨q.len - 1, by omega⟩
  simp only [Seq.blocks, extraIterNum, hn, Nat.add_sub_cancel]
  split
  · rename_i hfull
    have hmod : (-(n : Int)) % (blockSize : Int) = 0 := by
      have hnonneg := Int.emod_nonneg (-(n : Int)) (Int.natCast_ne_zero.mpr h.ne')
      have heq : (1 - ((n + 1 : Nat) : Int)) = -(n : Int) := by omega
      rw [heq] at hfull
      omega
    have hdvd : blockSize ∣ n :=
      Int.natCast_dvd_natCast.mp (Int.dvd_neg.mp (Int.dvd_of_emod_eq_zero hmod))
    rw [ceilBlocks_succ h, ceilBlocks_of_dvd h hdvd]
  · exact ceilBlocks_mono (Nat.le_succ n)

theorem ceilBlocks_len_le (h : 0 < blockSize) {q : Seq} (hlen : 1 ≤ q.len) :
    ceilBlocks blockSize q.len ≤ q.blocks blockSize + 1 := by
  obtain ⟨n, hn⟩ : ∃ n, q.len = n + 1 := ⟨q.len - 1, by omega⟩
  rw [Seq.blocks, hn, Nat.add_sub_cancel]
  exact ceilBlocks_succ_le h n

/-- The blocks the requests hold once each has run for another step. -/
def needed (blockSize : Nat) (seqs : List Seq) : Nat :=
  (seqs.map fun q => ceilBlocks blockSize q.len).sum

@[simp] theorem needed_cons (q : Seq) (seqs : List Seq) :
    needed blockSize (q :: seqs) = ceilBlocks blockSize q.len + needed blockSize seqs := by
  simp [needed]

@[simp] theorem blocksOf_nil : blocksOf blockSize [] = 0 := rfl

@[simp] theorem blocksOf_cons (q : Seq) (seqs : List Seq) :
    blocksOf blockSize (q :: seqs) = q.blocks blockSize + blocksOf blockSize seqs := by
  simp [blocksOf]

theorem blocksOf_add_le_needed (h : 0 < blockSize) {seqs : List Seq}
    (hlen : ∀ q ∈ seqs, 1 ≤ q.len) :
    blocksOf blockSize seqs + (seqs.map (extraIterNum blockSize)).count 1 ≤
      needed blockSize seqs := by
  induction seqs with
  | nil => exact le_rfl
  | cons q seqs ih =>
    have hq := blocks_add_le h (hlen q (.head _))
    have hseqs := ih fun q' hq' => hlen q' (.tail _ hq')
    simp only [needed_cons, blocksOf_cons, List.map_cons, List.count_cons, beq_iff_eq]
    omega

/-! ## Killing -/

@[simp] theorem approxTotBlockNums_length (acc : Nat) (seqs : List Seq) :
    (approxTotBlockNums blockSize acc seqs).length = seqs.length := by
  induction seqs generalizing acc with
  | nil => rfl
  | cons q seqs ih => simp [approxTotBlockNums, ih]

theorem approxTotBlockNums_take (acc num : Nat) (seqs : List Seq) :
    approxTotBlockNums blockSize acc (seqs.take num) =
      (approxTotBlockNums blockSize acc seqs).take num := by
  induction seqs generalizing acc num with
  | nil => simp [approxTotBlockNums]
  | cons q seqs ih => cases num <;> simp [approxTotBlockNums, ih]

/-- The last approximation bounds what all requests need: a step costs the last request at most
the one block it is charged. -/
theorem needed_le_of_approxTotBlockNums (h : 0 < blockSize) (acc : Nat) {most : Nat} {seqs : List Seq}
    (hlen : ∀ q ∈ seqs, 1 ≤ q.len) (hacc : acc ≤ most)
    (hle : ∀ a ∈ approxTotBlockNums blockSize acc seqs, a ≤ most) :
    acc + needed blockSize seqs ≤ most := by
  induction seqs generalizing acc with
  | nil => exact hacc
  | cons q seqs ih =>
    have hq := ceilBlocks_len_le h (hlen q (.head _))
    have hhead := hle _ (.head _)
    have := ih (acc + ceilBlocks blockSize q.len)
      (fun q' hq' => hlen q' (.tail _ hq')) (by omega) fun a ha => hle a (.tail _ ha)
    rw [needed_cons]
    omega

/-- The state after all running requests but the first `num` have been killed. -/
def Sched.keep (blockSize : Nat) (s : Sched) (num : Nat) : Sched :=
  { s with
    seqIds := writeSlice s.seqIds (s.pointer - (s.runningSeqs.drop num).length) s.pointer
      ((s.runningSeqs.drop num).map Seq.id)
    inpLens := writeSlice s.inpLens (s.pointer - (s.runningSeqs.drop num).length) s.pointer
      ((s.runningSeqs.drop num).map Seq.len)
    outLens := writeSlice s.outLens (s.pointer - (s.runningSeqs.drop num).length) s.pointer
      ((s.runningSeqs.drop num).map Seq.rem)
    pointer := s.pointer - (s.runningSeqs.drop num).length
    runningSeqs := s.runningSeqs.take num
    blockNumUsed := blocksOf blockSize (s.runningSeqs.take num) }

theorem killSeqsForMoreCacheSpace_spec (h : 0 < cfg.blockSize) {s : Sched} {q : Seq}
    {rest : List Seq} (hrunning : s.runningSeqs = q :: rest)
    (hlen : ∀ q ∈ s.runningSeqs, 1 ≤ q.len) (hfirst : q.blocks cfg.blockSize + 1 ≤ cfg.maxBlockNum) :
    ∃ num, 0 < num ∧ killSeqsForMoreCacheSpace cfg s = some (s.keep cfg.blockSize num) ∧
      needed cfg.blockSize (s.runningSeqs.take num) ≤ cfg.maxBlockNum := by
  set approx := approxTotBlockNums cfg.blockSize 0 s.runningSeqs with happrox
  have hlength : approx.length = s.runningSeqs.length := approxTotBlockNums_length _ _
  obtain ⟨most, hmost⟩ : ∃ most, approx.max? = some most :=
    Option.ne_none_iff_exists'.mp (by simp [happrox, hrunning, approxTotBlockNums])
  have hfits : ∀ num, (∀ a ∈ approx.take num, a ≤ cfg.maxBlockNum) →
      needed cfg.blockSize (s.runningSeqs.take num) ≤ cfg.maxBlockNum := by
    intro num hnum
    rw [happrox, ← approxTotBlockNums_take] at hnum
    have := needed_le_of_approxTotBlockNums h 0 (fun q' hq' => hlen q' (List.mem_of_mem_take hq'))
      (Nat.zero_le _) hnum
    omega
  have hkill : killSeqsForMoreCacheSpace cfg s = some (s.keep cfg.blockSize
      (if cfg.maxBlockNum < most then approx.findIdx (cfg.maxBlockNum < ·)
        else s.runningSeqs.length)) := by
    simp only [killSeqsForMoreCacheSpace, ← happrox, hmost]
    rfl
  rw [hkill]
  refine ⟨_, ?_, rfl, hfits _ fun a ha => ?_⟩
  · split
    · refine Nat.pos_of_ne_zero fun hzero => ?_
      rw [happrox, hrunning, approxTotBlockNums, List.findIdx_cons] at hzero
      simp [Nat.not_lt.mpr hfirst] at hzero
    · simp [hrunning]
  · split at ha
    · obtain ⟨i, hi, rfl⟩ := List.getElem_of_mem ha
      have hi' : i < approx.findIdx (cfg.maxBlockNum < ·) := by
        simp only [List.length_take] at hi
        omega
      have hbefore := List.not_of_lt_findIdx hi'
      simpa using hbefore
    · rename_i hmost'
      exact ((List.max?_eq_some_iff.mp hmost).2 a (List.mem_of_mem_take ha)).trans (by omega)

/-! ## Decode steps -/

theorem exists_firstExceeding {l u : List Nat} {left acc : Nat}
    (h : left < acc + (u.map l.count).sum) (hacc : acc ≤ left) :
    ∃ v, firstExceeding l left acc u = some v := by
  induction u generalizing acc with
  | nil =>
    simp only [List.map_nil, List.sum_nil] at h
    omega
  | cons v u ih =>
    rw [firstExceeding]
    split
    · exact ⟨v, rfl⟩
    · exact ih (by simpa [Nat.add_assoc] using h) (by omega)

theorem mem_of_firstExceeding {l u : List Nat} {left acc v : Nat}
    (h : firstExceeding l left acc u = some v) : v ∈ u := by
  induction u generalizing acc with
  | nil => simp [firstExceeding] at h
  | cons w u ih =>
    rw [firstExceeding] at h
    split at h
    · obtain rfl := Option.some.inj h
      exact .head _
    · exact .tail _ (ih h)

/-- The least value is chosen only if it occurs often enough by itself. -/
theorem lt_count_of_firstExceeding {l u : List Nat} {left least : Nat} (hsorted : u.Pairwise (· < ·))
    (hleast : ∀ v ∈ u, least ≤ v) (h : firstExceeding l left 0 u = some least) :
    left < l.count least := by
  cases u with
  | nil => simp [firstExceeding] at h
  | cons v u =>
    rw [firstExceeding, Nat.zero_add] at h
    split at h
    · obtain rfl := Option.some.inj h
      assumption
    · have hlt := List.rel_of_pairwise_cons hsorted (mem_of_firstExceeding h)
      have := hleast v (.head _)
      omega

/-- There is room for a step, and no request runs past its end. -/
theorem getMaxIterNum_spec (h : 0 < cfg.blockSize) {s : Sched} (hne : s.runningSeqs ≠ [])
    (hlen : ∀ q ∈ s.runningSeqs, 1 ≤ q.len) (hrem : ∀ q ∈ s.runningSeqs, 1 ≤ q.rem)
    (hused : s.blockNumUsed = blocksOf cfg.blockSize s.runningSeqs)
    (hfit : needed cfg.blockSize s.runningSeqs ≤ cfg.maxBlockNum) :
    ∃ n, getMaxIterNum cfg s = some n ∧ 0 < n ∧ ∀ q ∈ s.runningSeqs, n ≤ q.rem := by
  set extras := s.runningSeqs.map (extraIterNum cfg.blockSize) with hextras
  set free := cfg.maxBlockNum - s.blockNumUsed with hfree
  have hnum : 0 < s.runningSeqs.length := List.length_pos_of_ne_nil hne
  have hleft : free % s.runningSeqs.length < 0 + ((unique extras).map extras.count).sum := by
    rw [sum_count_unique, hextras, List.length_map, Nat.zero_add]
    exact Nat.mod_lt _ hnum
  obtain ⟨extra, hextra⟩ := exists_firstExceeding hleft (Nat.zero_le _)
  obtain ⟨least, hleast⟩ : ∃ least, (s.runningSeqs.map Seq.rem).min? = some least :=
    Option.ne_none_iff_exists'.mp (by simpa using hne)
  obtain ⟨hleast_mem, hleast_le⟩ := List.min?_eq_some_iff.mp hleast
  have hpos : ∀ v ∈ unique extras, 1 ≤ v := by
    intro v hv
    obtain ⟨q, -, rfl⟩ := List.mem_map.mp (mem_unique.mp hv)
    exact extraIterNum_pos q
  refine ⟨min least (free / s.runningSeqs.length * cfg.blockSize + (extra - 1)), ?_, ?_, ?_⟩
  · simp only [getMaxIterNum, ← hextras, ← hfree, hextra, hleast]
    rfl
  · obtain ⟨q, hq, hq'⟩ := List.mem_map.mp hleast_mem
    have := hrem q hq
    refine Nat.lt_min.mpr ⟨by omega, ?_⟩
    by_cases hwhole : free < s.runningSeqs.length
    · -- Fewer free blocks than requests: some request crosses no block boundary.
      have hne1 : extra ≠ 1 := by
        rintro rfl
        rw [Nat.mod_eq_of_lt hwhole] at hextra
        have hcount := lt_count_of_firstExceeding (unique_pairwise extras) hpos hextra
        have hcross := blocksOf_add_le_needed h hlen
        rw [← hextras] at hcross
        omega
      have := hpos extra (mem_of_firstExceeding hextra)
      omega
    · have : 1 * 1 ≤ free / s.runningSeqs.length * cfg.blockSize :=
        Nat.mul_le_mul (Nat.div_pos (by omega) hnum) h
      omega
  · intro q hq
    exact (Nat.min_le_left _ _).trans (hleast_le _ (List.mem_map_of_mem hq))

end Mil.Fcfs
