import Mil.Fcfs.Cache

/-!
# The queue behind the arrays

The three arrays, read from the pointer on, are the queue of waiting requests. Admission moves a
prefix of it to the running requests, and killing puts a suffix of the running requests back in
front of it: `live`, the running requests followed by the waiting ones, is not changed by that.
-/

set_option autoImplicit false

namespace Mil.Fcfs

open Mil.Lib

variable {cfg : Config} {n : Nat} {s : Sched}

/-- The three arrays as one. -/
def Sched.entries (s : Sched) : List Seq :=
  (s.seqIds.zip (s.inpLens.zip s.outLens)).map fun e => ⟨e.1, e.2.1, e.2.2⟩

def Sched.waiting (s : Sched) : List Seq := s.entries.drop s.pointer

/-- The unfinished requests in first-come-first-served order. -/
def Sched.live (s : Sched) : List Seq := s.runningSeqs ++ s.waiting

/-- The arrays have one slot for each of the `n` requests, and the slots of the running requests
are behind the pointer: there is a place for each to be written back. -/
structure Sched.Arrays (n : Nat) (s : Sched) : Prop where
  inpLens : s.inpLens.length = n
  outLens : s.outLens.length = n
  seqIds : s.seqIds.length = n
  pointer_le : s.pointer ≤ n
  running_le : s.runningSeqs.length ≤ s.pointer

theorem Sched.Arrays.entries_length (h : s.Arrays n) : s.entries.length = n := by
  simp [Sched.entries, h.inpLens, h.outLens, h.seqIds]

theorem Sched.Arrays.waiting_length (h : s.Arrays n) : s.waiting.length = n - s.pointer := by
  rw [Sched.waiting, List.length_drop, h.entries_length]

/-- The request at the pointer is the head of the queue. -/
theorem Sched.Arrays.waiting_eq_cons (h : s.Arrays n) (hlt : s.pointer < n) :
    s.waiting = ⟨s.seqIds.getD s.pointer 0, s.inpLens.getD s.pointer 0,
      s.outLens.getD s.pointer 0⟩ :: s.entries.drop (s.pointer + 1) := by
  have hlt' : s.pointer < s.entries.length := h.entries_length.symm ▸ hlt
  rw [Sched.waiting, List.drop_eq_getElem_cons hlt']
  simp [Sched.entries, List.getD_eq_getElem?_getD, h.inpLens, h.outLens, h.seqIds, hlt]

/-! ## Admission -/

/-- A request that has generated `k` more tokens. -/
def Seq.advance (k : Nat) (q : Seq) : Seq := { q with len := q.len + k, rem := q.rem - k }

/-- The requests of `seqs` that do not end with their next `k` tokens, after these tokens. -/
def advanceAll (k : Nat) (seqs : List Seq) : List Seq :=
  (seqs.filter fun q => q.rem ≠ k).map (Seq.advance k)

theorem advanceAll_append (k : Nat) (seqs seqs' : List Seq) :
    advanceAll k (seqs ++ seqs') = advanceAll k seqs ++ advanceAll k seqs' := by
  simp [advanceAll]

theorem blocksOf_append (blockSize : Nat) (seqs seqs' : List Seq) :
    blocksOf blockSize (seqs ++ seqs') = blocksOf blockSize seqs + blocksOf blockSize seqs' := by
  simp [blocksOf]

/-- The state after the requests `took` have been admitted. -/
def Sched.admitted (blockSize : Nat) (s : Sched) (took : List Seq) : Sched :=
  { s with
    runningSeqs := s.runningSeqs ++ advanceAll 1 took
    blockNumUsed := s.blockNumUsed + blocksOf blockSize (advanceAll 1 took)
    pointer := s.pointer + took.length
    unfinishedReqnum := s.unfinishedReqnum - took.countP fun q => q.rem = 1 }

theorem Sched.admitted_ends (blockSize : Nat) (s : Sched) {q : Seq} (hrem : q.rem = 1) :
    s.admitted blockSize [q] = { s with
      unfinishedReqnum := s.unfinishedReqnum - 1
      pointer := s.pointer + 1 } := by
  simp [Sched.admitted, advanceAll, hrem]

theorem Sched.admitted_runs (blockSize : Nat) (s : Sched) {q : Seq} (hrem : q.rem ≠ 1) :
    s.admitted blockSize [q] = { s with
      runningSeqs := s.runningSeqs ++ [⟨q.id, q.len + 1, q.rem - 1⟩]
      blockNumUsed := s.blockNumUsed + ceilBlocks blockSize q.len
      pointer := s.pointer + 1 } := by
  simp [Sched.admitted, advanceAll, hrem, Seq.advance, Seq.blocks]

theorem Sched.admitted_nil (blockSize : Nat) (s : Sched) : s.admitted blockSize [] = s := by
  simp [Sched.admitted, advanceAll]

theorem Sched.admitted_admitted (blockSize : Nat) (s : Sched) (took took' : List Seq) :
    (s.admitted blockSize took).admitted blockSize took' =
      s.admitted blockSize (took ++ took') := by
  simp only [Sched.admitted, advanceAll_append, blocksOf_append, List.append_assoc, Nat.add_assoc,
    List.length_append, List.countP_append, Nat.sub_add_eq]

theorem Sched.admitted_waiting (blockSize : Nat) (s : Sched) (took : List Seq) :
    (s.admitted blockSize took).waiting = s.waiting.drop took.length := by
  rw [Sched.waiting, Sched.waiting, List.drop_drop]
  rfl

theorem Sched.Arrays.admitted (h : s.Arrays n) (blockSize : Nat) (took : List Seq) {rest : List Seq}
    (hwaiting : s.waiting = took ++ rest) : (s.admitted blockSize took).Arrays n where
  inpLens := h.inpLens
  outLens := h.outLens
  seqIds := h.seqIds
  pointer_le := by
    have hlength := congrArg List.length hwaiting
    rw [h.waiting_length, List.length_append] at hlength
    have := h.pointer_le
    simp only [Sched.admitted]
    omega
  running_le := by
    have hle : (advanceAll 1 took).length ≤ took.length := by
      rw [advanceAll, List.length_map]
      exact List.length_filter_le _ _
    have := h.running_le
    simp only [Sched.admitted, List.length_append]
    omega

/-- Whether the request at the head of the queue is admitted. -/
def Room (cfg : Config) (s : Sched) (q : Seq) : Prop :=
  hasEnoughCache cfg s.blockNumUsed 1 = true ∧ s.runningSeqs.length < cfg.maxSeqNum ∧
    hasEnoughCache cfg s.blockNumUsed q.len = true

/-- One pass of the admission loop stops, or admits the head of the queue. -/
theorem admitWaiting_cases (cfg : Config) (h : s.Arrays n) (fuel : Nat) (prompts : List (Nat × Nat)) :
    (admitWaiting cfg (fuel + 1) s prompts = (s, prompts) ∧
      ∀ q rest, s.waiting = q :: rest → ¬ Room cfg s q) ∨
    ∃ q rest, s.waiting = q :: rest ∧ admitWaiting cfg (fuel + 1) s prompts =
      admitWaiting cfg fuel (s.admitted cfg.blockSize [q]) (prompts ++ [(q.len, q.id)]) := by
  rw [admitWaiting]
  split
  · rename_i hguard
    obtain ⟨hlt, hone, hnum⟩ := hguard
    have hcons := h.waiting_eq_cons (h.inpLens ▸ hlt)
    simp only
    split
    · refine .inr ⟨_, _, hcons, ?_⟩
      split
      · rename_i hout
        rw [Sched.admitted_ends _ _ hout]
      · rename_i hout
        rw [Sched.admitted_runs _ _ hout]
    · rename_i hfull
      refine .inl ⟨rfl, fun q rest hq hroom => hfull ?_⟩
      obtain rfl := (List.cons.inj (hcons.symm.trans hq)).1
      exact hroom.2.2
  · rename_i hguard
    refine .inl ⟨rfl, fun q rest hq hroom => hguard ⟨?_, hroom.1, hroom.2.1⟩⟩
    have hlength := congrArg List.length hq
    rw [h.waiting_length, List.length_cons] at hlength
    rw [h.inpLens]
    omega

/-- Admission takes requests from the head of the queue, one after the other. -/
theorem admitWaiting_spec (cfg : Config) (fuel : Nat) (h : s.Arrays n) (prompts : List (Nat × Nat)) :
    ∃ took rest, s.waiting = took ++ rest ∧ admitWaiting cfg fuel s prompts =
      (s.admitted cfg.blockSize took, prompts ++ took.map fun q => (q.len, q.id)) := by
  induction fuel generalizing s prompts with
  | zero => exact ⟨[], s.waiting, rfl, by simp [admitWaiting, Sched.admitted_nil]⟩
  | succ fuel ih =>
    rcases admitWaiting_cases cfg h fuel prompts with ⟨hstop, -⟩ | ⟨q, rest, hwaiting, hmore⟩
    · exact ⟨[], s.waiting, rfl, by simp [hstop, Sched.admitted_nil]⟩
    · obtain ⟨took, rest', hrest, htook⟩ := ih (h.admitted cfg.blockSize [q] hwaiting)
        (prompts ++ [(q.len, q.id)])
      rw [Sched.admitted_waiting, hwaiting] at hrest
      refine ⟨q :: took, rest', ?_, ?_⟩
      · rw [hwaiting, List.cons_append, ← hrest]
        rfl
      · rw [hmore, htook, Sched.admitted_admitted]
        simp

/-- Admission that leaves nothing running has emptied the queue, if every request fits an empty
cache. -/
theorem waiting_of_admit (hseqs : 0 < cfg.maxSeqNum) (fuel : Nat) (h : s.Arrays n)
    (prompts : List (Nat × Nat)) (hused : s.blockNumUsed = blocksOf cfg.blockSize s.runningSeqs)
    (hfuel : s.waiting.length ≤ fuel)
    (hfit : ∀ q ∈ s.waiting, hasEnoughCache cfg 0 1 = true ∧ hasEnoughCache cfg 0 q.len = true)
    (hnone : (admitWaiting cfg fuel s prompts).1.runningSeqs = []) :
    (admitWaiting cfg fuel s prompts).1.waiting = [] := by
  induction fuel generalizing s prompts with
  | zero => exact List.eq_nil_of_length_eq_zero (by simpa [admitWaiting] using hfuel)
  | succ fuel ih =>
    rcases admitWaiting_cases cfg h fuel prompts with ⟨hstop, hroom⟩ | ⟨q, rest, hwaiting, hmore⟩
    · rw [hstop] at hnone ⊢
      have hempty : s.runningSeqs = [] := hnone
      cases hq : s.waiting with
      | nil => rfl
      | cons q rest =>
        obtain ⟨hone, hall⟩ := hfit q (hq ▸ .head _)
        have hzero : s.blockNumUsed = 0 := by rw [hused, hempty, blocksOf_nil]
        exact absurd ⟨hzero ▸ hone, by simpa [hempty] using hseqs, hzero ▸ hall⟩ (hroom q rest hq)
    · rw [hmore] at hnone ⊢
      have hrest : (s.admitted cfg.blockSize [q]).waiting = rest := by
        rw [Sched.admitted_waiting, hwaiting]
        rfl
      refine ih (h.admitted cfg.blockSize [q] hwaiting) _ ?_ ?_ ?_ hnone
      · simp only [Sched.admitted, blocksOf_append, hused]
      · rw [hrest]
        simpa [hwaiting] using hfuel
      · rw [hrest]
        exact fun q' hq' => hfit q' (hwaiting ▸ .tail _ hq')

/-! ## Killing -/

variable (blockSize num : Nat)

theorem Sched.Arrays.keep_entries (h : s.Arrays n) : (s.keep blockSize num).entries =
    writeSlice s.entries (s.pointer - (s.runningSeqs.drop num).length) s.pointer
      (s.runningSeqs.drop num) := by
  simp only [Sched.entries, Sched.keep]
  rw [zip_writeSlice _ _ (h.inpLens.trans h.outLens.symm) (by simp),
    zip_writeSlice _ _ (by simp [h.inpLens, h.outLens, h.seqIds]) (by simp), map_writeSlice,
    List.zip_map', List.zip_map', List.map_map]
  congr 1
  exact List.map_id _

/-- Killing does not change the order of the unfinished requests. -/
theorem Sched.Arrays.keep_live (h : s.Arrays n) : (s.keep blockSize num).live = s.live := by
  have hstart : s.pointer - (s.runningSeqs.drop num).length ≤ s.entries.length := by
    have := h.pointer_le
    rw [h.entries_length]
    omega
  rw [Sched.live, Sched.live, Sched.waiting, h.keep_entries]
  simp only [Sched.keep, writeSlice, List.append_assoc]
  rw [List.drop_append_of_le_length (by rw [List.length_take]; omega), List.drop_take, Nat.sub_self,
    List.take_zero, List.nil_append, ← List.append_assoc, List.take_append_drop]
  rfl

theorem Sched.Arrays.keep (h : s.Arrays n) : (s.keep blockSize num).Arrays n := by
  have hpointer := h.pointer_le
  have hrunning := h.running_le
  have hkilled : (s.runningSeqs.drop num).length ≤ s.pointer := by
    rw [List.length_drop]
    omega
  refine ⟨?_, ?_, ?_, ?_, ?_⟩
  · simp only [Sched.keep]
    rw [writeSlice_length (by rw [h.inpLens]; exact hpointer) (by rw [List.length_map]; omega),
      h.inpLens]
  · simp only [Sched.keep]
    rw [writeSlice_length (by rw [h.outLens]; exact hpointer) (by rw [List.length_map]; omega),
      h.outLens]
  · simp only [Sched.keep]
    rw [writeSlice_length (by rw [h.seqIds]; exact hpointer) (by rw [List.length_map]; omega),
      h.seqIds]
  · simp only [Sched.keep]
    omega
  · simp only [Sched.keep, List.length_take, List.length_drop]
    omega

end Mil.Fcfs
