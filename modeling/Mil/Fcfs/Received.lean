import Mil.Fcfs.Rename

/-!
# The requests received so far

The arrays of the arrival-aware simulators also have the requests that have not arrived yet, behind
those that have been received. Cut down to the received ones (`Sched.received`) they are the arrays of
the plain simulator, and admission and killing are the same there. The rest of the arrays is not
touched.
-/

set_option autoImplicit false

namespace Mil.Fcfs

open Mil.Lib

/-- The arrays up to the last request received. -/
def Sched.received (s : Sched) : Sched :=
  { s with
    inpLens := s.inpLens.take s.seqIds.length
    outLens := s.outLens.take s.seqIds.length }

/-- The arrays have a slot for each of the `n` known requests; a prefix of them has been received. -/
structure Sched.Received (n : Nat) (s : Sched) : Prop where
  inpLens : s.inpLens.length = n
  outLens : s.outLens.length = n
  seqIds_le : s.seqIds.length ≤ n
  pointer_le : s.pointer ≤ s.seqIds.length
  running_le : s.runningSeqs.length ≤ s.pointer

/-- The requests that have been received. -/
def Sched.ids (s : Sched) : List Nat := s.seqIds ++ s.runningSeqs.map Seq.id

section

variable {n : Nat} {s : Sched}

theorem Sched.Received.arrays (h : s.Received n) : s.received.Arrays s.seqIds.length where
  inpLens := by
    rw [Sched.received, List.length_take, h.inpLens]
    exact Nat.min_eq_left h.seqIds_le
  outLens := by
    rw [Sched.received, List.length_take, h.outLens]
    exact Nat.min_eq_left h.seqIds_le
  seqIds := rfl
  pointer_le := h.pointer_le
  running_le := h.running_le

theorem take_zip_take {α β : Type} (l : List α) (l' : List β) :
    l.zip (l'.take l.length) = l.zip l' := by
  induction l generalizing l' with
  | nil => rfl
  | cons a l ih =>
    cases l' with
    | nil => rfl
    | cons b l' => rw [List.length_cons, List.take_succ_cons, List.zip_cons_cons, ih, List.zip_cons_cons]

theorem Sched.received_entries (s : Sched) : s.received.entries = s.entries := by
  have hzip : (s.inpLens.take s.seqIds.length).zip (s.outLens.take s.seqIds.length) =
      (s.inpLens.zip s.outLens).take s.seqIds.length := List.take_zipWith.symm
  rw [Sched.entries, Sched.entries]
  show (s.seqIds.zip ((s.inpLens.take s.seqIds.length).zip
    (s.outLens.take s.seqIds.length))).map _ = _
  rw [hzip, take_zip_take]

theorem mem_entries_id {q : Seq} (hq : q ∈ s.entries) : q.id ∈ s.seqIds := by
  obtain ⟨e, he, rfl⟩ := List.mem_map.mp hq
  exact (List.of_mem_zip (a := e.1) (b := e.2) he).1

theorem waiting_id_mem {q : Seq} (hq : q ∈ s.waiting) : q.id ∈ s.seqIds :=
  mem_entries_id (List.mem_of_mem_drop hq)

/-! ## Admission -/

theorem admitReceived_eq (cfg : Config) (fuel : Nat) (h : s.Received n) (prompts : List (Nat × Nat)) :
    admitWaiting cfg fuel s.received prompts =
      ((admitReceived cfg fuel s prompts).1.received, (admitReceived cfg fuel s prompts).2) ∧
    (admitReceived cfg fuel s prompts).1.inpLens = s.inpLens ∧
    (admitReceived cfg fuel s prompts).1.outLens = s.outLens := by
  induction fuel generalizing s prompts with
  | zero => exact ⟨rfl, rfl, rfl⟩
  | succ fuel ih =>
    have hlen : s.received.inpLens.length = s.seqIds.length := h.arrays.inpLens
    rw [admitWaiting, admitReceived, hlen]
    by_cases hguard : s.pointer < s.seqIds.length ∧ hasEnoughCache cfg s.blockNumUsed 1 ∧
        s.runningSeqs.length < cfg.maxSeqNum
    · have hguard' : s.received.pointer < s.seqIds.length ∧
          hasEnoughCache cfg s.received.blockNumUsed 1 ∧
          s.received.runningSeqs.length < cfg.maxSeqNum := hguard
      have hget : ∀ l : List Nat, (l.take s.seqIds.length).getD s.pointer 0 = l.getD s.pointer 0 := by
        intro l
        rw [List.getD_eq_getElem?_getD, List.getD_eq_getElem?_getD, List.getElem?_take,
          if_pos hguard.1]
      have hinp : s.received.inpLens.getD s.received.pointer 0 = s.inpLens.getD s.pointer 0 := hget _
      have hout : s.received.outLens.getD s.received.pointer 0 = s.outLens.getD s.pointer 0 := hget _
      have hids : s.received.seqIds.getD s.received.pointer 0 = s.seqIds.getD s.pointer 0 := rfl
      have hblocks : s.received.blockNumUsed = s.blockNumUsed := rfl
      rw [if_pos hguard, if_pos hguard']
      simp only [hinp, hout, hids, hblocks]
      have hpointer := h.pointer_le
      have hrunning := h.running_le
      split
      · split
        · exact ih (s := { s with
            unfinishedReqnum := s.unfinishedReqnum - 1
            pointer := s.pointer + 1 })
            ⟨h.inpLens, h.outLens, h.seqIds_le, hguard.1, Nat.le_succ_of_le hrunning⟩ _
        · refine ih (s := { s with
            runningSeqs := s.runningSeqs ++
              [⟨s.seqIds.getD s.pointer 0, s.inpLens.getD s.pointer 0 + 1,
                s.outLens.getD s.pointer 0 - 1⟩]
            blockNumUsed := s.blockNumUsed + ceilBlocks cfg.blockSize (s.inpLens.getD s.pointer 0)
            pointer := s.pointer + 1 })
            ⟨h.inpLens, h.outLens, h.seqIds_le, hguard.1, ?_⟩ _
          rw [List.length_append]
          exact Nat.succ_le_succ hrunning
      · exact ⟨rfl, rfl, rfl⟩
    · have hguard' : ¬ (s.received.pointer < s.seqIds.length ∧
          hasEnoughCache cfg s.received.blockNumUsed 1 ∧
          s.received.runningSeqs.length < cfg.maxSeqNum) := hguard
      rw [if_neg hguard, if_neg hguard']
      exact ⟨rfl, rfl, rfl⟩

/-- Admission takes requests from the head of the queue. -/
theorem admitReceived_spec (cfg : Config) (fuel : Nat) (h : s.Received n)
    (prompts : List (Nat × Nat)) :
    ∃ took rest, s.waiting = took ++ rest ∧ admitReceived cfg fuel s prompts =
      (s.admitted cfg.blockSize took, prompts ++ took.map fun q => (q.len, q.id)) := by
  obtain ⟨heq, hinp, hout⟩ := admitReceived_eq cfg fuel h prompts
  obtain ⟨took, rest, hwaiting, hspec⟩ := admitWaiting_spec cfg fuel h.arrays prompts
  rw [heq] at hspec
  obtain ⟨hsched, hprompts⟩ := Prod.mk.inj hspec
  rw [Sched.waiting, Sched.received_entries] at hwaiting
  refine ⟨took, rest, hwaiting, Prod.ext ?_ hprompts⟩
  have heta : (admitReceived cfg fuel s prompts).1 =
      { (admitReceived cfg fuel s prompts).1.received with
        inpLens := (admitReceived cfg fuel s prompts).1.inpLens
        outLens := (admitReceived cfg fuel s prompts).1.outLens } := rfl
  rw [heta, hsched, hinp, hout]
  rfl

theorem Sched.Received.admitted (h : s.Received n) (blockSize : Nat) (took : List Seq)
    {rest : List Seq} (hwaiting : s.waiting = took ++ rest) :
    (s.admitted blockSize took).Received n := by
  have hreceived : s.received.waiting = took ++ rest := by
    rw [Sched.waiting, Sched.received_entries]
    exact hwaiting
  have harrays := h.arrays.admitted blockSize took hreceived
  exact ⟨h.inpLens, h.outLens, h.seqIds_le, harrays.pointer_le, harrays.running_le⟩

/-! ## Killing -/

theorem Sched.Received.keep (h : s.Received n) (blockSize num : Nat) :
    (s.keep blockSize num).Received n := by
  have harrays := h.arrays.keep blockSize num
  have hpointer := h.pointer_le
  have hrunning := h.running_le
  have hseqIds := h.seqIds_le
  have hkilled : s.pointer - (s.runningSeqs.drop num).length + (s.runningSeqs.drop num).length =
      s.pointer := by
    refine Nat.sub_add_cancel ?_
    rw [List.length_drop]
    omega
  refine ⟨?_, ?_, harrays.seqIds.trans_le hseqIds, ?_, harrays.running_le⟩
  · exact (writeSlice_length (by rw [h.inpLens]; omega)
      (by rw [List.length_map]; exact hkilled)).trans h.inpLens
  · exact (writeSlice_length (by rw [h.outLens]; omega)
      (by rw [List.length_map]; exact hkilled)).trans h.outLens
  · exact harrays.pointer_le.trans harrays.seqIds.ge

end

end Mil.Fcfs
