import Mil.Fcfs.Arrivals
import Mil.Fcfs.Queue

/-!
# Requests under other numbers

A round does not look at the numbers of the requests: it carries them around, and records the
iterations at their slots. So a round on renamed requests is the renamed round
(`arrivalRound_rename`), and only the slots of requests that have been received matter
(`arrivalRound_congr`).
-/

set_option autoImplicit false

namespace Mil.Fcfs

open Mil.Lib

/-! ## Renaming -/

def Seq.rename (f : Nat → Nat) (q : Seq) : Seq := { q with id := f q.id }

def Sched.rename (f : Nat → Nat) (s : Sched) : Sched :=
  { s with seqIds := s.seqIds.map f, runningSeqs := s.runningSeqs.map (Seq.rename f) }

def Arriving.rename (f : Nat → Nat) (s : Arriving) : Arriving :=
  { s with sched := s.sched.rename f }

section

variable {cfg : ArrivalConfig} {f : Nat → Nat}

theorem getD_map_of_lt {l : List Nat} {i : Nat} (h : i < l.length) :
    (l.map f).getD i 0 = f (l.getD i 0) := by
  simp [List.getD_eq_getElem?_getD, h]

theorem map_rename {α : Type} {g : Seq → α} (hg : ∀ q, g (q.rename f) = g q) (l : List Seq) :
    (l.map (Seq.rename f)).map g = l.map g := by
  rw [List.map_map]
  exact List.map_congr_left fun q _ => hg q

theorem admitReceived_rename (c : Config) (fuel : Nat) (s : Sched) (prompts : List (Nat × Nat)) :
    admitReceived c fuel (s.rename f) (prompts.map fun p => (p.1, f p.2)) =
      ((admitReceived c fuel s prompts).1.rename f,
        (admitReceived c fuel s prompts).2.map fun p => (p.1, f p.2)) := by
  induction fuel generalizing s prompts with
  | zero => rfl
  | succ fuel ih =>
    have hlen : (s.rename f).seqIds.length = s.seqIds.length := List.length_map f
    have hrun : (s.rename f).runningSeqs.length = s.runningSeqs.length := List.length_map _
    rw [admitReceived, admitReceived, hlen, hrun]
    by_cases hguard : s.pointer < s.seqIds.length ∧ hasEnoughCache c s.blockNumUsed 1 ∧
        s.runningSeqs.length < c.maxSeqNum
    · have hid : (s.rename f).seqIds.getD s.pointer 0 = f (s.seqIds.getD s.pointer 0) :=
        getD_map_of_lt hguard.1
      have hguard' : (s.rename f).pointer < s.seqIds.length ∧
          hasEnoughCache c (s.rename f).blockNumUsed 1 ∧
          s.runningSeqs.length < c.maxSeqNum := hguard
      rw [if_pos hguard, if_pos hguard']
      simp only
      by_cases hroom : hasEnoughCache c s.blockNumUsed (s.inpLens.getD s.pointer 0)
      · rw [if_pos hroom]
        have hroom' : hasEnoughCache c (s.rename f).blockNumUsed
            ((s.rename f).inpLens.getD (s.rename f).pointer 0) := hroom
        rw [if_pos hroom']
        by_cases hout : s.outLens.getD s.pointer 0 = 1
        · have hout' : (s.rename f).outLens.getD (s.rename f).pointer 0 = 1 := hout
          rw [if_pos hout, if_pos hout', ← ih]
          simp only [List.map_append, List.map_cons, List.map_nil, ← hid]
          rfl
        · have hout' : ¬ (s.rename f).outLens.getD (s.rename f).pointer 0 = 1 := hout
          rw [if_neg hout, if_neg hout', ← ih]
          simp only [Sched.rename, List.map_append, List.map_cons, List.map_nil, Seq.rename] at hid ⊢
          rw [hid]
      · have hroom' : ¬ hasEnoughCache c (s.rename f).blockNumUsed
            ((s.rename f).inpLens.getD (s.rename f).pointer 0) := hroom
        rw [if_neg hroom, if_neg hroom']
    · have hguard' : ¬ ((s.rename f).pointer < s.seqIds.length ∧
          hasEnoughCache c (s.rename f).blockNumUsed 1 ∧
          s.runningSeqs.length < c.maxSeqNum) := hguard
      rw [if_neg hguard, if_neg hguard']

theorem killSeqsForMoreCacheSpace_rename (c : Config) (s : Sched) :
    killSeqsForMoreCacheSpace c (s.rename f) =
      (killSeqsForMoreCacheSpace c s).map (Sched.rename f) := by
  have happrox : ∀ acc (l : List Seq), approxTotBlockNums c.blockSize acc (l.map (Seq.rename f)) =
      approxTotBlockNums c.blockSize acc l := by
    intro acc l
    induction l generalizing acc with
    | nil => rfl
    | cons q l ih =>
      rw [List.map_cons, approxTotBlockNums, approxTotBlockNums, ih]
      rfl
  have hrun : (s.rename f).runningSeqs = s.runningSeqs.map (Seq.rename f) := rfl
  rw [killSeqsForMoreCacheSpace, killSeqsForMoreCacheSpace, hrun, happrox]
  cases (approxTotBlockNums c.blockSize 0 s.runningSeqs).max? with
  | none => rfl
  | some most =>
    simp only [Option.bind_eq_bind, Option.bind_some, List.length_map, ← List.map_drop,
      ← List.map_take]
    refine congrArg some ?_
    simp only [Sched.rename, map_writeSlice, List.map_map, blocksOf]
    rfl

theorem getMaxIterNum_rename (c : Config) (s : Sched) :
    getMaxIterNum c (s.rename f) = getMaxIterNum c s := by
  have hrun : (s.rename f).runningSeqs = s.runningSeqs.map (Seq.rename f) := rfl
  rw [getMaxIterNum, getMaxIterNum, hrun, List.length_map, map_rename fun _ => rfl,
    map_rename fun _ => rfl]
  rfl

theorem decodeAt_rename (slot : Nat → Nat) (iterNum : Nat) (s : Sched) :
    decodeAt slot iterNum (s.rename f) = (decodeAt (slot ∘ f) iterNum s).map (Sched.rename f) := by
  have hrun : (s.rename f).runningSeqs = s.runningSeqs.map (Seq.rename f) := rfl
  rw [decodeAt, decodeAt, hrun, List.length_map, map_rename fun _ => rfl]
  cases (s.runningSeqs.map Seq.len).max? with
  | none => rfl
  | some most =>
    simp only [Option.bind_eq_bind, Option.bind_some, List.map_map]
    refine congrArg some ?_
    simp only [Sched.rename, List.map_map]
    rfl

theorem removeFinishedSeqs_rename (c : Config) (s : Sched) :
    removeFinishedSeqs c (s.rename f) = (removeFinishedSeqs c s).rename f := by
  have hfilter : ((s.runningSeqs.map (Seq.rename f)).filter fun q => q.rem ≠ 0) =
      (s.runningSeqs.filter fun q => q.rem ≠ 0).map (Seq.rename f) := by
    rw [List.filter_map]
    rfl
  simp only [removeFinishedSeqs, Sched.rename, hfilter, List.length_map]
  congr 1
  rw [blocksOf, blocksOf, map_rename fun _ => rfl]

theorem arrivalPrefill_rename (slot : Nat → Nat) (more : Bool) (s : Arriving) :
    arrivalPrefill cfg slot more (s.rename f) =
      (arrivalPrefill cfg (slot ∘ f) more s).map (Arriving.rename f) := by
  have hlen : (s.rename f).sched.seqIds.length = s.sched.seqIds.length := List.length_map f
  have hadmit := admitReceived_rename (f := f) cfg.toConfig s.sched.seqIds.length s.sched []
  rw [List.map_nil] at hadmit
  rw [arrivalPrefill, arrivalPrefill, hlen]
  have hsched : (s.rename f).sched = s.sched.rename f := rfl
  rw [hsched, hadmit]
  generalize admitReceived cfg.toConfig s.sched.seqIds.length s.sched [] = r
  obtain ⟨sched, prompts⟩ := r
  simp only [List.map_map]
  have hprompts : (prompts.map ((fun prompt => (prompt.1, slot prompt.2)) ∘ fun p => (p.1, f p.2))) =
      prompts.map fun prompt => (prompt.1, (slot ∘ f) prompt.2) := rfl
  have hprogress : (sched.rename f).progress = sched.progress := rfl
  rw [hprompts, hprogress]
  cases updatePrefillLogs cfg.maxNumBatchedTokens
    (prompts.map fun prompt => (prompt.1, (slot ∘ f) prompt.2)) sched.progress with
  | none => rfl
  | some progress =>
    refine congrArg some ?_
    simp only [Arriving.rename, Sched.rename, List.length_map, List.map_eq_nil_iff]

theorem arrivalDecode_rename (slot : Nat → Nat) (iterNum : Nat) (s : Arriving) :
    arrivalDecode cfg slot iterNum (s.rename f) =
      (arrivalDecode cfg (slot ∘ f) iterNum s).map (Arriving.rename f) := by
  have hsched : (s.rename f).sched = s.sched.rename f := rfl
  rw [arrivalDecode, arrivalDecode, hsched, decodeAt_rename]
  cases decodeAt (slot ∘ f) iterNum s.sched with
  | none => rfl
  | some sched =>
    simp only [Option.map_some, Option.bind_eq_bind, Option.bind_some, removeFinishedSeqs_rename]
    have hlogs : ((removeFinishedSeqs cfg.toConfig sched).rename f).logs =
        (removeFinishedSeqs cfg.toConfig sched).logs := rfl
    rw [hlogs]
    have hcum : (s.rename f).cumsumLatencys = s.cumsumLatencys := rfl
    have htime : (s.rename f).totInferenceTime = s.totInferenceTime := rfl
    rw [hcum, htime]
    generalize s.cumsumLatencys ++ cumsumFrom s.totInferenceTime _ = cumsum
    cases cumsum.getLast? with
    | none => rfl
    | some time => rfl

theorem arrivalSteps_rename (slot : Nat → Nat) (iterNum : Nat) (s : Arriving) :
    arrivalSteps cfg slot iterNum (s.rename f) =
      (arrivalSteps cfg (slot ∘ f) iterNum s).map (Arriving.rename f) := by
  have hneed : (s.rename f).needQuery = s.needQuery := rfl
  have hsteps : stepsToCheck cfg (s.rename f) = stepsToCheck cfg s := rfl
  rw [arrivalSteps, arrivalSteps, hneed, hsteps]
  split
  · split
    · rfl
    · split
      · rfl
      · exact arrivalDecode_rename slot _ { s with mustRecord := false }
  · exact arrivalDecode_rename slot _ s

/-- A round on renamed requests is the renamed round. -/
theorem arrivalRound_rename (slot : Nat → Nat) (more : Bool) (s : Arriving) :
    arrivalRound cfg slot more (s.rename f) =
      (arrivalRound cfg (slot ∘ f) more s).map (Arriving.rename f) := by
  rw [arrivalRound, arrivalRound, arrivalPrefill_rename]
  cases arrivalPrefill cfg (slot ∘ f) more s with
  | none => rfl
  | some t =>
    simp only [Option.map_some, Option.bind_eq_bind, Option.bind_some]
    have hrun : (t.rename f).sched.runningSeqs.length = t.sched.runningSeqs.length := List.length_map _
    have hsched : (t.rename f).sched = t.sched.rename f := rfl
    rw [hrun]
    by_cases hnone : t.sched.runningSeqs.length = 0
    · rw [if_pos hnone, if_pos hnone]
      rfl
    · rw [if_neg hnone, if_neg hnone, hsched, killSeqsForMoreCacheSpace_rename]
      cases killSeqsForMoreCacheSpace cfg.toConfig t.sched with
      | none => rfl
      | some sched =>
        simp only [Option.map_some, Option.bind_some, getMaxIterNum_rename]
        cases getMaxIterNum cfg.toConfig sched with
        | none => rfl
        | some iterNum =>
          have hkilled : (t.rename f).killed (sched.rename f) = (t.killed sched).rename f := by
            have hlen : (sched.rename f).seqIds.length = sched.seqIds.length := List.length_map f
            rw [Arriving.killed, hlen]
            rfl
          rw [Option.bind_some, hkilled, arrivalSteps_rename]
          rfl

end

end Mil.Fcfs
