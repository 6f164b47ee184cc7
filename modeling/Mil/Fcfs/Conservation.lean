import Mil.Fcfs.Queue

/-!
# Token conservation

A `Ledger` says of a list of unfinished requests what the tokens generated so far say of it: each
request of the list has exactly the tokens it does not have to generate any more, and every other
request has all of its tokens. The one thing that happens to a ledger is that some requests of the
list generate tokens. A prefill step and a run of decode steps are such events, whatever has been
killed in between, so the ledger holds after every round of the scheduling loop; and since every
round generates a token, the loop ends, with an empty list.
-/

set_option autoImplicit false

namespace Mil.Fcfs

open Mil.Lib

variable {cfg : Config} {inp out : List Nat}

/-! ## The ledger -/

/-- Where an unfinished request stands. -/
structure Pending (inp out : List Nat) (tokens : Nat → Nat) (q : Seq) : Prop where
  id_lt : q.id < inp.length
  len_pos : 1 ≤ q.len
  rem_pos : 1 ≤ q.rem
  final : q.len + q.rem = inp.getD q.id 0 + out.getD q.id 0
  tokens_eq : tokens q.id + q.rem = out.getD q.id 0

structure Ledger (inp out : List Nat) (tokens : Nat → Nat) (live : List Seq) : Prop where
  nodup : (live.map Seq.id).Nodup
  pending : ∀ q ∈ live, Pending inp out tokens q
  done : ∀ id < inp.length, id ∉ live.map Seq.id → tokens id = out.getD id 0

theorem Ledger.perm {tokens : Nat → Nat} {live live' : List Seq} (h : Ledger inp out tokens live)
    (hperm : live.Perm live') : Ledger inp out tokens live' where
  nodup := (hperm.map Seq.id).nodup_iff.mp h.nodup
  pending q hq := h.pending q (hperm.mem_iff.mpr hq)
  done id hid hout := h.done id hid fun hmem => hout ((hperm.map Seq.id).mem_iff.mp hmem)

theorem mem_advanceAll {k : Nat} {seqs : List Seq} {q : Seq} :
    q ∈ advanceAll k seqs ↔ ∃ q₀ ∈ seqs, q₀.rem ≠ k ∧ q₀.advance k = q := by
  simp [advanceAll, and_assoc]

theorem map_id_advanceAll (k : Nat) (seqs : List Seq) :
    ((advanceAll k seqs).map Seq.id).Sublist (seqs.map Seq.id) := by
  rw [advanceAll, List.map_map]
  exact List.filter_sublist.map Seq.id

theorem Pending.advance {tokens tokens' : Nat → Nat} {k : Nat} {q : Seq}
    (h : Pending inp out tokens q) (hk : k < q.rem) (htokens : tokens' q.id = tokens q.id + k) :
    Pending inp out tokens' (q.advance k) := by
  have hlen := h.len_pos
  have hfinal := h.final
  have htok := h.tokens_eq
  refine ⟨h.id_lt, ?_, ?_, ?_, ?_⟩ <;> simp only [Seq.advance] <;> omega

theorem Pending.frame {tokens tokens' : Nat → Nat} {q : Seq} (h : Pending inp out tokens q)
    (htokens : tokens' q.id = tokens q.id) : Pending inp out tokens' q :=
  { h with tokens_eq := htokens ▸ h.tokens_eq }

/-- The requests `moved` generate `k` tokens each. -/
theorem Ledger.advance {tokens tokens' : Nat → Nat} {moved rest : List Seq} {k : Nat}
    (h : Ledger inp out tokens (moved ++ rest)) (hk : ∀ q ∈ moved, k ≤ q.rem)
    (htokens : ∀ id, tokens' id = tokens id + if id ∈ moved.map Seq.id then k else 0) :
    Ledger inp out tokens' (advanceAll k moved ++ rest) := by
  have hnodup := h.nodup
  rw [List.map_append] at hnodup
  have hframe : ∀ id, id ∉ moved.map Seq.id → tokens' id = tokens id := fun id hid => by
    rw [htokens, if_neg hid, Nat.add_zero]
  have hmoved : ∀ q ∈ moved, tokens' q.id = tokens q.id + k := fun q hq => by
    rw [htokens, if_pos (List.mem_map_of_mem hq)]
  refine ⟨?_, fun q hq => ?_, fun id hid hout => ?_⟩
  · rw [List.map_append]
    exact hnodup.sublist ((map_id_advanceAll k moved).append_right _)
  · rcases List.mem_append.mp hq with hq | hq
    · obtain ⟨q₀, hq₀, hne, rfl⟩ := mem_advanceAll.mp hq
      exact (h.pending q₀ (List.mem_append_left _ hq₀)).advance
        (Nat.lt_of_le_of_ne (hk q₀ hq₀) hne.symm) (hmoved q₀ hq₀)
    · refine (h.pending q (List.mem_append_right _ hq)).frame (hframe _ fun hmem => ?_)
      exact List.disjoint_of_nodup_append hnodup hmem (List.mem_map_of_mem hq)
  · rw [List.map_append, List.mem_append, not_or] at hout
    by_cases hid' : id ∈ moved.map Seq.id
    · obtain ⟨q, hq, rfl⟩ := List.mem_map.mp hid'
      have hlast : q.rem = k := by
        by_contra hne
        exact hout.1 (List.mem_map.mpr ⟨q.advance k, mem_advanceAll.mpr ⟨q, hq, hne, rfl⟩, rfl⟩)
      rw [hmoved q hq, ← hlast]
      exact (h.pending q (List.mem_append_left _ hq)).tokens_eq
    · rw [hframe id hid']
      refine h.done id hid ?_
      rw [List.map_append, List.mem_append, not_or]
      exact ⟨hid', hout.2⟩

/-- The tokens still to be generated. -/
def remaining (live : List Seq) : Nat := (live.map Seq.rem).sum

@[simp] theorem remaining_append (live live' : List Seq) :
    remaining (live ++ live') = remaining live + remaining live' := by
  simp [remaining]

theorem remaining_advanceAll {k : Nat} {seqs : List Seq} (hk : ∀ q ∈ seqs, k ≤ q.rem) :
    remaining (advanceAll k seqs) + k * seqs.length = remaining seqs := by
  induction seqs with
  | nil => rfl
  | cons q seqs ih =>
    have hseqs := ih fun q' hq' => hk q' (.tail _ hq')
    have hq := hk q (.head _)
    have hcons : remaining (q :: seqs) = q.rem + remaining seqs := by simp [remaining]
    rw [hcons, List.length_cons, Nat.mul_succ]
    by_cases hlast : q.rem = k
    · have : advanceAll k (q :: seqs) = advanceAll k seqs := by simp [advanceAll, hlast]
      rw [this]
      omega
    · have : remaining (advanceAll k (q :: seqs)) = q.rem - k + remaining (advanceAll k seqs) := by
        simp [advanceAll, hlast, remaining, Seq.advance]
      rw [this]
      omega

/-! ## The invariant of the scheduling loop -/

structure Inv (cfg : Config) (inp out : List Nat) (s : Sched) : Prop where
  arrays : s.Arrays inp.length
  used : s.blockNumUsed = blocksOf cfg.blockSize s.runningSeqs
  unfinished : s.unfinishedReqnum = s.live.length
  ledger : Ledger inp out s.progress.tokens s.live
  recorded : Recorded s.progress
  length_eq : s.progress.inferProgress.length = inp.length
  steps : s.isPrefillSteps.length = s.progress.totIterNum
  logs : s.progress.totIterNum = s.logs.length + s.progress.prefillLogs.length
  flags : s.isPrefillSteps.count true = s.progress.prefillLogs.length

/-- Every request fits an empty cache up to its last token, with the watermark and a spare block,
and fits a batch of its own. -/
structure Fits (cfg : Config) (inp out : List Nat) : Prop where
  blockSize_pos : 0 < cfg.blockSize
  maxSeqNum_pos : 0 < cfg.maxSeqNum
  cache : ∀ id < inp.length,
    ceilBlocks cfg.blockSize (inp.getD id 0 + out.getD id 0) + 1 + cfg.watermarkBlocks ≤
      cfg.maxBlockNum
  batch : ∀ id < inp.length, inp.getD id 0 + out.getD id 0 ≤ cfg.maxNumBatchedTokens

theorem Fits.room {tokens : Nat → Nat} {q : Seq} (hfits : Fits cfg inp out)
    (h : Pending inp out tokens q) :
    hasEnoughCache cfg 0 1 = true ∧ hasEnoughCache cfg 0 q.len = true := by
  have hcache := hfits.cache q.id h.id_lt
  have hlen := h.len_pos
  have hfinal := h.final
  have hone : ceilBlocks cfg.blockSize 1 ≤ ceilBlocks cfg.blockSize q.len := ceilBlocks_mono hlen
  have hall : ceilBlocks cfg.blockSize q.len ≤
      ceilBlocks cfg.blockSize (inp.getD q.id 0 + out.getD q.id 0) := ceilBlocks_mono (by omega)
  simp only [hasEnoughCache, decide_eq_true_eq]
  omega

theorem Inv.init (hlength : out.length = inp.length) (hinp : ∀ n ∈ inp, 1 ≤ n)
    (hout : ∀ n ∈ out, 1 ≤ n) : Inv cfg inp out (Sched.init inp out) := by
  have hids : (Sched.init inp out).live.map Seq.id = List.range inp.length := by
    simp only [Sched.live, Sched.waiting, Sched.entries, Sched.init, List.nil_append,
      List.drop_zero, List.map_map]
    exact List.map_fst_zip (by simp [hlength])
  have hrngs : ∀ id, (Sched.init inp out).progress.rngs id = [] := fun id => by
    simp [Sched.init, Progress.rngs, List.getD_eq_getElem?_getD, List.getElem?_replicate]
    split <;> rfl
  refine ⟨⟨rfl, hlength, List.length_range, Nat.zero_le _, le_rfl⟩, rfl, ?_, ⟨?_, ?_, ?_⟩,
    ⟨fun id => ?_, fun id => ?_, fun t ht => absurd ht (Nat.not_lt_zero _)⟩, by simp [Sched.init],
    rfl, rfl, rfl⟩
  · simpa [Sched.init] using (congrArg List.length hids).symm
  · rw [hids]
    exact List.nodup_range
  · intro q hq
    obtain ⟨i, hi, rfl⟩ := List.getElem_of_mem hq
    have hi' : i < inp.length := by
      simpa [Sched.live, Sched.waiting, Sched.entries, Sched.init, hlength] using hi
    have hi'' : i < out.length := hlength ▸ hi'
    have hp := hinp _ (List.getElem_mem hi')
    have ho := hout _ (List.getElem_mem hi'')
    have htokens : ∀ id, (Sched.init inp out).progress.tokens id = 0 := fun id => by
      rw [Progress.tokens, hrngs, iterNum_nil]
    refine ⟨?_, ?_, ?_, ?_, ?_⟩
    case refine_5 => rw [htokens]; simp [Sched.live, Sched.waiting, Sched.entries, Sched.init,
      List.getD_eq_getElem?_getD, hi'']
    all_goals
      simp [Sched.live, Sched.waiting, Sched.entries, Sched.init,
        List.getD_eq_getElem?_getD, hi', hi'', hp, ho]
  · intro id hid hmem
    rw [hids] at hmem
    exact absurd (List.mem_range.mpr hid) hmem
  · rw [hrngs]
    exact Increasing.nil
  · rw [hrngs]
    exact fun _ h => absurd h List.not_mem_nil

/-! ## One round -/

/-- Admission and the prefill steps it leads to. -/
def prefillPhase (cfg : Config) (s : Sched) : Option Sched := do
  let (s, prompts) := admitWaiting cfg s.inpLens.length s []
  let progress ← updatePrefillLogs cfg.maxNumBatchedTokens prompts s.progress
  return { s with
    progress := progress
    isPrefillSteps := s.isPrefillSteps ++
      List.replicate (progress.totIterNum - s.isPrefillSteps.length) true }

theorem scheduleRound_eq (cfg : Config) (s : Sched) : scheduleRound cfg s =
    (prefillPhase cfg s).bind fun s => if s.unfinishedReqnum = 0 then
      if s.runningSeqs.length = 0 then some s else none
    else (killSeqsForMoreCacheSpace cfg s).bind fun s =>
      (getMaxIterNum cfg s).bind fun iterNum =>
        (decode iterNum s).bind fun s => some (removeFinishedSeqs cfg s) := by
  simp only [scheduleRound, prefillPhase]
  cases updatePrefillLogs cfg.maxNumBatchedTokens (admitWaiting cfg s.inpLens.length s []).2
    (admitWaiting cfg s.inpLens.length s []).1.progress <;> rfl

theorem countP_rem_eq (seqs : List Seq) :
    (seqs.countP fun q => q.rem = 1) + (advanceAll 1 seqs).length = seqs.length := by
  rw [advanceAll, List.length_map, ← List.countP_eq_length_filter,
    List.length_eq_countP_add_countP (fun q : Seq => decide (q.rem = 1)) (l := seqs)]
  simp

theorem prefillPhase_spec (hfits : Fits cfg inp out) {s : Sched} (h : Inv cfg inp out s) :
    ∃ s', prefillPhase cfg s = some s' ∧ Inv cfg inp out s' ∧
      (s'.runningSeqs = [] → s'.live = []) ∧ remaining s'.live ≤ remaining s.live := by
  obtain ⟨took, rest, hwaiting, hadmitted⟩ := admitWaiting_spec cfg s.inpLens.length h.arrays []
  have hlive : s.live.Perm (took ++ (s.runningSeqs ++ rest)) := by
    rw [Sched.live, hwaiting, ← List.append_assoc, ← List.append_assoc]
    exact List.perm_append_comm.append_right rest
  have hledger := h.ledger.perm hlive
  have hpending : ∀ q ∈ took, Pending inp out s.progress.tokens q := fun q hq =>
    hledger.pending q (List.mem_append_left _ hq)
  have hids : (took.map fun q => (q.len, q.id)).map Prod.snd = took.map Seq.id := by
    rw [List.map_map]
    rfl
  have hnodup : (took.map Seq.id).Nodup := by
    have := hledger.nodup
    rw [List.map_append] at this
    exact this.of_append_left
  -- all that are admitted are prefilled, in as many batches as it takes
  obtain ⟨p, hupdate, hp⟩ := updatePrefillLogs_spec cfg.maxNumBatchedTokens
    (took.map fun q => (q.len, q.id)) h.recorded (by rwa [hids])
    (by
      rw [hids, h.length_eq]
      intro id hid
      obtain ⟨q, hq, rfl⟩ := List.mem_map.mp hid
      exact (hpending q hq).id_lt)
    (by
      intro prompt hprompt
      obtain ⟨q, hq, rfl⟩ := List.mem_map.mp hprompt
      have := hfits.batch q.id (hpending q hq).id_lt
      have := (hpending q hq).final
      simp only
      omega)
  rw [hids] at hp
  set s' : Sched := { s.admitted cfg.blockSize took with
    progress := p
    isPrefillSteps := s.isPrefillSteps ++
      List.replicate (p.totIterNum - s.isPrefillSteps.length) true } with hs'
  have hlive' : s'.live = s.runningSeqs ++ advanceAll 1 took ++ rest := by
    have hrest : (s.admitted cfg.blockSize took).waiting = rest := by
      rw [Sched.admitted_waiting, hwaiting, List.drop_left]
    rw [← hrest]
    rfl
  have hperm : s'.live.Perm (advanceAll 1 took ++ (s.runningSeqs ++ rest)) := by
    rw [hlive', ← List.append_assoc]
    exact List.perm_append_comm.append_right rest
  have hrem : ∀ q ∈ took, 1 ≤ q.rem := fun q hq => (hpending q hq).rem_pos
  refine ⟨s', ?_, ⟨?_, ?_, ?_, ?_, hp.recorded, hp.length_eq.trans h.length_eq, ?_, ?_, ?_⟩, ?_, ?_⟩
  · simp only [prefillPhase, hadmitted, List.nil_append]
    have : (s.admitted cfg.blockSize took).progress = s.progress := rfl
    rw [this, hupdate]
    rfl
  · have := h.arrays.admitted cfg.blockSize took hwaiting
    exact ⟨this.inpLens, this.outLens, this.seqIds, this.pointer_le, this.running_le⟩
  · simp only [hs', Sched.admitted, blocksOf_append, h.used]
  · have hcount := countP_rem_eq took
    have hlength := hlive.length_eq
    have hlength' := hperm.length_eq
    simp only [List.length_append] at hlength hlength'
    have hunfinished := h.unfinished
    have : s'.unfinishedReqnum = s.unfinishedReqnum - took.countP fun q => q.rem = 1 := rfl
    omega
  · exact (hledger.advance hrem hp.tokens_eq).perm hperm.symm
  · have hsteps := h.steps
    have hle := hp.tot_le
    simp only [hs', List.length_append, List.length_replicate]
    omega
  · have hlogs := h.logs
    have hmore := hp.logs_eq
    have : s'.logs = s.logs := rfl
    rw [this]
    simp only [hs']
    omega
  · have hflags := h.flags
    have hsteps := h.steps
    have hmore := hp.logs_eq
    have hle := hp.tot_le
    simp only [hs', List.count_append, List.count_replicate_self, hflags, hsteps]
    omega
  -- nothing runs only when nothing waits: one request always fits into the empty cache
  · intro hnone
    have hrunning : (admitWaiting cfg s.inpLens.length s []).1.runningSeqs = [] := by
      rw [hadmitted]
      exact hnone
    have hall := waiting_of_admit hfits.maxSeqNum_pos _ h.arrays [] h.used
      (by rw [h.arrays.waiting_length, h.arrays.inpLens]; exact Nat.sub_le _ _)
      (fun q hq => hfits.room (h.ledger.pending q (List.mem_append_right _ hq))) hrunning
    rw [hadmitted] at hall
    rw [Sched.live, hnone]
    exact hall
  · have hle := remaining_advanceAll hrem
    have hbefore : remaining s.live = remaining (took ++ (s.runningSeqs ++ rest)) :=
      (hlive.map Seq.rem).sum_eq
    have hafter : remaining s'.live = remaining (advanceAll 1 took ++ (s.runningSeqs ++ rest)) :=
      (hperm.map Seq.rem).sum_eq
    rw [hbefore, hafter, remaining_append, remaining_append took]
    omega

theorem Inv.keep {s : Sched} (h : Inv cfg inp out s) (num : Nat) :
    Inv cfg inp out (s.keep cfg.blockSize num) where
  arrays := h.arrays.keep cfg.blockSize num
  used := rfl
  unfinished := by
    rw [h.arrays.keep_live]
    exact h.unfinished
  ledger := by
    rw [h.arrays.keep_live]
    exact h.ledger
  recorded := h.recorded
  length_eq := h.length_eq
  steps := h.steps
  logs := h.logs
  flags := h.flags

/-- Decode steps for the running requests, up to the end of the first one to finish at most. -/
theorem decode_spec {s : Sched} (h : Inv cfg inp out s) (hne : s.runningSeqs ≠ []) {k : Nat}
    (hpos : 0 < k) (hk : ∀ q ∈ s.runningSeqs, k ≤ q.rem) :
    ∃ s', decode k s = some s' ∧ Inv cfg inp out (removeFinishedSeqs cfg s') ∧
      remaining (removeFinishedSeqs cfg s').live < remaining s.live := by
  obtain ⟨most, hmost⟩ : ∃ most, (s.runningSeqs.map Seq.len).max? = some most :=
    Option.ne_none_iff_exists'.mp (by simpa using hne)
  -- a request is finished when its rest is `k`, and none has a smaller one
  have hrunning : ((s.runningSeqs.map (Seq.advance k)).filter fun q => q.rem ≠ 0) =
      advanceAll k s.runningSeqs := by
    rw [List.filter_map, advanceAll]
    refine congrArg _ (List.filter_congr fun q hq => ?_)
    have hiff : q.rem - k ≠ 0 ↔ q.rem ≠ k := by
      have := hk q hq
      omega
    simp only [Function.comp_apply, Seq.advance, hiff]
  have hnodup : (s.runningSeqs.map Seq.id).Nodup := by
    have := h.ledger.nodup
    rw [Sched.live, List.map_append] at this
    exact this.of_append_left
  have hadvanced : Advanced s.progress { s.progress with
      inferProgress := storeInferState s.progress.totIterNum (s.progress.totIterNum + k - 1)
        s.progress.inferProgress (s.runningSeqs.map Seq.id)
      totIterNum := s.progress.totIterNum + k } (s.runningSeqs.map Seq.id) k :=
    Advanced.store h.recorded hnodup
      (by
        intro id hid
        obtain ⟨q, hq, rfl⟩ := List.mem_map.mp hid
        exact h.length_eq ▸ (h.ledger.pending q (List.mem_append_left _ hq)).id_lt)
      (by simpa using hne) hpos rfl rfl
  refine ⟨_, by rw [decode, hmost]; rfl, ?_⟩
  set s' := removeFinishedSeqs cfg _ with hs'
  have hrunning' : s'.runningSeqs = advanceAll k s.runningSeqs := hrunning
  have hlive : s'.live = advanceAll k s.runningSeqs ++ s.waiting := by
    rw [Sched.live, hrunning']
    rfl
  have hremaining := remaining_advanceAll hk
  have hnum : 0 < k * s.runningSeqs.length := Nat.mul_pos hpos (List.length_pos_of_ne_nil hne)
  have hle : (advanceAll k s.runningSeqs).length ≤ s.runningSeqs.length := by
    rw [advanceAll, List.length_map]
    exact List.length_filter_le _ _
  refine ⟨⟨⟨h.arrays.inpLens, h.arrays.outLens, h.arrays.seqIds, h.arrays.pointer_le, ?_⟩, rfl, ?_,
    ?_, hadvanced.recorded, hadvanced.length_eq.trans h.length_eq, ?_, ?_, ?_⟩, ?_⟩
  · rw [hrunning']
    exact hle.trans h.arrays.running_le
  · have hunfinished : s'.unfinishedReqnum = s.unfinishedReqnum -
        ((s.runningSeqs.map (Seq.advance k)).length - s'.runningSeqs.length) := rfl
    have hbefore := h.unfinished
    rw [Sched.live, List.length_append] at hbefore
    rw [hlive, hunfinished, hrunning', List.length_append, List.length_map]
    omega
  · rw [hlive]
    exact h.ledger.advance hk hadvanced.tokens_eq
  · have hsteps : s'.isPrefillSteps = s.isPrefillSteps ++ List.replicate k false := rfl
    rw [hsteps, List.length_append, List.length_replicate, h.steps]
    rfl
  · have hlogs : s'.logs.length = s.logs.length + k := by
      simp [hs', removeFinishedSeqs]
    have htot : s'.progress.totIterNum = s.progress.totIterNum + k := rfl
    have hbefore := h.logs
    have hprefill : s'.progress.prefillLogs = s.progress.prefillLogs := rfl
    rw [hlogs, htot, hprefill]
    omega
  · have hsteps : s'.isPrefillSteps = s.isPrefillSteps ++ List.replicate k false := rfl
    rw [hsteps, List.count_append, List.count_replicate]
    exact h.flags
  · rw [hlive, Sched.live, remaining_append, remaining_append]
    omega

/-- A round keeps the invariant, and generates a token. -/
theorem scheduleRound_spec (hfits : Fits cfg inp out) {s : Sched} (h : Inv cfg inp out s)
    (hunfinished : s.unfinishedReqnum ≠ 0) :
    ∃ s', scheduleRound cfg s = some s' ∧ Inv cfg inp out s' ∧
      remaining s'.live < remaining s.live := by
  obtain ⟨s₁, hprefill, h₁, hnone, hle⟩ := prefillPhase_spec hfits h
  rw [scheduleRound_eq, hprefill, Option.bind_some]
  split
  · rename_i hdone
    have hempty : s₁.live = [] := List.eq_nil_of_length_eq_zero (h₁.unfinished ▸ hdone)
    have hrunning : s₁.runningSeqs = [] := (List.append_eq_nil_iff.mp hempty).1
    rw [if_pos (by rw [hrunning]; rfl)]
    refine ⟨s₁, rfl, h₁, ?_⟩
    have hlive : s.live ≠ [] := fun hnil => hunfinished (by rw [h.unfinished, hnil]; rfl)
    obtain ⟨q, rest, hcons⟩ := List.exists_cons_of_ne_nil hlive
    have hrem := (h.ledger.pending q (hcons ▸ .head _)).rem_pos
    have hsum : remaining s.live = q.rem + remaining rest := by simp [hcons, remaining]
    have hzero : remaining s₁.live = 0 := by rw [hempty]; rfl
    omega
  · rename_i hmore
    have hpending : ∀ q ∈ s₁.runningSeqs, Pending inp out s₁.progress.tokens q := fun q hq =>
      h₁.ledger.pending q (List.mem_append_left _ hq)
    cases hrunning : s₁.runningSeqs with
    | nil =>
      have hempty := hnone hrunning
      exact absurd (by rw [h₁.unfinished, hempty]; rfl) hmore
    | cons q rest =>
      have hq := hpending q (hrunning ▸ .head _)
      have hfirst : q.blocks cfg.blockSize + 1 ≤ cfg.maxBlockNum := by
        have hcache := hfits.cache q.id hq.id_lt
        have hfinal := hq.final
        have : q.blocks cfg.blockSize ≤
            ceilBlocks cfg.blockSize (inp.getD q.id 0 + out.getD q.id 0) :=
          ceilBlocks_mono (by omega)
        omega
      obtain ⟨num, hnum, hkill, hfit⟩ := killSeqsForMoreCacheSpace_spec hfits.blockSize_pos hrunning
        (fun q hq => (hpending q hq).len_pos) hfirst
      have h₂ := h₁.keep num
      have hkept : ∀ q ∈ (s₁.keep cfg.blockSize num).runningSeqs,
          Pending inp out s₁.progress.tokens q := fun q hq => hpending q (List.mem_of_mem_take hq)
      have hne : (s₁.keep cfg.blockSize num).runningSeqs ≠ [] := by
        simp only [Sched.keep, hrunning, ne_eq, List.take_eq_nil_iff]
        simp [hnum.ne']
      obtain ⟨k, hk, hpos, hkrem⟩ := getMaxIterNum_spec hfits.blockSize_pos hne
        (fun q hq => (hkept q hq).len_pos) (fun q hq => (hkept q hq).rem_pos) rfl hfit
      obtain ⟨s₃, hdecode, h₃, hlt⟩ := decode_spec h₂ hne hpos hkrem
      refine ⟨_, by rw [hkill, Option.bind_some, hk, Option.bind_some, hdecode]; rfl, h₃, ?_⟩
      rw [h₁.arrays.keep_live] at hlt
      exact Nat.lt_of_lt_of_le hlt hle

/-! ## The whole run -/

/-- More fuel does not change the result. -/
theorem scheduleLoop_spec (hfits : Fits cfg inp out) {s : Sched} (h : Inv cfg inp out s) :
    ∃ s', Inv cfg inp out s' ∧ s'.live = [] ∧
      ∀ fuel, remaining s.live < fuel → scheduleLoop cfg fuel s = some s' := by
  induction hn : remaining s.live using Nat.strong_induction_on generalizing s with
  | _ n ih =>
    subst hn
    by_cases hdone : s.unfinishedReqnum = 0
    · refine ⟨s, h, List.eq_nil_of_length_eq_zero (h.unfinished ▸ hdone), fun fuel hfuel => ?_⟩
      obtain ⟨fuel, rfl⟩ := Nat.exists_eq_succ_of_ne_zero (Nat.ne_of_gt (Nat.zero_lt_of_lt hfuel))
      rw [scheduleLoop, if_pos hdone]
    · obtain ⟨s₁, hround, h₁, hlt⟩ := scheduleRound_spec hfits h hdone
      obtain ⟨s', h', hlive, hloop⟩ := ih _ hlt h₁ rfl
      refine ⟨s', h', hlive, fun fuel hfuel => ?_⟩
      obtain ⟨fuel, rfl⟩ := Nat.exists_eq_succ_of_ne_zero (Nat.ne_of_gt (Nat.zero_lt_of_lt hfuel))
      rw [scheduleLoop, if_neg hdone, hround]
      exact hloop fuel (by omega)

theorem remaining_init (hlength : out.length = inp.length) :
    remaining (Sched.init inp out).live = out.sum := by
  have hrem : (Sched.init inp out).live.map Seq.rem =
      (((List.range inp.length).zip (inp.zip out)).map Prod.snd).map Prod.snd := by
    simp only [Sched.live, Sched.waiting, Sched.entries, Sched.init, List.nil_append,
      List.drop_zero, List.map_map]
    rfl
  rw [remaining, hrem, List.map_snd_zip (by simp), List.map_snd_zip (by omega)]

/-- A schedule that has run every request to its end. -/
structure Schedule.Complete (inp out : List Nat) (r : Schedule) : Prop where
  length_eq : r.inferProgress.length = inp.length
  increasing : ∀ id < inp.length, Increasing 1 (r.inferProgress.getD id [])
  ends : ∀ id < inp.length, EndsBefore (r.inferProgress.getD id []) r.isPrefillSteps.length
  tokens : ∀ id < inp.length, iterNum (r.inferProgress.getD id []) = out.getD id 0
  attended : ∀ t < r.isPrefillSteps.length,
    ∃ id < inp.length, Attends (r.inferProgress.getD id []) t
  flags : r.isPrefillSteps.count true = r.prefillLogs.length
  steps : r.isPrefillSteps.length = r.logs.length + r.prefillLogs.length

theorem fakeFCFSSchedule_complete (hfits : Fits cfg inp out) (hlength : out.length = inp.length)
    (hinp : ∀ n ∈ inp, 1 ≤ n) (hout : ∀ n ∈ out, 1 ≤ n) :
    ∃ r, (∀ fuel, out.sum < fuel → fakeFCFSSchedule cfg fuel inp out = some r) ∧
      r.Complete inp out := by
  obtain ⟨s, h, hlive, hloop⟩ := scheduleLoop_spec hfits (Inv.init hlength hinp hout)
  refine ⟨⟨s.logs, s.progress.prefillLogs, s.isPrefillSteps, s.progress.inferProgress,
    s.progress.validPrefillLogs⟩, fun fuel hfuel => ?_, h.length_eq,
    fun id _ => h.recorded.increasing id, fun id _ => h.steps ▸ h.recorded.ends id,
    fun id hid => h.ledger.done id hid (by rw [hlive]; exact List.not_mem_nil), ?_, h.flags,
    h.steps.trans h.logs⟩
  · rw [fakeFCFSSchedule, hloop fuel (by rwa [remaining_init hlength])]
    exact if_pos h.logs
  · rw [h.steps, ← h.length_eq]
    exact h.recorded.attended

/-- The last iteration is the last one of some request. -/
theorem Schedule.Complete.exists_last {r : Schedule} (h : r.Complete inp out)
    (hlength : out.length = inp.length) (hout : ∀ n ∈ out, 1 ≤ n) (hne : inp ≠ []) :
    ∃ id < inp.length, ∃ rng, (r.inferProgress.getD id []).getLast? = some rng ∧
      rng.2 + 1 = r.isPrefillSteps.length := by
  have hpos : 0 < inp.length := List.length_pos_of_ne_nil hne
  have hsome : 0 < r.isPrefillSteps.length := by
    refine Nat.pos_of_ne_zero fun hzero => ?_
    have hends := h.ends 0 hpos
    rw [hzero] at hends
    have hnil : r.inferProgress.getD 0 [] = [] :=
      List.eq_nil_iff_forall_not_mem.mpr fun r hr => Nat.not_lt_zero _ (hends r hr)
    have htokens := h.tokens 0 hpos
    rw [hnil, iterNum_nil] at htokens
    have := hout _ (List.getElem_mem (hlength ▸ hpos : 0 < out.length))
    simp only [List.getD_eq_getElem?_getD, hlength, hpos, getElem?_pos, Option.getD_some] at htokens
    omega
  obtain ⟨id, hid, hat⟩ := h.attended (r.isPrefillSteps.length - 1) (by omega)
  obtain ⟨rng, hlast, hrng⟩ := exists_getLast?_of_attends (h.increasing id hid) hat
    (by rw [Nat.sub_add_cancel hsome]; exact h.ends id hid)
  exact ⟨id, hid, rng, hlast, by omega⟩

/-- Requests that each fit the cache and a batch alone are all run to their end: the simulator
returns, however often it kills, and each request takes part in one iteration for each of its
tokens. -/
theorem fakeFCFSSchedule_conserves (hfits : Fits cfg inp out) (hlength : out.length = inp.length)
    (hinp : ∀ n ∈ inp, 1 ≤ n) (hout : ∀ n ∈ out, 1 ≤ n) :
    ∃ r, (∀ fuel, out.sum < fuel → fakeFCFSSchedule cfg fuel inp out = some r) ∧
      r.inferProgress.length = inp.length ∧
      (∀ id < inp.length, Increasing 1 (r.inferProgress.getD id []) ∧
        EndsBefore (r.inferProgress.getD id []) r.isPrefillSteps.length ∧
        iterNum (r.inferProgress.getD id []) = out.getD id 0) ∧
      (∀ t < r.isPrefillSteps.length, ∃ id < inp.length, Attends (r.inferProgress.getD id []) t) ∧
      (inp ≠ [] → ∃ id < inp.length, ∃ rng, (r.inferProgress.getD id []).getLast? = some rng ∧
        rng.2 + 1 = r.isPrefillSteps.length) := by
  obtain ⟨r, hrun, h⟩ := fakeFCFSSchedule_complete hfits hlength hinp hout
  exact ⟨r, hrun, h.length_eq, fun id hid => ⟨h.increasing id hid, h.ends id hid, h.tokens id hid⟩,
    h.attended, h.exists_last hlength hout⟩

/-- With a cache of 12 blocks for 4 requests, some of them are killed and admitted again. -/
theorem fakeFCFSSchedule_conserves_crowded :
    ∃ r, (∀ fuel, 28 < fuel → fakeFCFSSchedule ⟨4, 12, 64, 2, 1⟩ fuel [5, 3, 7, 2] [6, 1, 9, 12] =
      some r) ∧ r.inferProgress.length = 4 := by
  have hfits : Fits ⟨4, 12, 64, 2, 1⟩ [5, 3, 7, 2] [6, 1, 9, 12] :=
    ⟨by decide, by decide, by decide, by decide⟩
  obtain ⟨r, hrun, hlength, -⟩ :=
    fakeFCFSSchedule_conserves hfits rfl (by decide) (by decide)
  exact ⟨r, hrun, hlength⟩

end Mil.Fcfs
