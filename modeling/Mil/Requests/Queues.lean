import Mathlib.Algebra.Order.Group.Multiset
import Mathlib.Tactic.Abel
import Mil.Lib.FoldM
import Mil.Requests.Scheduler

/-!
# The order of the queues

What a call of the scheduler does to its three queues. It takes prompts from the front of the waiting
queue (`PromptRun`), or it keeps the running groups that came first, preempts the others and brings
back the swapped groups that came first (`DecodeRun`). So nothing that arrived earlier gives way to
what arrived later, and no request is lost (`schedule_firstCome`): the groups of the queues after the
call and those it ignores are the groups of the queues before it, with the same sequences of the same
lengths, as multisets.
-/

set_option autoImplicit false

namespace Mil.Requests

open Mil.Lib Mil.Blocks

/-! ## Contents -/

/-- What a group has in whatever queue it is: the request, and its sequences with their lengths. -/
def content (g : SequenceGroup) : Nat × List (Nat × Nat) :=
  (g.requestId, g.seqs.map fun q => (q.seqId, q.len))

/-- The contents of the groups of a queue. -/
def contents (gs : List SequenceGroup) : Multiset (Nat × List (Nat × Nat)) := gs.map content

@[simp] theorem contents_nil : contents [] = 0 := rfl

@[simp] theorem contents_append (gs gs' : List SequenceGroup) :
    contents (gs ++ gs') = contents gs + contents gs' := by
  rw [contents, List.map_append, ← Multiset.coe_add]
  rfl

theorem contents_perm {gs gs' : List SequenceGroup} (h : gs.Perm gs') :
    contents gs = contents gs' := Multiset.coe_eq_coe.mpr (h.map _)

@[simp] theorem contents_reverse (gs : List SequenceGroup) :
    contents gs.reverse = contents gs := contents_perm (List.reverse_perm gs)

theorem mem_contents {gs : List SequenceGroup} {g : SequenceGroup} (h : g ∈ gs) :
    content g ∈ contents gs := Multiset.mem_coe.mpr (List.mem_map_of_mem h)

/-- A group with another status is the same request. -/
@[simp] theorem content_setStatus (old new : SequenceStatus) (g : SequenceGroup) :
    content (setStatus old new g) = content g := by
  refine congrArg (Prod.mk g.requestId) ?_
  show (g.seqs.map fun s => if s.status = old then { s with status := new } else s).map _ = _
  rw [List.map_map]
  apply List.map_congr_left
  intro q _
  show ((if q.status = old then { q with status := new } else q : Sequence).seqId,
    (if q.status = old then { q with status := new } else q : Sequence).len) = (q.seqId, q.len)
  split <;> rfl

/-! ## Prompts -/

section Prompts

variable {cfg : Config}

/-- The prompts taken from the queue, to be run or to be ignored, both in the order of the queue. -/
structure Dequeued (taken admitted ignored : List SequenceGroup) (st st' : Prompts) : Prop where
  perm : taken.Perm (admitted ++ ignored)
  admitted_sublist : admitted.Sublist taken
  ignored_sublist : ignored.Sublist taken
  scheduled : st'.scheduled = st.scheduled ++ admitted.map (setStatus .waiting .running)
  ignoredSeqGroups : st'.ignoredSeqGroups =
    st.ignoredSeqGroups ++ ignored.map (setStatus .waiting .finishedIgnored)

theorem Dequeued.nil (st : Prompts) : Dequeued [] [] [] st st :=
  ⟨.refl _, .refl _, .refl _, (List.append_nil _).symm, (List.append_nil _).symm⟩

/-- Prompts are taken from the front of the queue. -/
theorem admitPrompts_dequeued {waiting waiting' : List SequenceGroup} {st st' : Prompts}
    (hcall : admitPrompts cfg waiting st = some (waiting', st')) :
    ∃ taken admitted ignored, waiting = taken ++ waiting' ∧ Dequeued taken admitted ignored st st' := by
  induction waiting generalizing st with
  | nil =>
    obtain ⟨rfl, rfl⟩ := Prod.mk.inj (Option.some.inj hcall)
    exact ⟨[], [], [], rfl, .nil st⟩
  | cons g waiting ih =>
    have hstop : some (g :: waiting, st) = some (waiting', st') → ∃ taken admitted ignored,
        g :: waiting = taken ++ waiting' ∧ Dequeued taken admitted ignored st st' := by
      intro heq
      obtain ⟨rfl, rfl⟩ := Prod.mk.inj (Option.some.inj heq)
      exact ⟨[], [], [], rfl, .nil st⟩
    have hignore : admitPrompts cfg waiting (st.ignore g) = some (waiting', st') →
        ∃ taken admitted ignored,
          g :: waiting = taken ++ waiting' ∧ Dequeued taken admitted ignored st st' := by
      intro hcall
      obtain ⟨taken, admitted, ignored, rfl, h⟩ := ih hcall
      refine ⟨g :: taken, admitted, g :: ignored, rfl, ?_, h.admitted_sublist.cons g,
        h.ignored_sublist.cons_cons g, h.scheduled, ?_⟩
      · exact (h.perm.cons g).trans List.perm_middle.symm
      · rw [h.ignoredSeqGroups, Prompts.ignore, List.append_assoc]
        rfl
    rw [admitPrompts] at hcall
    split at hcall
    case h_2 => cases hcall
    case h_1 q _ =>
      split at hcall
      · exact hignore hcall
      · split at hcall
        · cases hcall
        · exact hstop hcall
        · exact hignore hcall
        · split at hcall
          case isFalse => exact hstop hcall
          case isTrue =>
            obtain ⟨m, -, hcall⟩ := Option.bind_eq_some_iff.mp hcall
            obtain ⟨taken, admitted, ignored, rfl, h⟩ := ih hcall
            refine ⟨g :: taken, g :: admitted, ignored, rfl, h.perm.cons g,
              h.admitted_sublist.cons_cons g, h.ignored_sublist.cons g, ?_, h.ignoredSeqGroups⟩
            rw [h.scheduled, List.append_assoc]
            rfl

end Prompts

/-! ## Running groups -/

section Running

variable {cfg : Config} {g : SequenceGroup} {st st' st'' : Decode} {victims : List SequenceGroup}

/-- The group waits again when it is preempted; otherwise it is swapped out. -/
def recomputes (g : SequenceGroup) : Bool := g.getMaxNumRunningSeqs = 1

/-- Groups have been preempted, one after the other: the last one to wait is before the others. -/
structure Preempted (victims : List SequenceGroup) (st st' : Decode) : Prop where
  waiting : st'.waiting =
    ((victims.filter recomputes).map (setStatus .running .waiting)).reverse ++ st.waiting
  swapped : st'.swapped =
    st.swapped ++ (victims.filter fun g => !recomputes g).map (setStatus .running .swapped)
  preempted : st'.preempted = st.preempted ++ victims

namespace Preempted

theorem nil (st : Decode) : Preempted [] st st :=
  ⟨rfl, (List.append_nil _).symm, (List.append_nil _).symm⟩

theorem append {victims' : List SequenceGroup} (h : Preempted victims st st')
    (h' : Preempted victims' st' st'') : Preempted (victims ++ victims') st st'' := by
  refine ⟨?_, ?_, ?_⟩
  · rw [h'.waiting, h.waiting, List.filter_append, List.map_append, List.reverse_append,
      List.append_assoc]
  · rw [h'.swapped, h.swapped, List.filter_append, List.map_append, List.append_assoc]
  · rw [h'.preempted, h.preempted, List.append_assoc]

/-- Only the queues matter. -/
theorem of_queues (h : Preempted victims st st') (hwaiting : st''.waiting = st'.waiting)
    (hswapped : st''.swapped = st'.swapped) (hpreempted : st''.preempted = st'.preempted) :
    Preempted victims st st'' :=
  ⟨hwaiting.trans h.waiting, hswapped.trans h.swapped, hpreempted.trans h.preempted⟩

end Preempted

theorem preempt_preempted (hcall : st.preempt g = some st') : Preempted [g] st st' := by
  obtain ⟨st₁, hmode, rfl⟩ := Option.map_eq_some_iff.mp hcall
  split at hmode
  case isTrue hone =>
    have hrecomputes : recomputes g = true := decide_eq_true hone
    unfold Decode.preemptByRecompute at hmode
    split at hmode
    · obtain ⟨m, -, rfl⟩ := Option.map_eq_some_iff.mp hmode
      refine ⟨?_, ?_, rfl⟩
      · rw [List.filter_cons_of_pos hrecomputes]
        rfl
      · rw [List.filter_cons_of_neg (by rw [hrecomputes]; decide)]
        exact (List.append_nil _).symm
    · cases hmode
  case isFalse hmore =>
    have hrecomputes : recomputes g = false := decide_eq_false hmore
    unfold Decode.preemptBySwap at hmode
    obtain ⟨canSwapOut, -, hmode⟩ := Option.bind_eq_some_iff.mp hmode
    split at hmode
    · obtain ⟨⟨mapping, m⟩, -, hmode⟩ := Option.bind_eq_some_iff.mp hmode
      obtain rfl := Option.some.inj hmode
      refine ⟨?_, ?_, rfl⟩
      · rw [List.filter_cons_of_neg (by rw [hrecomputes]; decide)]
        rfl
      · rw [List.filter_cons_of_pos (by rw [hrecomputes]; rfl)]
        rfl
    · cases hmode

/-- Room is made at the end of the queue; the group itself is the last one to go. -/
theorem makeRoom_preempted {queue left : List SequenceGroup} {stays : Bool}
    (hcall : makeRoom g queue st = some (left, stays, st')) :
    ∃ victims, Preempted victims st st' ∧
      if stays then queue = victims ++ left else left = [] ∧ victims = queue ++ [g] := by
  induction queue generalizing st with
  | nil =>
    rw [makeRoom] at hcall
    split at hcall
    · cases hcall
      exact ⟨[], .nil _, rfl⟩
    · obtain ⟨st₁, hpreempt, heq⟩ := Option.map_eq_some_iff.mp hcall
      cases heq
      exact ⟨[g], preempt_preempted hpreempt, rfl, rfl⟩
  | cons victim rest ih =>
    rw [makeRoom] at hcall
    split at hcall
    · cases hcall
      exact ⟨[], .nil _, rfl⟩
    · obtain ⟨st₁, hpreempt, hcall⟩ := Option.bind_eq_some_iff.mp hcall
      obtain ⟨victims, h, hleft⟩ := ih hcall
      refine ⟨victim :: victims, (preempt_preempted hpreempt).append h, ?_⟩
      cases stays with
      | true => exact congrArg (List.cons victim) hleft
      | false => exact ⟨hleft.1, congrArg (List.cons victim) hleft.2⟩

/-- Slots are no matter of the queues. -/
theorem appendSlot_queues (hcall : st.appendSlot cfg g = some st') :
    st'.waiting = st.waiting ∧ st'.swapped = st.swapped ∧ st'.preempted = st.preempted := by
  refine foldlM_inv (P := fun t : Decode => t.waiting = st.waiting ∧ t.swapped = st.swapped ∧
    t.preempted = st.preempted) (fun q _ t t' ht hstep => ?_) ⟨rfl, rfl, rfl⟩ hcall
  obtain ⟨p, -, rfl⟩ := Option.map_eq_some_iff.mp hstep
  exact ht

/-- The groups that keep running are the first ones of the queue, and the others are preempted from
the last one on. -/
theorem keepRunning_preempted {fuel : Nat} {queue running : List SequenceGroup}
    (hcall : keepRunning cfg fuel queue st = some (running, st')) :
    ∃ victims, queue = running ++ victims.reverse ∧ Preempted victims st st' := by
  induction fuel generalizing queue running st with
  | zero =>
    cases queue with
    | nil =>
      obtain ⟨rfl, rfl⟩ := Prod.mk.inj (Option.some.inj hcall)
      exact ⟨[], rfl, .nil _⟩
    | cons g rest => cases hcall
  | succ fuel ih =>
    cases queue with
    | nil =>
      obtain ⟨rfl, rfl⟩ := Prod.mk.inj (Option.some.inj hcall)
      exact ⟨[], rfl, .nil _⟩
    | cons g rest =>
      rw [keepRunning] at hcall
      obtain ⟨⟨left, stays, st₁⟩, hroom, hcall⟩ := Option.bind_eq_some_iff.mp hcall
      obtain ⟨victims, hvictims, hleft⟩ := makeRoom_preempted hroom
      cases stays with
      | true =>
        obtain ⟨st₂, happend, hcall⟩ := Option.bind_eq_some_iff.mp hcall
        obtain ⟨⟨running₁, st₃⟩, hrest, hcall⟩ := Option.bind_eq_some_iff.mp hcall
        obtain ⟨rfl, rfl⟩ := Prod.mk.inj (Option.some.inj hcall)
        obtain ⟨victims', hqueue, hrest⟩ := ih hrest
        obtain ⟨hwaiting, hswapped, hpreempted⟩ := appendSlot_queues happend
        refine ⟨victims ++ victims', ?_,
          (hvictims.of_queues hwaiting hswapped hpreempted).append hrest⟩
        -- victims are taken from the end of the queue, which is handed over reversed
        have hrest : rest = left.reverse ++ victims.reverse := by
          rw [← List.reverse_append, ← hleft, List.reverse_reverse]
        rw [hrest, hqueue, List.reverse_append, List.cons_append, List.append_assoc]
      | false =>
        obtain ⟨rfl, rfl⟩ := hleft
        obtain ⟨victims', hqueue, hrest⟩ := ih hcall
        -- no room could be made: the whole rest of the queue has gone, and the group after it
        obtain ⟨hnone, hnil⟩ := List.append_eq_nil_iff.mp hqueue.symm
        refine ⟨rest.reverse ++ [g] ++ victims', ?_, hvictims.append hrest⟩
        rw [hnone, List.reverse_append, hnil, List.reverse_append, List.reverse_reverse]
        rfl

/-- The swapped groups that come back are the first ones of the queue. -/
theorem resumeSwapped_order {queue resumed : List SequenceGroup} {numCurrSeqs : Nat}
    (hcall : resumeSwapped cfg queue numCurrSeqs st = some (resumed, st')) :
    st'.waiting = st.waiting ∧ ∃ back, queue = back ++ st'.swapped ∧
      resumed = back.map (setStatus .swapped .running) := by
  induction queue generalizing resumed numCurrSeqs st with
  | nil =>
    obtain ⟨rfl, rfl⟩ := Prod.mk.inj (Option.some.inj hcall)
    exact ⟨rfl, [], rfl, rfl⟩
  | cons g queue ih =>
    rw [resumeSwapped] at hcall
    obtain ⟨canSwapIn, -, hcall⟩ := Option.bind_eq_some_iff.mp hcall
    split at hcall
    · obtain ⟨⟨mapping, m⟩, -, hcall⟩ := Option.bind_eq_some_iff.mp hcall
      obtain ⟨st₁, happend, hcall⟩ := Option.bind_eq_some_iff.mp hcall
      obtain ⟨⟨resumed₁, st₂⟩, hrest, hcall⟩ := Option.bind_eq_some_iff.mp hcall
      obtain ⟨rfl, rfl⟩ := Prod.mk.inj (Option.some.inj hcall)
      obtain ⟨hwaiting, back, hqueue, hresumed⟩ := ih hrest
      refine ⟨hwaiting.trans (appendSlot_queues happend).1, g :: back, ?_, ?_⟩
      · rw [List.cons_append, ← hqueue]
      · rw [hresumed, List.map_cons]
    · obtain ⟨rfl, rfl⟩ := Prod.mk.inj (Option.some.inj hcall)
      exact ⟨rfl, [], rfl, rfl⟩

end Running

/-! ## A call -/

section Calls

variable {cfg : Config} {s s' : Scheduler} {outputs : SchedulerOutputs}

/-- What a call does to the queues when it runs prompts: from the front of the waiting queue, to the
end of the running one, and only when nothing is swapped. The outputs have them in the order of
their ids. -/
structure PromptRun (cfg : Config) (s s' : Scheduler) (outputs : SchedulerOutputs)
    (taken admitted ignored : List SequenceGroup) : Prop where
  prompt : outputs.promptRun = true
  swapped : s.swapped = [] ∧ s'.swapped = []
  waiting : s.waiting = taken ++ s'.waiting
  perm : taken.Perm (admitted ++ ignored)
  admitted_sublist : admitted.Sublist taken
  ignored_sublist : ignored.Sublist taken
  running : s'.running = s.running ++ admitted.map (setStatus .waiting .running)
  scheduled : outputs.scheduledSeqGroups =
    sortByRequestId cfg (admitted.map (setStatus .waiting .running))
  ignoredSeqGroups : outputs.ignoredSeqGroups = ignored.map (setStatus .waiting .finishedIgnored)

/-- What a call does to the queues when it runs the next tokens. The running groups in the order of
their arrival are those that go on and, behind them, those that are preempted; these wait again,
before all others and in their order, or they are swapped out. The swapped groups in the order of
their arrival are those that come back, none when a group was preempted, and those that stay. The
outputs have the groups that run in the order of their ids. -/
structure DecodeRun (cfg : Config) (s s' : Scheduler) (outputs : SchedulerOutputs)
    (kept preempted back : List SequenceGroup) : Prop where
  decode : outputs.promptRun = false
  ignored : outputs.ignoredSeqGroups = []
  running : sortByPriority cfg s.running = kept ++ preempted
  waiting : s'.waiting =
    (preempted.filter recomputes).map (setStatus .running .waiting) ++ s.waiting
  swapped : sortByPriority cfg (s.swapped ++
    ((preempted.filter fun g => !recomputes g).map (setStatus .running .swapped)).reverse) =
      back ++ s'.swapped
  quiet : preempted ≠ [] → back = []
  running' : s'.running = kept ++ back.map (setStatus .swapped .running)
  scheduled : outputs.scheduledSeqGroups = sortByRequestId cfg s'.running

theorem scheduleDecode_run (hcall : s.scheduleDecode cfg = some (outputs, s')) :
    ∃ kept preempted back, DecodeRun cfg s s' outputs kept preempted back := by
  unfold Scheduler.scheduleDecode at hcall
  obtain ⟨⟨kept, st⟩, hkeep, hcall⟩ := Option.bind_eq_some_iff.mp hcall
  obtain ⟨⟨running, st'⟩, hresume, hcall⟩ := Option.bind_eq_some_iff.mp hcall
  simp only at hcall
  split at hcall
  · cases hcall
  obtain ⟨rfl, rfl⟩ := Prod.mk.inj (Option.some.inj hcall)
  obtain ⟨victims, hqueue, h⟩ := keepRunning_preempted hkeep
  have hwaiting : st.waiting =
      (victims.reverse.filter recomputes).map (setStatus .running .waiting) ++ s.waiting := by
    rw [h.waiting, List.filter_reverse, List.map_reverse]
  have hswapped : st.swapped = s.swapped ++
      ((victims.reverse.filter fun g => !recomputes g).map
        (setStatus .running .swapped)).reverse := by
    rw [h.swapped, List.filter_reverse, List.map_reverse, List.reverse_reverse]
  unfold Decode.resume at hresume
  simp only at hresume
  split at hresume
  case isTrue hnone =>
    obtain ⟨⟨resumed, st₁⟩, hloop, heq⟩ := Option.map_eq_some_iff.mp hresume
    obtain ⟨rfl, rfl⟩ := Prod.mk.inj heq
    obtain ⟨hwaiting', back, hback, rfl⟩ := resumeSwapped_order hloop
    have hvictims : victims = [] := h.preempted.symm.trans (List.isEmpty_iff.mp hnone)
    refine ⟨kept, victims.reverse, back, rfl, rfl, hqueue, hwaiting'.trans hwaiting,
      hswapped ▸ hback, fun hne => ?_, rfl, rfl⟩
    rw [hvictims] at hne
    exact absurd rfl hne
  case isFalse =>
    obtain ⟨rfl, rfl⟩ := Prod.mk.inj (Option.some.inj hresume)
    exact ⟨kept, victims.reverse, [], rfl, rfl, hqueue, hwaiting, hswapped ▸ rfl, fun _ => rfl,
      (List.append_nil _).symm, rfl⟩

theorem scheduleQueues_run (hcall : s.scheduleQueues cfg = some (outputs, s')) :
    (∃ taken admitted ignored, PromptRun cfg s s' outputs taken admitted ignored) ∨
      ∃ kept preempted back, DecodeRun cfg s s' outputs kept preempted back := by
  unfold Scheduler.scheduleQueues at hcall
  split at hcall
  case isFalse => exact .inr (scheduleDecode_run hcall)
  case isTrue hswapped =>
    obtain ⟨⟨waiting, st⟩, hadmit, hcall⟩ := Option.bind_eq_some_iff.mp hcall
    obtain ⟨taken, admitted, ignored, hwaiting, h⟩ := admitPrompts_dequeued hadmit
    have hscheduled : st.scheduled = admitted.map (setStatus .waiting .running) := h.scheduled
    have hignored : st.ignoredSeqGroups = ignored.map (setStatus .waiting .finishedIgnored) :=
      h.ignoredSeqGroups
    simp only at hcall
    split at hcall
    case isTrue hnone =>
      -- nothing was taken from the queue
      obtain ⟨hempty, hempty'⟩ := Bool.and_eq_true_iff.mp hnone
      have hempty := List.isEmpty_iff.mp hempty
      have hadmitted : admitted = [] := List.map_eq_nil_iff.mp (hscheduled.symm.trans hempty)
      have hnone : ignored = [] :=
        List.map_eq_nil_iff.mp (hignored.symm.trans (List.isEmpty_iff.mp hempty'))
      have hnil : taken = [] := by
        refine List.Perm.eq_nil (h.perm.trans (.of_eq ?_))
        rw [hadmitted, hnone]
        rfl
      obtain ⟨kept, preempted, back, hrun⟩ := scheduleDecode_run hcall
      rw [hempty, List.append_nil] at hrun
      rw [hnil, List.nil_append] at hwaiting
      refine .inr ⟨kept, preempted, back, { hrun with waiting := ?_ }⟩
      rw [hrun.waiting, hwaiting]
    case isFalse =>
      obtain ⟨rfl, rfl⟩ := Prod.mk.inj (Option.some.inj hcall)
      have hswapped := List.isEmpty_iff.mp hswapped
      exact .inl ⟨taken, admitted, ignored, rfl, ⟨hswapped, hswapped⟩, hwaiting, h.perm,
        h.admitted_sublist, h.ignored_sublist, congrArg (s.running ++ ·) hscheduled,
        congrArg (sortByRequestId cfg) hscheduled, hignored⟩

/-- Retiring blocks leaves the queues as they are. -/
theorem retireBlocks_queues {chains : Option (List Int × List Nat)}
    (hcall : s.retireBlocks cfg = some (chains, s')) :
    s'.waiting = s.waiting ∧ s'.running = s.running ∧ s'.swapped = s.swapped := by
  unfold Scheduler.retireBlocks Scheduler.increaseLayerWeightOnCompGpu at hcall
  split at hcall
  · split at hcall
    · obtain ⟨-, rfl⟩ := Prod.mk.inj (Option.some.inj hcall)
      exact ⟨rfl, rfl, rfl⟩
    · obtain ⟨p, -, hcall⟩ := Option.bind_eq_some_iff.mp hcall
      obtain ⟨chains', -, hcall⟩ := Option.bind_eq_some_iff.mp hcall
      obtain ⟨-, rfl⟩ := Prod.mk.inj (Option.some.inj hcall)
      exact ⟨rfl, rfl, rfl⟩
  · obtain ⟨-, rfl⟩ := Prod.mk.inj (Option.some.inj hcall)
    exact ⟨rfl, rfl, rfl⟩

theorem schedule_run {tables : List (Nat × List Nat)}
    (hcall : s.schedule cfg = some (tables, outputs, s')) :
    (∃ taken admitted ignored, PromptRun cfg s s' outputs taken admitted ignored) ∨
      ∃ kept preempted back, DecodeRun cfg s s' outputs kept preempted back := by
  unfold Scheduler.schedule at hcall
  obtain ⟨⟨chains, s₁⟩, hretire, hcall⟩ := Option.bind_eq_some_iff.mp hcall
  obtain ⟨⟨outputs₁, s₂⟩, hqueues, hcall⟩ := Option.bind_eq_some_iff.mp hcall
  obtain ⟨tables₁, -, hcall⟩ := Option.bind_eq_some_iff.mp hcall
  obtain ⟨-, heq⟩ := Prod.mk.inj (Option.some.inj hcall)
  obtain ⟨rfl, rfl⟩ := Prod.mk.inj heq
  obtain ⟨hwaiting, hrunning, hswapped⟩ := retireBlocks_queues hretire
  rcases scheduleQueues_run hqueues with ⟨taken, admitted, ignored, h⟩ | ⟨kept, preempted, back, h⟩
  · refine .inl ⟨taken, admitted, ignored, h.prompt, hswapped ▸ h.swapped, hwaiting ▸ h.waiting,
      h.perm, h.admitted_sublist, h.ignored_sublist, ?_, h.scheduled, h.ignoredSeqGroups⟩
    rw [← hrunning]
    exact h.running
  · refine .inr ⟨kept, preempted, back, h.decode, h.ignored, hrunning ▸ h.running, ?_, ?_, h.quiet,
      h.running', h.scheduled⟩
    · rw [← hwaiting]
      exact h.waiting
    · rw [← hswapped]
      exact h.swapped

theorem contents_map_setStatus (old new : SequenceStatus) (gs : List SequenceGroup) :
    contents (gs.map (setStatus old new)) = contents gs := by
  have heq : (gs.map (setStatus old new)).map content = gs.map content := by
    rw [List.map_map]
    exact List.map_congr_left fun g _ => content_setStatus old new g
  rw [contents, contents, heq]

theorem contents_filter (p : SequenceGroup → Bool) (gs : List SequenceGroup) :
    contents (gs.filter p) + contents (gs.filter fun g => !p g) = contents gs := by
  rw [← contents_append]
  exact contents_perm (List.filter_append_perm p gs)

theorem contents_sortByPriority (cfg : Config) (gs : List SequenceGroup) :
    contents (sortByPriority cfg gs) = contents gs :=
  contents_perm (List.perm_insertionSort _ gs)

/-- The requests of the three queues. -/
def Scheduler.contents (s : Scheduler) : Multiset (Nat × List (Nat × Nat)) :=
  Requests.contents s.waiting + Requests.contents s.running + Requests.contents s.swapped

theorem PromptRun.conserves {taken admitted ignored : List SequenceGroup}
    (h : PromptRun cfg s s' outputs taken admitted ignored) :
    s.contents = s'.contents + contents outputs.ignoredSeqGroups := by
  rw [Scheduler.contents, Scheduler.contents, h.waiting, h.running, h.ignoredSeqGroups,
    h.swapped.1, h.swapped.2]
  simp only [contents_append, contents_perm h.perm, contents_map_setStatus]
  abel

theorem DecodeRun.conserves {kept preempted back : List SequenceGroup}
    (h : DecodeRun cfg s s' outputs kept preempted back) : s.contents = s'.contents := by
  have hrunning := congrArg contents h.running
  have hswapped := congrArg contents h.swapped
  simp only [contents_sortByPriority, contents_append, contents_reverse, contents_map_setStatus]
    at hrunning hswapped
  rw [Scheduler.contents, Scheduler.contents, h.waiting, h.running']
  simp only [contents_append, contents_map_setStatus]
  rw [hrunning, ← contents_filter recomputes preempted]
  -- what comes back and what stays swapped is what was swapped before or is swapped now
  calc contents s.waiting + (contents kept + (contents (preempted.filter recomputes) +
          contents (preempted.filter fun g => !recomputes g))) + contents s.swapped
      = contents (preempted.filter recomputes) + contents s.waiting + contents kept +
          (contents s.swapped + contents (preempted.filter fun g => !recomputes g)) := by abel
    _ = contents (preempted.filter recomputes) + contents s.waiting + contents kept +
          (contents back + contents s'.swapped) := by rw [hswapped]
    _ = _ := by abel

/-- No request is lost. -/
theorem schedule_conserves {tables : List (Nat × List Nat)}
    (hcall : s.schedule cfg = some (tables, outputs, s')) :
    s.contents = s'.contents + contents outputs.ignoredSeqGroups := by
  rcases schedule_run hcall with ⟨taken, admitted, ignored, h⟩ | ⟨kept, preempted, back, h⟩
  · exact h.conserves
  · rw [h.ignored, contents_nil, add_zero]
    exact h.conserves

/-- Groups in the order of their arrival: those behind came no earlier. -/
theorem arrival_le {gs front back : List SequenceGroup}
    (h : sortByPriority cfg gs = front ++ back) :
    ∀ g ∈ front, ∀ g' ∈ back, cfg.arrivalTime g.requestId ≤ cfg.arrivalTime g'.requestId := by
  have hsorted : (sortByPriority cfg gs).Pairwise fun g g' =>
      cfg.arrivalTime g.requestId ≤ cfg.arrivalTime g'.requestId :=
    List.pairwise_insertionSort _ gs
  rw [h] at hsorted
  exact (List.pairwise_append.mp hsorted).2.2

/-- A call of the scheduler loses no request and makes none twice. It takes prompts from the front of
the queue, in its order; or it keeps, of the running groups, those that arrived no later than the
ones it preempts, and brings back, of the swapped groups, those that arrived no later than the ones
that stay, and none if it preempts a group. -/
theorem schedule_firstCome {tables : List (Nat × List Nat)}
    (hcall : s.schedule cfg = some (tables, outputs, s')) :
    s.contents = s'.contents + contents outputs.ignoredSeqGroups ∧
    ((∃ taken admitted ignored, PromptRun cfg s s' outputs taken admitted ignored) ∨
      ∃ kept preempted back, DecodeRun cfg s s' outputs kept preempted back ∧
        (∀ g ∈ kept, ∀ g' ∈ preempted,
          cfg.arrivalTime g.requestId ≤ cfg.arrivalTime g'.requestId) ∧
        ∀ g ∈ back, ∀ g' ∈ s'.swapped,
          cfg.arrivalTime g.requestId ≤ cfg.arrivalTime g'.requestId) := by
  refine ⟨schedule_conserves hcall, ?_⟩
  rcases schedule_run hcall with ⟨taken, admitted, ignored, h⟩ | ⟨kept, preempted, back, h⟩
  · exact .inl ⟨taken, admitted, ignored, h⟩
  · exact .inr ⟨kept, preempted, back, h, arrival_le h.running, arrival_le h.swapped⟩

end Calls

/-! ## A full GPU -/

section Crowded

/-- Five blocks, and requests that come before those with smaller ids. -/
def crowdedConfig : Config :=
  ⟨2048, 256, 2048, 256, false, 4, fun i => -i, fun i => [i], ⟨16, 5, 5, 0, none, 2⟩⟩

def crowdedRequest (id : Nat) (status : SequenceStatus) (len : Nat) : SequenceGroup :=
  ⟨id, [⟨id, status, len⟩], 1, false, none⟩

def crowdedPrompts : Scheduler :=
  { Scheduler.init crowdedConfig 0 with
    waiting := [2, 1, 0].map fun id => crowdedRequest id .waiting 16 }

/-- The prompts have run, and all need another block. -/
def crowdedState : Scheduler :=
  { ((crowdedPrompts.schedule crowdedConfig).get (by decide +kernel)).2.2 with
    running := [2, 1, 0].map fun id => crowdedRequest id .running 17 }

/-- The request that came last gives way; the others go on, and the outputs have them the other way
round. -/
theorem schedule_firstCome_crowded : ∃ tables outputs s',
    crowdedState.schedule crowdedConfig = some (tables, outputs, s') ∧
    outputs.scheduledSeqGroups = [crowdedRequest 1 .running 17, crowdedRequest 2 .running 17] ∧
    s'.running = [crowdedRequest 2 .running 17, crowdedRequest 1 .running 17] ∧
    s'.waiting = [crowdedRequest 0 .waiting 17] ∧
    crowdedState.contents = s'.contents + contents outputs.ignoredSeqGroups := by
  have hsome : (crowdedState.schedule crowdedConfig).isSome := by decide +kernel
  refine ⟨_, _, _, (Option.some_get hsome).symm, by decide +kernel, by decide +kernel,
    by decide +kernel, ?_⟩
  exact (schedule_firstCome (Option.some_get hsome).symm).1

end Crowded

end Mil.Requests
