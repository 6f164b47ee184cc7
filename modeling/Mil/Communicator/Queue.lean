import Mil.Communicator.State

/-!
# The shared queue and its cursors

`fused_inp_queues[m]` is one list, read by the data-parallel workers of `m` with a stride, each
from a cursor of its own. `QueueOk` says what the cursors are worth: they cover every residue
once, none has run ahead by a whole stride, and what has been returned together with what the
cursors leave is what was assembled. It is kept by appending to the queue, by a worker taking its
share, by a reset to any number of workers, and by a starving worker taking the head.
-/

set_option autoImplicit false

namespace Mil.Communicator

open Mil.Lib

variable {α : Type} {m : ModelId}

structure QueueOk (dpSize : Nat) (queue : List (Req α)) (starts : List Nat)
    (assembled returned : List (Req α)) : Prop where
  length : starts.length = dpSize
  covers : Covers dpSize starts
  bound : ∀ s ∈ starts, s < queue.length + dpSize
  perm : (returned ++ pending queue starts dpSize).Perm assembled

namespace QueueOk

variable {dpSize : Nat} {queue : List (Req α)} {starts : List Nat}
  {assembled returned : List (Req α)}

theorem init : QueueOk 0 ([] : List (Req α)) [] [] [] where
  length := rfl
  covers := List.Perm.refl _
  bound _ hs := absurd hs List.not_mem_nil
  perm := List.Perm.refl _

/-- New requests at the end of the queue. -/
theorem append (h : QueueOk dpSize queue starts assembled returned) (pos : 0 < dpSize)
    (reqs : List (Req α)) :
    QueueOk dpSize (queue ++ reqs) starts (assembled ++ reqs) returned where
  length := h.length
  covers := h.covers
  bound s hs := by
    have := h.bound s hs
    rw [List.length_append]
    omega
  perm := by
    have hp := pending_append pos reqs queue h.covers h.bound
    refine (List.Perm.append_left returned hp).trans ?_
    rw [← List.append_assoc]
    exact h.perm.append_right reqs

/-- A fresh round of workers, any number of them. -/
theorem fresh {d : Nat} (pos : 0 < d) (hperm : (returned ++ queue).Perm assembled) :
    QueueOk d queue (List.range d) assembled returned where
  length := List.length_range
  covers := covers_range d
  bound s hs := by
    have := List.mem_range.mp hs
    omega
  perm := (List.Perm.append_left returned (pending_range pos queue)).trans hperm

/-- A worker takes its share. -/
theorem take (h : QueueOk dpSize queue starts assembled returned) (pos : 0 < dpSize)
    {dpId start : Nat} (hstart : starts[dpId]? = some start) :
    QueueOk dpSize queue
      (starts.set dpId (start + (strided queue start dpSize).length * dpSize)) assembled
      (returned ++ strided queue start dpSize) := by
  obtain ⟨hlt, rfl⟩ := List.getElem?_eq_some_iff.mp hstart
  obtain ⟨hend, hbound⟩ := strided_end_bounds pos queue starts[dpId]
  refine ⟨by rw [List.length_set, h.length], h.covers.set hlt (by simp), fun s hs => ?_, ?_⟩
  · rcases List.mem_or_eq_of_mem_set hs with hs | rfl
    · exact h.bound s hs
    · exact hbound (h.bound _ (List.getElem_mem hlt))
  · rw [List.append_assoc]
    exact (List.Perm.append_left returned (pending_take hend hlt).symm).trans h.perm

end QueueOk

/-! ## The operations -/

variable {cfg : Config α} {dpSize : Nat} {assembled returned : List (Req α)}

/-- `QueueOk` of a model in a state. -/
def StateQueueOk (m : ModelId) (dpSize : Nat) (assembled returned : List (Req α))
    (st : State α) : Prop :=
  QueueOk dpSize (st.fusedInpQueues m) (st.fetchedFusedInpStart m) assembled returned

/-- `st'` is `st` but for the queue and the cursors of `m` and the owners of requests. -/
def QueueFrame (m : ModelId) (st st' : State α) : Prop :=
  ∃ queue starts mapping, st' = { st with
    fusedInpQueues := Function.update st.fusedInpQueues m queue
    fetchedFusedInpStart := Function.update st.fetchedFusedInpStart m starts
    outReqModelIdMapping := mapping }

theorem QueueFrame.trans {st st' st'' : State α} (h : QueueFrame m st st')
    (h' : QueueFrame m st' st'') : QueueFrame m st st'' := by
  obtain ⟨q, s, o, rfl⟩ := h
  obtain ⟨q', s', o', rfl⟩ := h'
  exact ⟨q', s', o', by simp⟩

theorem StateQueueOk.undelivered_perm {st : State α}
    (h : StateQueueOk m dpSize assembled returned st) :
    (returned ++ pending (st.fusedInpQueues m) (st.fetchedFusedInpStart m)
      (st.fetchedFusedInpStart m).length).Perm assembled := by
  rw [h.length]
  exact h.perm

theorem StateQueueOk.appendFused {st : State α} (h : StateQueueOk m dpSize assembled returned st)
    (pos : 0 < dpSize) (reqs : List (Req α)) :
    StateQueueOk m dpSize (assembled ++ reqs) returned (appendFused m st reqs) := by
  unfold StateQueueOk Communicator.appendFused
  simp only [Function.update_self]
  exact h.append pos reqs

theorem getSeqs_frame {dpId : Nat} {st st' : State α} {ret : List (Req α)}
    (run : getSeqs m dpId dpSize st = some (st', ret)) : QueueFrame m st st' := by
  unfold getSeqs at run
  simp only [Option.bind_eq_bind, Option.bind_eq_some_iff, Option.pure_def, Option.some.injEq,
    Prod.mk.injEq] at run
  obtain ⟨start, -, rfl, -⟩ := run
  exact ⟨st.fusedInpQueues m, _, st.outReqModelIdMapping, by rw [Function.update_eq_self]⟩

theorem StateQueueOk.getSeqs {dpId : Nat} {st st' : State α} {ret : List (Req α)}
    (h : StateQueueOk m dpSize assembled returned st) (pos : 0 < dpSize)
    (run : getSeqs m dpId dpSize st = some (st', ret)) :
    StateQueueOk m dpSize assembled (returned ++ ret) st' := by
  unfold Communicator.getSeqs at run
  simp only [Option.bind_eq_bind, Option.bind_eq_some_iff, Option.pure_def, Option.some.injEq,
    Prod.mk.injEq] at run
  obtain ⟨start, hstart, rfl, rfl⟩ := run
  unfold StateQueueOk
  simp only [Function.update_self]
  exact h.take pos hstart

theorem resetState_frame (d : Nat) (st : State α) :
    QueueFrame m st (resetStateForBaseModel m d st) := ⟨_, _, st.outReqModelIdMapping, rfl⟩

/-- **A reset loses nothing**, whatever the numbers of workers before and after. -/
theorem StateQueueOk.reset {st : State α} (h : StateQueueOk m dpSize assembled returned st)
    {d : Nat} (pos : 0 < d) :
    StateQueueOk m d assembled returned (resetStateForBaseModel m d st) := by
  unfold StateQueueOk resetStateForBaseModel
  simp only [Function.update_self]
  refine QueueOk.fresh pos ?_
  refine (List.Perm.append_left returned ?_).trans h.undelivered_perm
  exact List.perm_insertionSort _ _

theorem updateOutReq_frame (sharedId : SharedId) (reqs : List (Req α)) (st : State α) :
    QueueFrame m st (updateOutReqModelIdMapping cfg sharedId m reqs st) := by
  unfold updateOutReqModelIdMapping
  split
  · exact ⟨st.fusedInpQueues m, st.fetchedFusedInpStart m, st.outReqModelIdMapping, by simp⟩
  · exact ⟨st.fusedInpQueues m, st.fetchedFusedInpStart m, _, by
      simp only [Function.update_eq_self]; rfl⟩

theorem StateQueueOk.updateOutReq {st : State α} {sharedId : SharedId} {reqs : List (Req α)}
    (h : StateQueueOk m dpSize assembled returned st) :
    StateQueueOk m dpSize assembled returned
      (updateOutReqModelIdMapping cfg sharedId m reqs st) := by
  unfold updateOutReqModelIdMapping
  split <;> exact h

/-- The ways `get_seqs_base_model` can end: with the worker's share before or after a re-stride,
with the head of the queue, or empty-handed from an empty queue. -/
theorem handOut_cases {sharedId : SharedId} {dpId : Nat} {st st' : State α}
    {ret : List (Req α)} {possible : Bool}
    (run : handOut cfg sharedId m dpId dpSize st = some (st', ret, possible)) :
    ∃ st₁ ret₁, getSeqs m dpId dpSize st = some (st₁, ret₁) ∧
      ((ret₁ ≠ [] ∧ ret = ret₁ ∧ possible = true ∧
          st' = updateOutReqModelIdMapping cfg sharedId m ret₁ st₁) ∨
        (ret₁ = [] ∧ ∃ st₂, getSeqs m dpId dpSize (resetStateForBaseModel m dpSize st₁) =
            some (st₂, ret) ∧ possible = true ∧
          st' = updateOutReqModelIdMapping cfg sharedId m ret st₂) ∨
        (ret₁ = [] ∧ ∃ req rest, (resetStateForBaseModel m dpSize st₁).fusedInpQueues m =
            req :: rest ∧ ret = [req] ∧ possible = true ∧
          st' = updateOutReqModelIdMapping cfg sharedId m [req]
            { resetStateForBaseModel m dpSize st₁ with
              fusedInpQueues := Function.update
                (resetStateForBaseModel m dpSize st₁).fusedInpQueues m rest }) ∨
        (ret₁ = [] ∧ (resetStateForBaseModel m dpSize st₁).fusedInpQueues m = [] ∧ ret = [] ∧
          possible = decide (st₁.unavailableReqNums m ≠ 0) ∧
          st' = resetStateForBaseModel m dpSize st₁)) := by
  unfold handOut at run
  simp only [Option.bind_eq_bind, Option.bind_eq_some_iff, Prod.exists] at run
  obtain ⟨st₁, ret₁, hget, run⟩ := run
  refine ⟨st₁, ret₁, hget, ?_⟩
  split at run
  · rename_i hlen
    have hnil := List.eq_nil_of_length_eq_zero hlen
    simp only [Option.bind_eq_some_iff] at run
    obtain ⟨start, -, run⟩ := run
    split at run
    · split at run
      · rename_i req rest hq
        simp only [Option.pure_def, Option.some.injEq, Prod.mk.injEq] at run
        obtain ⟨rfl, rfl, rfl⟩ := run
        exact .inr (.inr (.inl ⟨hnil, req, rest, hq, rfl, rfl, rfl⟩))
      · rename_i hq
        split at run
        · simp only [Option.pure_def, Option.some.injEq, Prod.mk.injEq] at run
          obtain ⟨rfl, rfl, rfl⟩ := run
          exact .inr (.inr (.inr ⟨hnil, hq, rfl, rfl, rfl⟩))
        · cases run
    · simp only [Option.bind_eq_some_iff, Prod.exists, Option.pure_def, Option.some.injEq,
        Prod.mk.injEq] at run
      obtain ⟨st₂, ret₂, hget₂, rfl, rfl, rfl⟩ := run
      exact .inr (.inl ⟨hnil, st₂, hget₂, rfl, rfl⟩)
  · rename_i hlen
    simp only [Option.pure_def, Option.some.injEq, Prod.mk.injEq] at run
    obtain ⟨rfl, rfl, rfl⟩ := run
    exact .inl ⟨fun hnil => hlen (by rw [hnil]; rfl), rfl, rfl, rfl⟩

theorem handOut_frame {sharedId : SharedId} {dpId : Nat} {st st' : State α}
    {ret : List (Req α)} {possible : Bool}
    (run : handOut cfg sharedId m dpId dpSize st = some (st', ret, possible)) :
    QueueFrame m st st' := by
  obtain ⟨st₁, ret₁, hget, hcases⟩ := handOut_cases run
  have h₁ := getSeqs_frame hget
  have h₂ := h₁.trans (resetState_frame dpSize st₁)
  rcases hcases with ⟨-, rfl, -, rfl⟩ | ⟨-, st₂, hget₂, -, rfl⟩ |
    ⟨-, req, rest, -, -, -, rfl⟩ | ⟨-, -, -, -, rfl⟩
  · exact h₁.trans (updateOutReq_frame _ _ _)
  · exact (h₂.trans (getSeqs_frame hget₂)).trans (updateOutReq_frame _ _ _)
  · refine (h₂.trans ?_).trans (updateOutReq_frame _ _ _)
    exact ⟨rest, _, _, by rw [Function.update_eq_self]⟩
  · exact h₂

/-- **Handing out moves requests from undelivered to returned**, on every path. -/
theorem StateQueueOk.handOut {sharedId : SharedId} {dpId : Nat} {st st' : State α}
    {ret : List (Req α)} {possible : Bool} (h : StateQueueOk m dpSize assembled returned st)
    (pos : 0 < dpSize)
    (run : handOut cfg sharedId m dpId dpSize st = some (st', ret, possible)) :
    StateQueueOk m dpSize assembled (returned ++ ret) st' := by
  obtain ⟨st₁, ret₁, hget, hcases⟩ := handOut_cases run
  have h₁ := h.getSeqs pos hget
  rcases hcases with ⟨-, rfl, -, rfl⟩ | ⟨rfl, hcases⟩ | ⟨rfl, hcases⟩ | ⟨rfl, -, rfl, -, rfl⟩
  · exact h₁.updateOutReq
  · obtain ⟨st₂, hget₂, -, rfl⟩ := hcases
    rw [List.append_nil] at h₁
    exact ((h₁.reset pos).getSeqs pos hget₂).updateOutReq
  · obtain ⟨req, rest, hq, rfl, -, rfl⟩ := hcases
    rw [List.append_nil] at h₁
    refine StateQueueOk.updateOutReq ?_
    have hall : (returned ++ req :: rest).Perm assembled := by
      have hstarts : (resetStateForBaseModel m dpSize st₁).fetchedFusedInpStart m =
          List.range dpSize := by simp [resetStateForBaseModel]
      have hp := (h₁.reset (d := dpSize) pos).perm
      rw [hq, hstarts] at hp
      exact (List.Perm.append_left returned (pending_range pos (req :: rest)).symm).trans hp
    unfold StateQueueOk
    simp only [Function.update_self, resetStateForBaseModel]
    exact QueueOk.fresh pos (by simpa using hall)
  · exact h₁.reset pos

/-- An answer `False` comes from an empty queue and a counter at zero. -/
theorem handOut_signal {sharedId : SharedId} {dpId : Nat} {st st' : State α}
    {ret : List (Req α)} (run : handOut cfg sharedId m dpId dpSize st = some (st', ret, false)) :
    st'.fusedInpQueues m = [] ∧ st.unavailableReqNums m = 0 := by
  obtain ⟨st₁, ret₁, hget, hcases⟩ := handOut_cases run
  obtain ⟨_, _, _, rfl⟩ := getSeqs_frame hget
  rcases hcases with ⟨-, -, hp, -⟩ | ⟨-, st₂, -, hp, -⟩ |
    ⟨-, req, rest, -, -, hp, -⟩ | ⟨-, hq, -, hp, rfl⟩
  · cases hp
  · cases hp
  · cases hp
  · exact ⟨hq, by simpa using hp⟩

end Mil.Communicator
