import Mil.KvCache.Paged
import Mil.LlmEngine.Outputs

/-!
# Processing a group is a run of the engine

What `_process_sequence_group_outputs` does to a running group is a sequence of the steps that the
engine over the paged cache takes (`EngineStep`): tokens are appended, children join the group and
are forked, sequences finish or are removed. The function sets the status of a parent that stops
before it forks the children of that parent, and frees its blocks after that; the run lets it finish
when its blocks are freed. In between such a parent is `pending` (`unstop`).
-/

set_option autoImplicit false

namespace Mil.Requests

open Mil.Lib Mil.Blocks Mil.Blocks.BlockManager Mil.KvCache

variable {Hidden Entry Logprob Score : Type} {M : Decoder Hidden Entry} {cfg : Config}
  {S : Sampling Logprob Score}

/-! ## The engine around a group -/

/-- What stays as it is while a group is processed. -/
structure Around (Entry : Type) where
  waiting : List SequenceGroup
  swapped : List SequenceGroup
  before : List SequenceGroup
  after : List SequenceGroup
  cache : Block → Nat → Nat → Entry

/-- The pending sequences still run. -/
def unstop (pending : List Nat) (g : SequenceGroup) : SequenceGroup :=
  { g with
    seqs := g.seqs.map fun q => if q.seqId ∈ pending then { q with status := .running } else q }

def Processing.engine (a : Around Entry) (pending sampled : List Nat)
    (st : Processing Logprob) : Engine Entry where
  scheduler := ⟨st.manager, a.waiting, a.before ++ unstop pending st.group :: a.after, a.swapped⟩
  tokens id := (st.data id).getTokenIds
  cache := a.cache
  sampled := sampled

section Unstop

variable {pending : List Nat} {g : SequenceGroup}

@[simp] theorem map_seqId_unstop (pending : List Nat) (g : SequenceGroup) :
    (unstop pending g).seqs.map Sequence.seqId = g.seqs.map Sequence.seqId := by
  show (g.seqs.map _).map Sequence.seqId = _
  rw [List.map_map]
  apply List.map_congr_left
  intro q _
  show (if q.seqId ∈ pending then { q with status := .running } else q : Sequence).seqId = q.seqId
  split <;> rfl

theorem unstop_nil (g : SequenceGroup) : unstop [] g = g := by
  simp [unstop]

/-- Only the status changes. -/
theorem mem_unstop {q : Sequence} (h : q ∈ (unstop pending g).seqs) :
    ∃ q' ∈ g.seqs, q'.seqId = q.seqId ∧ q'.len = q.len := by
  obtain ⟨q', hq', rfl⟩ := List.mem_map.mp h
  refine ⟨q', hq', ?_⟩
  by_cases hpending : q'.seqId ∈ pending
  · rw [if_pos hpending]
    exact ⟨rfl, rfl⟩
  · rw [if_neg hpending]
    exact ⟨rfl, rfl⟩

theorem mem_unstop_of_not_mem {q : Sequence} (h : q ∈ g.seqs) (hpending : q.seqId ∉ pending) :
    q ∈ (unstop pending g).seqs :=
  List.mem_map.mpr ⟨q, h, if_neg hpending⟩

/-- A list of sequences with different ids, split at one of them. -/
theorem split_seqs {qs : List Sequence} (hnodup : (qs.map Sequence.seqId).Nodup) {q : Sequence}
    (hq : q ∈ qs) : ∃ front back, qs = front ++ q :: back ∧
      ∀ q' ∈ front ++ back, q'.seqId ≠ q.seqId := by
  obtain ⟨front, back, rfl⟩ := List.append_of_mem hq
  refine ⟨front, back, rfl, fun q' hq' heq => ?_⟩
  rw [(List.perm_middle.map _).nodup_iff, List.map_cons, List.nodup_cons] at hnodup
  exact hnodup.1 (heq ▸ List.mem_map_of_mem hq')

theorem map_seqId_setSeq (q : Sequence) (g : SequenceGroup) :
    (g.setSeq q).seqs.map Sequence.seqId = g.seqs.map Sequence.seqId := by
  show (g.seqs.map _).map Sequence.seqId = _
  rw [List.map_map]
  apply List.map_congr_left
  intro q' _
  show (if q'.seqId = q.seqId then q else q' : Sequence).seqId = q'.seqId
  split
  case isTrue heq => exact heq.symm
  case isFalse => rfl

/-- The sequence with its id takes the place of another one. -/
theorem setSeq_seqs {front back : List Sequence} {q q' : Sequence}
    (hsplit : g.seqs = front ++ q :: back) (hrest : ∀ q₁ ∈ front ++ back, q₁.seqId ≠ q.seqId)
    (hid : q'.seqId = q.seqId) : (g.setSeq q').seqs = front ++ q' :: back := by
  have hsame : ∀ qs : List Sequence, (∀ q₁ ∈ qs, q₁.seqId ≠ q.seqId) →
      qs.map (fun q₁ => if q₁.seqId = q'.seqId then q' else q₁) = qs := by
    intro qs hqs
    refine (List.map_congr_left fun q₁ hq₁ => ?_).trans (List.map_id _)
    exact if_neg (hid ▸ hqs q₁ hq₁)
  show g.seqs.map _ = _
  rw [hsplit, List.map_append, List.map_cons, if_pos hid.symm,
    hsame front fun q₁ hq₁ => hrest q₁ (List.mem_append_left _ hq₁),
    hsame back fun q₁ hq₁ => hrest q₁ (List.mem_append_right _ hq₁)]

theorem unstop_congr {pending' : List Nat}
    (h : ∀ q ∈ g.seqs, q.seqId ∈ pending ↔ q.seqId ∈ pending') :
    unstop pending g = unstop pending' g := by
  unfold unstop
  congr 1
  apply List.map_congr_left
  intro q hq
  simp only [h q hq]

end Unstop

/-! ## One change of the group -/

section Changes

variable {a : Around Entry} {pending sampled : List Nat} {st st' : Processing Logprob}

/-- The groups that wait while a group is processed are those of the whole run. -/
def Admissible (cfg : Config) (waiting : List SequenceGroup) : Prop :=
  ∀ g ∈ waiting, ∀ q ∈ g.getSeqs .waiting, q.len ≤ cfg.promptLimit → g.numSeqs = 1

theorem Admissible.meets {s : Scheduler} (h : Admissible cfg s.waiting)
    (hdynamic : cfg.dynamicIncreaseOncardWeights = false) : Meets cfg s where
  one := h
  movable _ _ heq := by
    rw [hdynamic] at heq
    cases heq

/-- The ids of the sequences of the other groups. -/
def Around.seqIds (a : Around Entry) : List Nat :=
  Requests.seqIds (a.waiting ++ (a.before ++ a.after) ++ a.swapped)

theorem seqIds_engine (a : Around Entry) (pending sampled : List Nat) (st : Processing Logprob) :
    (st.engine a pending sampled).scheduler.seqIds.Perm
      (st.group.seqs.map Sequence.seqId ++ a.seqIds) := by
  have hperm := seqIds_perm (perm_groups (s := (st.engine a pending sampled).scheduler) rfl)
  rw [seqIds_cons, map_seqId_unstop] at hperm
  exact hperm

variable (hwindow : cfg.blocks.blockSlidingWindow = none)
  (hdynamic : cfg.dynamicIncreaseOncardWeights = false) (hsize : 0 < cfg.blocks.blockSize)
include hwindow hdynamic hsize

theorem EngineReach.nodup (h : EngineReach M cfg (st.engine a pending sampled)) :
    (st.group.seqs.map Sequence.seqId).Nodup := by
  have hnodup := (h.inv hwindow hdynamic hsize).owned.ids_nodup
  have hperm := seqIds_engine a pending sampled st
  exact (List.nodup_append.mp (hperm.nodup_iff.mp hnodup)).1

variable (hone : Admissible cfg a.waiting)
include hone

/-- A sequence is removed from the group and freed. -/
theorem EngineReach.remove (h : EngineReach M cfg (st.engine a pending sampled)) {id : Nat}
    {group : SequenceGroup} {m' : BlockManager} (hremove : st.group.remove id = some group)
    (hfree : st.manager.free id = some m') :
    EngineReach M cfg
      (Processing.engine a pending sampled { st with group := group, manager := m' }) := by
  have hnodup := h.nodup hwindow hdynamic hsize
  unfold SequenceGroup.remove at hremove
  obtain ⟨hany, hgroup⟩ := Option.ite_none_right_eq_some.mp hremove
  obtain rfl := Option.some.inj hgroup
  obtain ⟨q, hq, hid⟩ := List.any_eq_true.mp hany
  obtain rfl := of_decide_eq_true hid
  obtain ⟨front, back, hsplit, hrest⟩ := split_seqs hnodup hq
  have hseqs : (unstop pending st.group).seqs = (unstop pending { st.group with seqs := front }).seqs ++
      (if q.seqId ∈ pending then { q with status := .running } else q) ::
        (unstop pending { st.group with seqs := back }).seqs := by
    show st.group.seqs.map _ = _
    rw [hsplit, List.map_append, List.map_cons]
    rfl
  have hid' : (if q.seqId ∈ pending then { q with status := .running } else q : Sequence).seqId =
      q.seqId := by
    split <;> rfl
  have hstep := h.step (hone.meets hdynamic) (.remove rfl hseqs (hid'.symm ▸ hfree))
  have hfilter : st.group.seqs.filter (·.seqId ≠ q.seqId) = front ++ back := by
    rw [hsplit, List.filter_append, List.filter_cons_of_neg (by simp), ← List.filter_append]
    exact List.filter_eq_self.mpr fun q' hq' => decide_eq_true (hrest q' hq')
  rw [hfilter]
  have hunstop : (unstop pending { st.group with seqs := front ++ back }) =
      { unstop pending st.group with
        seqs := (unstop pending { st.group with seqs := front }).seqs ++
          (unstop pending { st.group with seqs := back }).seqs } := by
    unfold unstop
    rw [List.map_append]
  unfold Processing.engine
  rw [hunstop]
  exact hstep

/-- A parent gets its own token. -/
theorem EngineReach.appendParent (h : EngineReach M cfg (st.engine a [] sampled))
    {parent : Sequence} (hparent : parent ∈ st.group.seqs) (hstatus : parent.status = .running)
    (hsampled : parent.seqId ∈ sampled) {sample : SequenceOutput Logprob}
    (hcall : st.appendParent S parent sample = some st') :
    EngineReach M cfg (st'.engine a [] (sampled.filter (· ≠ parent.seqId))) := by
  have hnodup := h.nodup hwindow hdynamic hsize
  obtain ⟨data, hdata, rfl⟩ := Option.map_eq_some_iff.mp hcall
  obtain ⟨logprob, -, rfl⟩ := Option.map_eq_some_iff.mp hdata
  obtain ⟨front, back, hsplit, hrest⟩ := split_seqs hnodup hparent
  have hseqs : (unstop [] st.group).seqs = front ++ parent :: back := by
    rw [unstop_nil, hsplit]
  have hstep := h.step (hone.meets hdynamic)
    (.appendToken sample.outputToken rfl hseqs hstatus hsampled)
  have hset : (st.group.setSeq { parent with len := parent.len + 1 }).seqs =
      front ++ { parent with len := parent.len + 1 } :: back := setSeq_seqs hsplit hrest rfl
  have hgroup : unstop [] (st.group.setSeq { parent with len := parent.len + 1 }) =
      { unstop [] st.group with seqs := front ++ { parent with len := parent.len + 1 } :: back } := by
    rw [unstop_nil, unstop_nil, ← hset]
    rfl
  have htokens : (fun id => (Function.update st.data parent.seqId
      ((st.data parent.seqId).append S sample.outputToken logprob) id).getTokenIds) = Function.update
        (fun id => (st.data id).getTokenIds) parent.seqId
        ((st.data parent.seqId).getTokenIds ++ [sample.outputToken]) := by
    funext id
    by_cases hid : id = parent.seqId
    · rw [hid, Function.update_self, Function.update_self]
      exact (List.append_assoc _ _ _).symm
    · rw [Function.update_of_ne hid, Function.update_of_ne hid]
  show EngineReach M cfg ⟨⟨st.manager, a.waiting, a.before ++ unstop [] (st.group.setSeq
    { parent with len := parent.len + 1 }) :: a.after, a.swapped⟩, _, a.cache, _⟩
  rw [hgroup]
  exact htokens ▸ hstep

omit hwindow hsize in
/-- A child joins the group, finished or forked. -/
theorem EngineReach.addChild (h : EngineReach M cfg (st.engine a pending sampled))
    {c : Child Logprob} (hchild : c.isParent = false) {q : Sequence}
    (hq : q ∈ (unstop pending st.group).seqs) (hrunning : q.status = .running)
    (hseq : c.seq = { q with seqId := c.seq.seqId, status := c.seq.status })
    (hparent : c.parent = q.seqId)
    (hstatus : c.seq.status = .running ∨ c.seq.status.isFinished = true) {token : Nat}
    (htokens : c.data.getTokenIds = (st.data c.parent).getTokenIds.dropLast ++ [token])
    (htaken : c.parent ∉ sampled)
    (hnew : c.seq.seqId ∉ st.group.seqs.map Sequence.seqId ++ a.seqIds)
    (hpending : c.seq.seqId ∉ pending) (hcall : st.addChild c = some st') :
    ∃ sampled', EngineReach M cfg (st'.engine a pending sampled') ∧ sampled' ⊆ sampled ∧
      ∀ id ∈ sampled, id ≠ c.seq.seqId → id ∈ sampled' := by
  unfold Processing.addChild at hcall
  rw [hchild, if_neg Bool.false_ne_true] at hcall
  obtain ⟨group, hadd, hcall⟩ := Option.bind_eq_some_iff.mp hcall
  obtain ⟨manager, hmanager, hcall⟩ := Option.bind_eq_some_iff.mp hcall
  obtain rfl := Option.some.inj hcall
  obtain ⟨-, hadd⟩ := Option.ite_none_left_eq_some.mp hadd
  obtain rfl := Option.some.inj hadd
  rw [← (seqIds_engine a pending sampled st).mem_iff] at hnew
  have hgroup : unstop pending { st.group with seqs := st.group.seqs ++ [c.seq] } =
      { unstop pending st.group with seqs := (unstop pending st.group).seqs ++ [c.seq] } := by
    unfold unstop
    rw [List.map_append, List.map_singleton, if_neg hpending]
  have htokens' : (fun id => (Function.update st.data c.seq.seqId c.data id).getTokenIds) =
      forkTokens (fun id => (st.data id).getTokenIds) q.seqId c.seq.seqId token := by
    funext id
    unfold forkTokens
    by_cases hid : id = c.seq.seqId
    · rw [hid, Function.update_self, Function.update_self, htokens, hparent]
    · rw [Function.update_of_ne hid, Function.update_of_ne hid]
  unfold Processing.forkUnfinished at hmanager
  by_cases hfin : c.seq.status.isFinished = true
  · rw [if_pos hfin] at hmanager
    obtain rfl := Option.some.inj hmanager
    have hstep := h.step (hone.meets hdynamic) (.addFinished token rfl hq hnew hfin)
    refine ⟨sampled, ?_, List.Subset.refl _, fun id hid _ => hid⟩
    unfold Processing.engine
    rw [hgroup, htokens']
    rw [← hseq] at hstep
    exact hstep
  · rw [if_neg hfin] at hmanager
    have hstatus := hstatus.resolve_right hfin
    have hmem : q ∈ (unstop pending st.group).getSeqs .running := mem_getSeqs.mpr ⟨hq, hrunning⟩
    have hstep := h.step (hone.meets hdynamic)
      (.fork token rfl hmem hnew (hparent ▸ htaken) (hparent ▸ hmanager))
    refine ⟨sampled.filter (· ≠ c.seq.seqId), ?_, List.filter_sublist.subset, fun id hid hne => ?_⟩
    · have hseq' : { q with seqId := c.seq.seqId } = c.seq := by
        rw [hseq, hstatus, ← hrunning]
      rw [hseq'] at hstep
      unfold Processing.engine
      rw [hgroup, htokens']
      exact hstep
    · exact List.mem_filter.mpr ⟨hid, decide_eq_true hne⟩

/-- A pending sequence is freed. -/
theorem EngineReach.finish {id : Nat} (h : EngineReach M cfg (st.engine a (id :: pending) sampled))
    (hid : id ∉ pending) {q : Sequence} (hq : q ∈ st.group.seqs) (hseqId : q.seqId = id)
    (hfin : q.status.isFinished = true) {m' : BlockManager}
    (hfree : st.manager.free id = some m') :
    EngineReach M cfg (Processing.engine a pending sampled { st with manager := m' }) := by
  subst hseqId
  have hnodup := h.nodup hwindow hdynamic hsize
  obtain ⟨front, back, hsplit, hrest⟩ := split_seqs hnodup hq
  have hsame : ∀ qs : List Sequence, (∀ q' ∈ qs, q'.seqId ≠ q.seqId) →
      (unstop (q.seqId :: pending) { st.group with seqs := qs }) =
        unstop pending { st.group with seqs := qs } := by
    intro qs hqs
    exact unstop_congr fun q' hq' => by simp [hqs q' hq']
  have hseqs : (unstop (q.seqId :: pending) st.group).seqs =
      (unstop pending { st.group with seqs := front }).seqs ++ { q with status := .running } ::
        (unstop pending { st.group with seqs := back }).seqs := by
    rw [← hsame front fun q' hq' => hrest q' (List.mem_append_left _ hq'),
      ← hsame back fun q' hq' => hrest q' (List.mem_append_right _ hq')]
    show st.group.seqs.map _ = _
    rw [hsplit, List.map_append, List.map_cons, if_pos List.mem_cons_self]
    rfl
  have hstep := h.step (hone.meets hdynamic) (.finish rfl hseqs hfin hfree)
  have hgroup : unstop pending st.group = { unstop (q.seqId :: pending) st.group with
      seqs := (unstop pending { st.group with seqs := front }).seqs ++ q ::
        (unstop pending { st.group with seqs := back }).seqs } := by
    unfold unstop
    rw [hsplit, List.map_append, List.map_cons, if_neg hid]
  unfold Processing.engine
  rw [hgroup]
  exact hstep

end Changes

end Mil.Requests
