import Mil.LlmEngine.Select

/-!
# From the samples to the selection

The middle of `_process_sequence_group_outputs` followed by the engine: the check of the stopping
criteria, after which the parents that stop are pending, and what beam search selects. With the
loops before and after it, processing a group is a run of the engine (`process_reach`).
-/

set_option autoImplicit false

namespace Mil.Requests

open Mil.Lib Mil.Blocks Mil.Blocks.BlockManager Mil.KvCache

variable {Hidden Entry Logprob Score : Type} {M : Decoder Hidden Entry} {cfg : Config}
  {S : Sampling Logprob Score}

/-! ## The stopping criteria -/

theorem isFinished_checkStop {p : SamplingParams} {d : SequenceData Logprob}
    {status : SequenceStatus} (h : checkStop cfg S p d = some status) :
    status.isFinished = true := by
  unfold checkStop at h
  split at h
  · cases h
    rfl
  split at h
  · cases h
    rfl
  split at h
  · cases h
    rfl
  split at h
  · cases h
    rfl
  split at h
  · cases h
    rfl
  · cases h

/-- A child with the status that the check gives it. -/
def Child.stopped (cfg : Config) (S : Sampling Logprob Score) (requestId : Nat)
    (c : Child Logprob) : Child Logprob :=
  { c with seq := { c.seq with
      status := (checkStop cfg S (S.samplingParams requestId) c.data).getD c.seq.status } }

theorem Child.stopped_status {requestId : Nat} {c : Child Logprob} (h : c.seq.status = .running) :
    (c.stopped cfg S requestId).seq.status = .running ∨
      (c.stopped cfg S requestId).seq.status.isFinished = true := by
  show ((checkStop cfg S (S.samplingParams requestId) c.data).getD c.seq.status) = _ ∨ _
  cases hstop : checkStop cfg S (S.samplingParams requestId) c.data with
  | none => exact .inl h
  | some status =>
    refine .inr ?_
    show ((checkStop cfg S _ c.data).getD c.seq.status).isFinished = true
    rw [hstop]
    exact isFinished_checkStop hstop

theorem childSeqs_checkStops (st : Processing Logprob) :
    (st.checkStops cfg S).childSeqs = st.childSeqs.map (Child.stopped cfg S st.group.requestId) :=
  rfl

section Stops

variable {a : Around Entry} {used keep sampled : List Nat} {finished : List Sequence}
  {st : Processing Logprob}

/-- The sequence that a sequence of the group is after the check. -/
def refreshed (cs : List (Child Logprob)) (q : Sequence) : Sequence :=
  ((cs.find? fun c => c.isParent && c.seq.seqId = q.seqId).map Child.seq).getD q

/-- It is the one of a parent with its id, or the sequence itself. -/
theorem refreshed_cases (cs : List (Child Logprob)) (q : Sequence) :
    (∃ c ∈ cs, c.isParent = true ∧ c.seq.seqId = q.seqId ∧ refreshed cs q = c.seq) ∨
      (∀ c ∈ cs, c.isParent = true → c.seq.seqId ≠ q.seqId) ∧ refreshed cs q = q := by
  unfold refreshed
  cases hfind : cs.find? fun c => c.isParent && c.seq.seqId = q.seqId with
  | none =>
    refine .inr ⟨fun c hc hparent heq => ?_, rfl⟩
    have hnot := List.find?_eq_none.mp hfind c hc
    simp [hparent, heq] at hnot
  | some c =>
    have hc := List.mem_of_find?_eq_some hfind
    have hfound := List.find?_some hfind
    obtain ⟨hparent, hid⟩ := Bool.and_eq_true_iff.mp hfound
    exact .inl ⟨c, hc, hparent, of_decide_eq_true hid, rfl⟩

theorem refreshed_seqId (cs : List (Child Logprob)) (q : Sequence) :
    (refreshed cs q).seqId = q.seqId := by
  rcases refreshed_cases cs q with ⟨c, -, -, hid, heq⟩ | ⟨-, heq⟩
  · rw [heq, hid]
  · rw [heq]

/-- The group as it was but for the pending sequences. -/
theorem Looping.unstop_checkStops (h : Looping M cfg a used keep finished [] sampled st)
    (hnodup : (st.group.seqs.map Sequence.seqId).Nodup) :
    unstop (pendingIds (st.checkStops cfg S).childSeqs) (st.checkStops cfg S).group = st.group := by
  have hself : ∀ q ∈ st.group.seqs, ∀ c ∈ (st.checkStops cfg S).childSeqs, c.isParent = true →
      c.seq.seqId = q.seqId → q.status = .running ∧ c.seq = { q with status := c.seq.status } ∧
        (c.seq.status = .running ∨ c.seq.status.isFinished = true) := by
    intro q hq c hc hparent hid
    rw [childSeqs_checkStops] at hc
    obtain ⟨c₀, hc₀, rfl⟩ := List.mem_map.mp hc
    obtain rfl := List.inj_on_of_nodup_map hnodup (h.self c₀ hc₀ hparent) hq hid
    have hrunning := (h.children c₀ hc₀).2.1
    exact ⟨hrunning, rfl, Child.stopped_status hrunning⟩
  show ({ st.group with seqs := (st.group.seqs.map (refreshed _)).map _ } : SequenceGroup) = st.group
  rw [List.map_map]
  have hmap : st.group.seqs.map ((fun q => if q.seqId ∈ pendingIds (st.checkStops cfg S).childSeqs
      then { q with status := .running } else q) ∘ refreshed (st.checkStops cfg S).childSeqs) =
      st.group.seqs := by
    refine (List.map_congr_left fun q hq => ?_).trans (List.map_id _)
    show (if (refreshed _ q).seqId ∈ pendingIds _ then _ else _) = q
    rw [refreshed_seqId]
    rcases refreshed_cases (st.checkStops cfg S).childSeqs q with
      ⟨c, hc, hparent, hid, heq⟩ | ⟨hnone, heq⟩
    · obtain ⟨hrunning, hseq, hstatus⟩ := hself q hq c hc hparent hid
      rw [heq]
      split
      case isTrue =>
        rw [hseq, ← hrunning]
      case isFalse hnot =>
        have hstatus := hstatus.resolve_right fun hfin =>
          hnot (mem_pendingIds.mpr ⟨c, hc, hparent, hfin, hid⟩)
        rw [hseq, hstatus, ← hrunning]
    · rw [heq]
      refine if_neg fun hin => ?_
      obtain ⟨c, hc, hparent, -, hid⟩ := mem_pendingIds.mp hin
      exact hnone c hc hparent hid
  exact congrArg (fun seqs => ({ st.group with seqs := seqs } : SequenceGroup)) hmap

/-- After the check the children can be selected. -/
theorem Looping.selecting (h : Looping M cfg a used keep finished [] sampled st)
    (hnodup : (st.group.seqs.map Sequence.seqId).Nodup) (hused : a.seqIds ⊆ used) :
    Selecting M cfg a keep (pendingIds (st.checkStops cfg S).childSeqs)
        (st.checkStops cfg S).childSeqs sampled (st.checkStops cfg S) ∧
      (∀ c ∈ (st.checkStops cfg S).childSeqs, c.isParent = true →
        c.seq ∈ (st.checkStops cfg S).group.seqs) ∧
      ∀ q ∈ finished, q.status.isFinished = true → q ∈ (st.checkStops cfg S).group.seqs ∧
        q.seqId ∉ pendingIds (st.checkStops cfg S).childSeqs := by
  have hunstop : unstop (pendingIds (st.checkStops cfg S).childSeqs) (st.checkStops cfg S).group =
      st.group := h.unstop_checkStops hnodup
  have hids : (st.checkStops cfg S).group.seqs.map Sequence.seqId =
      st.group.seqs.map Sequence.seqId := by
    rw [← map_seqId_unstop (pendingIds (st.checkStops cfg S).childSeqs), hunstop]
  have hchildIds : (st.checkStops cfg S).childSeqs.map (fun c => c.seq.seqId) =
      st.childSeqs.map fun c => c.seq.seqId := by
    rw [childSeqs_checkStops, List.map_map]
    rfl
  have hsub : ∀ id ∈ (st.checkStops cfg S).group.seqs.map Sequence.seqId ++ a.seqIds,
      id ∈ used := by
    intro id hid
    rcases List.mem_append.mp hid with hid | hid
    · exact h.ids (hids ▸ hid)
    · exact hused hid
  have hself : ∀ c ∈ (st.checkStops cfg S).childSeqs, c.isParent = true →
      c.seq ∈ (st.checkStops cfg S).group.seqs := by
    intro c hc hparent
    have hc' := hc
    rw [childSeqs_checkStops] at hc'
    obtain ⟨c₀, hc₀, rfl⟩ := List.mem_map.mp hc'
    refine List.mem_map.mpr ⟨c₀.seq, h.self c₀ hc₀ hparent, ?_⟩
    show refreshed (st.checkStops cfg S).childSeqs c₀.seq = _
    rcases refreshed_cases (st.checkStops cfg S).childSeqs c₀.seq with
      ⟨c, hc₁, -, hid, heq⟩ | ⟨hnone, -⟩
    · rw [heq]
      exact congrArg Child.seq
        (List.inj_on_of_nodup_map (hchildIds ▸ h.fresh.nodup) hc₁ hc hid)
    · exact absurd (Eq.refl c₀.seq.seqId) (hnone (c₀.stopped cfg S st.group.requestId) hc hparent)
  refine ⟨⟨?_, ?_, ?_, ?_, ?_, ?_, h.keep⟩, hself, fun q hq hfin => ?_⟩
  · have hreach := h.reach
    unfold Processing.engine at hreach ⊢
    rw [hunstop]
    rw [unstop_nil] at hreach
    exact hreach
  · intro c hc
    rw [childSeqs_checkStops] at hc
    obtain ⟨c₀, hc₀, rfl⟩ := List.mem_map.mp hc
    have hof := (h.children c₀ hc₀).1
    rw [hunstop]
    exact ⟨hof.parent, hof.taken, hof.tokens, hof.self⟩
  · intro c hc
    rw [childSeqs_checkStops] at hc
    obtain ⟨c₀, hc₀, rfl⟩ := List.mem_map.mp hc
    exact Child.stopped_status (h.children c₀ hc₀).2.1
  · intro id hid
    obtain ⟨c, hc, hparent, -, rfl⟩ := mem_pendingIds.mp hid
    exact List.mem_map_of_mem (hself c hc hparent)
  · exact fun id hid => h.counter id (hsub id hid)
  · refine ⟨hchildIds ▸ h.fresh.nodup, fun c hc => ?_, fun c hc hchild hin => ?_⟩
    · rw [childSeqs_checkStops] at hc
      obtain ⟨c₀, hc₀, rfl⟩ := List.mem_map.mp hc
      exact h.fresh.below c₀ hc₀
    · rw [childSeqs_checkStops] at hc
      obtain ⟨c₀, hc₀, rfl⟩ := List.mem_map.mp hc
      exact h.fresh.new c₀ hc₀ hchild (hsub _ hin)
  · -- a parent runs before the check
    obtain ⟨hmem, -⟩ := h.finished q hq
    have hnot : ∀ c ∈ (st.checkStops cfg S).childSeqs, c.isParent = true →
        c.seq.seqId ≠ q.seqId := by
      intro c hc hparent hid
      rw [childSeqs_checkStops] at hc
      obtain ⟨c₀, hc₀, rfl⟩ := List.mem_map.mp hc
      obtain rfl := List.inj_on_of_nodup_map hnodup (h.self c₀ hc₀ hparent) hmem hid
      rw [(h.children c₀ hc₀).2.1] at hfin
      cases hfin
    refine ⟨List.mem_map.mpr ⟨q, hmem, ?_⟩, fun hin => ?_⟩
    · show refreshed (st.checkStops cfg S).childSeqs q = q
      rcases refreshed_cases (st.checkStops cfg S).childSeqs q with
        ⟨c, hc, hparent, hid, -⟩ | ⟨-, heq⟩
      · exact absurd hid (hnot c hc hparent)
      · exact heq
    · obtain ⟨c, hc, hparent, -, hid⟩ := mem_pendingIds.mp hin
      exact hnot c hc hparent hid

end Stops

/-! ## Beam search -/

section BeamSearch

variable {a : Around Entry} {keep sampled : List Nat} {cs : List (Child Logprob)}
  {st st' : Processing Logprob}
  (hwindow : cfg.blocks.blockSlidingWindow = none)
  (hdynamic : cfg.dynamicIncreaseOncardWeights = false) (hsize : 0 < cfg.blocks.blockSize)
  (hone : Admissible cfg a.waiting)
include hwindow hdynamic hsize hone

/-- A sequence that was finished before is removed; it has no blocks. -/
theorem Selecting.removeFinished (h : Selecting M cfg a keep (pendingIds cs) cs sampled st)
    (hself : ∀ c ∈ cs, c.isParent = true → c.seq ∈ st.group.seqs) {q : Sequence}
    (hq : q ∈ st.group.seqs) (hfin : q.status.isFinished = true)
    (hpending : q.seqId ∉ pendingIds cs) {group : SequenceGroup}
    (hremove : st.group.remove q.seqId = some group) :
    Selecting M cfg a keep (pendingIds cs) cs sampled { st with group := group } ∧
      group.seqs = st.group.seqs.filter (·.seqId ≠ q.seqId) ∧
      ∀ c ∈ cs, c.isParent = true → c.seq ∈ group.seqs := by
  have hnone := h.reach.lookup_finished hwindow hdynamic hsize hq hfin hpending
  have hfree : st.manager.free q.seqId = some st.manager := by
    rw [BlockManager.free, hnone]
  have hreach := h.reach.remove hwindow hdynamic hsize hone hremove hfree
  have hnodup := h.reach.nodup hwindow hdynamic hsize
  obtain ⟨-, hgroup⟩ := Option.ite_none_right_eq_some.mp hremove
  obtain rfl := Option.some.inj hgroup
  have hsub : st.group.seqs.filter (·.seqId ≠ q.seqId) ⊆ st.group.seqs :=
    List.filter_sublist.subset
  have hids : ∀ id, id ∈ (st.group.seqs.filter (·.seqId ≠ q.seqId)).map Sequence.seqId ++
      a.seqIds → id ∈ st.group.seqs.map Sequence.seqId ++ a.seqIds := by
    intro id hid
    rcases List.mem_append.mp hid with hid | hid
    · exact List.mem_append_left _ (List.map_subset _ hsub hid)
    · exact List.mem_append_right _ hid
  have hself' : ∀ c ∈ cs, c.isParent = true →
      c.seq ∈ st.group.seqs.filter (·.seqId ≠ q.seqId) := by
    intro c hc hparent
    refine List.mem_filter.mpr ⟨hself c hc hparent, decide_eq_true fun heq => ?_⟩
    have hsame := List.inj_on_of_nodup_map hnodup (hself c hc hparent) hq heq
    exact hpending (mem_pendingIds.mpr ⟨c, hc, hparent, hsame ▸ hfin, heq⟩)
  refine ⟨⟨hreach, fun c hc => ?_, h.status, fun id hid => ?_, fun id hid => h.counter id (hids id hid),
    ⟨h.fresh.nodup, h.fresh.below, fun c hc hchild hin => h.fresh.new c hc hchild (hids _ hin)⟩,
    h.keep⟩, rfl, hself'⟩
  · have hof := h.children c hc
    refine hof.mono (fun q' hq' hid => ?_) rfl (List.Subset.refl _)
    obtain ⟨q₁, hq₁, rfl⟩ := List.mem_map.mp hq'
    refine List.mem_map.mpr ⟨q₁, List.mem_filter.mpr ⟨hq₁, decide_eq_true fun heq => ?_⟩, rfl⟩
    -- the parent runs
    obtain rfl := List.inj_on_of_nodup_map hnodup hq₁ hq heq
    obtain ⟨q₂, hq₂, hrunning, hid₂, -⟩ := hof.parent
    rw [if_neg hpending] at hid
    have hmem := mem_unstop_of_not_mem hq hpending
    have hnodup' : ((unstop (pendingIds cs) st.group).seqs.map Sequence.seqId).Nodup :=
      (map_seqId_unstop (pendingIds cs) st.group).symm ▸ hnodup
    obtain rfl := List.inj_on_of_nodup_map hnodup' hq₂ hmem (hid₂.trans hid.symm)
    rw [hrunning] at hfin
    cases hfin
  · obtain ⟨c, hc, hparent, -, rfl⟩ := mem_pendingIds.mp hid
    exact List.mem_map_of_mem (hself' c hc hparent)

/-- The finished sequences that beam search drops are removed. -/
theorem Selecting.removeAll {fs : List (Sequence × SequenceData Logprob)} {group : SequenceGroup}
    (h : Selecting M cfg a keep (pendingIds cs) cs sampled st)
    (hself : ∀ c ∈ cs, c.isParent = true → c.seq ∈ st.group.seqs)
    (hfs : ∀ f ∈ fs, f.1 ∈ st.group.seqs ∧ f.1.status.isFinished = true ∧
      f.1.seqId ∉ pendingIds cs)
    (hnodup : (fs.map fun f => f.1.seqId).Nodup)
    (hcall : fs.foldlM (fun g f => SequenceGroup.remove f.1.seqId g) st.group = some group) :
    Selecting M cfg a keep (pendingIds cs) cs sampled { st with group := group } ∧
      ∀ c ∈ cs, c.isParent = true → c.seq ∈ group.seqs := by
  induction fs generalizing st with
  | nil =>
    obtain rfl := Option.some.inj hcall
    exact ⟨h, hself⟩
  | cons f fs ih =>
    rw [List.foldlM_cons] at hcall
    obtain ⟨g, hremove, hrest⟩ := Option.bind_eq_some_iff.mp hcall
    obtain ⟨hmem, hfin, hpending⟩ := hfs f (.head _)
    rw [List.map_cons, List.nodup_cons] at hnodup
    obtain ⟨hselecting, hseqs, hself'⟩ := h.removeFinished hwindow hdynamic hsize hone hself hmem
      hfin hpending hremove
    have hfs' : ∀ f' ∈ fs, f'.1 ∈ g.seqs ∧ f'.1.status.isFinished = true ∧
        f'.1.seqId ∉ pendingIds cs := by
      intro f' hf'
      obtain ⟨hmem', hrest'⟩ := hfs f' (.tail _ hf')
      refine ⟨?_, hrest'⟩
      rw [hseqs]
      refine List.mem_filter.mpr ⟨hmem', decide_eq_true fun heq => hnodup.1 ?_⟩
      exact heq ▸ List.mem_map_of_mem (f := fun f => f.1.seqId) hf'
    have hnext := ih hselecting hself' hfs' hnodup.2 hrest
    exact hnext

variable [LinearOrder Score]

omit hwindow hdynamic hsize hone in
/-- Beam search selects each child or not. -/
theorem perm_selected (p : SamplingParams) (existing : List (Sequence × SequenceData Logprob))
    (cs : List (Child Logprob)) (beamWidth kept : Nat) :
    cs.Perm
      ((((allFinishedSeqs S p existing cs).take beamWidth).filterMap Sum.getRight? ++
          (runningChildSeqs S p cs).take kept) ++
        (((allFinishedSeqs S p existing cs).drop beamWidth).filterMap Sum.getRight? ++
          (runningChildSeqs S p cs).drop kept)) := by
  have hfinished : ((allFinishedSeqs S p existing cs).filterMap Sum.getRight?).Perm
      (cs.filter fun c => c.seq.status.isFinished) := by
    refine ((List.perm_insertionSort _ _).filterMap _).trans (.of_eq ?_)
    simp [List.filterMap_map, Function.comp_def]
  have hrunning : (runningChildSeqs S p cs).Perm (cs.filter fun c => !c.seq.status.isFinished) :=
    List.perm_insertionSort _ _
  rw [← List.take_append_drop beamWidth (allFinishedSeqs S p existing cs),
    List.filterMap_append] at hfinished
  rw [← List.take_append_drop kept (runningChildSeqs S p cs)] at hrunning
  refine ((List.filter_append_perm _ cs).symm.trans (hfinished.symm.append hrunning.symm)).trans ?_
  rw [List.append_assoc, List.append_assoc]
  exact (List.perm_append_comm_assoc _ _ _).append_left _

/-- Beam search, followed by the engine. -/
theorem Selecting.beamSearch (hkeep : keep ⊆ a.seqIds)
    (h : Selecting M cfg a keep (pendingIds st.childSeqs) st.childSeqs sampled st)
    (hself : ∀ c ∈ st.childSeqs, c.isParent = true → c.seq ∈ st.group.seqs)
    {existing : List (Sequence × SequenceData Logprob)}
    (hexisting : ∀ f ∈ existing, f.1 ∈ st.group.seqs ∧ f.1.status.isFinished = true ∧
      f.1.seqId ∉ pendingIds st.childSeqs)
    (hnodup : (existing.map fun f => f.1.seqId).Nodup)
    (hcall : st.beamSearch cfg S existing = some st') :
    ∃ sampled', EngineReach M cfg (st'.engine a [] sampled') ∧ keep ⊆ sampled' ∧
      ∀ id ∈ st'.group.seqs.map Sequence.seqId ++ a.seqIds, id < st'.seqCounter := by
  unfold Processing.beamSearch at hcall
  obtain ⟨group, hremove, hcall⟩ := Option.bind_eq_some_iff.mp hcall
  obtain ⟨stop, -, hcall⟩ := Option.bind_eq_some_iff.mp hcall
  have hperm : ((allFinishedSeqs S (S.samplingParams st.group.requestId) existing
      st.childSeqs).filterMap Sum.getLeft?).Perm existing := by
    refine ((List.perm_insertionSort _ _).filterMap _).trans (.of_eq ?_)
    simp [List.filterMap_map, Function.comp_def]
  have hdropped := (List.drop_sublist st.group.bestOf (allFinishedSeqs S
    (S.samplingParams st.group.requestId) existing st.childSeqs)).filterMap Sum.getLeft?
  have hnodup' := ((hperm.map fun f => f.1.seqId).nodup_iff.mpr hnodup).sublist
    (hdropped.map fun f => f.1.seqId)
  obtain ⟨hselecting, hself'⟩ := h.removeAll hwindow hdynamic hsize hone hself
    (fun f hf => hexisting f (hperm.mem_iff.mp (hdropped.subset hf))) hnodup' hremove
  exact hselecting.select hwindow hdynamic hsize hone hkeep hself'
    (perm_selected _ existing st.childSeqs st.group.bestOf _) hcall

end BeamSearch

/-! ## Processing a group -/

section Process

variable [LinearOrder Score] {a : Around Entry} {sampled : List Nat} {m : BlockManager}
  {g : SequenceGroup} {data : Nat → SequenceData Logprob} {seqCounter : Nat}
  {samples : List (SequenceOutput Logprob)} {st' : Processing Logprob}

/-- Processing the samples of a running group that has run is a run of the engine. The ids in `keep`
are those of other groups. -/
theorem process_reach (hwindow : cfg.blocks.blockSlidingWindow = none)
    (hdynamic : cfg.dynamicIncreaseOncardWeights = false) (hsize : 0 < cfg.blocks.blockSize)
    (hone : Admissible cfg a.waiting)
    (hreach : EngineReach M cfg (Processing.engine a [] sampled ⟨m, g, data, seqCounter, []⟩))
    (hcounter : ∀ id ∈ g.seqs.map Sequence.seqId ++ a.seqIds, id < seqCounter)
    (hsampled : ∀ q ∈ g.getSeqs .running, q.seqId ∈ sampled) {keep : List Nat}
    (hkeep : keep ⊆ a.seqIds) (hkept : keep ⊆ sampled)
    (hcall : processSequenceGroupOutputs cfg S samples m g data seqCounter = some st') :
    ∃ sampled', EngineReach M cfg (st'.engine a [] sampled') ∧ keep ⊆ sampled' ∧
      ∀ id ∈ st'.group.seqs.map Sequence.seqId ++ a.seqIds, id < st'.seqCounter := by
  unfold processSequenceGroupOutputs at hcall
  obtain ⟨-, hcall⟩ := Option.ite_none_right_eq_some.mp hcall
  obtain ⟨st, hloop, hcall⟩ := Option.bind_eq_some_iff.mp hcall
  have hnodup := hreach.nodup hwindow hdynamic hsize
  have hother : ∀ q ∈ g.seqs, q.seqId ∉ keep := by
    intro q hq hin
    have hids := (seqIds_engine a [] sampled ⟨m, g, data, seqCounter, []⟩).nodup_iff.mp
      (hreach.inv hwindow hdynamic hsize).owned.ids_nodup
    exact (List.nodup_append.mp hids).2.2 _ (List.mem_map_of_mem hq) _ (hkeep hin) rfl
  have hstart : Looping M cfg a (g.seqs.map Sequence.seqId ++ a.seqIds) keep g.getFinishedSeqs
      (g.getSeqs .running) sampled ⟨m, g, data, seqCounter, []⟩ := by
    refine ⟨hreach, fun p hp => ?_, hnodup.sublist (List.filter_sublist.map _),
      List.subset_append_left _ _, hcounter, ⟨List.nodup_nil, ?_, ?_⟩, ?_, ?_, hkept,
      fun q hq => ?_⟩
    · obtain ⟨hmem, hrunning⟩ := mem_getSeqs.mp hp
      exact ⟨hmem, hrunning, hsampled p hp, hother p hmem⟩
    · exact fun c hc => absurd hc List.not_mem_nil
    · exact fun c hc => absurd hc List.not_mem_nil
    · exact fun c hc => absurd hc List.not_mem_nil
    · exact fun c hc => absurd hc List.not_mem_nil
    · obtain ⟨hmem, hfin⟩ := List.mem_filter.mp hq
      refine ⟨hmem, fun p hp heq => ?_⟩
      obtain ⟨hp, hrunning⟩ := mem_getSeqs.mp hp
      obtain rfl := List.inj_on_of_nodup_map hnodup hmem hp heq
      rw [hrunning] at hfin
      cases hfin
  obtain ⟨sampled₁, hended⟩ := hstart.loop hwindow hdynamic hsize hone hloop
  have hnodup₁ := hended.reach.nodup hwindow hdynamic hsize
  obtain ⟨hselecting, hself, hfinished⟩ :=
    hended.selecting (S := S) hnodup₁ (List.subset_append_right _ _)
  simp only at hcall
  split at hcall
  · refine hselecting.beamSearch hwindow hdynamic hsize hone hkeep hself (fun f hf => ?_) ?_ hcall
    · obtain ⟨q, hq, rfl⟩ := List.mem_map.mp hf
      have hfin := (List.mem_filter.mp hq).2
      obtain ⟨hmem, hpending⟩ := hfinished q hq hfin
      exact ⟨hmem, hfin, hpending⟩
    · rw [List.map_map]
      exact hnodup.sublist (List.filter_sublist.map _)
  · refine hselecting.select hwindow hdynamic hsize hone hkeep hself ?_ hcall
    rw [List.append_nil]

end Process

end Mil.Requests
