import Mil.LlmEngine.Follow

/-!
# The loop over the parents

The first loop of `_process_sequence_group_outputs` followed by the engine: a parent without samples
is removed, the others get their own tokens. The children that are made for the other samples are
not in the group yet; `Child.Of` says what makes them children of a sequence of the group.
-/

set_option autoImplicit false

namespace Mil.Requests

open Mil.Lib Mil.Blocks Mil.Blocks.BlockManager Mil.KvCache

variable {Hidden Entry Logprob Score : Type} {M : Decoder Hidden Entry} {cfg : Config}
  {S : Sampling Logprob Score}

/-! ## Children -/

/-- A child of a sequence that runs and has got its own token: it has the tokens that the parent had
before. -/
structure Child.Of (g : SequenceGroup) (data : Nat → SequenceData Logprob) (sampled : List Nat)
    (c : Child Logprob) : Prop where
  parent : ∃ q ∈ g.seqs, q.status = .running ∧ q.seqId = c.parent ∧ q.len = c.seq.len
  taken : c.parent ∉ sampled
  tokens : ∃ token, c.data.getTokenIds = (data c.parent).getTokenIds.dropLast ++ [token]
  self : c.isParent = true → c.seq.seqId = c.parent ∧ c.data = data c.parent

/-- The parent is still there. -/
theorem Child.Of.mono {g g' : SequenceGroup} {data data' : Nat → SequenceData Logprob}
    {sampled sampled' : List Nat} {c : Child Logprob} (h : c.Of g data sampled)
    (hparent : ∀ q ∈ g.seqs, q.seqId = c.parent → q ∈ g'.seqs)
    (hdata : data' c.parent = data c.parent) (hsampled : sampled' ⊆ sampled) :
    c.Of g' data' sampled' := by
  obtain ⟨q, hq, hstatus, hid, hlen⟩ := h.parent
  refine ⟨⟨q, hparent q hq hid, hstatus, hid, hlen⟩, fun hin => h.taken (hsampled hin), ?_, ?_⟩
  · rw [hdata]
    exact h.tokens
  · rw [hdata]
    exact h.self

/-- The children of a group have ids of their own, below the counter; those that are no parents are
new. -/
structure Fresh (used : List Nat) (seqCounter : Nat) (cs : List (Child Logprob)) : Prop where
  nodup : (cs.map fun c => c.seq.seqId).Nodup
  below : ∀ c ∈ cs, c.seq.seqId < seqCounter
  new : ∀ c ∈ cs, c.isParent = false → c.seq.seqId ∉ used

/-! ## The samples of one parent -/

section Samples

variable {parent : Sequence} {st st' : Processing Logprob} {samples : List (SequenceOutput Logprob)}

/-- The forks of a parent before it gets its own token: their ids are the next ones, and each has one
token more than the parent. -/
structure Forks (parent : Sequence) (data : SequenceData Logprob) (seqCounter : Nat)
    (cs : List (Child Logprob)) : Prop where
  ids : (cs.map fun c => c.seq.seqId) = List.range' seqCounter cs.length
  child : ∀ c ∈ cs, c.isParent = false ∧ c.parent = parent.seqId ∧
    c.seq.status = parent.status ∧ c.seq.len = parent.len + 1 ∧
    ∃ token, c.data.getTokenIds = data.getTokenIds ++ [token]

theorem getTokenIds_append (S : Sampling Logprob Score) (token : Nat) (logprob : Logprob)
    (d : SequenceData Logprob) : (d.append S token logprob).getTokenIds = d.getTokenIds ++ [token] :=
  (List.append_assoc _ _ _).symm

theorem foldlM_forkChild (hcall : samples.foldlM (Processing.forkChild S parent) st = some st') :
    ∃ cs, Forks parent (st.data parent.seqId) st.seqCounter cs ∧
      st' = { st with
        seqCounter := st.seqCounter + cs.length
        childSeqs := st.childSeqs ++ cs } := by
  induction samples generalizing st with
  | nil =>
    obtain rfl := Option.some.inj hcall
    refine ⟨[], ⟨rfl, fun c hc => by cases hc⟩, ?_⟩
    rw [List.append_nil]
    rfl
  | cons sample samples ih =>
    rw [List.foldlM_cons] at hcall
    obtain ⟨st₁, hfirst, hrest⟩ := Option.bind_eq_some_iff.mp hcall
    obtain ⟨data, hdata, rfl⟩ := Option.map_eq_some_iff.mp hfirst
    obtain ⟨logprob, -, rfl⟩ := Option.map_eq_some_iff.mp hdata
    obtain ⟨cs, hforks, rfl⟩ := ih hrest
    refine ⟨⟨{ parent with seqId := st.seqCounter, len := parent.len + 1 },
      (st.data parent.seqId).append S sample.outputToken logprob, parent.seqId, false⟩ :: cs,
      ⟨?_, ?_⟩, ?_⟩
    · rw [List.map_cons, hforks.ids, List.length_cons, List.range'_succ]
    · intro c hc
      rcases List.mem_cons.mp hc with rfl | hc
      · exact ⟨rfl, rfl, rfl, rfl, sample.outputToken, getTokenIds_append S _ _ _⟩
      · exact hforks.child c hc
    · rw [List.append_assoc, List.length_cons, Nat.add_comm cs.length 1, ← Nat.add_assoc]
      rfl

/-- What one turn of the loop does. -/
theorem takeSamples_eq (hcall : st.takeSamples S samples parent = some st') :
    st.removeAndFree parent.seqId = some st' ∨
      ∃ (cs : List (Child Logprob)) (sample : SequenceOutput Logprob),
        Forks parent (st.data parent.seqId) st.seqCounter cs ∧
        Processing.appendParent S parent { st with
          seqCounter := st.seqCounter + cs.length
          childSeqs := st.childSeqs ++ cs } sample = some st' := by
  unfold Processing.takeSamples at hcall
  cases hlast : (samples.filter (·.parentSeqId = parent.seqId)).getLast? with
  | none =>
    simp only [hlast] at hcall
    exact .inl hcall
  | some last =>
    simp only [hlast] at hcall
    obtain ⟨st₁, hforks, happend⟩ := Option.bind_eq_some_iff.mp hcall
    obtain ⟨cs, hcs, rfl⟩ := foldlM_forkChild hforks
    exact .inr ⟨cs, last, hcs, happend⟩

end Samples

/-- Forks and a parent that had no child yet join the children. -/
theorem Fresh.append {used : List Nat} {seqCounter : Nat} {cs forks : List (Child Logprob)}
    {parent p : Sequence} {data data' : SequenceData Logprob} (h : Fresh used seqCounter cs)
    (hforks : Forks parent data seqCounter forks) (hcounter : ∀ id ∈ used, id < seqCounter)
    (hused : p.seqId ∈ used) (hself : ∀ c ∈ cs, c.seq.seqId ≠ p.seqId) :
    Fresh used (seqCounter + forks.length) (cs ++ forks ++ [⟨p, data', p.seqId, true⟩]) := by
  have hfork : ∀ c ∈ forks,
      seqCounter ≤ c.seq.seqId ∧ c.seq.seqId < seqCounter + forks.length := by
    intro c hc
    have hin : c.seq.seqId ∈ List.range' seqCounter forks.length :=
      hforks.ids ▸ List.mem_map_of_mem (f := fun c => c.seq.seqId) hc
    exact List.mem_range'_1.mp hin
  refine ⟨?_, fun c hc => ?_, fun c hc hchild => ?_⟩
  · rw [List.map_append, List.map_append, List.nodup_append, List.nodup_append, hforks.ids]
    refine ⟨⟨h.nodup, List.nodup_range', fun id hid id' hid' heq => ?_⟩, List.nodup_singleton _,
      fun id hid id' hid' heq => ?_⟩
    · obtain ⟨c, hc, rfl⟩ := List.mem_map.mp hid
      exact Nat.not_lt.mpr (List.mem_range'_1.mp hid').1 (heq ▸ h.below c hc)
    · obtain rfl := List.mem_singleton.mp hid'
      rcases List.mem_append.mp hid with hid | hid
      · obtain ⟨c, hc, rfl⟩ := List.mem_map.mp hid
        exact hself c hc heq
      · exact Nat.not_lt.mpr (List.mem_range'_1.mp hid).1 (heq ▸ hcounter _ hused)
  · rcases List.mem_append.mp hc with hc | hc
    · rcases List.mem_append.mp hc with hc | hc
      · exact Nat.lt_add_right _ (h.below c hc)
      · exact (hfork c hc).2
    · obtain rfl := List.mem_singleton.mp hc
      exact Nat.lt_add_right _ (hcounter _ hused)
  · rcases List.mem_append.mp hc with hc | hc
    · rcases List.mem_append.mp hc with hc | hc
      · exact h.new c hc hchild
      · exact fun hin => Nat.not_lt.mpr (hfork c hc).1 (hcounter _ hin)
    · obtain rfl := List.mem_singleton.mp hc
      cases hchild

/-! ## The loop -/

/-- The state of the loop with some parents left. The ids in `keep` are those of sequences of other
groups that have run, and the sequences of the group in `finished` are no parents. -/
structure Looping (M : Decoder Hidden Entry) (cfg : Config) (a : Around Entry)
    (used keep : List Nat) (finished ps : List Sequence) (sampled : List Nat)
    (st : Processing Logprob) : Prop where
  reach : EngineReach M cfg (st.engine a [] sampled)
  parents : ∀ p ∈ ps, p ∈ st.group.seqs ∧ p.status = .running ∧ p.seqId ∈ sampled ∧ p.seqId ∉ keep
  nodup : (ps.map Sequence.seqId).Nodup
  ids : st.group.seqs.map Sequence.seqId ⊆ used
  counter : ∀ id ∈ used, id < st.seqCounter
  fresh : Fresh used st.seqCounter st.childSeqs
  children : ∀ c ∈ st.childSeqs, c.Of st.group st.data sampled ∧ c.seq.status = .running ∧
    ∀ p ∈ ps, c.parent ≠ p.seqId
  self : ∀ c ∈ st.childSeqs, c.isParent = true → c.seq ∈ st.group.seqs
  keep : keep ⊆ sampled
  finished : ∀ q ∈ finished, q ∈ st.group.seqs ∧ ∀ p ∈ ps, q.seqId ≠ p.seqId

section Loop

variable {a : Around Entry} {used keep sampled : List Nat} {p : Sequence}
  {finished ps : List Sequence}
  {st st' : Processing Logprob} {samples : List (SequenceOutput Logprob)}
  (hwindow : cfg.blocks.blockSlidingWindow = none)
  (hdynamic : cfg.dynamicIncreaseOncardWeights = false) (hsize : 0 < cfg.blocks.blockSize)
  (hone : Admissible cfg a.waiting)
include hwindow hdynamic hsize hone

/-- A parent without samples. -/
theorem Looping.remove (h : Looping M cfg a used keep finished (p :: ps) sampled st)
    (hcall : st.removeAndFree p.seqId = some st') :
    Looping M cfg a used keep finished ps sampled st' := by
  obtain ⟨group, hgroup, hcall⟩ := Option.bind_eq_some_iff.mp hcall
  obtain ⟨m, hfree, hcall⟩ := Option.bind_eq_some_iff.mp hcall
  obtain rfl := Option.some.inj hcall
  have hreach := h.reach.remove hwindow hdynamic hsize hone hgroup hfree
  obtain ⟨-, hgroup⟩ := Option.ite_none_right_eq_some.mp hgroup
  obtain rfl := Option.some.inj hgroup
  have hstays : ∀ q ∈ st.group.seqs, q.seqId ≠ p.seqId →
      q ∈ st.group.seqs.filter (·.seqId ≠ p.seqId) := fun q hq hne =>
    List.mem_filter.mpr ⟨hq, decide_eq_true hne⟩
  obtain ⟨hp, hnodup⟩ := List.nodup_cons.mp h.nodup
  refine ⟨hreach, fun p' hp' => ?_, hnodup, ?_, h.counter, h.fresh, fun c hc => ?_, ?_, h.keep,
    fun q hq => ?_⟩
  · obtain ⟨hmem, hrest⟩ := h.parents p' (.tail _ hp')
    exact ⟨hstays p' hmem fun heq => hp (heq ▸ List.mem_map_of_mem hp'), hrest⟩
  · exact fun id hid => h.ids ((List.filter_sublist.map _).subset hid)
  · obtain ⟨hof, hstatus, hother⟩ := h.children c hc
    refine ⟨hof.mono (fun q hq hid => hstays q hq ?_) rfl (List.Subset.refl _), hstatus,
      fun p' hp' => hother p' (.tail _ hp')⟩
    exact hid ▸ hother p (.head _)
  · intro c hc hself
    have hof := h.children c hc
    exact hstays c.seq (h.self c hc hself) ((hof.1.self hself).1 ▸ hof.2.2 p (.head _))
  · obtain ⟨hin, hne⟩ := h.finished q hq
    exact ⟨hstays q hin (hne p (.head _)), fun p' hp' => hne p' (.tail _ hp')⟩

/-- A parent with samples. -/
theorem Looping.append (h : Looping M cfg a used keep finished (p :: ps) sampled st)
    {cs : List (Child Logprob)} {sample : SequenceOutput Logprob}
    (hforks : Forks p (st.data p.seqId) st.seqCounter cs)
    (hcall : Processing.appendParent S p { st with
      seqCounter := st.seqCounter + cs.length
      childSeqs := st.childSeqs ++ cs } sample = some st') :
    Looping M cfg a used keep finished ps (sampled.filter (· ≠ p.seqId)) st' := by
  obtain ⟨hmem, hrunning, hsampled, hkeep⟩ := h.parents p (.head _)
  have hnodup := h.reach.nodup hwindow hdynamic hsize
  have hforked : EngineReach M cfg (Processing.engine a [] sampled { st with
      seqCounter := st.seqCounter + cs.length
      childSeqs := st.childSeqs ++ cs }) := h.reach
  have hreach := hforked.appendParent hwindow hdynamic hsize hone hmem hrunning hsampled hcall
  obtain ⟨data, hdata, rfl⟩ := Option.map_eq_some_iff.mp hcall
  obtain ⟨logprob, -, rfl⟩ := Option.map_eq_some_iff.mp hdata
  obtain ⟨hp, hnodup'⟩ := List.nodup_cons.mp h.nodup
  have hused : p.seqId ∈ used := h.ids (List.mem_map_of_mem hmem)
  have hstays : ∀ q ∈ st.group.seqs, q.seqId ≠ p.seqId →
      q ∈ (st.group.setSeq { p with len := p.len + 1 }).seqs := fun q hq hne =>
    List.mem_map.mpr ⟨q, hq, if_neg hne⟩
  have hself : { p with len := p.len + 1 } ∈ (st.group.setSeq { p with len := p.len + 1 }).seqs :=
    List.mem_map.mpr ⟨p, hmem, if_pos rfl⟩
  have hids : (st.group.setSeq { p with len := p.len + 1 }).seqs.map Sequence.seqId =
      st.group.seqs.map Sequence.seqId := map_seqId_setSeq _ _
  refine ⟨hreach, fun p' hp' => ?_, hnodup', ?_, ?_, ?_, ?_, ?_, ?_, fun q hq => ?_⟩
  · obtain ⟨hmem', hrunning', hsampled', hkeep'⟩ := h.parents p' (.tail _ hp')
    have hne : p'.seqId ≠ p.seqId := fun heq => hp (heq ▸ List.mem_map_of_mem hp')
    exact ⟨hstays p' hmem' hne, hrunning', List.mem_filter.mpr ⟨hsampled', decide_eq_true hne⟩,
      hkeep'⟩
  · show (st.group.setSeq { p with len := p.len + 1 }).seqs.map Sequence.seqId ⊆ used
    exact hids ▸ h.ids
  · intro id hid
    exact Nat.lt_add_right _ (h.counter id hid)
  · refine h.fresh.append (p := { p with len := p.len + 1 }) hforks h.counter hused
      fun c hc heq => ?_
    cases hchild : c.isParent with
    | true => exact (h.children c hc).2.2 p (.head _) (((h.children c hc).1.self hchild).1 ▸ heq)
    | false => exact h.fresh.new c hc hchild (heq ▸ hused)
  · intro c hc
    have hdata' : Function.update st.data p.seqId
        ((st.data p.seqId).append S sample.outputToken logprob) p.seqId =
        (st.data p.seqId).append S sample.outputToken logprob := Function.update_self _ _ _
    have htaken : p.seqId ∉ sampled.filter (· ≠ p.seqId) := fun hin =>
      of_decide_eq_true (List.mem_filter.mp hin).2 rfl
    have htokens := getTokenIds_append S sample.outputToken logprob (st.data p.seqId)
    have hother : ∀ p' ∈ ps, p.seqId ≠ p'.seqId := fun p' hp' heq =>
      hp (heq ▸ List.mem_map_of_mem hp')
    -- a child of an earlier parent, a new child, or the parent that goes on itself
    rcases List.mem_append.mp hc with hc | hc
    · rcases List.mem_append.mp hc with hc | hc
      · obtain ⟨hof, hstatus, hne⟩ := h.children c hc
        have hne' := hne p (.head _)
        exact ⟨hof.mono (fun q hq hid => hstays q hq (hid ▸ hne')) (Function.update_of_ne hne' _ _)
          List.filter_sublist.subset, hstatus, fun p' hp' => hne p' (.tail _ hp')⟩
      · obtain ⟨hchild, hparent, hstatus, hlen, token, hc'⟩ := hforks.child c hc
        refine ⟨⟨⟨_, hself, hrunning, hparent.symm, hlen.symm⟩, hparent ▸ htaken, ⟨token, ?_⟩, ?_⟩,
          hstatus.trans hrunning, fun p' hp' => hparent ▸ hother p' hp'⟩
        · rw [hparent]
          show _ = (Function.update st.data p.seqId _ p.seqId).getTokenIds.dropLast ++ [token]
          rw [hdata', htokens, List.dropLast_concat, hc']
        · rw [hchild]
          exact fun heq => absurd heq Bool.false_ne_true
    · obtain rfl := List.mem_singleton.mp hc
      refine ⟨⟨⟨_, hself, hrunning, rfl, rfl⟩, htaken, ⟨sample.outputToken, ?_⟩, fun _ => ⟨rfl, ?_⟩⟩,
        hrunning, hother⟩
      · show _ = (Function.update st.data p.seqId _ p.seqId).getTokenIds.dropLast ++ _
        rw [hdata', htokens, List.dropLast_concat]
      · exact hdata'.symm
  · intro c hc hparent
    rcases List.mem_append.mp hc with hc | hc
    · rcases List.mem_append.mp hc with hc | hc
      · have hof := h.children c hc
        exact hstays c.seq (h.self c hc hparent)
          ((hof.1.self hparent).1 ▸ hof.2.2 p (.head _))
      · rw [(hforks.child c hc).1] at hparent
        exact absurd hparent Bool.false_ne_true
    · obtain rfl := List.mem_singleton.mp hc
      exact hself
  · intro id hid
    exact List.mem_filter.mpr ⟨h.keep hid, decide_eq_true fun heq => hkeep (heq ▸ hid)⟩
  · obtain ⟨hin, hne⟩ := h.finished q hq
    exact ⟨hstays q hin (hne p (.head _)), fun p' hp' => hne p' (.tail _ hp')⟩

/-- The loop. -/
theorem Looping.loop (h : Looping M cfg a used keep finished ps sampled st)
    (hcall : ps.foldlM (Processing.takeSamples S samples) st = some st') :
    ∃ sampled', Looping M cfg a used keep finished [] sampled' st' := by
  induction ps generalizing sampled st with
  | nil =>
    obtain rfl := Option.some.inj hcall
    exact ⟨sampled, h⟩
  | cons p ps ih =>
    rw [List.foldlM_cons] at hcall
    obtain ⟨st₁, hfirst, hrest⟩ := Option.bind_eq_some_iff.mp hcall
    rcases takeSamples_eq hfirst with hremove | ⟨cs, sample, hforks, happend⟩
    · exact ih (h.remove hwindow hdynamic hsize hone hremove) hrest
    · exact ih (h.append hwindow hdynamic hsize hone hforks happend) hrest

end Loop

end Mil.Requests
