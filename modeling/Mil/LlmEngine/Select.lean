import Mil.LlmEngine.Samples

/-!
# The selected children

The last loops of `_process_sequence_group_outputs` followed by the engine: the selected children join
the group, the parents that have stopped and are selected are freed, and the parents that are not
selected are removed. After that no sequence is pending (`Selecting.select`).
-/

set_option autoImplicit false

namespace Mil.Requests

open Mil.Lib Mil.Blocks Mil.Blocks.BlockManager Mil.KvCache

variable {Hidden Entry Logprob Score : Type} {M : Decoder Hidden Entry} {cfg : Config}
  {S : Sampling Logprob Score}

/-- The parents that have stopped. -/
def pendingIds (cs : List (Child Logprob)) : List Nat :=
  (cs.filter fun c => c.isParent && c.seq.status.isFinished).map fun c => c.seq.seqId

theorem mem_pendingIds {cs : List (Child Logprob)} {id : Nat} :
    id ∈ pendingIds cs ↔
      ∃ c ∈ cs, c.isParent = true ∧ c.seq.status.isFinished = true ∧ c.seq.seqId = id := by
  simp [pendingIds, and_assoc]

theorem pendingIds_cons_of_pos {c : Child Logprob} (cs : List (Child Logprob))
    (h : (c.isParent && c.seq.status.isFinished) = true) :
    pendingIds (c :: cs) = c.seq.seqId :: pendingIds cs := by
  simp only [pendingIds, List.filter_cons, h, if_pos, List.map_cons]

theorem pendingIds_cons_of_neg {c : Child Logprob} (cs : List (Child Logprob))
    (h : ¬ (c.isParent && c.seq.status.isFinished) = true) :
    pendingIds (c :: cs) = pendingIds cs := by
  simp only [pendingIds, List.filter_cons, if_neg h]

/-- The state while children are selected: some are still to join the group. -/
structure Selecting (M : Decoder Hidden Entry) (cfg : Config) (a : Around Entry)
    (keep pending : List Nat) (cs : List (Child Logprob)) (sampled : List Nat)
    (st : Processing Logprob) : Prop where
  reach : EngineReach M cfg (st.engine a pending sampled)
  children : ∀ c ∈ cs, c.Of (unstop pending st.group) st.data sampled
  status : ∀ c ∈ cs, c.seq.status = .running ∨ c.seq.status.isFinished = true
  pending : pending ⊆ st.group.seqs.map Sequence.seqId
  counter : ∀ id ∈ st.group.seqs.map Sequence.seqId ++ a.seqIds, id < st.seqCounter
  fresh : Fresh (st.group.seqs.map Sequence.seqId ++ a.seqIds) st.seqCounter cs
  keep : keep ⊆ sampled

/-- No two sequences have the same id. -/
theorem Owned.eq_of_seqId {gs rest : List SequenceGroup} {g g' : SequenceGroup} {q q' : Sequence}
    (hnodup : (Requests.seqIds gs).Nodup) (hperm : gs.Perm (g :: rest)) (hq : q ∈ g.seqs)
    (hg' : g' ∈ gs) (hq' : q' ∈ g'.seqs) (heq : q'.seqId = q.seqId) : q' = q := by
  rcases List.mem_cons.mp (hperm.mem_iff.mp hg') with rfl | hin
  · exact List.inj_on_of_nodup_map (ids_nodup_group hnodup hperm) hq' hq heq
  · refine absurd ?_ (not_mem_rest hnodup hperm hq)
    exact heq ▸ Requests.mem_seqIds.mpr ⟨g', hin, q', hq', rfl⟩

section Select

variable {a : Around Entry} {keep pending sampled : List Nat} {c : Child Logprob}
  {cs : List (Child Logprob)} {st st' : Processing Logprob}
  (hwindow : cfg.blocks.blockSlidingWindow = none)
  (hdynamic : cfg.dynamicIncreaseOncardWeights = false) (hsize : 0 < cfg.blocks.blockSize)
  (hone : Admissible cfg a.waiting)

theorem Selecting.tail (h : Selecting M cfg a keep pending (c :: cs) sampled st) :
    Selecting M cfg a keep pending cs sampled st where
  reach := h.reach
  children c' hc' := h.children c' (.tail _ hc')
  status c' hc' := h.status c' (.tail _ hc')
  pending := h.pending
  counter := h.counter
  fresh :=
    { nodup := (List.nodup_cons.mp h.fresh.nodup).2
      below := fun c' hc' => h.fresh.below c' (.tail _ hc')
      new := fun c' hc' => h.fresh.new c' (.tail _ hc') }
  keep := h.keep

theorem addChild_eq (hchild : c.isParent = false) (hcall : st.addChild c = some st') :
    ∃ manager, st' = { st with
      manager := manager
      group := { st.group with seqs := st.group.seqs ++ [c.seq] }
      data := Function.update st.data c.seq.seqId c.data } := by
  unfold Processing.addChild at hcall
  rw [hchild, if_neg Bool.false_ne_true] at hcall
  obtain ⟨group, hadd, hcall⟩ := Option.bind_eq_some_iff.mp hcall
  obtain ⟨manager, -, hcall⟩ := Option.bind_eq_some_iff.mp hcall
  obtain ⟨-, hadd⟩ := Option.ite_none_left_eq_some.mp hadd
  obtain rfl := Option.some.inj hadd
  exact ⟨manager, (Option.some.inj hcall).symm⟩

include hdynamic hone in
/-- A child joins the group. -/
theorem Selecting.add (hkeep : keep ⊆ a.seqIds)
    (h : Selecting M cfg a keep pending (c :: cs) sampled st) (hcall : st.addChild c = some st') :
    ∃ sampled', Selecting M cfg a keep pending cs sampled' st' ∧
      st.group.seqs ⊆ st'.group.seqs := by
  cases hchild : c.isParent with
  | true =>
    rw [Processing.addChild, hchild, if_pos rfl] at hcall
    obtain rfl := Option.some.inj hcall
    exact ⟨sampled, h.tail, List.Subset.refl _⟩
  | false =>
    have hof := h.children c (.head _)
    obtain ⟨q, hq, hrunning, hparent, hlen⟩ := hof.parent
    obtain ⟨token, htokens⟩ := hof.tokens
    have hnew := h.fresh.new c (.head _) hchild
    have hpending : c.seq.seqId ∉ pending := fun hin =>
      hnew (List.mem_append_left _ (h.pending hin))
    have hseq : c.seq = { q with seqId := c.seq.seqId, status := c.seq.status } := by
      rw [hlen]
    obtain ⟨sampled', hreach, hsub, hkept⟩ := h.reach.addChild hdynamic hone hchild hq hrunning
      hseq hparent.symm (h.status c (.head _)) htokens hof.taken hnew hpending hcall
    obtain ⟨manager, rfl⟩ := addChild_eq hchild hcall
    have hids : (st.group.seqs ++ [c.seq]).map Sequence.seqId =
        st.group.seqs.map Sequence.seqId ++ [c.seq.seqId] := List.map_append
    have hgrown : ∀ {id : Nat}, id ∈ (st.group.seqs ++ [c.seq]).map Sequence.seqId ++ a.seqIds →
        id ∈ st.group.seqs.map Sequence.seqId ++ a.seqIds ∨ id = c.seq.seqId := by
      intro id hid
      rw [hids, List.append_assoc, List.mem_append, List.mem_append, List.mem_singleton] at hid
      rw [List.mem_append]
      tauto
    have hother : ∀ c' ∈ cs, c'.seq.seqId ≠ c.seq.seqId := by
      intro c' hc' heq
      exact (List.nodup_cons.mp h.fresh.nodup).1 (List.mem_map.mpr ⟨c', hc', heq⟩)
    refine ⟨sampled', ⟨hreach, fun c' hc' => ?_, h.tail.status, ?_, fun id hid => ?_, ?_, ?_⟩,
      List.subset_append_left _ _⟩
    · have hof' := h.children c' (.tail _ hc')
      refine hof'.mono (fun q' hq' _ => ?_) (Function.update_of_ne ?_ _ _) hsub
      · obtain ⟨q₁, hq₁, rfl⟩ := List.mem_map.mp hq'
        exact List.mem_map.mpr ⟨q₁, List.mem_append_left _ hq₁, rfl⟩
      · -- the parent is in the group, the child is not
        obtain ⟨q', hq', -, hid', -⟩ := hof'.parent
        obtain ⟨q₁, hq₁, hid₁, -⟩ := mem_unstop hq'
        intro heq
        refine hnew (List.mem_append_left _ ?_)
        rw [← heq, ← hid', ← hid₁]
        exact List.mem_map_of_mem hq₁
    · intro id hid
      rw [hids]
      exact List.mem_append_left _ (h.pending hid)
    · rcases hgrown hid with hid | rfl
      · exact h.counter id hid
      · exact h.fresh.below c (.head _)
    · refine ⟨h.tail.fresh.nodup, h.tail.fresh.below, fun c' hc' hchild' hin => ?_⟩
      rcases hgrown hin with hin | heq
      · exact h.fresh.new c' (.tail _ hc') hchild' hin
      · exact hother c' hc' heq
    · intro id hid
      refine hkept id (h.keep hid) fun heq => hnew (List.mem_append_right _ ?_)
      exact heq ▸ hkeep hid

include hdynamic hone in
theorem Selecting.addAll (hkeep : keep ⊆ a.seqIds)
    (h : Selecting M cfg a keep pending cs sampled st)
    (hcall : cs.foldlM Processing.addChild st = some st') :
    ∃ sampled', Selecting M cfg a keep pending [] sampled' st' ∧
      st.group.seqs ⊆ st'.group.seqs := by
  induction cs generalizing sampled st with
  | nil =>
    obtain rfl := Option.some.inj hcall
    exact ⟨sampled, h, List.Subset.refl _⟩
  | cons c cs ih =>
    rw [List.foldlM_cons] at hcall
    obtain ⟨st₁, hfirst, hrest⟩ := Option.bind_eq_some_iff.mp hcall
    obtain ⟨sampled₁, h₁, hsub₁⟩ := h.add hdynamic hone hkeep hfirst
    obtain ⟨sampled', h', hsub'⟩ := ih h₁ hrest
    exact ⟨sampled', h', fun q hq => hsub' (hsub₁ hq)⟩

include hwindow hdynamic hsize hone

/-- The parents that have stopped and are selected are freed. -/
theorem EngineReach.freeAll {rest : List (Child Logprob)}
    (h : EngineReach M cfg (st.engine a (pendingIds (cs ++ rest)) sampled))
    (hself : ∀ c ∈ cs, c.isParent = true → c.seq ∈ st.group.seqs)
    (hnodup : ((cs ++ rest).map fun c => c.seq.seqId).Nodup)
    (hcall : cs.foldlM Processing.freeFinished st = some st') :
    EngineReach M cfg (st'.engine a (pendingIds rest) sampled) ∧
      ∃ m, st' = { st with manager := m } := by
  induction cs generalizing st with
  | nil =>
    obtain rfl := Option.some.inj hcall
    exact ⟨h, _, rfl⟩
  | cons c cs ih =>
    rw [List.foldlM_cons] at hcall
    obtain ⟨st₁, hfirst, hrest⟩ := Option.bind_eq_some_iff.mp hcall
    rw [List.cons_append, List.map_cons, List.nodup_cons] at hnodup
    have hself' := fun c' hc' => hself c' (.tail c hc')
    unfold Processing.freeFinished at hfirst
    by_cases hfin : c.isParent && c.seq.status.isFinished
    · rw [if_pos hfin] at hfirst
      obtain ⟨m, hfree, rfl⟩ := Option.map_eq_some_iff.mp hfirst
      rw [List.cons_append, pendingIds_cons_of_pos _ hfin] at h
      obtain ⟨hparent, hstatus⟩ := Bool.and_eq_true_iff.mp hfin
      have hnot : c.seq.seqId ∉ pendingIds (cs ++ rest) := by
        intro hin
        obtain ⟨c', hc', -, -, heq⟩ := mem_pendingIds.mp hin
        exact hnodup.1 (heq ▸ List.mem_map_of_mem (f := fun c : Child Logprob => c.seq.seqId) hc')
      have hreach := h.finish hwindow hdynamic hsize hone hnot (hself c (.head _) hparent) rfl
        hstatus hfree
      obtain ⟨hreach', m', rfl⟩ := ih hreach hself' hnodup.2 hrest
      exact ⟨hreach', m', rfl⟩
    · rw [if_neg hfin] at hfirst
      obtain rfl := Option.some.inj hfirst
      rw [List.cons_append, pendingIds_cons_of_neg _ hfin] at h
      exact ih h hself' hnodup.2 hrest

/-- The parents that are not selected are removed. -/
theorem EngineReach.dropAll
    (h : EngineReach M cfg (st.engine a (pendingIds cs) sampled))
    (hcall : cs.foldlM Processing.dropUnselected st = some st') :
    EngineReach M cfg (st'.engine a [] sampled) ∧ st'.seqCounter = st.seqCounter ∧
      st'.group.seqs ⊆ st.group.seqs := by
  induction cs generalizing st with
  | nil =>
    obtain rfl := Option.some.inj hcall
    exact ⟨h, rfl, List.Subset.refl _⟩
  | cons c cs ih =>
    rw [List.foldlM_cons] at hcall
    obtain ⟨st₁, hfirst, hrest⟩ := Option.bind_eq_some_iff.mp hcall
    unfold Processing.dropUnselected at hfirst
    by_cases hparent : c.isParent
    · rw [if_pos hparent] at hfirst
      obtain ⟨group, hgroup, hfirst⟩ := Option.bind_eq_some_iff.mp hfirst
      obtain ⟨m, hfree, hfirst⟩ := Option.bind_eq_some_iff.mp hfirst
      obtain rfl := Option.some.inj hfirst
      have hreach := h.remove hwindow hdynamic hsize hone hgroup hfree
      obtain ⟨-, hgroup⟩ := Option.ite_none_right_eq_some.mp hgroup
      obtain rfl := Option.some.inj hgroup
      have hsame : unstop (pendingIds (c :: cs))
          { st.group with seqs := st.group.seqs.filter (·.seqId ≠ c.seq.seqId) } =
          unstop (pendingIds cs)
            { st.group with seqs := st.group.seqs.filter (·.seqId ≠ c.seq.seqId) } := by
        refine unstop_congr fun q hq => ?_
        have hne : q.seqId ≠ c.seq.seqId := of_decide_eq_true (List.mem_filter.mp hq).2
        rw [mem_pendingIds, mem_pendingIds, List.exists_mem_cons_iff]
        exact or_iff_right fun heq => hne heq.2.2.symm
      unfold Processing.engine at hreach
      rw [hsame] at hreach
      obtain ⟨hreach', hcounter, hsub⟩ := ih hreach hrest
      exact ⟨hreach', hcounter, fun q hq => List.filter_sublist.subset (hsub hq)⟩
    · rw [if_neg hparent] at hfirst
      obtain rfl := Option.some.inj hfirst
      rw [pendingIds_cons_of_neg _ (by simp [hparent])] at h
      exact ih h hrest

/-- The selected children join the group, and what is left of the parents is freed. -/
theorem Selecting.select (hkeep : keep ⊆ a.seqIds) {selected unselected : List (Child Logprob)}
    (h : Selecting M cfg a keep (pendingIds cs) cs sampled st)
    (hself : ∀ c ∈ cs, c.isParent = true → c.seq ∈ st.group.seqs)
    (hperm : cs.Perm (selected ++ unselected))
    (hcall : st.select selected unselected = some st') :
    ∃ sampled', EngineReach M cfg (st'.engine a [] sampled') ∧ keep ⊆ sampled' ∧
      ∀ id ∈ st'.group.seqs.map Sequence.seqId ++ a.seqIds, id < st'.seqCounter := by
  obtain ⟨st₁, hadd, hcall⟩ := Option.bind_eq_some_iff.mp hcall
  obtain ⟨st₂, hfree, hdrop⟩ := Option.bind_eq_some_iff.mp hcall
  have hmem : ∀ c ∈ selected, c ∈ cs := fun c hc =>
    hperm.mem_iff.mpr (List.mem_append_left _ hc)
  have hnodup : ((selected ++ unselected).map fun c => c.seq.seqId).Nodup :=
    (hperm.map _).nodup_iff.mp h.fresh.nodup
  have hselected : Selecting M cfg a keep (pendingIds cs) selected sampled st :=
    { reach := h.reach
      children := fun c hc => h.children c (hmem c hc)
      status := fun c hc => h.status c (hmem c hc)
      pending := h.pending
      counter := h.counter
      fresh :=
        { nodup := hnodup.sublist ((List.sublist_append_left _ _).map _)
          below := fun c hc => h.fresh.below c (hmem c hc)
          new := fun c hc => h.fresh.new c (hmem c hc) }
      keep := h.keep }
  obtain ⟨sampled', hadded, hsub⟩ := hselected.addAll hdynamic hone hkeep hadd
  have hsame : unstop (pendingIds cs) st₁.group =
      unstop (pendingIds (selected ++ unselected)) st₁.group := by
    refine unstop_congr fun q _ => ?_
    rw [mem_pendingIds, mem_pendingIds]
    exact exists_congr fun c => and_congr_left' hperm.mem_iff
  have hreach := hadded.reach
  unfold Processing.engine at hreach
  rw [hsame] at hreach
  obtain ⟨hfreed, m, rfl⟩ := EngineReach.freeAll hwindow hdynamic hsize hone hreach
    (fun c hc hparent => hsub (hself c (hmem c hc) hparent)) hnodup hfree
  obtain ⟨hdropped, hcounter, hgroup⟩ := EngineReach.dropAll hwindow hdynamic hsize hone hfreed hdrop
  refine ⟨sampled', hdropped, hadded.keep, fun id hid => ?_⟩
  rw [hcounter]
  refine hadded.counter id ?_
  rcases List.mem_append.mp hid with hid | hid
  · exact List.mem_append_left _ (List.map_subset _ hgroup hid)
  · exact List.mem_append_right _ hid

omit hone in
/-- A finished sequence that beam search drops has no blocks. -/
theorem EngineReach.lookup_finished (h : EngineReach M cfg (st.engine a pending sampled))
    {q : Sequence} (hq : q ∈ st.group.seqs) (hfin : q.status.isFinished = true)
    (hpending : q.seqId ∉ pending) : st.manager.blockTables.lookup q.seqId = none := by
  have howned := (h.inv hwindow hdynamic hsize).owned
  have hmem := mem_unstop_of_not_mem hq hpending
  have hperm := perm_groups (s := (st.engine a pending sampled).scheduler) rfl
  have hnone : ∀ gs status, gs ⊆ (st.engine a pending sampled).scheduler.groups →
      status.isFinished = false → ¬ Holds gs status q.seqId := by
    rintro gs status hgs hnot ⟨g, hg, q', hq', hid⟩
    obtain ⟨hq', hstatus⟩ := mem_getSeqs.mp hq'
    obtain rfl := Owned.eq_of_seqId howned.ids_nodup hperm hmem (hgs hg) hq' hid
    rw [hstatus, hnot] at hfin
    cases hfin
  cases hlook : st.manager.blockTables.lookup q.seqId with
  | none => rfl
  | some table =>
    exfalso
    rcases howned.tables _ _ hlook with ⟨hholds, -⟩ | ⟨hholds, -⟩
    · refine hnone _ _ (fun g hg => ?_) rfl hholds
      exact List.mem_append_left _ (List.mem_append_right _ hg)
    · exact hnone _ _ (fun g hg => List.mem_append_right _ hg) rfl hholds

end Select

end Mil.Requests
