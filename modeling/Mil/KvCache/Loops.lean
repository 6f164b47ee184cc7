import Mil.KvCache.Step

/-!
# The loops of a step

The moves that `_schedule` collects in its loops (`Progress`): groups are preempted and get their
slots, then swapped groups come back when none was preempted.
-/

set_option autoImplicit false

namespace Mil.Requests

open Mil.Lib Mil.Blocks Mil.Blocks.BlockManager

/-- The state of a loop: who owns the tables, and what the moves collected so far do. -/
structure Progress (cfg : Config) (gs : List SequenceGroup) (m₀ : BlockManager) (src dst : Device)
    (pending running swapped : List SequenceGroup) (done : List Sequence) (st : Decode) :
    Prop where
  owned : Owned cfg st.manager st.waiting running swapped
  groups : GroupsOf gs (st.waiting ++ running ++ swapped)
  moved : Moved cfg gs m₀ src dst pending done st
  quiet : st.preempted = [] → st.blocksToSwapOut = []

variable {cfg : Config} {gs pending pending' running running' swapped swapped' kept :
  List SequenceGroup} {m₀ : BlockManager} {src dst : Device} {done : List Sequence}
  {st st' : Decode} {g : SequenceGroup}

/-! ## Groups -/

/-- The running sequences of some groups. -/
def runningSeqs (gs : List SequenceGroup) : List Sequence := gs.flatMap fun g => g.getSeqs .running

@[simp] theorem runningSeqs_nil : runningSeqs [] = [] := rfl

@[simp] theorem runningSeqs_cons (g : SequenceGroup) (gs : List SequenceGroup) :
    runningSeqs (g :: gs) = g.getSeqs .running ++ runningSeqs gs := List.flatMap_cons

theorem runningSeqs_append (gs gs' : List SequenceGroup) :
    runningSeqs (gs ++ gs') = runningSeqs gs ++ runningSeqs gs' := List.flatMap_append

theorem mem_runningSeqs {gs : List SequenceGroup} {q : Sequence} :
    q ∈ runningSeqs gs ↔ ∃ g ∈ gs, q ∈ g.getSeqs .running := List.mem_flatMap

theorem mem_runningSeqs_sortByRequestId {gs : List SequenceGroup} {q : Sequence} :
    q ∈ runningSeqs (sortByRequestId cfg gs) ↔ q ∈ runningSeqs gs :=
  ((perm_sortByRequestId cfg gs).flatMap_right _).mem_iff.symm

/-- One group changes its status. -/
theorem groupsOf_setStatus {gs' rest : List SequenceGroup} (old new : SequenceStatus)
    (h : gs.Perm (g :: rest)) (h' : gs'.Perm (setStatus old new g :: rest)) : GroupsOf gs gs' := by
  intro g' hg'
  rcases List.mem_cons.mp (h'.mem_iff.mp hg') with rfl | hin
  · exact ⟨g, h.mem_iff.mpr (.head _), (map_seqId_setStatus old new g).symm⟩
  · exact ⟨g', h.mem_iff.mpr (.tail _ hin), rfl⟩

theorem Owned.seqIds_nodup {m : BlockManager} {waiting : List SequenceGroup}
    (h : Owned cfg m waiting running swapped) (hsub : pending.Sublist (running ++ swapped)) :
    (seqIds pending).Nodup := by
  have hids := h.ids_nodup
  rw [List.append_assoc] at hids
  exact hids.sublist ((hsub.trans (List.sublist_append_right _ _)).flatMap _)

/-- A running group may be swapped out. -/
theorem Owned.swappable_running {m : BlockManager} {waiting : List SequenceGroup}
    (h : Owned cfg m waiting (g :: running) swapped) : Swappable m g .running .gpu :=
  ⟨(h.of_running g (.head _)).pre_eq,
    Owned.ids_nodup_group h.ids_nodup (Owned.perm_running g waiting running swapped),
    fun _ hq _ htable => h.running_gpu (mem_getSeqs.mp hq).1 htable⟩

/-- A swapped group may be swapped in. -/
theorem Owned.swappable_swapped {m : BlockManager} {waiting : List SequenceGroup}
    (h : Owned cfg m waiting running (g :: swapped)) : Swappable m g .swapped .cpu :=
  ⟨(h.of_swapped g (.head _)).pre_eq,
    Owned.ids_nodup_group h.ids_nodup (Owned.perm_swapped g waiting running swapped),
    fun _ hq _ htable => h.swapped_cpu (mem_getSeqs.mp hq).1 htable⟩

namespace Progress

theorem groups_pending (h : Progress cfg gs m₀ src dst pending running swapped done st)
    (hsub : pending'.Sublist (running ++ swapped)) : GroupsOf gs pending' := by
  intro g hg
  refine h.groups g ?_
  rw [List.append_assoc]
  exact List.mem_append_right _ (hsub.subset hg)

/-- The order of the queues does not matter. -/
theorem perm (h : Progress cfg gs m₀ src dst pending running swapped done st)
    (hp : pending.Perm pending') (hr : running.Perm running') (hs : swapped.Perm swapped') :
    Progress cfg gs m₀ src dst pending' running' swapped' done st :=
  ⟨h.owned.perm (.refl _) hr hs,
    h.groups.trans (.of_subset fun _ hg => ((hr.append_left st.waiting).append hs).mem_iff.mpr hg),
    h.moved.mono fun _ hid => (seqIds_perm hp).mem_iff.mpr hid, h.quiet⟩

/-! ## A group is preempted -/

theorem preempt
    (h : Progress cfg gs m₀ .gpu .cpu (g :: pending) (g :: running) st.swapped done st)
    (hsub : pending.Sublist running) (hcall : st.preempt g = some st') :
    Progress cfg gs m₀ .gpu .cpu pending running st'.swapped done st' := by
  have howned := h.owned.preempt hcall
  have hsub' : (g :: pending).Sublist (g :: running ++ st.swapped) :=
    (hsub.cons_cons g).trans (List.sublist_append_left _ _)
  have hgroups := h.groups_pending hsub'
  have hids := h.owned.seqIds_nodup hsub'
  have hperm := Owned.perm_running g st.waiting running st.swapped
  obtain ⟨st₁, hmode, rfl⟩ := Option.map_eq_some_iff.mp hcall
  refine ⟨howned, ?_, ?_, fun hnil => ?_⟩
  · refine h.groups.trans ?_
    split at hmode
    · unfold Decode.preemptByRecompute at hmode
      split at hmode
      case h_1 =>
        obtain ⟨m, -, rfl⟩ := Option.map_eq_some_iff.mp hmode
        exact groupsOf_setStatus _ _ hperm (.refl _)
      case h_2 => cases hmode
    · unfold Decode.preemptBySwap at hmode
      obtain ⟨canSwapOut, -, hmode⟩ := Option.bind_eq_some_iff.mp hmode
      split at hmode
      · obtain ⟨⟨mapping, m⟩, -, hmode⟩ := Option.bind_eq_some_iff.mp hmode
        obtain rfl := Option.some.inj hmode
        refine groupsOf_setStatus .running .swapped hperm ?_
        show (st.waiting ++ running ++ (st.swapped ++ [_])).Perm _
        rw [← List.append_assoc]
        exact List.perm_append_singleton _ _
      · cases hmode
  · split at hmode
    -- by recomputation the table is freed; by swapping the group moves to the CPU with it
    · unfold Decode.preemptByRecompute at hmode
      split at hmode
      case h_1 q hq =>
        obtain ⟨m, hfree, rfl⟩ := Option.map_eq_some_iff.mp hmode
        have hmem : q ∈ g.seqs := (mem_getSeqs.mp (hq ▸ List.mem_cons_self)).1
        rw [seqIds_cons] at hids
        refine h.moved.freed (by decide) (List.mem_map_of_mem hmem)
          (fun hin => (List.nodup_append.mp hids).2.2 _ (List.mem_map_of_mem hmem) _ hin rfl)
          (fun table htable => h.owned.running_gpu hmem htable)
          (h.owned.lookup_of_free hfree).2 ⟨rfl, rfl⟩ rfl ⟨?_, fun id hid => ?_⟩
        · show q.seqId ∈ seqIds (setStatus .running .waiting g :: st.waiting)
          rw [seqIds_cons, map_seqId_setStatus]
          exact List.mem_append_left _ (List.mem_map_of_mem hmem)
        · exact seqIds_subset_cons _ _ id hid
      case h_2 => cases hmode
    · unfold Decode.preemptBySwap at hmode
      obtain ⟨canSwapOut, -, hmode⟩ := Option.bind_eq_some_iff.mp hmode
      split at hmode
      · obtain ⟨⟨mapping, m⟩, hswap, hmode⟩ := Option.bind_eq_some_iff.mp hmode
        obtain rfl := Option.some.inj hmode
        have hg := h.owned.swappable_running
        obtain ⟨moves, rfl, hr⟩ := swapOut_relocated h.owned.inv hg hswap
        refine h.moved.relocated (by decide) hgroups hids hg.on hr ?_ h.moved.one_way rfl rfl
        exact update_numbers h.moved.swaps hr
      · cases hmode
  · exact absurd hnil (List.append_ne_nil_of_right_ne_nil _ (List.cons_ne_nil _ _))

theorem makeRoom {rest left : List SequenceGroup} {stays : Bool}
    (h : Progress cfg gs m₀ .gpu .cpu (g :: rest) (g :: (rest ++ kept)) st.swapped done st)
    (hcall : Requests.makeRoom g rest st = some (left, stays, st')) :
    Progress cfg gs m₀ .gpu .cpu ((if stays then [g] else []) ++ left)
      ((if stays then [g] else []) ++ (left ++ kept)) st'.swapped done st' := by
  induction rest generalizing st with
  | nil =>
    rw [Requests.makeRoom] at hcall
    split at hcall
    · obtain ⟨rfl, hrest⟩ := Prod.mk.inj (Option.some.inj hcall)
      obtain ⟨rfl, rfl⟩ := Prod.mk.inj hrest
      exact h
    · obtain ⟨st₁, hpreempt, heq⟩ := Option.map_eq_some_iff.mp hcall
      obtain ⟨rfl, hrest⟩ := Prod.mk.inj heq
      obtain ⟨rfl, rfl⟩ := Prod.mk.inj hrest
      exact h.preempt (List.nil_sublist _) hpreempt
  | cons victim rest ih =>
    rw [Requests.makeRoom] at hcall
    split at hcall
    · obtain ⟨rfl, hrest⟩ := Prod.mk.inj (Option.some.inj hcall)
      obtain ⟨rfl, rfl⟩ := Prod.mk.inj hrest
      exact h
    · obtain ⟨st₁, hpreempt, hcall⟩ := Option.bind_eq_some_iff.mp hcall
      have hvictim := h.perm (List.Perm.swap victim g rest)
        (List.Perm.swap victim g (rest ++ kept)) (.refl _)
      exact ih (hvictim.preempt ((List.sublist_append_left rest kept).cons_cons g) hpreempt) hcall

/-! ## A group gets its slots -/

theorem appendSeq (hwindow : cfg.blocks.blockSlidingWindow = none)
    (h : Progress cfg gs m₀ src dst pending (g :: running) swapped done st)
    (hgroups : GroupsOf gs pending) {q : Sequence} (hq : q ∈ g.getSeqs .running)
    (hpending : q.seqId ∉ seqIds pending) (hdone : q.seqId ∉ done.map Sequence.seqId)
    (hcall : st.appendSeq cfg q = some st') :
    Progress cfg gs m₀ src dst pending (g :: running) swapped (done ++ [q]) st' ∧
      st'.swapped = st.swapped ∧ st'.preempted = st.preempted := by
  obtain ⟨⟨ret, m⟩, happend, rfl⟩ := Option.map_eq_some_iff.mp hcall
  obtain ⟨old, new, hold, happended, hlookup⟩ := appendSlot_appended hwindow h.owned.inv
    (fun table htable => h.moved.apart.nodup _ table htable) happend
  exact ⟨⟨h.owned.appendSlot hwindow hq happend, h.groups,
    h.moved.appended hgroups hpending hdone hold happended hlookup rfl, h.quiet⟩, rfl, rfl⟩

theorem appendSlot (hwindow : cfg.blocks.blockSlidingWindow = none)
    (h : Progress cfg gs m₀ src dst pending (g :: running) swapped done st)
    (hgroups : GroupsOf gs pending)
    (hpending : ∀ q ∈ g.getSeqs .running, q.seqId ∉ seqIds pending)
    (hdone : ∀ q ∈ g.getSeqs .running, q.seqId ∉ done.map Sequence.seqId)
    (hcall : st.appendSlot cfg g = some st') :
    Progress cfg gs m₀ src dst pending (g :: running) swapped (done ++ g.getSeqs .running) st' ∧
      st'.swapped = st.swapped ∧ st'.preempted = st.preempted := by
  have hnodup := nodup_getSeqs (h.owned.swappable_running).ids_nodup .running
  have hall : ∀ qs : List Sequence, (∀ q ∈ qs, q ∈ g.getSeqs .running) →
      (qs.map Sequence.seqId).Nodup → ∀ (done : List Sequence) (st : Decode),
      Progress cfg gs m₀ src dst pending (g :: running) swapped done st →
      (∀ q ∈ qs, q.seqId ∉ done.map Sequence.seqId) →
      qs.foldlM (Decode.appendSeq cfg) st = some st' →
      Progress cfg gs m₀ src dst pending (g :: running) swapped (done ++ qs) st' ∧
        st'.swapped = st.swapped ∧ st'.preempted = st.preempted := by
    intro qs
    induction qs with
    | nil =>
      intro _ _ done st h _ hcall
      obtain rfl := Option.some.inj hcall
      rw [List.append_nil]
      exact ⟨h, rfl, rfl⟩
    | cons q qs ih =>
      intro hqs hids done st h hdone hcall
      obtain ⟨hnot, hids⟩ := List.nodup_cons.mp hids
      rw [List.foldlM_cons] at hcall
      obtain ⟨st₁, hfirst, hrest⟩ := Option.bind_eq_some_iff.mp hcall
      obtain ⟨hstep, hswapped, hpreempted⟩ := h.appendSeq hwindow hgroups (hqs q (.head _))
        (hpending q (hqs q (.head _))) (hdone q (.head _)) hfirst
      have hdone' : ∀ q' ∈ qs, q'.seqId ∉ (done ++ [q]).map Sequence.seqId := by
        intro q' hq' hin
        rw [List.map_append, List.mem_append] at hin
        rcases hin with hin | hin
        · exact hdone q' (.tail _ hq') hin
        · have heq : q'.seqId = q.seqId := List.mem_singleton.mp hin
          exact hnot (heq ▸ List.mem_map_of_mem hq')
      obtain ⟨hfinal, hswapped', hpreempted'⟩ := ih (fun q' hq' => hqs q' (.tail _ hq')) hids
        (done ++ [q]) st₁ hstep hdone' hrest
      rw [List.append_assoc] at hfinal
      exact ⟨hfinal, hswapped'.trans hswapped, hpreempted'.trans hpreempted⟩
  exact hall _ (fun q hq => hq) hnodup done st h hdone hcall

theorem keepRunning (hwindow : cfg.blocks.blockSlidingWindow = none) {fuel : Nat}
    {rest kept' : List SequenceGroup}
    (h : Progress cfg gs m₀ .gpu .cpu rest (rest ++ kept) st.swapped done st)
    (hcall : Requests.keepRunning cfg fuel rest st = some (kept', st')) :
    Progress cfg gs m₀ .gpu .cpu [] (kept' ++ kept) st'.swapped
      (done ++ runningSeqs kept') st' := by
  induction fuel generalizing rest kept' kept done st with
  | zero =>
    cases rest with
    | nil =>
      obtain ⟨rfl, rfl⟩ := Prod.mk.inj (Option.some.inj hcall)
      rw [runningSeqs_nil, List.append_nil]
      exact h
    | cons g rest => cases hcall
  | succ fuel ih =>
    cases rest with
    | nil =>
      obtain ⟨rfl, rfl⟩ := Prod.mk.inj (Option.some.inj hcall)
      rw [runningSeqs_nil, List.append_nil]
      exact h
    | cons g rest =>
      rw [Requests.keepRunning] at hcall
      obtain ⟨⟨left, stays, st₁⟩, hroom, hcall⟩ := Option.bind_eq_some_iff.mp hcall
      have hreversed := h.perm ((List.reverse_perm rest).symm.cons g)
        (((List.reverse_perm rest).symm.append_right kept).cons g) (.refl _)
      have hleft := hreversed.makeRoom hroom
      simp only at hcall
      cases stays with
      | false => exact ih (hleft.perm (List.reverse_perm left).symm
          ((List.reverse_perm left).symm.append_right kept) (.refl _)) hcall
      | true =>
        obtain ⟨st₂, happend, hcall⟩ := Option.bind_eq_some_iff.mp hcall
        obtain ⟨⟨kept₁, st₃⟩, hrest, hcall⟩ := Option.bind_eq_some_iff.mp hcall
        obtain ⟨rfl, rfl⟩ := Prod.mk.inj (Option.some.inj hcall)
        have hleft : Progress cfg gs m₀ .gpu .cpu (g :: left) (g :: (left ++ kept)) st₁.swapped
            done st₁ := hleft
        have hsub : (g :: left).Sublist (g :: (left ++ kept) ++ st₁.swapped) :=
          ((List.sublist_append_left left kept).cons_cons g).trans (List.sublist_append_left _ _)
        have hgroups := hleft.groups_pending hsub
        have hids := hleft.owned.seqIds_nodup hsub
        rw [seqIds_cons] at hids
        have hmem : ∀ q ∈ g.getSeqs .running, q.seqId ∈ g.seqs.map Sequence.seqId := fun q hq =>
          List.mem_map_of_mem (mem_getSeqs.mp hq).1
        have hwithout :
            Progress cfg gs m₀ .gpu .cpu left (g :: (left ++ kept)) st₁.swapped done st₁ :=
          { hleft with moved := hleft.moved.mono (seqIds_subset_cons g left) }
        -- what has got its slot is in none of the groups still to be dealt with
        have hdone : ∀ q ∈ g.getSeqs .running, q.seqId ∉ done.map Sequence.seqId := by
          intro q hq hin
          obtain ⟨q', hq', heq⟩ := List.mem_map.mp hin
          refine hleft.moved.done_not q' hq' ?_
          rw [heq, seqIds_cons]
          exact List.mem_append_left _ (hmem q hq)
        obtain ⟨hslots, hswapped, -⟩ := hwithout.appendSlot hwindow
          (fun g' hg' => hgroups g' (.tail _ hg'))
          (fun q hq hin => (List.nodup_append.mp hids).2.2 _ (hmem q hq) _ hin rfl) hdone happend
        rw [← hswapped] at hslots
        -- the group that stays is one of those kept for the rest of the loop
        have hslots := hslots.perm (List.reverse_perm left).symm
          ((((List.reverse_perm left).symm.append_right kept).cons g).trans
            List.perm_middle.symm) (.refl _)
        have hrest := ih hslots hrest
        rw [List.append_assoc, ← runningSeqs_cons] at hrest
        exact hrest.perm (.refl _) List.perm_middle (.refl _)

/-! ## Swapped groups come back -/

/-- Nothing was swapped out, so groups may be swapped in. -/
theorem resume (h : Progress cfg gs m₀ .gpu .cpu [] running swapped (runningSeqs running) st)
    (hquiet : st.preempted = []) :
    Progress cfg gs m₀ .cpu .gpu swapped running swapped (runningSeqs running) st := by
  have hnot : ∀ id ∈ seqIds running, id ∉ seqIds swapped := by
    intro id hid hin
    have hids := h.owned.ids_nodup
    rw [seqIds_append, seqIds_append] at hids
    exact (List.nodup_append.mp hids).2.2 id (List.mem_append_right _ hid) id hin rfl
  -- a block on the GPU is in no table of a swapped group
  have hgpu : ∀ {id : Nat} {table : BlockTable} {b : Block}, b.device = .gpu →
      st.manager.blockTables.lookup id = some table → b ∈ table → id ∉ seqIds swapped := by
    intro id table b hb htable hmem
    rcases h.owned.tables id table htable with ⟨hheld, -⟩ | ⟨-, hcpu⟩
    · exact hnot id hheld.mem_seqIds
    · exact absurd (hb.symm.trans (hcpu b hmem)) (by decide)
  have hdevice : ∀ p ∈ copyMoves st.blocksToCopy, p.1.device = .gpu ∧ p.2.device = .gpu := by
    intro p hp
    obtain ⟨q, -, hp⟩ := List.mem_flatMap.mp hp
    obtain ⟨n, -, rfl⟩ := List.mem_map.mp hp
    exact ⟨rfl, rfl⟩
  have hin : st.swaps .cpu = [] := h.moved.one_way
  refine ⟨h.owned, h.groups, { h.moved with
    swaps := ?_, one_way := h.quiet hquiet, copies := ?_, done_not := ?_ }, h.quiet⟩
  · rw [hin]
    exact .nil _ _ _ _
  · refine ⟨h.moved.copies.independent, fun p hp => ?_, fun p hp => ?_⟩
    · obtain ⟨id, table, -, htable, hb⟩ := h.moved.copies.source p hp
      exact ⟨id, table, hgpu (hdevice p hp).1 htable hb, htable, hb⟩
    · obtain ⟨id, table, -, htable, hb, hex⟩ := h.moved.copies.target p hp
      exact ⟨id, table, hgpu (hdevice p hp).2 htable hb, htable, hb, hex⟩
  · intro q hq
    obtain ⟨g, hg, hq⟩ := mem_runningSeqs.mp hq
    exact hnot _ (Requests.mem_seqIds.mpr ⟨g, hg, q, (mem_getSeqs.mp hq).1, rfl⟩)

/-- A swapped group comes back. -/
theorem swapIn (h : Progress cfg gs m₀ .cpu .gpu (g :: swapped) running (g :: swapped) done st)
    {mapping : List (Nat × Nat)} {m : BlockManager}
    (hcall : st.manager.swapIn g = some (mapping, m))
    (hst : st' = { st with
      manager := m, blocksToSwapIn := Dict.update st.blocksToSwapIn mapping }) :
    Progress cfg gs m₀ .cpu .gpu swapped (setStatus .swapped .running g :: running) swapped done
      st' := by
  have hsub : (g :: swapped).Sublist (running ++ g :: swapped) := List.sublist_append_right _ _
  have hg := h.owned.swappable_swapped
  obtain ⟨moves, rfl, hr⟩ := swapIn_relocated h.owned.inv hg hcall
  have howned := h.owned.swapIn hcall
  subst hst
  refine ⟨howned, h.groups.trans ?_, ?_, h.quiet⟩
  · exact groupsOf_setStatus _ _ (Owned.perm_swapped g st.waiting running swapped)
      (Owned.perm_running _ st.waiting running swapped)
  · refine h.moved.relocated (by decide) (h.groups_pending hsub) (h.owned.seqIds_nodup hsub) hg.on
      hr ?_ h.moved.one_way rfl rfl
    exact update_numbers h.moved.swaps hr

theorem resumeSwapped (hwindow : cfg.blocks.blockSlidingWindow = none)
    {resumed : List SequenceGroup} {numCurrSeqs : Nat}
    (h : Progress cfg gs m₀ .cpu .gpu swapped running swapped done st)
    (hcall : Requests.resumeSwapped cfg swapped numCurrSeqs st = some (resumed, st')) :
    Progress cfg gs m₀ .cpu .gpu [] (running ++ resumed) st'.swapped
      (done ++ runningSeqs resumed) st' := by
  induction swapped generalizing running resumed numCurrSeqs st done with
  | nil =>
    obtain ⟨rfl, rfl⟩ := Prod.mk.inj (Option.some.inj hcall)
    rw [runningSeqs_nil, List.append_nil, List.append_nil]
    exact ⟨h.owned, h.groups, h.moved.setSwapped [], h.quiet⟩
  | cons g swapped ih =>
    rw [Requests.resumeSwapped] at hcall
    obtain ⟨canSwapIn, -, hcall⟩ := Option.bind_eq_some_iff.mp hcall
    split at hcall
    · obtain ⟨⟨mapping, m⟩, hswap, hcall⟩ := Option.bind_eq_some_iff.mp hcall
      obtain ⟨st₁, happend, hcall⟩ := Option.bind_eq_some_iff.mp hcall
      obtain ⟨⟨resumed₁, st₂⟩, hrest, hcall⟩ := Option.bind_eq_some_iff.mp hcall
      obtain ⟨rfl, rfl⟩ := Prod.mk.inj (Option.some.inj hcall)
      have hback := h.swapIn hswap rfl
      have hids := h.owned.seqIds_nodup (List.sublist_append_right running (g :: swapped))
      rw [seqIds_cons] at hids
      have hmem : ∀ q ∈ (setStatus .swapped .running g).getSeqs .running,
          q.seqId ∈ g.seqs.map Sequence.seqId := fun q hq => by
        rw [← map_seqId_setStatus .swapped .running g]
        exact List.mem_map_of_mem (mem_getSeqs.mp hq).1
      have hdone : ∀ q ∈ (setStatus .swapped .running g).getSeqs .running,
          q.seqId ∉ done.map Sequence.seqId := by
        intro q hq hin
        obtain ⟨q', hq', heq⟩ := List.mem_map.mp hin
        refine h.moved.done_not q' hq' ?_
        rw [heq, seqIds_cons]
        exact List.mem_append_left _ (hmem q hq)
      obtain ⟨hslots, -, -⟩ := hback.appendSlot hwindow
        (hback.groups_pending (List.sublist_append_right _ _))
        (fun q hq hin => (List.nodup_append.mp hids).2.2 _ (hmem q hq) _ hin rfl) hdone happend
      have hrest := ih hslots hrest
      rw [List.append_assoc, ← runningSeqs_cons] at hrest
      exact hrest.perm (.refl _) List.perm_middle.symm (.refl _)
    · obtain ⟨rfl, rfl⟩ := Prod.mk.inj (Option.some.inj hcall)
      rw [runningSeqs_nil, List.append_nil, List.append_nil]
      have hnone : Moved cfg gs m₀ .cpu .gpu [] done st :=
        h.moved.mono fun id hid => absurd hid List.not_mem_nil
      exact ⟨h.owned, h.groups, hnone.setSwapped _, h.quiet⟩

end Progress

/-! ## A call -/

/-- Before a step nothing has moved. -/
theorem Moved.start {m : BlockManager} (hapart : Apart gs m) (pending : List SequenceGroup)
    (waiting swapped : List SequenceGroup) :
    Moved cfg gs m .gpu .cpu pending [] ⟨m, waiting, swapped, [], [], [], []⟩ := by
  refine ⟨hapart, .nil _ _ _ _, rfl, .nil _ _, fun _ hq => absurd hq List.not_mem_nil,
    fun _ table htable _ => ?_, fun _ hq => absurd hq List.not_mem_nil, fun _ hid => .inl hid⟩
  have horigin : Decode.origin ⟨m, waiting, swapped, [], [], [], []⟩ = id := rfl
  rw [horigin, List.map_id]
  exact htable

variable {s s' : Scheduler} {outputs : SchedulerOutputs}

/-- What the second half of `_schedule` does. -/
theorem scheduleDecode_progress (hwindow : cfg.blocks.blockSlidingWindow = none)
    (howned : s.Owned cfg) (hgroups : GroupsOf gs (s.waiting ++ s.running ++ s.swapped))
    (hapart : Apart gs s.manager) (hcall : s.scheduleDecode cfg = some (outputs, s')) :
    ∃ src dst st, Progress cfg gs s.manager src dst [] s'.running s'.swapped
        (runningSeqs s'.running) st ∧
      s' = ⟨st.manager, st.waiting, s'.running, s'.swapped⟩ ∧
      outputs.scheduledSeqGroups = sortByRequestId cfg s'.running ∧ outputs.promptRun = false ∧
      outputs.blocksToSwapIn = st.blocksToSwapIn ∧
      outputs.blocksToSwapOut = st.blocksToSwapOut ∧ outputs.blocksToCopy = st.blocksToCopy := by
  unfold Scheduler.scheduleDecode at hcall
  obtain ⟨⟨running, st⟩, hkeep, hcall⟩ := Option.bind_eq_some_iff.mp hcall
  obtain ⟨⟨running', st'⟩, hresume, hcall⟩ := Option.bind_eq_some_iff.mp hcall
  simp only at hcall
  split at hcall
  · cases hcall
  obtain ⟨rfl, rfl⟩ := Prod.mk.inj (Option.some.inj hcall)
  have hperm := perm_sortByPriority cfg s.running
  have hstart : Progress cfg gs s.manager .gpu .cpu (sortByPriority cfg s.running)
      (sortByPriority cfg s.running ++ []) s.swapped []
      ⟨s.manager, s.waiting, s.swapped, [], [], [], []⟩ := by
    rw [List.append_nil]
    refine ⟨Requests.Owned.perm howned (.refl _) hperm (.refl _), hgroups.trans (.of_subset ?_),
      .start hapart _ _ _, fun _ => rfl⟩
    exact fun g hg => ((hperm.append_left s.waiting).append_right s.swapped).mem_iff.mpr hg
  have hkept := hstart.keepRunning hwindow hkeep
  rw [List.append_nil, List.nil_append] at hkept
  have hsorted := hkept.perm (.refl _) (.refl _) (perm_sortByPriority cfg st.swapped)
  unfold Decode.resume at hresume
  simp only at hresume
  split at hresume
  case isTrue hnone =>
    obtain ⟨⟨resumed, st₁⟩, hresumed, heq⟩ := Option.map_eq_some_iff.mp hresume
    obtain ⟨rfl, rfl⟩ := Prod.mk.inj heq
    have hdone := (hsorted.resume (List.isEmpty_iff.mp hnone)).resumeSwapped hwindow hresumed
    rw [← runningSeqs_append] at hdone
    exact ⟨.cpu, .gpu, st₁, hdone, rfl, rfl, rfl, rfl, rfl, rfl⟩
  case isFalse =>
    obtain ⟨rfl, rfl⟩ := Prod.mk.inj (Option.some.inj hresume)
    refine ⟨.gpu, .cpu, { st with swapped := sortByPriority cfg st.swapped }, ?_, rfl, rfl, rfl,
      rfl, rfl, rfl⟩
    exact ⟨hsorted.owned, hsorted.groups, hsorted.moved.setSwapped _, hsorted.quiet⟩

end Mil.Requests
