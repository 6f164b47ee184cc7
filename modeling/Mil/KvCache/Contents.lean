import Mil.KvCache.Loops
import Mil.Requests.Admission

/-!
# The contents of the tables across a run

A call of `schedule` is a step that admits prompts, which get tables of blocks that were in none, or
one that gives the running sequences their slots (`Stepped`). In every reachable state tables of
different groups have no block in common (`Reach.apart`), so in every step of a run each sequence
that keeps a table keeps what is cached in it.

No blocks are retired here (`DYNAMIC_INCREASE_ONCARD_WEIGHTS` is not set), and there is no sliding
window.
-/

set_option autoImplicit false

namespace Mil.Requests

open Mil.Lib Mil.Blocks Mil.Blocks.BlockManager

variable {cfg : Config} {gs waiting running swapped : List SequenceGroup} {m m' m₀ : BlockManager}
  {g : SequenceGroup}

/-! ## Prompts are admitted -/

/-- The prompts admitted so far have tables of their own of blocks that were in none, and the other
tables are the old ones. -/
structure Admitted (cfg : Config) (gs : List SequenceGroup) (m₀ : BlockManager)
    (waiting running swapped : List SequenceGroup) (st : Prompts) : Prop where
  owned : Owned cfg st.manager waiting (st.scheduled ++ running) swapped
  groups : GroupsOf gs (waiting ++ (st.scheduled ++ running) ++ swapped)
  apart : Apart gs st.manager
  old : ∀ (id : Nat) (table : BlockTable), m₀.blockTables.lookup id = some table →
    st.manager.blockTables.lookup id = some table
  new : ∀ q ∈ runningSeqs st.scheduled, ∃ table,
    st.manager.blockTables.lookup q.seqId = some table ∧
    table.length = q.logicalTokenBlocks cfg.blocks.blockSize ∧
    ∀ b ∈ table, m₀.Unused b ∧ st.manager.Exclusive q.seqId b
  only : ∀ (id : Nat) (table : BlockTable), st.manager.blockTables.lookup id = some table →
    m₀.blockTables.lookup id = some table ∨ ∃ q ∈ runningSeqs st.scheduled, q.seqId = id

namespace Admitted

variable {st st' : Prompts}

/-- The next group leaves the queue. -/
theorem dropWaiting (h : Admitted cfg gs m₀ (g :: waiting) running swapped st) :
    Admitted cfg gs m₀ waiting running swapped st :=
  { h with
    owned := h.owned.dropWaiting
    groups := h.groups.trans (.of_subset fun _ hg => List.mem_cons_of_mem _ hg) }

/-- The next group is admitted. -/
theorem allocate (hwindow : cfg.blocks.blockSlidingWindow = none)
    (h : Admitted cfg gs m₀ (g :: waiting) running swapped st) {q : Sequence}
    (hq : g.getSeqs .waiting = [q]) (hone : g.numSeqs = 1)
    (hcall : st.manager.allocate cfg.blocks g = some m)
    (hst : st'.manager = m ∧ st'.scheduled = st.scheduled ++ [setStatus .waiting .running g]) :
    Admitted cfg gs m₀ waiting running swapped st' := by
  obtain ⟨hm, hscheduled⟩ := hst
  have hstate := (h.owned.of_waiting g (.head _)).1
  obtain ⟨table, hnodup, hfresh, hlength, hlookup⟩ :=
    allocate_fresh hwindow h.owned.inv hstate.pre_eq hcall
  rw [hq, List.map_singleton] at hlookup
  have hlookup : ∀ id, m.blockTables.lookup id =
      if id = q.seqId then some table else st.manager.blockTables.lookup id := by
    intro id
    rw [hlookup]
    simp only [List.mem_singleton]
  have hmem : q ∈ g.seqs := (mem_getSeqs.mp (hq ▸ List.mem_cons_self)).1
  have hnone : st.manager.blockTables.lookup q.seqId = none := h.owned.lookup_waiting hmem
  have hother : ∀ {id : Nat} {old : BlockTable}, st.manager.blockTables.lookup id = some old →
      id ≠ q.seqId ∧ m.blockTables.lookup id = some old := by
    intro id old hold
    have hne : id ≠ q.seqId := by
      rintro rfl
      cases hnone.symm.trans hold
    exact ⟨hne, (hlookup id).trans ((if_neg hne).trans hold)⟩
  have hseqs : runningSeqs st'.scheduled =
      runningSeqs st.scheduled ++ [{ q with status := .running }] := by
    rw [hscheduled, runningSeqs_append, runningSeqs_cons,
      getSeqs_setStatus hstate (by decide) (by decide), hq]
    rfl
  have hperm : (setStatus .waiting .running g :: (st.scheduled ++ running)).Perm
      (st'.scheduled ++ running) := by
    rw [hscheduled, List.append_assoc]
    exact List.perm_middle.symm
  refine ⟨?_, ?_, ?_, fun id old hold => ?_, fun q' hq' => ?_, fun id new htable => ?_⟩
  · exact hm ▸ (h.owned.allocate hwindow hone hcall).perm (.refl _) hperm (.refl _)
  · refine h.groups.trans (groupsOf_setStatus .waiting .running (.refl _) ?_)
    refine ((hperm.symm.append_left waiting).append_right swapped).trans ?_
    exact Owned.perm_running _ waiting (st.scheduled ++ running) swapped
  · rw [hm]
    exact h.apart.setTable hnodup hlookup fun b hb => .inl (hfresh b hb).2
  · rw [hm]
    exact (hother (h.old id old hold)).2
  · rw [hm]
    rw [hseqs] at hq'
    rcases List.mem_append.mp hq' with hq' | hq'
    -- an earlier prompt keeps its blocks to itself: the new table only takes unused ones
    · obtain ⟨old, hold, hlen, hblocks⟩ := h.new q' hq'
      refine ⟨old, (hother hold).2, hlen, fun b hb => ⟨(hblocks b hb).1, ?_⟩⟩
      intro id new htable hin
      rw [hlookup] at htable
      split at htable
      · obtain rfl := Option.some.inj htable
        exact absurd hb ((hfresh b hin).2 _ _ hold)
      · exact (hblocks b hb).2 id new htable hin
    · rw [List.mem_singleton.mp hq']
      refine ⟨table, (hlookup _).trans (if_pos rfl), hlength q (by rw [hq]; rfl), fun b hb => ?_⟩
      refine ⟨fun id old hold hin => (hfresh b hb).2 id old (h.old id old hold) hin, ?_⟩
      exact exclusive_of_unused hlookup (hfresh b hb).2
  · rw [hm, hlookup] at htable
    rw [hseqs]
    split at htable
    case isTrue hid =>
      exact .inr ⟨_, List.mem_append_right _ (.head _), hid.symm⟩
    case isFalse =>
      refine (h.only id new htable).imp_right fun ⟨q', hq', hid⟩ => ?_
      exact ⟨q', List.mem_append_left _ hq', hid⟩

theorem admitPrompts (hwindow : cfg.blocks.blockSlidingWindow = none)
    {waiting' : List SequenceGroup} (h : Admitted cfg gs m₀ waiting running swapped st)
    (hone : ∀ g ∈ waiting, ∀ q ∈ g.getSeqs .waiting, q.len ≤ cfg.promptLimit → g.numSeqs = 1)
    (hcall : Requests.admitPrompts cfg waiting st = some (waiting', st')) :
    Admitted cfg gs m₀ waiting' running swapped st' := by
  induction waiting generalizing st with
  | nil =>
    obtain ⟨rfl, rfl⟩ := Prod.mk.inj (Option.some.inj hcall)
    exact h
  | cons g waiting ih =>
    have hone' := fun g' (hg' : g' ∈ waiting) => hone g' (.tail _ hg')
    have hignored : Admitted cfg gs m₀ waiting running swapped (st.ignore g) :=
      ⟨h.dropWaiting.owned, h.dropWaiting.groups, h.apart, h.old, h.new, h.only⟩
    have hstop : some (g :: waiting, st) = some (waiting', st') →
        Admitted cfg gs m₀ waiting' running swapped st' := by
      intro heq
      obtain ⟨rfl, rfl⟩ := Prod.mk.inj (Option.some.inj heq)
      exact h
    rw [Requests.admitPrompts] at hcall
    split at hcall
    case h_2 => cases hcall
    case h_1 q hq =>
      split at hcall
      · exact ih hignored hone' hcall
      case isFalse hlimit =>
        split at hcall
        · cases hcall
        · exact hstop hcall
        · exact ih hignored hone' hcall
        · split at hcall
          case isFalse => exact hstop hcall
          case isTrue =>
            obtain ⟨m, halloc, hcall⟩ := Option.bind_eq_some_iff.mp hcall
            have hsingle := hone g (.head _) q (hq ▸ List.mem_cons_self) (not_lt.mp hlimit)
            exact ih (h.allocate hwindow hq hsingle halloc ⟨rfl, rfl⟩) hone' hcall

end Admitted

/-! ## A call of the scheduler -/

section Calls

variable {s s' : Scheduler} {outputs : SchedulerOutputs}

/-- All groups of the queues. -/
def Scheduler.groups (s : Scheduler) : List SequenceGroup := s.waiting ++ s.running ++ s.swapped

/-- Tables of different groups have no block in common. -/
def Scheduler.Apart (s : Scheduler) : Prop := Requests.Apart s.groups s.manager

/-- What a call of `_schedule` does: prompts get tables, or running sequences get their slots. -/
inductive Stepped (cfg : Config) (s s' : Scheduler) (outputs : SchedulerOutputs) : Prop
  | prompt {waiting : List SequenceGroup} {st : Prompts}
      (h : Admitted cfg s.groups s.manager waiting s.running s.swapped st)
      (hs : s' = ⟨st.manager, waiting, s.running ++ st.scheduled, s.swapped⟩)
      (hscheduled : outputs.scheduledSeqGroups = sortByRequestId cfg st.scheduled)
      (hprompt : outputs.promptRun = true)
      (hmoves : outputs.blocksToSwapIn = [] ∧ outputs.blocksToSwapOut = [] ∧
        outputs.blocksToCopy = [])
  | decode {src dst : Device} {st : Decode}
      (h : Progress cfg s.groups s.manager src dst [] s'.running s'.swapped
        (runningSeqs s'.running) st)
      (hs : s' = ⟨st.manager, st.waiting, s'.running, s'.swapped⟩)
      (hscheduled : outputs.scheduledSeqGroups = sortByRequestId cfg s'.running)
      (hprompt : outputs.promptRun = false)
      (hmoves : outputs.blocksToSwapIn = st.blocksToSwapIn ∧
        outputs.blocksToSwapOut = st.blocksToSwapOut ∧ outputs.blocksToCopy = st.blocksToCopy)

/-- Only the tables of the first state matter. -/
theorem Moved.of_lookup {src dst : Device} {pending : List SequenceGroup} {done : List Sequence}
    {st : Decode} (h : Moved cfg gs m src dst pending done st)
    (hlookup : ∀ id, m.blockTables.lookup id = m₀.blockTables.lookup id) :
    Moved cfg gs m₀ src dst pending done st :=
  ⟨h.apart, h.swaps, h.one_way, h.copies, h.done_not,
    fun id table htable hid => hlookup id ▸ h.same id table htable hid,
    fun q hq => hlookup q.seqId ▸ h.slots q hq, fun id hid => h.kept id (hlookup id ▸ hid)⟩

theorem scheduleDecode_stepped (hwindow : cfg.blocks.blockSlidingWindow = none) {s₀ : Scheduler}
    (howned : s.Owned cfg) (hgroups : GroupsOf s₀.groups s.groups)
    (hapart : Apart s₀.groups s.manager)
    (hlookup : ∀ id, s.manager.blockTables.lookup id = s₀.manager.blockTables.lookup id)
    (hcall : s.scheduleDecode cfg = some (outputs, s')) : Stepped cfg s₀ s' outputs := by
  obtain ⟨src, dst, st, h, hs, hscheduled, hprompt, hmoves⟩ :=
    scheduleDecode_progress hwindow howned hgroups hapart hcall
  exact .decode ⟨h.owned, h.groups, h.moved.of_lookup hlookup, h.quiet⟩ hs hscheduled hprompt
    hmoves

theorem scheduleQueues_stepped (hwindow : cfg.blocks.blockSlidingWindow = none)
    (howned : s.Owned cfg) (hapart : s.Apart)
    (hone : ∀ g ∈ s.waiting, ∀ q ∈ g.getSeqs .waiting, q.len ≤ cfg.promptLimit → g.numSeqs = 1)
    (hcall : s.scheduleQueues cfg = some (outputs, s')) : Stepped cfg s s' outputs := by
  unfold Scheduler.scheduleQueues at hcall
  split at hcall
  case isFalse =>
    exact scheduleDecode_stepped hwindow howned (.of_subset fun _ hg => hg) hapart
      (fun _ => rfl) hcall
  case isTrue =>
    obtain ⟨⟨waiting, st⟩, hadmit, hcall⟩ := Option.bind_eq_some_iff.mp hcall
    have hstart : Admitted cfg s.groups s.manager s.waiting s.running s.swapped
        ⟨s.manager, [], [], [], maxNumRunningSeqs s.running⟩ :=
      ⟨howned, .of_subset fun _ hg => hg, hapart, fun _ _ htable => htable,
        fun _ hq => absurd hq List.not_mem_nil, fun _ _ htable => .inl htable⟩
    have hadmitted := hstart.admitPrompts hwindow hone hadmit
    simp only at hcall
    split at hcall
    case isFalse =>
      obtain ⟨rfl, rfl⟩ := Prod.mk.inj (Option.some.inj hcall)
      exact .prompt hadmitted rfl rfl rfl ⟨rfl, rfl, rfl⟩
    case isTrue hnone =>
      -- no prompt is admitted, so the tables are the old ones
      have hempty : st.scheduled = [] := List.isEmpty_iff.mp (Bool.and_elim_left hnone)
      have howned' := hadmitted.owned
      have hgroups := hadmitted.groups
      have honly := hadmitted.only
      rw [hempty] at howned' hgroups honly
      have hlookup : ∀ id, st.manager.blockTables.lookup id = s.manager.blockTables.lookup id := by
        intro id
        cases hold : s.manager.blockTables.lookup id with
        | some table => exact hadmitted.old id table hold
        | none =>
          cases hnew : st.manager.blockTables.lookup id with
          | none => rfl
          | some table =>
            rcases honly id table hnew with hin | ⟨q, hq, -⟩
            · cases hold.symm.trans hin
            · exact absurd hq List.not_mem_nil
      rw [hempty, List.append_nil] at hcall
      exact scheduleDecode_stepped (s := ⟨st.manager, waiting, s.running, s.swapped⟩) hwindow
        howned' hgroups hadmitted.apart hlookup hcall

/-- `schedule` without retired blocks. -/
theorem schedule_stepped (hwindow : cfg.blocks.blockSlidingWindow = none)
    (hdynamic : cfg.dynamicIncreaseOncardWeights = false) (howned : s.Owned cfg) (hapart : s.Apart)
    (hmeets : Meets cfg s) {tables : List (Nat × List Nat)}
    (hcall : s.schedule cfg = some (tables, outputs, s')) :
    Stepped cfg s s' outputs ∧ s'.blockTables outputs.scheduledSeqGroups = some tables := by
  unfold Scheduler.schedule at hcall
  obtain ⟨⟨chains, s₁⟩, hretire, hcall⟩ := Option.bind_eq_some_iff.mp hcall
  obtain ⟨⟨outputs₁, s₂⟩, hqueues, hcall⟩ := Option.bind_eq_some_iff.mp hcall
  obtain ⟨tables₁, htables, hcall⟩ := Option.bind_eq_some_iff.mp hcall
  obtain ⟨rfl, heq⟩ := Prod.mk.inj (Option.some.inj hcall)
  obtain ⟨rfl, rfl⟩ := Prod.mk.inj heq
  rw [Scheduler.retireBlocks, hdynamic] at hretire
  obtain ⟨-, rfl⟩ := Prod.mk.inj (Option.some.inj hretire)
  refine ⟨?_, htables⟩
  cases scheduleQueues_stepped hwindow howned hapart hmeets.one hqueues with
  | prompt h hs hscheduled hprompt hmoves => exact .prompt h hs hscheduled hprompt hmoves
  | decode h hs hscheduled hprompt hmoves => exact .decode h hs hscheduled hprompt hmoves

theorem Stepped.apart (h : Stepped cfg s s' outputs) : s'.Apart := by
  cases h with
  | prompt h hs _ _ _ =>
    subst hs
    refine h.apart.of_ids (h.groups.trans (.of_subset fun g hg => ?_))
    exact ((List.perm_append_comm.append_left _).append_right _).mem_iff.mpr hg
  | @decode _ _ st h hs _ _ _ =>
    have hgroups : s'.groups = st.waiting ++ s'.running ++ s'.swapped := by
      conv_lhs => rw [hs]
      rfl
    rw [Scheduler.Apart, hgroups, show s'.manager = st.manager by rw [hs]]
    exact h.moved.apart.of_ids h.groups

end Calls

/-! ## Runs -/

section Runs

variable {s s' : Scheduler} {gs' : List SequenceGroup}

/-- Tables that are those of other ids before, of ids in the same groups, or in no group. -/
theorem Apart.of_map (h : Apart gs m) (before : Nat → Nat)
    (hlookup : ∀ (id : Nat) (table : BlockTable), m'.blockTables.lookup id = some table →
      m.blockTables.lookup (before id) = some table)
    (hmem : ∀ g' ∈ gs', (∃ g ∈ gs, ∀ id, m'.blockTables.lookup id ≠ none →
        (before id ∈ g.seqs.map Sequence.seqId ↔ id ∈ g'.seqs.map Sequence.seqId)) ∨
      ∀ id, m'.blockTables.lookup id ≠ none → id ∉ g'.seqs.map Sequence.seqId) :
    Apart gs' m' := by
  refine ⟨fun id table htable => h.nodup _ table (hlookup id table htable),
    fun id id' table table' b htable htable' hb hb' g' hg' => ?_⟩
  have htogether := h.together _ _ table table' b (hlookup id table htable)
    (hlookup id' table' htable') hb hb'
  have hsome : m'.blockTables.lookup id ≠ none := by
    rw [htable]
    exact Option.some_ne_none table
  have hsome' : m'.blockTables.lookup id' ≠ none := by
    rw [htable']
    exact Option.some_ne_none table'
  rcases hmem g' hg' with ⟨g, hg, hiff⟩ | hnot
  · exact (hiff id hsome).symm.trans ((htogether g hg).trans (hiff id' hsome'))
  · exact iff_of_false (hnot id hsome) (hnot id' hsome')

/-- What the engine does to a group. -/
theorem Apart.groupStep {g' : SequenceGroup} {rest : List SequenceGroup}
    (h : Apart (g :: rest) m) (hids : (seqIds (g :: rest)).Nodup) {used : List Nat}
    (hused : ∀ id ∈ seqIds (g :: rest), id ∈ used)
    (htables : ∀ id, m.blockTables.lookup id ≠ none → id ∈ used)
    (hfree : ∀ {id : Nat} {m' : BlockManager}, m.free id = some m' → ∀ id',
      m'.blockTables.lookup id' = if id' = id then none else m.blockTables.lookup id')
    (hstep : GroupStep used m g m' g') : Apart (g' :: rest) m' := by
  -- it is enough to say whose table each table has been before the step
  have hrest : ∀ (before : Nat → Nat), (∀ id, m'.blockTables.lookup id ≠ none →
      ∀ g₁ ∈ rest, before id ∈ g₁.seqs.map Sequence.seqId ↔ id ∈ g₁.seqs.map Sequence.seqId) →
      (∀ (id : Nat) (table : BlockTable), m'.blockTables.lookup id = some table →
        m.blockTables.lookup (before id) = some table) →
      (∀ id, m'.blockTables.lookup id ≠ none →
        (before id ∈ g.seqs.map Sequence.seqId ↔ id ∈ g'.seqs.map Sequence.seqId)) →
      Apart (g' :: rest) m' := by
    intro before hothers hlookup hmine
    refine h.of_map before hlookup fun g₁ hg₁ => .inl ?_
    rcases List.mem_cons.mp hg₁ with rfl | hin
    · exact ⟨g, .head _, hmine⟩
    · exact ⟨g₁, .tail _ hin, fun id hid => hothers id hid g₁ hin⟩
  have hfreed : ∀ {id₀ : Nat}, m.free id₀ = some m' → ∀ id, m'.blockTables.lookup id ≠ none →
      id ≠ id₀ ∧ m'.blockTables.lookup id = m.blockTables.lookup id := by
    intro id₀ hcall id hid
    rw [hfree hcall] at hid ⊢
    split at hid
    · exact absurd rfl hid
    case isFalse hne => exact ⟨hne, if_neg hne⟩
  cases hstep with
  | @appendToken before after q hseqs hq =>
    refine hrest id (fun _ _ _ _ => Iff.rfl) (fun _ _ htable => htable) fun id _ => ?_
    rw [hseqs, List.map_append, List.map_append, List.map_cons, List.map_cons]
    exact Iff.rfl
  | @addFinished child hnew hfin =>
    refine hrest id (fun _ _ _ _ => Iff.rfl) (fun _ _ htable => htable) fun id hid => ?_
    rw [List.map_append, List.mem_append, List.map_singleton, List.mem_singleton]
    refine ⟨.inl, fun hin => hin.resolve_right ?_⟩
    rintro rfl
    exact hnew (htables _ hid)
  | @fork parent child m' hparent hnew hcall =>
    obtain ⟨old, hold, hlookup, -⟩ := fork_tables hcall
    obtain ⟨hmem, -⟩ := mem_getSeqs.mp hparent
    have hin : parent.seqId ∈ g.seqs.map Sequence.seqId := List.mem_map_of_mem hmem
    rw [seqIds_cons] at hids
    -- the child has the table of its parent, and neither belongs to another group
    have hnot : ∀ g₁ ∈ rest, parent.seqId ∉ g₁.seqs.map Sequence.seqId ∧
        child ∉ g₁.seqs.map Sequence.seqId := by
      intro g₁ hg₁
      have hsub : ∀ id, id ∈ g₁.seqs.map Sequence.seqId → id ∈ seqIds rest := fun id hid =>
        List.mem_flatMap.mpr ⟨g₁, hg₁, hid⟩
      refine ⟨fun hp => (List.nodup_append.mp hids).2.2 _ hin _ (hsub _ hp) rfl, fun hc => ?_⟩
      exact hnew (hused _ (seqIds_subset_cons g rest _ (hsub _ hc)))
    have hchild : child ∉ g.seqs.map Sequence.seqId := by
      intro hc
      refine hnew (hused _ ?_)
      rw [seqIds_cons]
      exact List.mem_append_left _ hc
    refine hrest (fun id => if id = child then parent.seqId else id) (fun id _ g₁ hg₁ => ?_)
      (fun id table htable => ?_) fun id _ => ?_
    · by_cases hid : id = child
      · rw [if_pos hid, hid]
        exact iff_of_false (hnot g₁ hg₁).1 (hnot g₁ hg₁).2
      · rw [if_neg hid]
    · rw [hlookup] at htable
      by_cases hid : id = child
      · rw [if_pos hid] at htable ⊢
        exact hold.trans htable
      · rw [if_neg hid] at htable ⊢
        exact htable
    · rw [List.map_append, List.mem_append, List.map_singleton, List.mem_singleton]
      by_cases hid : id = child
      · rw [if_pos hid]
        exact iff_of_true hin (.inr hid)
      · rw [if_neg hid]
        exact ⟨.inl, fun hor => hor.resolve_right hid⟩
  | @finish before after q status m' hseqs hfin hcall =>
    refine hrest id (fun _ _ _ _ => Iff.rfl) (fun id table htable => ?_) fun id _ => ?_
    · rw [← htable]
      exact ((hfreed hcall id (by rw [htable]; exact Option.some_ne_none _)).2).symm
    · rw [hseqs, List.map_append, List.map_append, List.map_cons, List.map_cons]
      exact Iff.rfl
  | @remove before after q m' hseqs hcall =>
    refine hrest id (fun _ _ _ _ => Iff.rfl) (fun id table htable => ?_) fun id hid => ?_
    · rw [← htable]
      exact ((hfreed hcall id (by rw [htable]; exact Option.some_ne_none _)).2).symm
    · have hne := (hfreed hcall id hid).1
      rw [hseqs, List.map_append, List.map_append, List.map_cons, List.mem_append, List.mem_cons,
        List.mem_append]
      exact ⟨fun hor => hor.imp_right fun hor => hor.resolve_left hne,
        fun hor => hor.imp_right .inr⟩

/-- What has a table is in the queues. -/
theorem Scheduler.Owned.mem_seqIds (h : s.Owned cfg) {id : Nat}
    (hid : s.manager.blockTables.lookup id ≠ none) : id ∈ s.seqIds := by
  obtain ⟨table, htable⟩ := Option.ne_none_iff_exists'.mp hid
  exact Owned.mem_seqIds_of_lookup h htable

theorem Scheduler.Apart.step (hwindow : cfg.blocks.blockSlidingWindow = none)
    (hdynamic : cfg.dynamicIncreaseOncardWeights = false) (howned : s.Owned cfg) (h : s.Apart)
    (hmeets : Meets cfg s) (hstep : Step cfg s s') : s'.Apart := by
  cases hstep with
  | @addSeqGroup g hnew =>
    obtain ⟨q, hseqs, -, hid⟩ := hnew.single
    refine Requests.Apart.of_map h id (fun _ _ htable => htable) fun g' hg' => ?_
    have hin : g' ∈ s.groups ∨ g' = g := by
      rcases List.mem_append.mp hg' with hin | hin
      · rcases List.mem_append.mp hin with hin | hin
        · rcases List.mem_append.mp hin with hin | hin
          · exact .inl (List.mem_append_left _ (List.mem_append_left _ hin))
          · exact .inr (List.mem_singleton.mp hin)
        · exact .inl (List.mem_append_left _ (List.mem_append_right _ hin))
      · exact .inl (List.mem_append_right _ hin)
    rcases hin with hin | rfl
    · exact .inl ⟨g', hin, fun _ _ => Iff.rfl⟩
    · refine .inr fun id htable hmem => ?_
      rw [hseqs, List.map_singleton, List.mem_singleton] at hmem
      exact hid (hmem ▸ howned.mem_seqIds htable)
  | abortSeqGroup requestIds hcall =>
    unfold Scheduler.abortSeqGroup at hcall
    obtain ⟨m, hfree, rfl⟩ := Option.map_eq_some_iff.mp hcall
    rw [foldlM_freeUnfinished] at hfree
    obtain ⟨-, -, hlookup⟩ := freeSeqs_spec howned.inv hfree
    refine (Requests.Apart.of_lookup h fun id table htable => ?_).of_ids (.of_subset fun g hg => ?_)
    · exact (Option.ite_none_left_eq_some.mp ((hlookup id).symm.trans htable)).2
    · exact (((takeAborted_sublist _ _).append (takeAborted_sublist _ _)).append
        (takeAborted_sublist _ _)).subset hg
  | schedule hcall => exact (schedule_stepped hwindow hdynamic howned h hmeets hcall).1.apart
  | @group before after g g' m' hrunning hgroup =>
    have hfront : ∀ g, (s.waiting ++ (before ++ g :: after) ++ s.swapped).Perm
        (g :: (s.waiting ++ (before ++ after) ++ s.swapped)) := fun g => by
      refine ((List.perm_middle.append_left s.waiting).append_right s.swapped).trans ?_
      exact Owned.perm_running g s.waiting (before ++ after) s.swapped
    have hperm : s.groups.Perm (g :: (s.waiting ++ (before ++ after) ++ s.swapped)) := by
      rw [Scheduler.groups, hrunning]
      exact hfront g
    have hapart := Requests.Apart.of_ids h (.of_subset fun g' hg' => hperm.mem_iff.mpr hg')
    have hids := (seqIds_perm hperm).nodup_iff.mp howned.ids_nodup
    refine (hapart.groupStep hids (fun id hid => (seqIds_perm hperm).mem_iff.mpr hid)
      (fun id hid => howned.mem_seqIds hid) (fun hcall => (Owned.lookup_of_free howned hcall).2)
      hgroup).of_ids (.of_subset fun g₁ hg₁ => (hfront g').mem_iff.mp hg₁)
  | freeFinishedSeqGroups =>
    refine Requests.Apart.of_ids h (.of_subset fun g hg => ?_)
    exact (((List.Sublist.refl _).append List.filter_sublist).append (.refl _)).subset hg

/-- Every state of a run. -/
theorem Reach.apart (hwindow : cfg.blocks.blockSlidingWindow = none)
    (hdynamic : cfg.dynamicIncreaseOncardWeights = false) (h : Reach cfg (Meets cfg) s) :
    s.Apart := by
  induction h with
  | init _ =>
    have hnone : ∀ (id : Nat) (table : BlockTable),
        ¬ ([] : List (Nat × BlockTable)).lookup id = some table :=
      fun _ _ htable => by cases htable
    exact ⟨fun id table htable => absurd htable (hnone id table),
      fun id _ table _ _ htable => absurd htable (hnone id table)⟩
  | step hreach hmeets hstep ih =>
    exact ih.step hwindow hdynamic (hreach.owned hwindow) hmeets hstep

end Runs

/-! ## What a step keeps -/

section Kept

variable {s s' : Scheduler} {outputs : SchedulerOutputs} {β : Type}

/-- A table holds what it held, and perhaps more. -/
theorem Stepped.contents (h : Stepped cfg s s' outputs) {copies : List (Block × Block)}
    (hcopies : (copyMoves outputs.blocksToCopy).Perm copies) (cache : Block → β) {id : Nat}
    {table table' : BlockTable} (htable : s.manager.blockTables.lookup id = some table)
    (htable' : s'.manager.blockTables.lookup id = some table') :
    table.map cache <+: table'.map (cacheSwap outputs copies cache) := by
  cases h with
  | prompt h hs _ _ hmoves =>
    subst hs
    obtain rfl := Option.some.inj ((h.old id table htable).symm.trans htable')
    obtain ⟨hin, hout, hcopy⟩ := hmoves
    rw [hcopy] at hcopies
    obtain rfl : copies = [] := List.nil_perm.mp hcopies
    rw [cacheSwap, hin, hout]
    exact List.prefix_refl _
  | @decode src dst st h hs _ _ hmoves =>
    obtain ⟨hin, hout, hcopy⟩ := hmoves
    rw [hcopy] at hcopies
    have hcache := cacheSwap_eq hin hout h.moved.copies.independent hcopies cache
    have heq : table'.map (cacheSwap outputs copies cache) = (table'.map st.origin).map cache := by
      rw [List.map_map]
      exact List.map_congr_left fun b _ => hcache b
    rw [hs] at htable'
    rw [heq]
    refine List.IsPrefix.map cache ?_
    by_cases hdone : id ∈ (runningSeqs s'.running).map Sequence.seqId
    · obtain ⟨q, hq, rfl⟩ := List.mem_map.mp hdone
      obtain ⟨old, new, hold, hnew, hslot⟩ := h.moved.slots q hq
      obtain rfl := Option.some.inj (hold.symm.trans htable)
      obtain rfl := Option.some.inj (hnew.symm.trans htable')
      exact hslot.starts
    · have hsame := h.moved.same id table' htable' hdone
      obtain rfl := Option.some.inj (hsame.symm.trans htable)
      exact List.prefix_refl _

/-- A table goes only with a group that waits again. -/
theorem Stepped.kept (h : Stepped cfg s s' outputs) {id : Nat}
    (hid : s.manager.blockTables.lookup id ≠ none) :
    s'.manager.blockTables.lookup id ≠ none ∨ id ∈ seqIds s'.waiting := by
  cases h with
  | prompt h hs _ _ _ =>
    obtain ⟨table, htable⟩ := Option.ne_none_iff_exists'.mp hid
    subst hs
    rw [h.old id table htable]
    exact .inl (Option.some_ne_none table)
  | decode h hs _ _ _ =>
    rw [hs]
    exact h.moved.kept id hid

/-- The last block of a scheduled sequence is in its table only. -/
theorem Stepped.own (h : Stepped cfg s s' outputs) (hprompt : outputs.promptRun = false)
    {q : Sequence} (hq : q ∈ runningSeqs outputs.scheduledSeqGroups) :
    ∃ table b, s'.manager.blockTables.lookup q.seqId = some table ∧ table.getLast? = some b ∧
      s'.manager.Exclusive q.seqId b := by
  cases h with
  | prompt _ _ _ hprompt' _ => cases hprompt.symm.trans hprompt'
  | decode h hs hscheduled _ _ =>
    rw [hscheduled, mem_runningSeqs_sortByRequestId] at hq
    obtain ⟨old, new, -, hnew, hslot⟩ := h.moved.slots q hq
    obtain ⟨b, hlast, hex⟩ := hslot.last
    rw [hs]
    exact ⟨new, b, hnew, hlast, hex⟩

/-- In every step of every run the cache operations, in whatever order the copies are made, keep the
contents of the tables: what a table held it still holds, a table goes only with a group that waits
again, and the block that a sequence writes next is in no other table. -/
theorem schedule_keepsContents (hwindow : cfg.blocks.blockSlidingWindow = none)
    (hdynamic : cfg.dynamicIncreaseOncardWeights = false) (hreach : Reach cfg (Meets cfg) s)
    (hmeets : Meets cfg s) {tables : List (Nat × List Nat)}
    (hcall : s.schedule cfg = some (tables, outputs, s')) {copies : List (Block × Block)}
    (hcopies : (copyMoves outputs.blocksToCopy).Perm copies) (cache : Block → β) :
    (∀ (id : Nat) (table : BlockTable), s.manager.blockTables.lookup id = some table →
      (∃ table', s'.manager.blockTables.lookup id = some table' ∧
        table.map cache <+: table'.map (cacheSwap outputs copies cache)) ∨
      s'.manager.blockTables.lookup id = none ∧ id ∈ seqIds s'.waiting) ∧
    (outputs.promptRun = false → ∀ g ∈ outputs.scheduledSeqGroups, ∀ q ∈ g.getSeqs .running,
      ∃ table b, s'.manager.blockTables.lookup q.seqId = some table ∧ table.getLast? = some b ∧
        ∀ (id : Nat) (other : BlockTable), s'.manager.blockTables.lookup id = some other →
          b ∈ other → id = q.seqId) := by
  obtain ⟨hstepped, -⟩ := schedule_stepped hwindow hdynamic (hreach.owned hwindow)
    (hreach.apart hwindow hdynamic) hmeets hcall
  refine ⟨fun id table htable => ?_, fun hprompt g hg q hq => ?_⟩
  · cases htable' : s'.manager.blockTables.lookup id with
    | some table' => exact .inl ⟨table', rfl, hstepped.contents hcopies cache htable htable'⟩
    | none =>
      refine .inr ⟨rfl, (hstepped.kept ?_).resolve_left (not_not.mpr htable')⟩
      rw [htable]
      exact Option.some_ne_none table
  · exact hstepped.own hprompt (mem_runningSeqs.mpr ⟨g, hg, hq⟩)

end Kept

/-! ## A forked sequence -/

section Fork

/-- Two sequences for each request, and no weights that take blocks. -/
def forkConfig : Config := ⟨2048, 256, 2048, 256, false, 4, fun i => i, fun i => [i],
  ⟨16, 4, 4, 0, none, 2⟩⟩

def forkRequest : SequenceGroup := ⟨0, [⟨0, .waiting, 10⟩], 2, false, none⟩

def waitingFork : Scheduler := { Scheduler.init forkConfig 0 with waiting := [forkRequest] }

def promptRun : List (Nat × List Nat) × SchedulerOutputs × Scheduler :=
  (waitingFork.schedule forkConfig).get (by decide +kernel)

/-- The prompt has run. -/
def promptFork : Scheduler := promptRun.2.2

/-- The sequence is forked, so both have the one block. -/
def forkedState : Scheduler :=
  { promptFork with
    manager := (promptFork.manager.fork 0 1).get (by decide +kernel)
    running := [⟨0, [⟨0, .running, 10⟩, ⟨1, .running, 10⟩], 2, false, none⟩] }

def decodeRun : List (Nat × List Nat) × SchedulerOutputs × Scheduler :=
  (forkedState.schedule forkConfig).get (by decide +kernel)

def forkOutputs : SchedulerOutputs := decodeRun.2.1

def copiedState : Scheduler := decodeRun.2.2

theorem reach_forkedState : Reach forkConfig (Meets forkConfig) forkedState := by
  have hwaiting : Reach forkConfig (Meets forkConfig) waitingFork := by
    refine .step (.init (show (-2 : Int) ≤ 0 by decide))
      (meets_of (by decide) (by decide))
      (.addSeqGroup ⟨⟨_, rfl, rfl, ?_⟩, rfl, by decide, by decide⟩)
    decide
  have hcall : waitingFork.schedule forkConfig = some promptRun := (Option.some_get _).symm
  have hprompt : Reach forkConfig (Meets forkConfig) promptFork :=
    .step hwaiting (meets_of (by decide) (by decide)) (.schedule hcall)
  refine .step hprompt (meets_of (by decide) (by decide)) ?_
  have hparent : (⟨0, .running, 10⟩ : Sequence) ∈
      SequenceGroup.getSeqs ⟨0, [⟨0, .running, 10⟩], 2, false, none⟩ .running :=
    List.mem_singleton.mpr rfl
  have hnew : 1 ∉ promptFork.seqIds := by decide
  have hrunning : promptFork.running = [] ++ ⟨0, [⟨0, .running, 10⟩], 2, false, none⟩ :: [] := by
    decide
  exact .group hrunning (.fork hparent hnew (Option.some_get _).symm)

/-- The block that both sequences have is copied before the next token, and each still has the
contents. -/
theorem schedule_keepsContents_forked :
    forkOutputs.blocksToCopy = [(0, [1])] ∧
      ∀ id < 2, ∃ table, copiedState.manager.blockTables.lookup id = some table ∧
        [0] <+: table.map (cacheSwap forkOutputs (copyMoves forkOutputs.blocksToCopy)
          Block.number) := by
  refine ⟨by decide, fun id hid => ?_⟩
  have hold : forkedState.manager.blockTables.lookup id = some [⟨.gpu, 0⟩] := by
    revert id
    decide
  have hnone : copiedState.manager.blockTables.lookup id ≠ none := by
    revert id
    decide
  have hcall : forkedState.schedule forkConfig = some decodeRun := (Option.some_get _).symm
  have hkept := (schedule_keepsContents rfl rfl reach_forkedState
    (meets_of (by decide) (by decide)) hcall (List.Perm.refl _) Block.number).1 id _
      hold
  exact hkept.resolve_right fun h => hnone h.1

end Fork

end Mil.Requests
