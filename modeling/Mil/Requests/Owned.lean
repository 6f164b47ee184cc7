import Mathlib.Data.List.Flatten
import Mil.Blocks.Tables
import Mil.Requests.Scheduler

/-!
# Who owns the block tables

Between two changes of the queues every block table belongs to an unfinished sequence of a running
group, with all its blocks on the GPU, or of a swapped group, with all its blocks on the CPU
(`Owned`). Each way in which a group moves from one queue to another is one lemma here. They are
stated with the group at the head of its queue; the order in the queues does not matter
(`Owned.perm`).
-/

set_option autoImplicit false

namespace Mil.Requests

open Mil.Lib Mil.Blocks Mil.Blocks.BlockManager

variable {cfg : Config} {m m' : BlockManager} {g : SequenceGroup}
  {waiting running swapped : List SequenceGroup}

/-! ## Groups -/

@[simp] theorem seqIds_cons (g : SequenceGroup) (gs : List SequenceGroup) :
    seqIds (g :: gs) = g.seqs.map Sequence.seqId ++ seqIds gs := List.flatMap_cons

@[simp] theorem seqIds_append (gs gs' : List SequenceGroup) :
    seqIds (gs ++ gs') = seqIds gs ++ seqIds gs' := List.flatMap_append

theorem seqIds_perm {gs gs' : List SequenceGroup} (h : gs.Perm gs') :
    (seqIds gs).Perm (seqIds gs') := h.flatMap_right _

theorem mem_seqIds {gs : List SequenceGroup} {id : Nat} :
    id ∈ seqIds gs ↔ ∃ g ∈ gs, ∃ q ∈ g.seqs, q.seqId = id := by
  simp [seqIds]

/-- A group of a queue: the sequences that are not finished have the status of the queue, and the
sampling parameters fit the limits. -/
structure InState (cfg : Config) (status : SequenceStatus) (g : SequenceGroup) : Prop where
  pre_eq : g.pre = none
  best_of_pos : 0 < g.bestOf
  best_of_le : g.bestOf ≤ cfg.maxNumSeqs
  status_eq : ∀ q ∈ g.seqs, q.status = status ∨ q.status.isFinished = true

@[simp] theorem map_seqId_setStatus (old new : SequenceStatus) (g : SequenceGroup) :
    (setStatus old new g).seqs.map Sequence.seqId = g.seqs.map Sequence.seqId := by
  rw [setStatus, List.map_map]
  apply List.map_congr_left
  intro q _
  show (if q.status = old then ({ q with status := new } : Sequence) else q).seqId = q.seqId
  split <;> rfl

theorem mem_setStatus {old new : SequenceStatus} {q : Sequence}
    (h : q ∈ g.seqs) (hq : q.status = old) :
    { q with status := new } ∈ (setStatus old new g).seqs :=
  List.mem_map.mpr ⟨q, h, if_pos hq⟩

theorem InState.setStatus {old : SequenceStatus} (h : InState cfg old g) (new : SequenceStatus) :
    InState cfg new (setStatus old new g) := by
  refine ⟨h.pre_eq, h.best_of_pos, h.best_of_le, ?_⟩
  intro q hq
  obtain ⟨q', hq', rfl⟩ := List.mem_map.mp hq
  by_cases hold : q'.status = old
  · rw [if_pos hold]
    exact .inl rfl
  · rw [if_neg hold]
    exact .inr ((h.status_eq q' hq').resolve_left hold)

/-- A sequence of some group with the id and the status. -/
def Holds (seqGroups : List SequenceGroup) (status : SequenceStatus) (id : Nat) : Prop :=
  ∃ g ∈ seqGroups, ∃ q ∈ g.getSeqs status, q.seqId = id

theorem mem_getSeqs {status : SequenceStatus} {q : Sequence} :
    q ∈ g.getSeqs status ↔ q ∈ g.seqs ∧ q.status = status := by
  simp [SequenceGroup.getSeqs]

theorem holds_cons {status : SequenceStatus} {gs : List SequenceGroup} {id : Nat} :
    Holds (g :: gs) status id ↔ (∃ q ∈ g.getSeqs status, q.seqId = id) ∨ Holds gs status id := by
  simp [Holds]

theorem Holds.mem_seqIds {status : SequenceStatus} {gs : List SequenceGroup} {id : Nat}
    (h : Holds gs status id) : id ∈ seqIds gs := by
  obtain ⟨g, hg, q, hq, hid⟩ := h
  exact Requests.mem_seqIds.mpr ⟨g, hg, q, (mem_getSeqs.mp hq).1, hid⟩

theorem Holds.perm {status : SequenceStatus} {gs gs' : List SequenceGroup} {id : Nat}
    (h : Holds gs status id) (hperm : gs.Perm gs') : Holds gs' status id := by
  obtain ⟨g, hg, hrest⟩ := h
  exact ⟨g, hperm.mem_iff.mp hg, hrest⟩

/-- All sequences of the old status, and no others, have the new one. -/
theorem getSeqs_setStatus {old new : SequenceStatus} (h : InState cfg old g) (hne : new ≠ old)
    (hnew : new.isFinished = false) :
    (setStatus old new g).getSeqs new = (g.getSeqs old).map fun q => { q with status := new } := by
  have hother : ∀ q ∈ g.seqs, q.status ≠ new := by
    intro q hq heq
    rcases h.status_eq q hq with hold | hfin
    · exact hne (heq.symm.trans hold)
    · rw [heq, hnew] at hfin
      cases hfin
  show (g.seqs.map fun q => if q.status = old then { q with status := new } else q).filter
    (fun q => q.status = new) = (g.seqs.filter fun q => q.status = old).map _
  generalize g.seqs = qs at hother
  induction qs with
  | nil => rfl
  | cons q qs ih =>
    have ih := ih fun q' hq' => hother q' (.tail _ hq')
    have hq := hother q (.head _)
    rw [List.map_cons]
    by_cases hold : q.status = old
    · rw [if_pos hold, List.filter_cons_of_pos (by simp), List.filter_cons_of_pos (by simp [hold]),
        List.map_cons, ih]
    · rw [if_neg hold, List.filter_cons_of_neg (by simp [hq]),
        List.filter_cons_of_neg (by simp [hold]), ih]

/-- A sequence that changes its status with its group is still held. -/
theorem holds_setStatus {old new : SequenceStatus} {gs : List SequenceGroup} {id : Nat}
    (h : ∃ q ∈ g.getSeqs old, q.seqId = id) : Holds (setStatus old new g :: gs) new id := by
  obtain ⟨q, hq, rfl⟩ := h
  obtain ⟨hmem, hstatus⟩ := mem_getSeqs.mp hq
  exact holds_cons.mpr (.inl ⟨_, mem_getSeqs.mpr ⟨mem_setStatus hmem hstatus, rfl⟩, rfl⟩)

/-! ## The invariant -/

/-- The counts of the manager are right, ids are unique, the queues hold what they should, and
every table has an owner on its device. -/
structure Owned (cfg : Config) (m : BlockManager) (waiting running swapped : List SequenceGroup) :
    Prop where
  inv : m.Inv cfg.blocks
  cached : -2 ≤ m.cachedLayerNum
  ids_nodup : (seqIds (waiting ++ running ++ swapped)).Nodup
  of_waiting : ∀ g ∈ waiting, InState cfg .waiting g ∧ (g.getSeqs .waiting).length = 1
  of_running : ∀ g ∈ running, InState cfg .running g
  of_swapped : ∀ g ∈ swapped, InState cfg .swapped g
  tables : ∀ (id : Nat) (table : BlockTable), m.blockTables.lookup id = some table →
    (Holds running .running id ∧ ∀ b ∈ table, b.device = .gpu) ∨
      (Holds swapped .swapped id ∧ ∀ b ∈ table, b.device = .cpu)

namespace Owned

theorem perm {waiting' running' swapped' : List SequenceGroup}
    (h : Owned cfg m waiting running swapped) (hw : waiting.Perm waiting')
    (hr : running.Perm running') (hs : swapped.Perm swapped') :
    Owned cfg m waiting' running' swapped' where
  inv := h.inv
  cached := h.cached
  ids_nodup := (seqIds_perm ((hw.append hr).append hs)).nodup_iff.mp h.ids_nodup
  of_waiting g hg := h.of_waiting g (hw.mem_iff.mpr hg)
  of_running g hg := h.of_running g (hr.mem_iff.mpr hg)
  of_swapped g hg := h.of_swapped g (hs.mem_iff.mpr hg)
  tables id table htable := (h.tables id table htable).imp
    (fun hheld => ⟨hheld.1.perm hr, hheld.2⟩) fun hheld => ⟨hheld.1.perm hs, hheld.2⟩

/-- The first waiting group is in front. -/
theorem perm_waiting (g : SequenceGroup) (waiting running swapped : List SequenceGroup) :
    (g :: waiting ++ running ++ swapped).Perm (g :: (waiting ++ running ++ swapped)) := .refl _

/-- The groups with the first running one in front. -/
theorem perm_running (g : SequenceGroup) (waiting running swapped : List SequenceGroup) :
    (waiting ++ g :: running ++ swapped).Perm (g :: (waiting ++ running ++ swapped)) := by
  simp [List.perm_middle]

/-- The groups with the first swapped one in front. -/
theorem perm_swapped (g : SequenceGroup) (waiting running swapped : List SequenceGroup) :
    (waiting ++ running ++ g :: swapped).Perm (g :: (waiting ++ running ++ swapped)) :=
  List.perm_middle

/-- A group whose ids stay may stand in any queue. -/
theorem nodup_of_perm {gs gs' rest : List SequenceGroup} {g g' : SequenceGroup}
    (h : (seqIds gs).Nodup) (hold : gs.Perm (g :: rest)) (hnew : gs'.Perm (g' :: rest))
    (hids : g'.seqs.map Sequence.seqId = g.seqs.map Sequence.seqId) : (seqIds gs').Nodup := by
  rw [(seqIds_perm hold).nodup_iff, seqIds_cons] at h
  rw [(seqIds_perm hnew).nodup_iff, seqIds_cons, hids]
  exact h

/-- The ids of a group are in no other group. -/
theorem not_mem_rest {gs rest : List SequenceGroup} {g : SequenceGroup} (h : (seqIds gs).Nodup)
    (hold : gs.Perm (g :: rest)) {q : Sequence} (hq : q ∈ g.seqs) : q.seqId ∉ seqIds rest := by
  rw [(seqIds_perm hold).nodup_iff, seqIds_cons] at h
  intro hmem
  exact (List.nodup_append.mp h).2.2 _ (List.mem_map_of_mem hq) _ hmem rfl

theorem ids_nodup_group {gs rest : List SequenceGroup} {g : SequenceGroup} (h : (seqIds gs).Nodup)
    (hold : gs.Perm (g :: rest)) : (g.seqs.map Sequence.seqId).Nodup := by
  rw [(seqIds_perm hold).nodup_iff, seqIds_cons] at h
  exact (List.nodup_append.mp h).1

/-- What waits has no table. -/
theorem lookup_waiting (h : Owned cfg m (g :: waiting) running swapped) {q : Sequence}
    (hq : q ∈ g.seqs) : m.blockTables.lookup q.seqId = none := by
  have hrest := not_mem_rest h.ids_nodup (perm_waiting g waiting running swapped) hq
  cases hlook : m.blockTables.lookup q.seqId with
  | none => rfl
  | some table =>
    exfalso
    apply hrest
    rw [seqIds_append, seqIds_append]
    rcases h.tables _ _ hlook with ⟨hheld, -⟩ | ⟨hheld, -⟩
    · exact List.mem_append_left _ (List.mem_append_right _ hheld.mem_seqIds)
    · exact List.mem_append_right _ hheld.mem_seqIds

/-- The tables of a running group are on the GPU. -/
theorem running_gpu (h : Owned cfg m waiting (g :: running) swapped) {q : Sequence}
    (hq : q ∈ g.seqs) {table : BlockTable} (htable : m.blockTables.lookup q.seqId = some table) :
    ∀ b ∈ table, b.device = .gpu := by
  have hrest := not_mem_rest h.ids_nodup (perm_running g waiting running swapped) hq
  rcases h.tables _ _ htable with ⟨-, hgpu⟩ | ⟨hheld, -⟩
  · exact hgpu
  · rw [seqIds_append] at hrest
    exact absurd (List.mem_append_right _ hheld.mem_seqIds) hrest

/-- The tables of a swapped group are on the CPU. -/
theorem swapped_cpu (h : Owned cfg m waiting running (g :: swapped)) {q : Sequence}
    (hq : q ∈ g.seqs) {table : BlockTable} (htable : m.blockTables.lookup q.seqId = some table) :
    ∀ b ∈ table, b.device = .cpu := by
  have hrest := not_mem_rest h.ids_nodup (perm_swapped g waiting running swapped) hq
  rcases h.tables _ _ htable with ⟨hheld, -⟩ | ⟨-, hcpu⟩
  · rw [seqIds_append, seqIds_append] at hrest
    exact absurd (List.mem_append_left _ (List.mem_append_right _ hheld.mem_seqIds)) hrest
  · exact hcpu

/-- Groups leave the queues, and the tables of their sequences with them. -/
theorem drop {waiting' running' swapped' : List SequenceGroup}
    (h : Owned cfg m waiting running swapped) (hw : waiting'.Sublist waiting)
    (hr : running'.Sublist running) (hs : swapped'.Sublist swapped) (hinv : m'.Inv cfg.blocks)
    (hcached : m'.cachedLayerNum = m.cachedLayerNum)
    (htables : ∀ (id : Nat) (table : BlockTable), m'.blockTables.lookup id = some table →
      m.blockTables.lookup id = some table ∧
        (Holds running .running id → Holds running' .running id) ∧
        (Holds swapped .swapped id → Holds swapped' .swapped id)) :
    Owned cfg m' waiting' running' swapped' where
  inv := hinv
  cached := hcached ▸ h.cached
  ids_nodup := h.ids_nodup.sublist (((hw.append hr).append hs).flatMap _)
  of_waiting g hg := h.of_waiting g (hw.subset hg)
  of_running g hg := h.of_running g (hr.subset hg)
  of_swapped g hg := h.of_swapped g (hs.subset hg)
  tables id table htable := by
    obtain ⟨hold, hrunning, hswapped⟩ := htables id table htable
    exact (h.tables id table hold).imp (fun hheld => ⟨hrunning hheld.1, hheld.2⟩)
      fun hheld => ⟨hswapped hheld.1, hheld.2⟩

/-- A group that waits may leave the queue. -/
theorem dropWaiting (h : Owned cfg m (g :: waiting) running swapped) :
    Owned cfg m waiting running swapped :=
  h.drop (List.sublist_cons_self _ _) (.refl _) (.refl _) h.inv rfl
    fun _ _ htable => ⟨htable, id, id⟩

/-! ## Moves between the queues -/

/-- A prompt of one sequence is admitted. -/
theorem allocate (h : Owned cfg m (g :: waiting) running swapped)
    (hwindow : cfg.blocks.blockSlidingWindow = none) (hone : g.numSeqs = 1)
    (hcall : m.allocate cfg.blocks g = some m') :
    Owned cfg m' waiting (setStatus .waiting .running g :: running) swapped := by
  obtain ⟨hstate, hlength⟩ := h.of_waiting g List.mem_cons_self
  have hall : g.getSeqs .waiting = g.seqs := List.filter_sublist.eq_of_length (by
    show (g.getSeqs .waiting).length = g.seqs.length
    rw [hlength]
    exact hone.symm)
  have hnew : NewPrompt cfg.blocks m g :=
    { no_prefix := hstate.pre_eq
      waiting := fun q hq => (mem_getSeqs.mp (hall.symm ▸ hq)).2
      ids_nodup := ids_nodup_group h.ids_nodup (perm_waiting g waiting running swapped)
      new := fun q hq => h.lookup_waiting hq
      window := fun q _ w hw => nomatch hwindow.symm.trans hw }
  obtain ⟨table, hgpu, -, hlookup⟩ := allocate_tables hwindow h.inv hstate.pre_eq hcall
  refine ⟨h.inv.allocate hnew hcall,
    (allocate_cached hwindow hstate.pre_eq hcall).symm ▸ h.cached, ?_,
    fun g' hg' => h.of_waiting g' (.tail _ hg'), ?_,
    h.of_swapped, ?_⟩
  · exact nodup_of_perm h.ids_nodup (perm_waiting g waiting running swapped)
      (perm_running _ _ _ _) (map_seqId_setStatus _ _ _)
  · intro g' hg'
    rcases List.mem_cons.mp hg' with rfl | hg'
    · exact hstate.setStatus _
    · exact h.of_running g' hg'
  · intro id table' htable'
    rw [hlookup] at htable'
    split at htable'
    case isTrue hid =>
      obtain ⟨q, hq, rfl⟩ := List.mem_map.mp hid
      rw [← Option.some.inj htable']
      exact .inl ⟨holds_setStatus ⟨q, hq, rfl⟩, hgpu⟩
    case isFalse =>
      exact (h.tables id table' htable').imp_left fun hheld =>
        ⟨holds_cons.mpr (.inr hheld.1), hheld.2⟩

/-- A running group gives up its only running sequence's blocks and waits again. -/
theorem preemptByRecompute (h : Owned cfg m waiting (g :: running) swapped) {q : Sequence}
    (hq : g.getSeqs .running = [q]) (hcall : m.free q.seqId = some m') :
    Owned cfg m' (setStatus .running .waiting g :: waiting) running swapped := by
  have hstate := h.of_running g List.mem_cons_self
  obtain ⟨m₁, hfree, hinv, htables, -⟩ := h.inv.free q.seqId
  obtain rfl := Option.some.inj (hfree.symm.trans hcall)
  refine ⟨hinv, (free_cached hcall).symm ▸ h.cached, ?_, ?_,
    fun g' hg' => h.of_running g' (.tail _ hg'), h.of_swapped, ?_⟩
  · exact nodup_of_perm h.ids_nodup (perm_running g waiting running swapped)
      (perm_waiting _ _ _ _) (map_seqId_setStatus _ _ _)
  · intro g' hg'
    rcases List.mem_cons.mp hg' with rfl | hg'
    · refine ⟨hstate.setStatus _, ?_⟩
      rw [getSeqs_setStatus hstate (by decide) (by decide), hq]
      rfl
    · exact h.of_waiting g' hg'
  · intro id table htable
    rw [htables, Dict.lookup_erase h.inv.keys_nodup] at htable
    split at htable
    · cases htable
    case isFalse hne =>
      refine (h.tables id table htable).imp_left fun hheld => ⟨?_, hheld.2⟩
      refine (holds_cons.mp hheld.1).resolve_left ?_
      rintro ⟨q', hq', rfl⟩
      rw [hq, List.mem_singleton] at hq'
      exact hne (by rw [hq'])

/-- The blocks of a running group go to the CPU. -/
theorem swapOut (h : Owned cfg m waiting (g :: running) swapped) {mapping : List (Nat × Nat)}
    (hcall : BlockManager.swapOut m g = some (mapping, m')) :
    Owned cfg m' waiting running (setStatus .running .swapped g :: swapped) := by
  have hstate := h.of_running g List.mem_cons_self
  have hperm := perm_running g waiting running swapped
  have hg : Swappable m g .running .gpu :=
    ⟨hstate.pre_eq, ids_nodup_group h.ids_nodup hperm,
      fun q hq table htable => h.running_gpu (mem_getSeqs.mp hq).1 htable⟩
  obtain ⟨dict, -, hinv, hswapped⟩ := h.inv.swapOut hg hcall
  refine ⟨hinv, (swapOut_cached hstate.pre_eq hcall).symm ▸ h.cached, ?_, h.of_waiting,
    fun g' hg' => h.of_running g' (.tail _ hg'), ?_, ?_⟩
  · exact nodup_of_perm h.ids_nodup hperm (perm_swapped _ _ _ _) (map_seqId_setStatus _ _ _)
  · intro g' hg'
    rcases List.mem_cons.mp hg' with rfl | hg'
    · exact hstate.setStatus _
    · exact h.of_swapped g' hg'
  · intro id table htable
    by_cases hmine : ∃ q ∈ g.getSeqs .running, q.seqId = id
    · obtain ⟨q, hq, rfl⟩ := hmine
      obtain ⟨-, new, -, hnew, hcpu, -⟩ := hswapped.tables q hq
      obtain rfl := Option.some.inj (hnew.symm.trans htable)
      exact .inr ⟨holds_setStatus ⟨q, hq, rfl⟩, hcpu⟩
    · rw [hswapped.others id fun q hq heq => hmine ⟨q, hq, heq⟩] at htable
      refine (h.tables id table htable).imp (fun hheld => ⟨?_, hheld.2⟩)
        fun hheld => ⟨holds_cons.mpr (.inr hheld.1), hheld.2⟩
      exact (holds_cons.mp hheld.1).resolve_left hmine

/-- The blocks of a swapped group come back. -/
theorem swapIn (h : Owned cfg m waiting running (g :: swapped)) {mapping : List (Nat × Nat)}
    (hcall : BlockManager.swapIn m g = some (mapping, m')) :
    Owned cfg m' waiting (setStatus .swapped .running g :: running) swapped := by
  have hstate := h.of_swapped g List.mem_cons_self
  have hperm := perm_swapped g waiting running swapped
  have hg : Swappable m g .swapped .cpu :=
    ⟨hstate.pre_eq, ids_nodup_group h.ids_nodup hperm,
      fun q hq table htable => h.swapped_cpu (mem_getSeqs.mp hq).1 htable⟩
  obtain ⟨dict, -, hinv, hswapped⟩ := h.inv.swapIn hg hcall
  refine ⟨hinv, (swapIn_cached hstate.pre_eq hcall).symm ▸ h.cached, ?_, h.of_waiting, ?_,
    fun g' hg' => h.of_swapped g' (.tail _ hg'), ?_⟩
  · exact nodup_of_perm h.ids_nodup hperm (perm_running _ _ _ _) (map_seqId_setStatus _ _ _)
  · intro g' hg'
    rcases List.mem_cons.mp hg' with rfl | hg'
    · exact hstate.setStatus _
    · exact h.of_running g' hg'
  · intro id table htable
    by_cases hmine : ∃ q ∈ g.getSeqs .swapped, q.seqId = id
    · obtain ⟨q, hq, rfl⟩ := hmine
      obtain ⟨-, new, -, hnew, hgpu, -⟩ := hswapped.tables q hq
      obtain rfl := Option.some.inj (hnew.symm.trans htable)
      exact .inl ⟨holds_setStatus ⟨q, hq, rfl⟩, hgpu⟩
    · rw [hswapped.others id fun q hq heq => hmine ⟨q, hq, heq⟩] at htable
      refine (h.tables id table htable).imp
        (fun hheld => ⟨holds_cons.mpr (.inr hheld.1), hheld.2⟩) fun hheld => ⟨?_, hheld.2⟩
      exact (holds_cons.mp hheld.1).resolve_left hmine

/-- A running sequence gets a slot. -/
theorem appendSlot (h : Owned cfg m waiting (g :: running) swapped)
    (hwindow : cfg.blocks.blockSlidingWindow = none) {q : Sequence} (hq : q ∈ g.getSeqs .running)
    {ret : Option (Nat × Nat)} (hcall : m.appendSlot cfg.blocks q = some (ret, m')) :
    Owned cfg m' waiting (g :: running) swapped := by
  obtain ⟨old, new, hold, hnew, hlookup⟩ := appendSlot_tables hwindow h.inv hcall
  refine ⟨h.inv.appendSlot (noWrap hwindow q) hcall,
    (appendSlot_cached hwindow hcall).symm ▸ h.cached, h.ids_nodup, h.of_waiting, h.of_running,
    h.of_swapped, ?_⟩
  intro id table htable
  rw [hlookup] at htable
  split at htable
  case isTrue hid =>
    rw [← Option.some.inj htable, hid]
    refine .inl ⟨holds_cons.mpr (.inl ⟨q, hq, rfl⟩), fun b hb => ?_⟩
    rcases hnew b hb with hin | hgpu
    · exact h.running_gpu (mem_getSeqs.mp hq).1 hold b hin
    · exact hgpu
  case isFalse => exact h.tables id table htable

/-- Blocks are retired, none of them shared. -/
theorem reorganize (h : Owned cfg m waiting running swapped) {n : Nat}
    {mapping : List (Int × Int)}
    (hfree : cfg.blocks.blkNumPerLayer * n ≤ m.getNumFreeBlocks .gpu)
    (hmovable : Movable cfg.blocks m n) (hcached : (n : Int) ≤ m.cachedLayerNum + 2)
    (hcall : m.reorganizeGpuBlocks cfg.blocks n = some (mapping, m')) :
    Owned cfg m' waiting running swapped where
  inv := (reorganized_of_eq_some hcall).inv h.inv (h.inv.releaseRngStart_nonneg hfree) hmovable
  cached := by
    rw [reorganize_cached hcall]
    omega
  ids_nodup := h.ids_nodup
  of_waiting := h.of_waiting
  of_running := h.of_running
  of_swapped := h.of_swapped
  tables id table htable := by
    obtain ⟨old, hold, hdevice⟩ := reorganize_tables h.inv hmovable hcall htable
    exact (h.tables id old hold).imp (fun hheld => ⟨hheld.1, hdevice _ hheld.2⟩)
      fun hheld => ⟨hheld.1, hdevice _ hheld.2⟩

/-! ## What the engine does -/

/-- A table belongs to a sequence of a queue. -/
theorem mem_seqIds_of_lookup (h : Owned cfg m waiting running swapped) {id : Nat}
    {table : BlockTable} (htable : m.blockTables.lookup id = some table) :
    id ∈ seqIds (waiting ++ running ++ swapped) := by
  rw [seqIds_append, seqIds_append]
  rcases h.tables id table htable with ⟨hheld, -⟩ | ⟨hheld, -⟩
  · exact List.mem_append_left _ (List.mem_append_right _ hheld.mem_seqIds)
  · exact List.mem_append_right _ hheld.mem_seqIds

/-- A running group is exchanged for another one; the manager may change with it. What is asked of
the ids, the statuses and the tables is that of `Owned`. -/
theorem setGroup {g' : SequenceGroup} (h : Owned cfg m waiting (g :: running) swapped)
    (hinv : m'.Inv cfg.blocks) (hcached : m'.cachedLayerNum = m.cachedLayerNum)
    (hids : (seqIds (g' :: (waiting ++ running ++ swapped))).Nodup)
    (hstate : InState cfg .running g')
    (htables : ∀ (id : Nat) (table : BlockTable), m'.blockTables.lookup id = some table →
      (∃ q ∈ g'.getSeqs .running, q.seqId = id) ∧ (∀ b ∈ table, b.device = .gpu) ∨
        m.blockTables.lookup id = some table ∧ ∀ q ∈ g.getSeqs .running, q.seqId ≠ id) :
    Owned cfg m' waiting (g' :: running) swapped where
  inv := hinv
  cached := hcached ▸ h.cached
  ids_nodup := (seqIds_perm (perm_running g' waiting running swapped)).nodup_iff.mpr hids
  of_waiting := h.of_waiting
  of_running g₁ hg₁ := by
    rcases List.mem_cons.mp hg₁ with rfl | hg₁
    · exact hstate
    · exact h.of_running g₁ (.tail _ hg₁)
  of_swapped := h.of_swapped
  tables id table htable := by
    rcases htables id table htable with ⟨hmine, hgpu⟩ | ⟨hold, hother⟩
    · exact .inl ⟨holds_cons.mpr (.inl hmine), hgpu⟩
    · refine (h.tables id table hold).imp_left fun hheld => ⟨holds_cons.mpr (.inr ?_), hheld.2⟩
      refine (holds_cons.mp hheld.1).resolve_left ?_
      rintro ⟨q, hq, hid⟩
      exact hother q hq hid

/-- No table changes but for those that go, and a running sequence with a table is kept. -/
theorem setGroup_of_kept {g' : SequenceGroup} (h : Owned cfg m waiting (g :: running) swapped)
    (hinv : m'.Inv cfg.blocks) (hcached : m'.cachedLayerNum = m.cachedLayerNum)
    (hids : (seqIds (g' :: (waiting ++ running ++ swapped))).Nodup)
    (hstate : InState cfg .running g')
    (hlookup : ∀ (id : Nat) (table : BlockTable), m'.blockTables.lookup id = some table →
      m.blockTables.lookup id = some table)
    (hkept : ∀ q ∈ g.getSeqs .running, m'.blockTables.lookup q.seqId ≠ none →
      ∃ q' ∈ g'.getSeqs .running, q'.seqId = q.seqId) :
    Owned cfg m' waiting (g' :: running) swapped := by
  refine h.setGroup hinv hcached hids hstate fun id table htable => ?_
  have hold := hlookup id table htable
  by_cases hmine : ∃ q ∈ g.getSeqs .running, q.seqId = id
  · obtain ⟨q, hq, rfl⟩ := hmine
    refine .inl ⟨hkept q hq (by simp [htable]), ?_⟩
    exact h.running_gpu (mem_getSeqs.mp hq).1 hold
  · exact .inr ⟨hold, fun q hq hid => hmine ⟨q, hq, hid⟩⟩

/-- The table of a freed sequence is the only one that goes. -/
theorem lookup_of_free (h : Owned cfg m waiting running swapped) {seqId : Nat}
    (hcall : m.free seqId = some m') :
    m'.Inv cfg.blocks ∧ ∀ id, m'.blockTables.lookup id =
      if id = seqId then none else m.blockTables.lookup id := by
  obtain ⟨m₁, hfree, hinv, htables, -⟩ := h.inv.free seqId
  obtain rfl := Option.some.inj (hfree.symm.trans hcall)
  refine ⟨hinv, fun id => ?_⟩
  rw [htables, Dict.lookup_erase h.inv.keys_nodup]

/-- One sequence of a running group is exchanged for `new`, which may be empty. -/
theorem replaceSeq (h : Owned cfg m waiting (g :: running) swapped) (new : List Sequence)
    {before after : List Sequence} {q : Sequence} (hseqs : g.seqs = before ++ q :: after)
    (hinv : m'.Inv cfg.blocks) (hcached : m'.cachedLayerNum = m.cachedLayerNum)
    (hids : (new.map Sequence.seqId).Sublist [q.seqId])
    (hnew : ∀ q' ∈ new, q'.status = .running ∨ q'.status.isFinished = true)
    (hlookup : ∀ (id : Nat) (table : BlockTable), m'.blockTables.lookup id = some table →
      m.blockTables.lookup id = some table)
    (hkept : q.status = .running → m'.blockTables.lookup q.seqId ≠ none →
      ∃ q' ∈ new, q'.status = .running ∧ q'.seqId = q.seqId) :
    Owned cfg m' waiting ({ g with seqs := before ++ (new ++ after) } :: running) swapped := by
  have hstate := h.of_running g List.mem_cons_self
  have hmem : ∀ q', q' ∈ before ++ (new ++ after) ↔ q' ∈ before ∨ q' ∈ new ∨ q' ∈ after :=
    fun q' => by rw [List.mem_append, List.mem_append]
  refine h.setGroup_of_kept hinv hcached ?_ ?_ hlookup ?_
  · have hnodup := (seqIds_perm (perm_running g waiting running swapped)).nodup_iff.mp h.ids_nodup
    rw [seqIds_cons] at hnodup ⊢
    refine hnodup.sublist (List.Sublist.append ?_ (.refl _))
    rw [hseqs, List.map_append, List.map_append, List.map_append, List.map_cons]
    exact (List.Sublist.refl _).append (hids.append (.refl _))
  · refine { hstate with status_eq := fun q' hq' => ?_ }
    rcases (hmem q').mp hq' with hin | hin | hin
    · exact hstate.status_eq q' (hseqs ▸ List.mem_append_left _ hin)
    · exact hnew q' hin
    · exact hstate.status_eq q' (hseqs ▸ List.mem_append_right _ (.tail _ hin))
  · intro q' hq' htable
    obtain ⟨hin, hrunning⟩ := mem_getSeqs.mp hq'
    rw [hseqs, List.mem_append, List.mem_cons] at hin
    rcases hin with hin | rfl | hin
    · exact ⟨q', mem_getSeqs.mpr ⟨(hmem q').mpr (.inl hin), hrunning⟩, rfl⟩
    · obtain ⟨q₁, hq₁, hstatus, hid⟩ := hkept hrunning htable
      exact ⟨q₁, mem_getSeqs.mpr ⟨(hmem q₁).mpr (.inr (.inl hq₁)), hstatus⟩, hid⟩
    · exact ⟨q', mem_getSeqs.mpr ⟨(hmem q').mpr (.inr (.inr hin)), hrunning⟩, rfl⟩

/-- A sequence with a new id joins a running group. -/
theorem nodup_addSeq (h : Owned cfg m waiting (g :: running) swapped) {q : Sequence}
    (hnew : q.seqId ∉ seqIds (waiting ++ g :: running ++ swapped)) :
    (seqIds ({ g with seqs := g.seqs ++ [q] } :: (waiting ++ running ++ swapped))).Nodup := by
  have hperm := seqIds_perm (perm_running g waiting running swapped)
  have hfront : (q.seqId :: seqIds (g :: (waiting ++ running ++ swapped))).Nodup :=
    List.nodup_cons.mpr ⟨fun hmem => hnew (hperm.mem_iff.mpr hmem), hperm.nodup_iff.mp h.ids_nodup⟩
  refine (List.Perm.nodup_iff ?_).mpr hfront
  rw [seqIds_cons, seqIds_cons, List.map_append, List.map_singleton, List.append_assoc]
  exact List.perm_middle

theorem inState_addSeq {status : SequenceStatus} (h : InState cfg status g) {q : Sequence}
    (hq : q.status = status ∨ q.status.isFinished = true) :
    InState cfg status { g with seqs := g.seqs ++ [q] } := by
  refine { h with status_eq := fun q' hq' => ?_ }
  rcases List.mem_append.mp hq' with hin | hin
  · exact h.status_eq q' hin
  · rw [List.mem_singleton.mp hin]
    exact hq

theorem groupStep {g' : SequenceGroup} (h : Owned cfg m waiting (g :: running) swapped)
    (hstep : GroupStep (seqIds (waiting ++ g :: running ++ swapped)) m g m' g') :
    Owned cfg m' waiting (g' :: running) swapped := by
  have hstate := h.of_running g List.mem_cons_self
  cases hstep with
  | @appendToken before after q hseqs hq =>
    refine h.replaceSeq [{ q with len := q.len + 1 }] hseqs h.inv rfl (.refl _) (fun q' hq' => ?_)
      (fun _ _ htable => htable) fun hrunning _ => ⟨_, .head _, hrunning, rfl⟩
    rw [List.mem_singleton.mp hq']
    exact .inl hq
  | @addFinished child hnew hfin =>
    refine h.setGroup_of_kept h.inv rfl (h.nodup_addSeq hnew) (inState_addSeq hstate (.inr hfin))
      (fun _ _ htable => htable) fun q hq _ => ?_
    obtain ⟨hin, hrunning⟩ := mem_getSeqs.mp hq
    exact ⟨q, mem_getSeqs.mpr ⟨List.mem_append_left _ hin, hrunning⟩, rfl⟩
  | @fork parent child m' hparent hnew hcall =>
    obtain ⟨hmem, hrunning⟩ := mem_getSeqs.mp hparent
    have hnone : m.blockTables.lookup child = none := by
      cases hlook : m.blockTables.lookup child with
      | none => rfl
      | some table => exact absurd (h.mem_seqIds_of_lookup hlook) hnew
    obtain ⟨old, hold, hlookup, hcached⟩ := fork_tables hcall
    refine h.setGroup (h.inv.fork hnone hcall) hcached
      (h.nodup_addSeq (q := { parent with seqId := child }) hnew)
      (inState_addSeq hstate (.inl hrunning)) fun id table htable => ?_
    rw [hlookup] at htable
    split at htable
    case isTrue hid =>
      rw [← Option.some.inj htable, hid]
      refine .inl ⟨⟨{ parent with seqId := child }, ?_, rfl⟩, h.running_gpu hmem hold⟩
      exact mem_getSeqs.mpr ⟨List.mem_append_right _ (.head _), hrunning⟩
    case isFalse =>
      by_cases hmine : ∃ q ∈ g.getSeqs .running, q.seqId = id
      · obtain ⟨q, hq, rfl⟩ := hmine
        obtain ⟨hin, hq'⟩ := mem_getSeqs.mp hq
        refine .inl ⟨⟨q, ?_, rfl⟩, h.running_gpu hin htable⟩
        exact mem_getSeqs.mpr ⟨List.mem_append_left _ hin, hq'⟩
      · exact .inr ⟨htable, fun q hq hid => hmine ⟨q, hq, hid⟩⟩
  | @finish before after q status m' hseqs hfin hcall =>
    obtain ⟨hinv, hlookup⟩ := h.lookup_of_free hcall
    refine h.replaceSeq [{ q with status := status }] hseqs hinv (free_cached hcall) (.refl _)
      (fun q' hq' => ?_)
      (fun id table htable => ?_) fun _ htable => absurd ?_ htable
    · rw [List.mem_singleton.mp hq']
      exact .inr hfin
    · rw [hlookup] at htable
      exact (Option.ite_none_left_eq_some.mp htable).2
    · rw [hlookup, if_pos rfl]
  | remove hseqs hcall =>
    obtain ⟨hinv, hlookup⟩ := h.lookup_of_free hcall
    refine h.replaceSeq [] hseqs hinv (free_cached hcall) (List.nil_sublist _)
      (fun q' hq' => nomatch hq') (fun id table htable => ?_) fun _ htable => absurd ?_ htable
    · rw [hlookup] at htable
      exact (Option.ite_none_left_eq_some.mp htable).2
    · rw [hlookup, if_pos rfl]

end Owned

end Mil.Requests
