import Mil.KvCache.Apart
import Mil.Lib.Moves

/-!
# The cache operations of a step

`Worker.cache_swap` of `vllm/worker/worker.py` with `CacheEngine.swap_in`, `swap_out` and `copy` and
the kernels they call (`swap_blocks`, `copy_blocks`): blocks come in from the CPU, blocks go out to
it, and blocks are copied on the GPU, one of these after the other. What a block holds, the keys and
values of all layers, is of any type here.

The scheduler collects the moves while it changes the tables. `Swaps` and `Copies` are what holds of
the moves collected so far, so that one more of them does to the contents of the tables what it
would do if it were carried out at once.

Left out: the streams the operations run on and the events with which the worker waits for them;
here they take effect in the order in which they are issued. Blocks that are retired are not moved
here.
-/

set_option autoImplicit false

namespace Mil.Requests

open Mil.Lib Mil.Blocks Mil.Blocks.BlockManager

variable {m m' : BlockManager} {gs pending : List SequenceGroup} {src dst : Device}

/-! ## The moves -/

/-- The moves of `swap_blocks`, which goes over the map in the order of its keys. -/
def swapMoves (src dst : Device) (srcToDst : List (Nat × Nat)) : List (Block × Block) :=
  (srcToDst.insertionSort fun p p' => p.1 ≤ p'.1).map fun p => (⟨src, p.1⟩, ⟨dst, p.2⟩)

/-- The pairs of `copy_blocks`. -/
def copyMoves (srcToDsts : List (Nat × List Nat)) : List (Block × Block) :=
  srcToDsts.flatMap fun p => p.2.map fun dst => (⟨.gpu, p.1⟩, ⟨.gpu, dst⟩)

/-- `cache_swap`. The kernel copies all pairs at once: `copies` is the order it takes. -/
def cacheSwap {β : Type} (outputs : SchedulerOutputs) (copies : List (Block × Block))
    (cache : Block → β) : Block → β :=
  Moves.run copies (Moves.run (swapMoves .gpu .cpu outputs.blocksToSwapOut)
    (Moves.run (swapMoves .cpu .gpu outputs.blocksToSwapIn) cache))

/-- The blocks to swap from a device. -/
def Decode.swaps (st : Decode) : Device → List (Nat × Nat)
  | .gpu => st.blocksToSwapOut
  | .cpu => st.blocksToSwapIn

/-- The block whose content a block holds after the moves collected so far. -/
def Decode.origin (st : Decode) : Block → Block :=
  Moves.run (copyMoves st.blocksToCopy) (Moves.run (swapMoves .gpu .cpu st.blocksToSwapOut)
    (Moves.run (swapMoves .cpu .gpu st.blocksToSwapIn) id))

theorem swapMoves_perm (src dst : Device) (d : List (Nat × Nat)) :
    (swapMoves src dst d).Perm (d.map fun p => (⟨src, p.1⟩, ⟨dst, p.2⟩)) :=
  (List.perm_insertionSort _ d).map _

@[simp] theorem swapMoves_nil (src dst : Device) : swapMoves src dst [] = [] := rfl

/-- Different numbers to different devices. -/
theorem independent_swapMoves (hne : src ≠ dst) {d : List (Nat × Nat)}
    (hnodup : (d.map Prod.snd).Nodup) : Moves.Independent (swapMoves src dst d) := by
  refine Moves.Independent.perm ⟨?_, fun p hp q hq heq => ?_⟩ (swapMoves_perm src dst d).symm
  · rw [List.map_map]
    refine List.Nodup.map_on (fun p hp q hq heq => ?_) (List.Nodup.of_map _ hnodup)
    exact List.inj_on_of_nodup_map hnodup hp hq (congrArg Block.number heq)
  · obtain ⟨p, -, rfl⟩ := List.mem_map.mp hp
    obtain ⟨q, -, rfl⟩ := List.mem_map.mp hq
    exact hne (congrArg Block.device heq)

theorem run_swapMoves_append {β : Type} (hne : src ≠ dst) {d d' : List (Nat × Nat)}
    (hnodup : ((d ++ d').map Prod.snd).Nodup) (mem : Block → β) :
    Moves.run (swapMoves src dst (d ++ d')) mem =
      Moves.run (swapMoves src dst d') (Moves.run (swapMoves src dst d) mem) := by
  rw [← Moves.run_append]
  refine Moves.run_perm (independent_swapMoves hne hnodup) ?_ mem
  refine (swapMoves_perm src dst (d ++ d')).trans ?_
  rw [List.map_append]
  exact ((swapMoves_perm src dst d).append (swapMoves_perm src dst d')).symm

/-- The numbers of moves between two devices tell the moves. -/
theorem swapMoves_numbers {moves : List (Block × Block)} (hsrc : ∀ p ∈ moves, p.1.device = src)
    (hdst : ∀ p ∈ moves, p.2.device = dst) :
    (swapMoves src dst (moves.map fun p => (p.1.number, p.2.number))).Perm moves := by
  refine (swapMoves_perm _ _ _).trans (.of_eq ?_)
  rw [List.map_map]
  refine (List.map_congr_left fun p hp => ?_).trans (List.map_id moves)
  show (((⟨src, p.1.number⟩, ⟨dst, p.2.number⟩) : Block × Block)) = p
  rw [← hsrc p hp, ← hdst p hp]

theorem copyMoves_addCopy (copies : List (Nat × List Nat)) (ret : Nat × Nat) :
    (copyMoves (addCopy copies ret)).Perm
      (copyMoves copies ++ [(⟨.gpu, ret.1⟩, ⟨.gpu, ret.2⟩)]) := by
  induction copies with
  | nil => exact .refl _
  | cons p copies ih =>
    have hcopies : copyMoves (p :: copies) =
        (p.2.map fun dst => ((⟨.gpu, p.1⟩, ⟨.gpu, dst⟩) : Block × Block)) ++ copyMoves copies :=
      List.flatMap_cons
    by_cases hp : p.1 = ret.1
    · have hadd : addCopy (p :: copies) ret = (ret.1, p.2 ++ [ret.2]) :: copies := by
        rw [addCopy, Dict.set, if_pos hp, ← hp, Dict.lookup_cons_self]
        rfl
      rw [hadd, hcopies, hp]
      show ((p.2 ++ [ret.2]).map (fun dst => ((⟨.gpu, ret.1⟩, ⟨.gpu, dst⟩) : Block × Block)) ++
        copyMoves copies).Perm _
      rw [List.map_append, List.append_assoc, List.append_assoc]
      exact List.perm_append_comm.append_left _
    · have hadd : addCopy (p :: copies) ret = p :: addCopy copies ret := by
        rw [addCopy, Dict.set, if_neg hp, Dict.lookup_cons_ne hp]
        rfl
      rw [hadd, hcopies, List.append_assoc]
      exact ih.append_left _

/-- The moves collected when none goes the other way. -/
theorem Decode.origin_eq (hne : src ≠ dst) {st : Decode} (hnone : st.swaps dst = []) :
    st.origin = Moves.run (copyMoves st.blocksToCopy)
      (Moves.run (swapMoves src dst (st.swaps src)) id) := by
  cases src with
  | gpu =>
    cases dst with
    | gpu => exact absurd rfl hne
    | cpu =>
      have hnone : st.blocksToSwapIn = [] := hnone
      rw [Decode.origin, hnone, swapMoves_nil, Moves.run_nil]
      rfl
  | cpu =>
    cases dst with
    | cpu => exact absurd rfl hne
    | gpu =>
      have hnone : st.blocksToSwapOut = [] := hnone
      rw [Decode.origin, hnone, swapMoves_nil, Moves.run_nil]
      rfl

/-- In whatever order the kernel copies, the contents are those of the origins. -/
theorem cacheSwap_eq {β : Type} {st : Decode} {outputs : SchedulerOutputs}
    (hin : outputs.blocksToSwapIn = st.blocksToSwapIn)
    (hout : outputs.blocksToSwapOut = st.blocksToSwapOut)
    (hind : Moves.Independent (copyMoves st.blocksToCopy)) {copies : List (Block × Block)}
    (hcopies : (copyMoves st.blocksToCopy).Perm copies) (cache : Block → β) (b : Block) :
    cacheSwap outputs copies cache b = cache (st.origin b) := by
  rw [cacheSwap, hin, hout, ← Moves.run_perm hind hcopies, ← Moves.run_append, ← Moves.run_append,
    Moves.run_eq_comp, Decode.origin, ← Moves.run_append, ← Moves.run_append]

/-! ## What holds of the moves collected -/

/-- A block of a table of a sequence that is in none of the groups. -/
def Taken (m : BlockManager) (pending : List SequenceGroup) (b : Block) : Prop :=
  ∃ id table, id ∉ seqIds pending ∧ m.blockTables.lookup id = some table ∧ b ∈ table

/-- A block is swapped once, to a block that is in use; the groups that are still to be dealt with
have none of the blocks swapped. -/
structure Swaps (src dst : Device) (m : BlockManager) (pending : List SequenceGroup)
    (d : List (Nat × Nat)) : Prop where
  keys_nodup : (Dict.keys d).Nodup
  values_nodup : (d.map Prod.snd).Nodup
  source : ∀ p ∈ d, ∀ id ∈ seqIds pending, ∀ table, m.blockTables.lookup id = some table →
    (⟨src, p.1⟩ : Block) ∉ table
  target : ∀ p ∈ d, ¬ m.Unused ⟨dst, p.2⟩

/-- The copies may be made in any order; the blocks copied are not those of the groups that are
still to be dealt with, and a block copied to is in one table only. -/
structure Copies (m : BlockManager) (pending : List SequenceGroup) (ms : List (Block × Block)) :
    Prop where
  independent : Moves.Independent ms
  source : ∀ p ∈ ms, Taken m pending p.1
  target : ∀ p ∈ ms, ∃ id table, id ∉ seqIds pending ∧ m.blockTables.lookup id = some table ∧
    p.2 ∈ table ∧ m.Exclusive id p.2

theorem Together.mem_seqIds {id id' : Nat} (h : Together gs id id') (hgroups : GroupsOf gs pending)
    (hid : id ∈ seqIds pending) : id' ∈ seqIds pending := by
  obtain ⟨g, hg, q, hq, rfl⟩ := Requests.mem_seqIds.mp hid
  have hin := (h.of_ids hgroups g hg).mp (List.mem_map_of_mem hq)
  obtain ⟨q', hq', rfl⟩ := List.mem_map.mp hin
  exact Requests.mem_seqIds.mpr ⟨g, hg, q', hq', rfl⟩

theorem Taken.not_mem {b : Block} (h : Taken m pending b) (hapart : Apart gs m)
    (hgroups : GroupsOf gs pending) {id : Nat} (hid : id ∈ seqIds pending) {table : BlockTable}
    (htable : m.blockTables.lookup id = some table) : b ∉ table := by
  obtain ⟨id', table', hid', htable', hb'⟩ := h
  intro hb
  exact hid' ((hapart.together id id' table table' b htable htable' hb hb').mem_seqIds hgroups hid)

theorem Taken.used {b : Block} (h : Taken m pending b) : ¬ m.Unused b := by
  obtain ⟨id, table, -, htable, hb⟩ := h
  exact fun hunused => hunused id table htable hb

theorem Taken.mono {b : Block} {pending' : List SequenceGroup} (h : Taken m pending b)
    (hsub : ∀ id ∈ seqIds pending', id ∈ seqIds pending) : Taken m pending' b := by
  obtain ⟨id, table, hid, hrest⟩ := h
  exact ⟨id, table, fun hmem => hid (hsub id hmem), hrest⟩

namespace Copies

variable {ms : List (Block × Block)}

theorem nil (m : BlockManager) (pending : List SequenceGroup) : Copies m pending [] :=
  ⟨.nil, fun _ hp => absurd hp List.not_mem_nil, fun _ hp => absurd hp List.not_mem_nil⟩

theorem taken_target (h : Copies m pending ms) {p : Block × Block} (hp : p ∈ ms) :
    Taken m pending p.2 := by
  obtain ⟨id, table, hid, htable, hb, -⟩ := h.target p hp
  exact ⟨id, table, hid, htable, hb⟩

theorem perm {ms' : List (Block × Block)} (h : Copies m pending ms) (hperm : ms.Perm ms') :
    Copies m pending ms' :=
  ⟨h.independent.perm hperm, fun p hp => h.source p (hperm.mem_iff.mpr hp),
    fun p hp => h.target p (hperm.mem_iff.mpr hp)⟩

/-- The tables of the sequences dealt with stay, and what comes into other tables was unused. -/
theorem of_lookup {pending' : List SequenceGroup} (h : Copies m pending ms)
    (hsub : ∀ id ∈ seqIds pending', id ∈ seqIds pending)
    (hkept : ∀ id table, id ∉ seqIds pending → m.blockTables.lookup id = some table →
      m'.blockTables.lookup id = some table)
    (hblocks : ∀ (id : Nat) (table : BlockTable), m'.blockTables.lookup id = some table →
      m.blockTables.lookup id = some table ∨ ∀ b ∈ table, m.Unused b) : Copies m' pending' ms := by
  refine ⟨h.independent, fun p hp => ?_, fun p hp => ?_⟩
  · obtain ⟨id, table, hid, htable, hb⟩ := h.source p hp
    exact ⟨id, table, fun hmem => hid (hsub id hmem), hkept id table hid htable, hb⟩
  · obtain ⟨id, table, hid, htable, hb, hex⟩ := h.target p hp
    refine ⟨id, table, fun hmem => hid (hsub id hmem), hkept id table hid htable, hb, ?_⟩
    intro id' table' htable' hb'
    rcases hblocks id' table' htable' with hold | hunused
    · exact hex id' table' hold hb'
    · exact absurd hb (hunused _ hb' id table htable)

end Copies

namespace Swaps

variable {d : List (Nat × Nat)}

theorem nil (src dst : Device) (m : BlockManager) (pending : List SequenceGroup) :
    Swaps src dst m pending [] :=
  ⟨.nil, .nil, fun _ hp => absurd hp List.not_mem_nil, fun _ hp => absurd hp List.not_mem_nil⟩

/-- Blocks of the other device stay in use, and the groups still to be dealt with keep their
tables. -/
theorem of_lookup {pending' : List SequenceGroup} (h : Swaps src dst m pending d)
    (hused : ∀ b : Block, b.device = dst → ¬ m.Unused b → ¬ m'.Unused b)
    (hpending : ∀ id ∈ seqIds pending', id ∈ seqIds pending ∧
      m'.blockTables.lookup id = m.blockTables.lookup id) : Swaps src dst m' pending' d :=
  ⟨h.keys_nodup, h.values_nodup, fun p hp id hid table htable =>
    h.source p hp id (hpending id hid).1 table ((hpending id hid).2 ▸ htable),
    fun p hp => hused _ rfl (h.target p hp)⟩

end Swaps

/-! ## A group is swapped -/

section Relocated

variable {status : SequenceStatus} {g : SequenceGroup} {moves : List (Block × Block)}

/-- The tables of other groups stay. -/
theorem lookup_eq_of_relocated (hr : Relocated src dst m m' (g.getSeqs status) moves) {id : Nat}
    (hid : id ∉ g.seqs.map Sequence.seqId) :
    m'.blockTables.lookup id = m.blockTables.lookup id :=
  hr.others id fun _ hs heq => hid (heq ▸ List.mem_map_of_mem (mem_getSeqs.mp hs).1)

/-- The blocks that a group is swapped from are in its tables. -/
theorem source_mem_of_relocated (hr : Relocated src dst m m' (g.getSeqs status) moves)
    {p : Block × Block} (hp : p ∈ moves) :
    ∃ id ∈ g.seqs.map Sequence.seqId, ∃ table, m.blockTables.lookup id = some table ∧
      p.1 ∈ table := by
  obtain ⟨-, s, hs, table, htable, hmem⟩ := hr.source p hp
  exact ⟨s.seqId, List.mem_map_of_mem (mem_getSeqs.mp hs).1, table, htable, hmem⟩

/-- The blocks swapped now were not swapped before, and have different numbers. -/
theorem keys_numbers {d : List (Nat × Nat)} (h : Swaps src dst m (g :: pending) d)
    (hr : Relocated src dst m m' (g.getSeqs status) moves) :
    (Dict.keys (moves.map fun p => (p.1.number, p.2.number))).Nodup ∧
      List.Disjoint (Dict.keys d) (Dict.keys (moves.map fun p => (p.1.number, p.2.number))) := by
  have hkeys : Dict.keys (moves.map fun p => (p.1.number, p.2.number)) =
      moves.map fun p => p.1.number := List.map_map
  rw [hkeys]
  refine ⟨nodup_numbers hr.keys_nodup fun p hp => (hr.source p hp).1, fun k hk hk' => ?_⟩
  -- a block swapped before is in no table of the group
  obtain ⟨p, hp, rfl⟩ := List.mem_map.mp hk
  obtain ⟨q, hq, heq⟩ := List.mem_map.mp hk'
  obtain ⟨id, hid, table, htable, hmem⟩ := source_mem_of_relocated hr hq
  refine h.source p hp id ?_ table htable ?_
  · rw [seqIds_cons]
    exact List.mem_append_left _ hid
  · have hsrc : (⟨src, q.1.number⟩ : Block) = q.1 := (hr.source q hq).1 ▸ rfl
    rw [← heq, hsrc]
    exact hmem

theorem update_numbers {d : List (Nat × Nat)} (h : Swaps src dst m (g :: pending) d)
    (hr : Relocated src dst m m' (g.getSeqs status) moves) :
    Dict.update d (moves.map fun p => (p.1.number, p.2.number)) =
      d ++ moves.map fun p => (p.1.number, p.2.number) :=
  Dict.update_eq_append (keys_numbers h hr).1 (keys_numbers h hr).2

theorem Copies.relocated {ms : List (Block × Block)} (h : Copies m (g :: pending) ms)
    (hr : Relocated src dst m m' (g.getSeqs status) moves) : Copies m' pending ms := by
  refine h.of_lookup (fun id hid => ?_) (fun id table hid htable => ?_) fun id table htable => ?_
  · rw [seqIds_cons]
    exact List.mem_append_right _ hid
  · rw [seqIds_cons, List.mem_append, not_or] at hid
    rw [lookup_eq_of_relocated hr hid.1]
    exact htable
  · rcases hr.cases htable with ⟨hold, -⟩ | ⟨_, -, -, old, -, hmoves⟩
    · exact .inl hold
    · refine .inr fun b hb => ?_
      obtain ⟨a, -, hmove⟩ := Relocated.exists_source hmoves hb
      exact (hr.target _ hmove).2

theorem Swaps.relocated {d : List (Nat × Nat)} (h : Swaps src dst m (g :: pending) d)
    (hapart : Apart gs m) (hgroups : GroupsOf gs (g :: pending))
    (hids : (seqIds (g :: pending)).Nodup) (hne : src ≠ dst)
    (hon : TablesOn m src (g.getSeqs status))
    (hr : Relocated src dst m m' (g.getSeqs status) moves) :
    Swaps src dst m' pending (d ++ moves.map fun p => (p.1.number, p.2.number)) := by
  rw [seqIds_cons] at hids
  obtain ⟨-, -, hdisjoint⟩ := List.nodup_append.mp hids
  have hpending : ∀ id ∈ seqIds pending, id ∈ seqIds (g :: pending) ∧
      m'.blockTables.lookup id = m.blockTables.lookup id := by
    intro id hid
    refine ⟨?_, lookup_eq_of_relocated hr fun hin => hdisjoint id hin id hid rfl⟩
    rw [seqIds_cons]
    exact List.mem_append_right _ hid
  -- the earlier moves still hold: a block that is used now was used, or is on the other device
  have hold : Swaps src dst m' pending d := by
    refine h.of_lookup (fun b hb hused hunused => ?_) hpending
    refine hused fun id table htable hmem => ?_
    by_cases hmine : ∃ s ∈ g.getSeqs status, s.seqId = id
    · obtain ⟨s, hs, rfl⟩ := hmine
      exact hne ((hon s hs table htable b hmem).symm.trans hb)
    · exact hunused id table ((hr.others id fun s hs heq => hmine ⟨s, hs, heq⟩).trans htable) hmem
  have hsrc : ∀ p ∈ moves, (⟨src, p.1.number⟩ : Block) = p.1 := fun p hp =>
    (hr.source p hp).1 ▸ rfl
  have hdst : ∀ p ∈ moves, (⟨dst, p.2.number⟩ : Block) = p.2 := fun p hp =>
    (hr.target p hp).1 ▸ rfl
  refine ⟨?_, ?_, fun p hp => ?_, fun p hp => ?_⟩
  · rw [Dict.keys_append]
    obtain ⟨hnodup, hnew⟩ := keys_numbers h hr
    exact List.nodup_append.mpr ⟨hold.keys_nodup, hnodup, fun x hx y hy heq => hnew hx (heq ▸ hy)⟩
  · rw [List.map_append]
    refine List.nodup_append.mpr ⟨hold.values_nodup, ?_, fun x hx y hy heq => ?_⟩
    · rw [List.map_map]
      exact nodup_numbers hr.values_nodup fun p hp => (hr.target p hp).1
    · obtain ⟨p, hp, rfl⟩ := List.mem_map.mp hx
      obtain ⟨q', hq', rfl⟩ := List.mem_map.mp hy
      obtain ⟨q, hq, rfl⟩ := List.mem_map.mp hq'
      refine h.target p hp ?_
      rw [heq, hdst q hq]
      exact (hr.target q hq).2
  · rcases List.mem_append.mp hp with hp | hp
    · exact hold.source p hp
    · obtain ⟨q, hq, rfl⟩ := List.mem_map.mp hp
      intro id hid table htable hmem
      obtain ⟨id', hid', table', htable', hmem'⟩ := source_mem_of_relocated hr hq
      rw [(hpending id hid).2] at htable
      rw [hsrc q hq] at hmem
      have htogether := hapart.together id id' table table' _ htable htable' hmem hmem'
      have hin := (htogether.of_ids hgroups g (.head _)).mpr hid'
      exact hdisjoint id hin id hid rfl
  · rcases List.mem_append.mp hp with hp | hp
    · exact hold.target p hp
    · obtain ⟨q, hq, rfl⟩ := List.mem_map.mp hp
      intro hunused
      obtain ⟨-, s, hs, table, htable, hmem⟩ := hr.source q hq
      obtain ⟨old, new, hold', hnew, hmoves⟩ := hr.tables s hs
      obtain rfl := Option.some.inj (hold'.symm.trans htable)
      obtain ⟨b', hb', hmove⟩ := Relocated.exists_target hmoves hmem
      have heq : q = (q.1, b') := List.inj_on_of_nodup_map hr.keys_nodup hq hmove rfl
      refine hunused s.seqId new hnew ?_
      rw [hdst q hq, heq]
      exact hb'

/-- The blocks swapped to get what is in the blocks they are swapped from, and those in use keep
their contents. -/
theorem origin_relocated {st st' : Decode} (hne : src ≠ dst) (hnone : st.swaps dst = [])
    (hnone' : st'.swaps dst = [])
    (hswaps : st'.swaps src = st.swaps src ++ moves.map fun p => (p.1.number, p.2.number))
    (hcopy : st'.blocksToCopy = st.blocksToCopy)
    (hs : Swaps src dst m' pending (st'.swaps src))
    (hc : Copies m (g :: pending) (copyMoves st.blocksToCopy)) (hapart : Apart gs m)
    (hgroups : GroupsOf gs (g :: pending))
    (hr : Relocated src dst m m' (g.getSeqs status) moves) :
    (∀ p ∈ moves, st'.origin p.2 = st.origin p.1) ∧
      ∀ b, ¬ m.Unused b → st'.origin b = st.origin b := by
  have hvalues := hs.values_nodup
  rw [hswaps] at hvalues
  have hperm := swapMoves_numbers (fun p hp => (hr.source p hp).1) fun p hp => (hr.target p hp).1
  have hnumbers : ((moves.map fun p => (p.1.number, p.2.number)).map Prod.snd).Nodup := by
    rw [List.map_append] at hvalues
    exact (List.nodup_append.mp hvalues).2.1
  have hind := (independent_swapMoves hne hnumbers).perm hperm
  rw [Decode.origin_eq hne hnone', Decode.origin_eq hne hnone, hcopy, hswaps,
    run_swapMoves_append hne hvalues, Moves.run_perm (independent_swapMoves hne hnumbers) hperm]
  -- no copy reads or writes a block swapped to, and none writes a block swapped from
  have hdst : ∀ p ∈ moves, ∀ q ∈ copyMoves st.blocksToCopy, p.2 ≠ q.1 ∧ p.2 ≠ q.2 := by
    intro p hp q hq
    have hunused := (hr.target p hp).2
    exact ⟨fun heq => (hc.source q hq).used (heq ▸ hunused),
      fun heq => (hc.taken_target hq).used (heq ▸ hunused)⟩
  have hsrc : ∀ p ∈ moves, ∀ q ∈ copyMoves st.blocksToCopy, p.1 ≠ q.2 := by
    intro p hp q hq heq
    obtain ⟨id, hid, table, htable, hmem⟩ := source_mem_of_relocated hr hp
    refine (hc.taken_target hq).not_mem hapart hgroups ?_ htable (heq ▸ hmem)
    rw [seqIds_cons]
    exact List.mem_append_left _ hid
  refine ⟨fun p hp => ?_, fun b hb => ?_⟩
  · exact Moves.run_insert_of_mem hind (fun p hp q hq => (hdst p hp q hq).2) hsrc hp
  · refine Moves.run_insert_of_not_mem (fun p hp hmem => ?_) fun p hp heq => ?_
    · obtain ⟨q, hq, hin⟩ := List.mem_flatMap.mp hmem
      rcases List.mem_cons.mp hin with heq | hin
      · exact (hdst p hp q hq).1 heq
      · exact (hdst p hp q hq).2 (List.mem_singleton.mp hin)
    · exact hb (heq ▸ (hr.target p hp).2)

end Relocated

/-! ## A slot is appended -/

section Appended

variable {cfg : Blocks.Config} {q : Sequence} {old new : BlockTable} {ret : Option (Nat × Nat)}

variable (hold : m.blockTables.lookup q.seqId = some old) (happended : Appended cfg m q old new ret)
  (hlookup : ∀ id, m'.blockTables.lookup id =
    if id = q.seqId then some new else m.blockTables.lookup id)

include hlookup in
theorem lookup_appended : m'.blockTables.lookup q.seqId = some new := by
  rw [hlookup, if_pos rfl]

include hlookup in
/-- A block that was unused is in the new table only. -/
theorem exclusive_of_unused {b : Block} (hunused : m.Unused b) : m'.Exclusive q.seqId b := by
  intro id table htable hb
  rw [hlookup] at htable
  split at htable
  case isTrue hid => exact hid
  case isFalse => exact absurd hb (hunused id table htable)

include hold happended hlookup

/-- No block comes out of use. -/
theorem used_appended {b : Block} (hb : ¬ m.Unused b) : ¬ m'.Unused b := by
  intro hunused
  refine hb fun id table htable hmem => ?_
  have hother : ∀ id' other, id' ≠ q.seqId → m.blockTables.lookup id' = some other → b ∉ other :=
    fun id' other hne hother => hunused id' other (by rw [hlookup, if_neg hne]; exact hother)
  by_cases hid : id = q.seqId
  · obtain rfl := Option.some.inj (hold.symm.trans (hid ▸ htable))
    rcases happended.mem_new hmem with hnew | ⟨id', other, hne, htable', hmem'⟩
    · exact hunused q.seqId new (lookup_appended hlookup) hnew
    · exact hother id' other hne htable' hmem'
  · exact hother id table hid htable hmem

theorem exclusive_appended {id : Nat} {table : BlockTable} {b : Block}
    (htable : m.blockTables.lookup id = some table) (hb : b ∈ table) (hex : m.Exclusive id b) :
    m'.Exclusive id b := by
  intro id' table' htable' hb'
  rw [hlookup] at htable'
  split at htable'
  case isTrue hid =>
    obtain rfl := Option.some.inj htable'
    rcases happended.mem_old hb' with hmem | hunused
    · exact hid ▸ hex q.seqId old hold hmem
    · exact absurd hb (hunused id table htable)
  case isFalse => exact hex id' table' htable' hb'

/-- A block that one table has to itself stays in it. -/
theorem kept_appended {id : Nat} {table : BlockTable} {b : Block}
    (htable : m.blockTables.lookup id = some table) (hb : b ∈ table) (hex : m.Exclusive id b) :
    ∃ table', m'.blockTables.lookup id = some table' ∧ b ∈ table' := by
  by_cases hid : id = q.seqId
  · subst hid
    obtain rfl := Option.some.inj (hold.symm.trans htable)
    refine ⟨new, lookup_appended hlookup, ?_⟩
    refine (happended.mem_new hb).resolve_right ?_
    rintro ⟨id', other, hne, hother, hmem⟩
    exact hne (hex id' other hother hmem)
  · exact ⟨table, by rw [hlookup, if_neg hid]; exact htable, hb⟩

theorem taken_appended (hapart : Apart gs m) (hgroups : GroupsOf gs pending)
    (hq : q.seqId ∉ seqIds pending) {b : Block} (h : Taken m pending b) : Taken m' pending b := by
  obtain ⟨id, table, hid, htable, hb⟩ := h
  by_cases heq : id = q.seqId
  · obtain rfl := Option.some.inj (hold.symm.trans (heq ▸ htable))
    rcases happended.mem_new hb with hnew | ⟨id', other, hne, hother, hmem⟩
    · exact ⟨q.seqId, new, hq, lookup_appended hlookup, hnew⟩
    · refine ⟨id', other, fun hin => hq ?_, by rw [hlookup, if_neg hne]; exact hother, hmem⟩
      exact (hapart.together id' q.seqId other old b hother hold hmem hb).mem_seqIds hgroups hin
  · exact ⟨id, table, hid, by rw [hlookup, if_neg heq]; exact htable, hb⟩

theorem Swaps.appended {d : List (Nat × Nat)} (h : Swaps src dst m pending d)
    (hq : q.seqId ∉ seqIds pending) : Swaps src dst m' pending d := by
  refine h.of_lookup (fun b _ hb => used_appended hold happended hlookup hb) fun id hid => ⟨hid, ?_⟩
  have hne : id ≠ q.seqId := by
    rintro rfl
    exact hq hid
  rw [hlookup, if_neg hne]

theorem Copies.appended {copies : List (Nat × List Nat)} (h : Copies m pending (copyMoves copies))
    (hapart : Apart gs m) (hgroups : GroupsOf gs pending) (hq : q.seqId ∉ seqIds pending) :
    Copies m' pending (copyMoves (ret.elim copies (addCopy copies))) := by
  have hkept : Copies m' pending (copyMoves copies) := by
    refine ⟨h.independent, fun p hp => ?_, fun p hp => ?_⟩
    · exact taken_appended hold happended hlookup hapart hgroups hq (h.source p hp)
    · obtain ⟨id, table, hid, htable, hb, hex⟩ := h.target p hp
      obtain ⟨table', htable', hb'⟩ := kept_appended hold happended hlookup htable hb hex
      exact ⟨id, table', hid, htable', hb', exclusive_appended hold happended hlookup htable hb hex⟩
  cases happended with
  | grown _ _ _ => exact hkept
  | own _ _ _ => exact hkept
  | @copied front last b _ htable hgpu hgpu' hunused hshared =>
    have hlast : ((⟨.gpu, last.number⟩ : Block) = last) := hgpu ▸ rfl
    have hnew : ((⟨.gpu, b.number⟩ : Block) = b) := hgpu' ▸ rfl
    refine Copies.perm ?_ (copyMoves_addCopy copies (last.number, b.number)).symm
    show Copies m' pending (copyMoves copies ++ [(⟨.gpu, last.number⟩, ⟨.gpu, b.number⟩)])
    rw [hlast, hnew]
    have hmem : last ∈ old := htable ▸ List.mem_append_right _ (.head _)
    obtain ⟨id', other, hne', hother, hmem'⟩ := hshared
    -- the block copied to is new, and the one copied from is in two tables
    have hfresh : ∀ p ∈ copyMoves copies, p.1 ≠ b ∧ p.2 ≠ b := fun p hp =>
      ⟨fun heq => (h.source p hp).used (heq ▸ hunused),
        fun heq => (h.taken_target hp).used (heq ▸ hunused)⟩
    have hsource : ∀ p ∈ copyMoves copies, last ≠ p.2 := by
      intro p hp heq
      obtain ⟨id, table, -, -, -, hex⟩ := h.target p hp
      have hid := hex q.seqId old hold (heq ▸ hmem)
      exact hne' ((hex id' other hother (heq ▸ hmem')).trans hid.symm)
    have hone : Moves.Independent [(last, b)] := by
      refine ⟨List.nodup_singleton _, fun p hp p' hp' heq => ?_⟩
      rw [List.mem_singleton.mp hp, List.mem_singleton.mp hp'] at heq
      have heq : last = b := heq
      exact hunused q.seqId old hold (heq ▸ hmem)
    have hnewTable : m'.blockTables.lookup q.seqId = some (front ++ [b]) := lookup_appended hlookup
    refine ⟨hkept.independent.append hone (fun p hp p' hp' => ?_) (fun p hp p' hp' => ?_),
      fun p hp => ?_, fun p hp => ?_⟩
    · rw [List.mem_singleton.mp hp']
      exact hfresh p hp
    · rw [List.mem_singleton.mp hp']
      exact hsource p hp
    · rcases List.mem_append.mp hp with hp | hp
      · exact hkept.source p hp
      · rw [List.mem_singleton.mp hp]
        refine ⟨id', other, fun hin => hq ?_, by rw [hlookup, if_neg hne']; exact hother, hmem'⟩
        exact (hapart.together id' q.seqId other old last hother hold hmem' hmem).mem_seqIds
          hgroups hin
    · rcases List.mem_append.mp hp with hp | hp
      · exact hkept.target p hp
      · rw [List.mem_singleton.mp hp]
        exact ⟨q.seqId, front ++ [b], hq, hnewTable, List.mem_append_right _ (.head _),
          exclusive_of_unused hlookup hunused⟩

end Appended

/-- One more copy, after the others. -/
theorem origin_addCopy {st st' : Decode} {ret : Nat × Nat}
    (hind : Moves.Independent (copyMoves st'.blocksToCopy))
    (heq : st' = { st with manager := st'.manager, blocksToCopy := addCopy st.blocksToCopy ret }) :
    st'.origin ⟨.gpu, ret.2⟩ = st.origin ⟨.gpu, ret.1⟩ ∧
      ∀ b, b ≠ ⟨.gpu, ret.2⟩ → st'.origin b = st.origin b := by
  have hcopy : st'.blocksToCopy = addCopy st.blocksToCopy ret := by rw [heq]
  rw [hcopy] at hind
  have hperm := copyMoves_addCopy st.blocksToCopy ret
  have horigin : st'.origin = Moves.copy st.origin (⟨.gpu, ret.1⟩, ⟨.gpu, ret.2⟩) := by
    rw [heq]
    show Moves.run (copyMoves (addCopy st.blocksToCopy ret)) _ = _
    rw [Moves.run_perm hind hperm, Moves.run_append]
    rfl
  rw [horigin]
  exact ⟨Moves.copy_self, fun b hb => Moves.copy_of_ne hb⟩

end Mil.Requests
