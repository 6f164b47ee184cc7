import Mil.Requests.Owned

/-!
# Runs of the scheduler

The calls of the scheduler and what the engine does with the running groups between them, in any
order: tokens are appended, sequences are forked, finish or are removed, finished groups leave,
requests come in or are aborted. `Owned` holds in every state of a run in which no group is
admitted of which some sequences are finished, and no shared block is moved by a reorganization.

After a group of several sequences has been cut down to one and preempted, `allocate` counts
`num_seqs()` references to blocks of which only one table knows; a reorganization that moves a
shared block counts too few. Both are left out by `Meets`.
-/

set_option autoImplicit false

namespace Mil.Requests

open Mil.Lib Mil.Blocks Mil.Blocks.BlockManager

variable {cfg : Config}

/-! ## The loops of `_schedule` -/

section Loops

variable {waiting running swapped kept : List SequenceGroup}

/-- The state of the manager and the queues while prompts are admitted. -/
theorem Owned.admitPrompts (hwindow : cfg.blocks.blockSlidingWindow = none)
    {waiting' : List SequenceGroup} {st st' : Prompts}
    (h : Owned cfg st.manager waiting (st.scheduled ++ running) swapped)
    (hone : ∀ g ∈ waiting, ∀ q ∈ g.getSeqs .waiting, q.len ≤ cfg.promptLimit → g.numSeqs = 1)
    (hcall : Requests.admitPrompts cfg waiting st = some (waiting', st')) :
    Owned cfg st'.manager waiting' (st'.scheduled ++ running) swapped := by
  induction waiting generalizing st with
  | nil =>
    obtain ⟨rfl, rfl⟩ := Prod.mk.inj (Option.some.inj hcall)
    exact h
  | cons g waiting ih =>
    have hone' := fun g' (hg' : g' ∈ waiting) => hone g' (.tail _ hg')
    have hignore : Requests.admitPrompts cfg waiting (st.ignore g) = some (waiting', st') →
        Owned cfg st'.manager waiting' (st'.scheduled ++ running) swapped :=
      ih (show Owned cfg (st.ignore g).manager waiting ((st.ignore g).scheduled ++ running) swapped
        from h.dropWaiting) hone'
    have hstop : some (g :: waiting, st) = some (waiting', st') →
        Owned cfg st'.manager waiting' (st'.scheduled ++ running) swapped := by
      intro heq
      obtain ⟨rfl, rfl⟩ := Prod.mk.inj (Option.some.inj heq)
      exact h
    rw [Requests.admitPrompts] at hcall
    split at hcall
    case h_2 => cases hcall
    case h_1 seq hseqs =>
      split at hcall
      · exact hignore hcall
      case isFalse hlimit =>
        split at hcall
        · cases hcall
        · exact hstop hcall
        · exact hignore hcall
        · split at hcall
          case isFalse => exact hstop hcall
          case isTrue =>
            obtain ⟨m, halloc, hcall⟩ := Option.bind_eq_some_iff.mp hcall
            refine ih ?_ hone' hcall
            have hg := hone g (.head _) seq (hseqs ▸ List.mem_cons_self) (not_lt.mp hlimit)
            refine (h.allocate hwindow hg halloc).perm (.refl _) ?_ (.refl _)
            show (setStatus .waiting .running g :: (st.scheduled ++ running)).Perm
              (st.scheduled ++ [setStatus .waiting .running g] ++ running)
            rw [List.append_assoc]
            exact List.perm_middle.symm

/-- A group is preempted, whatever the mode. -/
theorem Owned.preempt {st st' : Decode} {g : SequenceGroup}
    (h : Owned cfg st.manager st.waiting (g :: running) st.swapped)
    (hcall : st.preempt g = some st') :
    Owned cfg st'.manager st'.waiting running st'.swapped := by
  obtain ⟨st₁, hmode, rfl⟩ := Option.map_eq_some_iff.mp hcall
  show Owned cfg st₁.manager st₁.waiting running st₁.swapped
  split at hmode
  · unfold Decode.preemptByRecompute at hmode
    split at hmode
    case h_1 q hq =>
      obtain ⟨m, hfree, rfl⟩ := Option.map_eq_some_iff.mp hmode
      exact h.preemptByRecompute hq hfree
    case h_2 => cases hmode
  · unfold Decode.preemptBySwap at hmode
    obtain ⟨canSwapOut, -, hmode⟩ := Option.bind_eq_some_iff.mp hmode
    split at hmode
    · obtain ⟨⟨mapping, m⟩, hswap, hmode⟩ := Option.bind_eq_some_iff.mp hmode
      obtain rfl := Option.some.inj hmode
      exact (h.swapOut hswap).perm (.refl _) (.refl _) (List.perm_append_singleton _ _).symm
    · cases hmode

/-- The running sequences of a group get their slots; only the manager and the copies change. -/
theorem Owned.appendSlots (hwindow : cfg.blocks.blockSlidingWindow = none) {g : SequenceGroup}
    {st st' : Decode} (h : Owned cfg st.manager waiting (g :: running) swapped)
    (hcall : st.appendSlot cfg g = some st') :
    Owned cfg st'.manager waiting (g :: running) swapped ∧ st'.waiting = st.waiting ∧
      st'.swapped = st.swapped := by
  have hall : ∀ qs : List Sequence, (∀ q ∈ qs, q ∈ g.getSeqs .running) → ∀ st : Decode,
      Owned cfg st.manager waiting (g :: running) swapped →
      qs.foldlM (Decode.appendSeq cfg) st = some st' →
      Owned cfg st'.manager waiting (g :: running) swapped ∧ st'.waiting = st.waiting ∧
        st'.swapped = st.swapped := by
    intro qs
    induction qs with
    | nil =>
      intro _ st h hcall
      obtain rfl := Option.some.inj hcall
      exact ⟨h, rfl, rfl⟩
    | cons q qs ih =>
      intro hqs st h hcall
      rw [List.foldlM_cons] at hcall
      obtain ⟨st₁, hfirst, hrest⟩ := Option.bind_eq_some_iff.mp hcall
      obtain ⟨⟨ret, m⟩, happend, rfl⟩ := Option.map_eq_some_iff.mp hfirst
      have howned : Owned cfg m waiting (g :: running) swapped :=
        h.appendSlot hwindow (hqs q (.head _)) happend
      exact ih (fun q' hq' => hqs q' (.tail _ hq')) { st with
        manager := m, blocksToCopy := ret.elim st.blocksToCopy (addCopy st.blocksToCopy) }
        howned hrest
  exact hall _ (fun q hq => hq) st h hcall

theorem Owned.makeRoom {g : SequenceGroup} {rest left : List SequenceGroup} {stays : Bool}
    {st st' : Decode}
    (h : Owned cfg st.manager st.waiting (g :: (rest ++ kept)) st.swapped)
    (hcall : Requests.makeRoom g rest st = some (left, stays, st')) :
    Owned cfg st'.manager st'.waiting ((if stays then [g] else []) ++ (left ++ kept))
      st'.swapped := by
  induction rest generalizing st with
  | nil =>
    rw [Requests.makeRoom] at hcall
    split at hcall
    · obtain ⟨rfl, hrest⟩ := Prod.mk.inj (Option.some.inj hcall)
      obtain ⟨rfl, rfl⟩ := Prod.mk.inj hrest
      exact h
    · obtain ⟨st₁, hpreempt, heq⟩ := Option.map_eq_some_iff.mp hcall
      obtain ⟨rfl, hrest⟩ := Prod.mk.inj heq
      obtain ⟨rfl, rfl⟩ := Prod.mk.inj hrest
      exact h.preempt hpreempt
  | cons victim rest ih =>
    rw [Requests.makeRoom] at hcall
    split at hcall
    · obtain ⟨rfl, hrest⟩ := Prod.mk.inj (Option.some.inj hcall)
      obtain ⟨rfl, rfl⟩ := Prod.mk.inj hrest
      exact h
    · obtain ⟨st₁, hpreempt, hcall⟩ := Option.bind_eq_some_iff.mp hcall
      have hvictim := h.perm (.refl _) (List.Perm.swap victim g (rest ++ kept)) (.refl _)
      exact ih (hvictim.preempt hpreempt) hcall

theorem Owned.keepRunning (hwindow : cfg.blocks.blockSlidingWindow = none) {fuel : Nat}
    {rest running' : List SequenceGroup} {st st' : Decode}
    (h : Owned cfg st.manager st.waiting (rest ++ kept) st.swapped)
    (hcall : Requests.keepRunning cfg fuel rest st = some (running', st')) :
    Owned cfg st'.manager st'.waiting (running' ++ kept) st'.swapped := by
  induction fuel generalizing rest running' kept st with
  | zero =>
    cases rest with
    | nil =>
      obtain ⟨rfl, rfl⟩ := Prod.mk.inj (Option.some.inj hcall)
      exact h
    | cons g rest => cases hcall
  | succ fuel ih =>
    cases rest with
    | nil =>
      obtain ⟨rfl, rfl⟩ := Prod.mk.inj (Option.some.inj hcall)
      exact h
    | cons g rest =>
      rw [Requests.keepRunning] at hcall
      obtain ⟨⟨left, stays, st₁⟩, hroom, hcall⟩ := Option.bind_eq_some_iff.mp hcall
      have hreversed := h.perm (.refl _)
        (((List.reverse_perm rest).symm.append_right kept).cons g) (.refl _)
      have hleft := hreversed.makeRoom hroom
      simp only at hcall
      cases stays with
      | false => exact ih (hleft.perm (.refl _)
          ((List.reverse_perm left).symm.append_right kept) (.refl _)) hcall
      | true =>
        obtain ⟨st₂, happend, hcall⟩ := Option.bind_eq_some_iff.mp hcall
        obtain ⟨⟨running₁, st₃⟩, hrest, hcall⟩ := Option.bind_eq_some_iff.mp hcall
        obtain ⟨rfl, rfl⟩ := Prod.mk.inj (Option.some.inj hcall)
        obtain ⟨hslots, hwaiting, hswapped⟩ := Owned.appendSlots hwindow hleft happend
        rw [← hwaiting, ← hswapped] at hslots
        -- the group that stays is one of those kept for the rest of the loop
        have hslots := hslots.perm (.refl _)
          ((((List.reverse_perm left).symm.append_right kept).cons g).trans
            List.perm_middle.symm) (.refl _)
        have hrest := ih hslots hrest
        exact hrest.perm (.refl _) List.perm_middle (.refl _)

theorem Owned.resumeSwapped (hwindow : cfg.blocks.blockSlidingWindow = none)
    {resumed : List SequenceGroup} {numCurrSeqs : Nat} {st st' : Decode}
    (h : Owned cfg st.manager st.waiting running swapped)
    (hcall : Requests.resumeSwapped cfg swapped numCurrSeqs st = some (resumed, st')) :
    Owned cfg st'.manager st'.waiting (running ++ resumed) st'.swapped := by
  induction swapped generalizing running resumed numCurrSeqs st with
  | nil =>
    obtain ⟨rfl, rfl⟩ := Prod.mk.inj (Option.some.inj hcall)
    rw [List.append_nil]
    exact h
  | cons g swapped ih =>
    rw [Requests.resumeSwapped] at hcall
    obtain ⟨canSwapIn, -, hcall⟩ := Option.bind_eq_some_iff.mp hcall
    split at hcall
    · obtain ⟨⟨mapping, m⟩, hswap, hcall⟩ := Option.bind_eq_some_iff.mp hcall
      obtain ⟨st₁, happend, hcall⟩ := Option.bind_eq_some_iff.mp hcall
      obtain ⟨⟨resumed₁, st₂⟩, hrest, hcall⟩ := Option.bind_eq_some_iff.mp hcall
      obtain ⟨rfl, rfl⟩ := Prod.mk.inj (Option.some.inj hcall)
      obtain ⟨hslots, hwaiting, -⟩ := Owned.appendSlots hwindow (h.swapIn hswap) happend
      rw [show st.waiting = st₁.waiting from hwaiting.symm] at hslots
      exact (ih hslots hrest).perm (.refl _) List.perm_middle.symm (.refl _)
    · obtain ⟨rfl, rfl⟩ := Prod.mk.inj (Option.some.inj hcall)
      rw [List.append_nil]
      exact h

end Loops

/-! ## The calls -/

section Calls

variable {s s' : Scheduler} {outputs : SchedulerOutputs}

/-- The invariant of a state of the scheduler. -/
def Scheduler.Owned (cfg : Config) (s : Scheduler) : Prop :=
  Requests.Owned cfg s.manager s.waiting s.running s.swapped

theorem perm_sortByPriority (cfg : Config) (gs : List SequenceGroup) :
    gs.Perm (sortByPriority cfg gs) := (List.perm_insertionSort _ gs).symm

theorem perm_sortByRequestId (cfg : Config) (gs : List SequenceGroup) :
    gs.Perm (sortByRequestId cfg gs) := (List.perm_insertionSort _ gs).symm

theorem Scheduler.Owned.scheduleDecode (hwindow : cfg.blocks.blockSlidingWindow = none)
    (h : s.Owned cfg) (hcall : s.scheduleDecode cfg = some (outputs, s')) : s'.Owned cfg := by
  unfold Scheduler.scheduleDecode at hcall
  obtain ⟨⟨running, st⟩, hkeep, hcall⟩ := Option.bind_eq_some_iff.mp hcall
  obtain ⟨⟨running', st'⟩, hresume, hcall⟩ := Option.bind_eq_some_iff.mp hcall
  simp only at hcall
  split at hcall
  · cases hcall
  obtain ⟨-, rfl⟩ := Prod.mk.inj (Option.some.inj hcall)
  show Requests.Owned cfg st'.manager st'.waiting running' st'.swapped
  have hsorted : Requests.Owned cfg s.manager s.waiting (sortByPriority cfg s.running ++ [])
      s.swapped := by
    rw [List.append_nil]
    exact Requests.Owned.perm h (.refl _) (perm_sortByPriority cfg _) (.refl _)
  have hkept := Owned.keepRunning hwindow hsorted hkeep
  rw [List.append_nil] at hkept
  have hkept := hkept.perm (.refl _) (.refl _) (perm_sortByPriority cfg _)
  unfold Decode.resume at hresume
  simp only at hresume
  split at hresume
  · obtain ⟨⟨resumed, st₁⟩, hresumed, heq⟩ := Option.map_eq_some_iff.mp hresume
    obtain ⟨rfl, rfl⟩ := Prod.mk.inj heq
    exact Owned.resumeSwapped hwindow hkept hresumed
  · obtain ⟨rfl, rfl⟩ := Prod.mk.inj (Option.some.inj hresume)
    exact hkept

theorem Scheduler.Owned.scheduleQueues (hwindow : cfg.blocks.blockSlidingWindow = none)
    (h : s.Owned cfg)
    (hone : ∀ g ∈ s.waiting, ∀ q ∈ g.getSeqs .waiting, q.len ≤ cfg.promptLimit → g.numSeqs = 1)
    (hcall : s.scheduleQueues cfg = some (outputs, s')) : s'.Owned cfg := by
  unfold Scheduler.scheduleQueues at hcall
  split at hcall
  case isFalse => exact h.scheduleDecode hwindow hcall
  case isTrue =>
    obtain ⟨⟨waiting, st⟩, hadmit, hcall⟩ := Option.bind_eq_some_iff.mp hcall
    have hstart : Requests.Owned cfg s.manager s.waiting ([] ++ s.running) s.swapped := h
    have hadmitted := Owned.admitPrompts hwindow hstart hone hadmit
    have hnext : Scheduler.Owned cfg ⟨st.manager, waiting, s.running ++ st.scheduled, s.swapped⟩ :=
      hadmitted.perm (.refl _) List.perm_append_comm (.refl _)
    simp only at hcall
    split at hcall
    · exact hnext.scheduleDecode hwindow hcall
    · obtain ⟨-, rfl⟩ := Prod.mk.inj (Option.some.inj hcall)
      exact hnext

/-- What the scheduler asks for: there are enough free blocks, and the number of layers is at most
what is left, with the two that are always kept. -/
theorem lastLayersToLoad_spec {kv : Weights.KVBlkPerLayerWeight} {free : Nat} {new : Int}
    {last : Option Int} (hnew : 0 ≤ new ∧ new ≤ kv.cachedLayerNum + 2)
    (hlast : ∀ n, last = some n →
      0 ≤ n ∧ n ≤ kv.cachedLayerNum + 2 ∧ kv.blkNumPerLayer * n ≤ free)
    {n : Int} (h : Weights.lastLayersToLoad kv free new last = some n) :
    0 ≤ n ∧ n ≤ kv.cachedLayerNum + 2 ∧ kv.blkNumPerLayer * n ≤ free := by
  fun_induction Weights.lastLayersToLoad kv free new last with
  | case1 new last num hfree =>
    obtain rfl := Option.some.inj h
    exact ⟨by omega, by omega, hfree⟩
  | case2 new last num hfree hgo ih =>
    refine ih ⟨by omega, by omega⟩ (fun n hn => ?_) h
    obtain rfl := Option.some.inj hn
    exact ⟨by omega, by omega, hfree⟩
  | case3 new last num hfree => exact hlast n h

theorem layersToLoad_nonneg (h : s.Owned cfg) {n : Int} (hn : s.layersToLoad cfg = some n) :
    0 ≤ n ∧ n ≤ s.manager.cachedLayerNum + 2 ∧
      cfg.blocks.blkNumPerLayer * n ≤ s.manager.getNumFreeBlocks .gpu := by
  unfold Scheduler.layersToLoad Weights.layersToLoad at hn
  have hcached : -2 ≤ s.manager.cachedLayerNum := h.cached
  split at hn
  · cases hn
  · split at hn
    · cases hn
    · refine lastLayersToLoad_spec ⟨?_, ?_⟩ (fun n hlast => ?_) hn
      · show 0 ≤ (s.manager.cachedLayerNum + 2) / 2
        omega
      · show (s.manager.cachedLayerNum + 2) / 2 ≤ s.manager.cachedLayerNum + 2
        omega
      · cases hlast

/-- A state in which a call of `schedule` moves no shared block and finds no group in `waiting` that
it might admit and some sequences of which are already finished. -/
structure Meets (cfg : Config) (s : Scheduler) : Prop where
  one : ∀ g ∈ s.waiting, ∀ q ∈ g.getSeqs .waiting, q.len ≤ cfg.promptLimit → g.numSeqs = 1
  movable : ∀ n, s.layersToLoad cfg = some n → cfg.dynamicIncreaseOncardWeights = true →
    Movable cfg.blocks s.manager n.toNat

theorem Scheduler.Owned.increase (h : s.Owned cfg)
    (hmovable : ∀ n, s.layersToLoad cfg = some n → Movable cfg.blocks s.manager n.toNat)
    {chains : Option (List Int × List Nat)}
    (hcall : s.increaseLayerWeightOnCompGpu cfg = some (chains, s')) :
    s'.Owned cfg ∧ s'.waiting = s.waiting := by
  unfold Scheduler.increaseLayerWeightOnCompGpu at hcall
  split at hcall
  · obtain ⟨-, rfl⟩ := Prod.mk.inj (Option.some.inj hcall)
    exact ⟨h, rfl⟩
  case h_2 n hn =>
    obtain ⟨⟨mapping, m⟩, hreorganize, hcall⟩ := Option.bind_eq_some_iff.mp hcall
    obtain ⟨chains', -, hcall⟩ := Option.bind_eq_some_iff.mp hcall
    obtain ⟨-, rfl⟩ := Prod.mk.inj (Option.some.inj hcall)
    obtain ⟨hnonneg, hle, hfree⟩ := layersToLoad_nonneg h hn
    have htoNat : (n.toNat : Int) = n := Int.toNat_of_nonneg hnonneg
    have hfree' : cfg.blocks.blkNumPerLayer * n.toNat ≤ s.manager.getNumFreeBlocks .gpu := by
      rw [← htoNat] at hfree
      exact_mod_cast hfree
    exact ⟨Requests.Owned.reorganize h hfree' (hmovable n hn) (htoNat ▸ hle) hreorganize, rfl⟩

theorem Scheduler.Owned.schedule (hwindow : cfg.blocks.blockSlidingWindow = none)
    (h : s.Owned cfg) (hmeets : Meets cfg s) {tables : List (Nat × List Nat)}
    (hcall : s.schedule cfg = some (tables, outputs, s')) : s'.Owned cfg := by
  unfold Scheduler.schedule at hcall
  obtain ⟨⟨chains, s₁⟩, hincrease, hcall⟩ := Option.bind_eq_some_iff.mp hcall
  obtain ⟨⟨outputs₁, s₂⟩, hqueues, hcall⟩ := Option.bind_eq_some_iff.mp hcall
  obtain ⟨tables₁, -, hcall⟩ := Option.bind_eq_some_iff.mp hcall
  obtain ⟨-, heq⟩ := Prod.mk.inj (Option.some.inj hcall)
  obtain ⟨-, rfl⟩ := Prod.mk.inj heq
  have hfirst : s₁.Owned cfg ∧ s₁.waiting = s.waiting := by
    unfold Scheduler.retireBlocks at hincrease
    split at hincrease
    case isTrue hdynamic =>
      exact h.increase (fun n hn => hmeets.movable n hn hdynamic) hincrease
    case isFalse =>
      obtain ⟨-, rfl⟩ := Prod.mk.inj (Option.some.inj hincrease)
      exact ⟨h, rfl⟩
  exact hfirst.1.scheduleQueues hwindow (fun g hg => hmeets.one g (hfirst.2 ▸ hg)) hqueues

/-! ## Aborted requests -/

theorem perm_takeAborted (requestIds : List Nat) (gs : List SequenceGroup) :
    gs.Perm ((takeAborted requestIds gs).1 ++ (takeAborted requestIds gs).2.1) := by
  induction gs generalizing requestIds with
  | nil => exact .refl _
  | cons g gs ih =>
    rw [takeAborted]
    split
    · exact (ih _).cons g
    · exact ((ih _).cons g).trans List.perm_middle.symm

/-- What is left of a queue is in its order. -/
theorem takeAborted_sublist (requestIds : List Nat) (gs : List SequenceGroup) :
    (takeAborted requestIds gs).2.1.Sublist gs := by
  induction gs generalizing requestIds with
  | nil => exact .refl _
  | cons g gs ih =>
    rw [takeAborted]
    split
    · exact (ih _).trans (List.sublist_cons_self _ _)
    · exact (ih _).cons_cons g

/-- Sequences are freed one after the other. -/
theorem freeSeqs_spec {m m' : BlockManager} {qs : List Sequence} (h : m.Inv cfg.blocks)
    (hcall : qs.foldlM (fun m q => m.free q.seqId) m = some m') :
    m'.Inv cfg.blocks ∧ m'.cachedLayerNum = m.cachedLayerNum ∧
      ∀ id, m'.blockTables.lookup id =
        if id ∈ qs.map Sequence.seqId then none else m.blockTables.lookup id := by
  induction qs generalizing m with
  | nil =>
    obtain rfl := Option.some.inj hcall
    exact ⟨h, rfl, fun id => rfl⟩
  | cons q qs ih =>
    rw [List.foldlM_cons] at hcall
    obtain ⟨m₁, hfree, hrest⟩ := Option.bind_eq_some_iff.mp hcall
    obtain ⟨m₂, hfree', hinv, htables, -⟩ := h.free q.seqId
    obtain rfl := Option.some.inj (hfree'.symm.trans hfree)
    obtain ⟨hinv', hcached, hlookup⟩ := ih hinv hrest
    refine ⟨hinv', hcached.trans (free_cached hfree), fun id => ?_⟩
    rw [hlookup, htables, Dict.lookup_erase h.keys_nodup, List.map_cons]
    by_cases hid : id ∈ qs.map Sequence.seqId
    · rw [if_pos hid, if_pos (.tail _ hid)]
    · rw [if_neg hid]
      simp [hid]

/-- The sequences of some groups that are not finished. -/
def unfinished (gs : List SequenceGroup) : List Sequence :=
  gs.flatMap fun g => g.seqs.filter fun q => !q.status.isFinished

theorem foldlM_freeUnfinished (gs : List SequenceGroup) (m : BlockManager) :
    gs.foldlM freeUnfinished m = (unfinished gs).foldlM (fun m q => m.free q.seqId) m := by
  induction gs generalizing m with
  | nil => rfl
  | cons g gs ih =>
    rw [List.foldlM_cons, unfinished, List.flatMap_cons, List.foldlM_append]
    exact bind_congr fun m => ih m

/-- A sequence of a group that stays is not among the freed ones. -/
theorem holds_of_not_freed {gs aborted left : List SequenceGroup} {status : SequenceStatus}
    {id : Nat} (hperm : gs.Perm (aborted ++ left)) (hstatus : status.isFinished = false)
    (hid : id ∉ (unfinished aborted).map Sequence.seqId) (h : Holds gs status id) :
    Holds left status id := by
  obtain ⟨g, hg, q, hq, rfl⟩ := h
  rcases List.mem_append.mp (hperm.mem_iff.mp hg) with hin | hin
  · exfalso
    apply hid
    obtain ⟨hmem, hq'⟩ := mem_getSeqs.mp hq
    refine List.mem_map_of_mem (List.mem_flatMap.mpr ⟨g, hin, List.mem_filter.mpr ⟨hmem, ?_⟩⟩)
    rw [hq', hstatus]
    rfl
  · exact ⟨g, hin, q, hq, rfl⟩

theorem Scheduler.Owned.abortSeqGroup (h : s.Owned cfg) {requestIds : List Nat}
    (hcall : s.abortSeqGroup requestIds = some s') : s'.Owned cfg := by
  unfold Scheduler.abortSeqGroup at hcall
  obtain ⟨m, hfree, rfl⟩ := Option.map_eq_some_iff.mp hcall
  rw [foldlM_freeUnfinished] at hfree
  obtain ⟨hinv, hcached, hlookup⟩ := freeSeqs_spec h.inv hfree
  refine Requests.Owned.drop h (takeAborted_sublist _ _) (takeAborted_sublist _ _)
    (takeAborted_sublist _ _) hinv hcached fun id table htable => ?_
  rw [hlookup] at htable
  obtain ⟨hid, htable⟩ := Option.ite_none_left_eq_some.mp htable
  rw [unfinished, List.flatMap_append, List.flatMap_append, List.map_append, List.map_append,
    List.mem_append, List.mem_append, not_or, not_or] at hid
  exact ⟨htable, holds_of_not_freed (perm_takeAborted _ _) rfl hid.1.2,
    holds_of_not_freed (perm_takeAborted _ _) rfl hid.2⟩

/-! ## Whole runs -/

theorem Scheduler.Owned.addSeqGroup {g : SequenceGroup} (h : s.Owned cfg)
    (hnew : NewRequest cfg s g) :
    Scheduler.Owned cfg { s with waiting := s.waiting ++ [g] } := by
  obtain ⟨q, hseqs, hwaiting, hid⟩ := hnew.single
  have hfront : (g :: (s.waiting ++ s.running ++ s.swapped)).Perm
      (s.waiting ++ [g] ++ s.running ++ s.swapped) := by
    simp [List.perm_middle.symm]
  refine ⟨h.inv, h.cached, ?_, fun g' hg' => ?_, h.of_running, h.of_swapped, h.tables⟩
  · refine (seqIds_perm hfront).nodup_iff.mp ?_
    rw [seqIds_cons, hseqs]
    exact List.nodup_cons.mpr ⟨hid, h.ids_nodup⟩
  · rcases List.mem_append.mp hg' with hin | hin
    · exact h.of_waiting g' hin
    · rw [List.mem_singleton.mp hin]
      refine ⟨⟨hnew.pre_eq, hnew.best_of_pos, hnew.best_of_le, fun q' hq' => ?_⟩, ?_⟩
      · rw [hseqs, List.mem_singleton] at hq'
        exact .inl (hq' ▸ hwaiting)
      · rw [SequenceGroup.getSeqs, hseqs]
        simp [hwaiting]

/-- Fewer ids may be used. -/
theorem GroupStep.of_subset {used used' : List Nat} {m m' : BlockManager} {g g' : SequenceGroup}
    (h : GroupStep used m g m' g') (hsub : ∀ id ∈ used', id ∈ used) :
    GroupStep used' m g m' g' := by
  cases h with
  | appendToken hseqs hq => exact .appendToken hseqs hq
  | addFinished hnew hfin => exact .addFinished (fun hmem => hnew (hsub _ hmem)) hfin
  | fork hparent hnew hcall => exact .fork hparent (fun hmem => hnew (hsub _ hmem)) hcall
  | finish hseqs hfin hcall => exact .finish hseqs hfin hcall
  | remove hseqs hcall => exact .remove hseqs hcall

/-- One step. -/
theorem Scheduler.Owned.step (hwindow : cfg.blocks.blockSlidingWindow = none) (h : s.Owned cfg)
    (hmeets : Meets cfg s) (hstep : Step cfg s s') : s'.Owned cfg := by
  cases hstep with
  | addSeqGroup hnew => exact h.addSeqGroup hnew
  | abortSeqGroup requestIds hcall => exact h.abortSeqGroup hcall
  | schedule hcall => exact h.schedule hwindow hmeets hcall
  | @group before after g g' m' hrunning hgroup =>
    have hperm : s.running.Perm (g :: (before ++ after)) := hrunning ▸ List.perm_middle
    have hfront := Requests.Owned.perm h (.refl _) hperm (.refl _)
    have hids : (Requests.seqIds (s.waiting ++ g :: (before ++ after) ++ s.swapped)).Perm s.seqIds :=
      seqIds_perm ((hperm.symm.append_left _).append_right _)
    have hgroup := hgroup.of_subset fun id hid => hids.mem_iff.mp hid
    exact (hfront.groupStep hgroup).perm (.refl _) List.perm_middle.symm (.refl _)
  | freeFinishedSeqGroups =>
    refine Requests.Owned.drop h (.refl _) List.filter_sublist (.refl _) h.inv rfl
      fun id table htable => ⟨htable, ?_, fun hheld => hheld⟩
    rintro ⟨g, hg, q, hq, hid⟩
    refine ⟨g, List.mem_filter.mpr ⟨hg, ?_⟩, q, hq, hid⟩
    obtain ⟨hmem, hrunning⟩ := mem_getSeqs.mp hq
    rw [Bool.not_eq_true', SequenceGroup.isFinished, List.all_eq_false]
    exact ⟨q, hmem, by rw [hrunning]; decide⟩

/-- Every state of a run whose states meet the condition. -/
theorem Reach.owned (hwindow : cfg.blocks.blockSlidingWindow = none)
    (h : Reach cfg (Meets cfg) s) : s.Owned cfg := by
  induction h with
  | init hcached =>
    exact ⟨inv_init _ _, hcached, List.nodup_nil, fun g hg => (List.not_mem_nil hg).elim,
      fun g hg => (List.not_mem_nil hg).elim, fun g hg => (List.not_mem_nil hg).elim,
      fun id table htable => by cases htable⟩
  | step _ hmeets hstep ih => exact ih.step hwindow hmeets hstep

end Calls

end Mil.Requests
