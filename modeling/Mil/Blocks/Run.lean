import Mil.Blocks.Manager

/-!
# Runs of the block manager

The calls that the scheduler and the engine make, in any order and with any arguments. What a call
returns besides the new state is dropped here; a call that raises ends the run.
-/

set_option autoImplicit false

namespace Mil.Blocks

/-- A call of a method of `BlockSpaceManager` that changes its state. -/
inductive Op
  | allocate (g : SequenceGroup)
  | appendSlot (s : Sequence)
  | fork (parent child : Nat)
  | swapIn (g : SequenceGroup)
  | swapOut (g : SequenceGroup)
  | free (seqId : Nat)
  | reset
  | reorganizeGpuBlocks (numLayerToLoad : Nat)
deriving DecidableEq, Repr

namespace Op

def call (cfg : Config) (m : BlockManager) : Op → Option BlockManager
  | allocate g => m.allocate cfg g
  | appendSlot s => (m.appendSlot cfg s).map Prod.snd
  | fork parent child => m.fork parent child
  | swapIn g => (m.swapIn g).map Prod.snd
  | swapOut g => (m.swapOut g).map Prod.snd
  | free seqId => m.free seqId
  | reset => m.reset
  | reorganizeGpuBlocks n => (m.reorganizeGpuBlocks cfg n).map Prod.snd

/-- The calls of a list, one after the other. -/
def calls (cfg : Config) (m : BlockManager) (ops : List Op) : Option BlockManager :=
  ops.foldlM (call cfg) m

end Op

/-- The states that calls with the condition `ok` lead to. -/
inductive Reach (cfg : Config) (ok : BlockManager → Op → Prop) : BlockManager → Prop
  | init (cachedLayerNum : Int) : Reach cfg ok (BlockManager.init cfg cachedLayerNum)
  | step {m m' : BlockManager} {op : Op} (h : Reach cfg ok m) (hok : ok m op)
      (hcall : op.call cfg m = some m') : Reach cfg ok m'

/-- A list of calls each of which meets the condition in the state before it. -/
theorem Reach.of_calls {cfg : Config} {ok : BlockManager → Op → Prop} {m m' : BlockManager}
    (h : Reach cfg ok m) {ops : List Op}
    (hok : ∀ (i : Nat) (op : Op) (m₁ : BlockManager), ops[i]? = some op →
      Op.calls cfg m (ops.take i) = some m₁ → ok m₁ op)
    (hcalls : Op.calls cfg m ops = some m') : Reach cfg ok m' := by
  induction ops generalizing m with
  | nil =>
    obtain rfl := Option.some.inj hcalls
    exact h
  | cons op ops ih =>
    rw [Op.calls, List.foldlM_cons] at hcalls
    obtain ⟨m₁, hcall, hrest⟩ := Option.bind_eq_some_iff.mp hcalls
    refine ih (h.step (hok 0 op m rfl rfl) hcall) (fun i op' m₂ hop hpre => ?_) hrest
    refine hok (i + 1) op' m₂ hop ?_
    rw [List.take_succ_cons, Op.calls, List.foldlM_cons, hcall]
    exact hpre

end Mil.Blocks
