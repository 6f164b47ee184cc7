import Mil.KvCache.Contents
import Mil.KvCache.Forward
import Mil.Requests.Queues

/-!
# The engine over the paged cache

`LLMEngine.step` of `vllm/engine/llm_engine.py` with the tokens of the sequences and the contents of
the blocks: the scheduler decides what runs, the worker moves blocks and runs the model, and the
sampled tokens are taken in sequence by sequence (`EngineStep`). Each of these steps is a step of the
scheduler (`EngineStep.toStep`).

The tokens that are sampled are any. A token is appended to a sequence that has run in the last step
and has got no token since (`sampled`); a fork has the tokens of its parent before its last one, and
one of its own.
-/

set_option autoImplicit false

namespace Mil.Requests

open Mil.Lib Mil.Blocks Mil.KvCache

variable {Hidden Entry : Type}

/-! ## The engine -/

/-- The scheduler, the tokens of the sequences, what the blocks hold (by layer and offset), and the
sequences whose sampled tokens are still to be taken in. -/
structure Engine (Entry : Type) where
  scheduler : Scheduler
  tokens : Nat → List Nat
  cache : Block → Nat → Nat → Entry
  sampled : List Nat

/-- What the blocks hold after the GPU cache has changed. -/
def setGpu (cache : Block → Nat → Nat → Entry) (gpu : Cache Entry) : Block → Nat → Nat → Entry
  | ⟨.gpu, n⟩ => gpu n
  | ⟨.cpu, n⟩ => cache ⟨.cpu, n⟩

/-- The input of the model: the sequences of the metadata. -/
def Engine.inputs (e : Engine Entry) (tables : List (Nat × List Nat)) : List SeqInput :=
  tables.map fun p => ⟨e.tokens p.1, p.2⟩

/-- `execute_model` of the worker, with the outputs of the scheduler: blocks are moved, then the
model runs. The hidden states that are sampled from, and the engine. -/
def Engine.execute (M : Decoder Hidden Entry) (blockSize : Nat) (outputs : SchedulerOutputs)
    (tables : List (Nat × List Nat)) (copies : List (Block × Block)) (s' : Scheduler)
    (e : Engine Entry) : Option (List Hidden × Engine Entry) :=
  let cache := cacheSwap outputs copies e.cache
  (executeModel M blockSize outputs.promptRun (e.inputs tables) fun n => cache ⟨.gpu, n⟩).map
    fun (hidden, gpu) =>
      (hidden, { scheduler := s'
                 tokens := e.tokens
                 cache := setGpu cache gpu
                 sampled := tables.map Prod.fst })

/-- The tokens of a fork: those its parent had before its last one, and one of its own. -/
def forkTokens (tokens : Nat → List Nat) (parent child token : Nat) : Nat → List Nat :=
  Function.update tokens child ((tokens parent).dropLast ++ [token])

/-- What happens to the engine. -/
inductive EngineStep (M : Decoder Hidden Entry) (cfg : Config) (e : Engine Entry) :
    Engine Entry → Prop
  | addSeqGroup {g : SequenceGroup} {q : Sequence} {prompt : List Nat}
      (hnew : NewRequest cfg e.scheduler g) (hseqs : g.seqs = [q]) (hprompt : prompt ≠ [])
      (hlen : q.len = prompt.length) :
      EngineStep M cfg e { e with
        scheduler := { e.scheduler with waiting := e.scheduler.waiting ++ [g] }
        tokens := Function.update e.tokens q.seqId prompt }
  | abortSeqGroup {s' : Scheduler} (requestIds : List Nat)
      (hcall : e.scheduler.abortSeqGroup requestIds = some s') :
      EngineStep M cfg e { e with scheduler := s' }
  | step {s' : Scheduler} {tables : List (Nat × List Nat)} {outputs : SchedulerOutputs}
      {copies : List (Block × Block)} {hidden : List Hidden} {e' : Engine Entry}
      (hcall : e.scheduler.schedule cfg = some (tables, outputs, s'))
      (hcopies : (copyMoves outputs.blocksToCopy).Perm copies)
      (hexecute : e.execute M cfg.blocks.blockSize outputs tables copies s' = some (hidden, e')) :
      EngineStep M cfg e e'
  | appendToken {before after : List SequenceGroup} {g : SequenceGroup} {front back : List Sequence}
      {q : Sequence} (token : Nat) (hrunning : e.scheduler.running = before ++ g :: after)
      (hseqs : g.seqs = front ++ q :: back) (hq : q.status = .running)
      (hsampled : q.seqId ∈ e.sampled) :
      EngineStep M cfg e
        { scheduler := { e.scheduler with
            running := before ++ { g with seqs := front ++ { q with len := q.len + 1 } :: back } ::
              after }
          tokens := Function.update e.tokens q.seqId (e.tokens q.seqId ++ [token])
          cache := e.cache
          sampled := e.sampled.filter (· ≠ q.seqId) }
  | addFinished {before after : List SequenceGroup} {g : SequenceGroup} {parent : Sequence}
      {child : Nat} {status : SequenceStatus} (token : Nat)
      (hrunning : e.scheduler.running = before ++ g :: after) (hparent : parent ∈ g.seqs)
      (hnew : child ∉ e.scheduler.seqIds) (hfin : status.isFinished) :
      EngineStep M cfg e { e with
        scheduler := { e.scheduler with
          running := before ++
            { g with seqs := g.seqs ++ [{ parent with seqId := child, status := status }] } ::
              after }
        tokens := forkTokens e.tokens parent.seqId child token }
  | fork {before after : List SequenceGroup} {g : SequenceGroup} {parent : Sequence} {child : Nat}
      {m' : BlockManager} (token : Nat) (hrunning : e.scheduler.running = before ++ g :: after)
      (hparent : parent ∈ g.getSeqs .running) (hnew : child ∉ e.scheduler.seqIds)
      (htaken : parent.seqId ∉ e.sampled)
      (hcall : e.scheduler.manager.fork parent.seqId child = some m') :
      EngineStep M cfg e
        { scheduler := { e.scheduler with
            manager := m'
            running := before ++ { g with seqs := g.seqs ++ [{ parent with seqId := child }] } ::
              after }
          tokens := forkTokens e.tokens parent.seqId child token
          cache := e.cache
          sampled := e.sampled.filter (· ≠ child) }
  | finish {before after : List SequenceGroup} {g : SequenceGroup} {front back : List Sequence}
      {q : Sequence} {status : SequenceStatus} {m' : BlockManager}
      (hrunning : e.scheduler.running = before ++ g :: after)
      (hseqs : g.seqs = front ++ q :: back) (hfin : status.isFinished)
      (hcall : e.scheduler.manager.free q.seqId = some m') :
      EngineStep M cfg e { e with
        scheduler := { e.scheduler with
          manager := m'
          running := before ++ { g with seqs := front ++ { q with status := status } :: back } ::
            after } }
  | remove {before after : List SequenceGroup} {g : SequenceGroup} {front back : List Sequence}
      {q : Sequence} {m' : BlockManager} (hrunning : e.scheduler.running = before ++ g :: after)
      (hseqs : g.seqs = front ++ q :: back)
      (hcall : e.scheduler.manager.free q.seqId = some m') :
      EngineStep M cfg e { e with
        scheduler := { e.scheduler with
          manager := m'
          running := before ++ { g with seqs := front ++ back } :: after } }
  | freeFinishedSeqGroups :
      EngineStep M cfg e { e with
        scheduler := { e.scheduler with
          running := e.scheduler.running.filter fun g => !g.isFinished } }

/-- The states of the engine that are reached by steps from states in which the scheduler meets the
condition. At first the blocks may hold anything. -/
inductive EngineReach (M : Decoder Hidden Entry) (cfg : Config) : Engine Entry → Prop
  | init {cachedLayerNum : Int} (hcached : -2 ≤ cachedLayerNum)
      (tokens : Nat → List Nat) (cache : Block → Nat → Nat → Entry) :
      EngineReach M cfg ⟨Scheduler.init cfg cachedLayerNum, tokens, cache, []⟩
  | step {e e' : Engine Entry} (h : EngineReach M cfg e) (hmeets : Meets cfg e.scheduler)
      (hstep : EngineStep M cfg e e') : EngineReach M cfg e'

variable {M : Decoder Hidden Entry} {cfg : Config} {e e' : Engine Entry}

theorem execute_eq_some {blockSize : Nat} {outputs : SchedulerOutputs}
    {tables : List (Nat × List Nat)} {copies : List (Block × Block)} {s' : Scheduler}
    {hidden : List Hidden}
    (h : e.execute M blockSize outputs tables copies s' = some (hidden, e')) :
    ∃ gpu, executeModel M blockSize outputs.promptRun (e.inputs tables)
        (fun n => cacheSwap outputs copies e.cache ⟨.gpu, n⟩) = some (hidden, gpu) ∧
      e' = ⟨s', e.tokens, setGpu (cacheSwap outputs copies e.cache) gpu, tables.map Prod.fst⟩ := by
  obtain ⟨⟨hidden', gpu⟩, hrun, heq⟩ := Option.map_eq_some_iff.mp h
  obtain ⟨rfl, rfl⟩ := Prod.mk.inj heq
  exact ⟨gpu, hrun, rfl⟩

/-- A step of the engine is a step of its scheduler. -/
theorem EngineStep.toStep (h : EngineStep M cfg e e') : Step cfg e.scheduler e'.scheduler := by
  cases h with
  | addSeqGroup hnew _ _ _ => exact .addSeqGroup hnew
  | abortSeqGroup requestIds hcall => exact .abortSeqGroup requestIds hcall
  | step hcall _ hexecute =>
    obtain ⟨gpu, -, rfl⟩ := execute_eq_some hexecute
    exact .schedule hcall
  | appendToken _ hrunning hseqs hq _ => exact .group hrunning (.appendToken hseqs hq)
  | addFinished _ hrunning _ hnew hfin => exact .group hrunning (.addFinished hnew hfin)
  | fork _ hrunning hparent hnew _ hcall => exact .group hrunning (.fork hparent hnew hcall)
  | finish hrunning hseqs hfin hcall => exact .group hrunning (.finish hseqs hfin hcall)
  | remove hrunning hseqs hcall => exact .group hrunning (.remove hseqs hcall)
  | freeFinishedSeqGroups => exact .freeFinishedSeqGroups

end Mil.Requests
