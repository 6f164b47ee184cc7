import Mil.LlmEngine.Process

/-!
# The loop of the engine

`add_request`, `abort_request` and `step` of `vllm/engine/llm_engine.py`: the scheduler decides what
runs, the worker moves blocks and runs the model over the paged cache, tokens are sampled, and their
groups take them in. The sampler is a parameter of each step; it gets the scheduled groups, the data
of the sequences and the hidden states.

Beside the engine stands one without a cache (`Frontend.step`), in which the model makes a pass over
all tokens of each sequence. Both do the same in every run (`step_eq_plain`): paging, sharing,
swapping and preemption of blocks change nothing in what is generated.

Left out: LoRA, prefixes, the statistics and the outputs that are returned.
-/

set_option autoImplicit false

namespace Mil.Requests

open Mil.Lib Mil.Blocks Mil.Blocks.BlockManager Mil.KvCache

variable {Hidden Entry Logprob Score : Type} [LinearOrder Score]

/-! ## The engine -/

/-- The engine without its workers: the scheduler, the data of the sequences and `seq_counter`. -/
structure Frontend (Logprob : Type) where
  scheduler : Scheduler
  data : Nat → SequenceData Logprob
  seqCounter : Nat

structure LLMEngine (Logprob Entry : Type) where
  frontend : Frontend Logprob
  cache : Block → Nat → Nat → Entry

/-- What the sampler of a step does: the scheduled groups, whether they are prompts, the data of the
sequences and the hidden states give the outputs of the groups. -/
abbrev Sampler (Hidden Logprob : Type) :=
  List SequenceGroup → Bool → (Nat → SequenceData Logprob) → List Hidden →
    Option (List (List (SequenceOutput Logprob)))

def SchedulerOutputs.isEmpty (outputs : SchedulerOutputs) : Bool :=
  outputs.scheduledSeqGroups.isEmpty && outputs.blocksToSwapIn.isEmpty &&
    outputs.blocksToSwapOut.isEmpty && outputs.blocksToCopy.isEmpty &&
    outputs.blocksToReorganize.isNone

namespace Frontend

/-- `add_request` -/
def addRequest (S : Sampling Logprob Score) (requestId : Nat) (promptTokenIds : List Nat)
    (bestOf : Nat) (useBeamSearch : Bool) (e : Frontend Logprob) : Frontend Logprob where
  scheduler := { e.scheduler with
    waiting := e.scheduler.waiting ++
      [⟨requestId, [⟨e.seqCounter, .waiting, promptTokenIds.length⟩], bestOf, useBeamSearch,
        none⟩] }
  data := Function.update e.data e.seqCounter ⟨promptTokenIds, [], S.zero⟩
  seqCounter := e.seqCounter + 1

/-- `abort_request` -/
def abortRequest (requestIds : List Nat) (e : Frontend Logprob) : Option (Frontend Logprob) :=
  (e.scheduler.abortSeqGroup requestIds).map fun s => { e with scheduler := s }

/-- The loop of `_process_model_outputs` over the groups and their outputs. A group changes where it
stands in `running`. -/
def processGroups (cfg : Config) (S : Sampling Logprob Score) :
    List SequenceGroup → List (List (SequenceOutput Logprob)) → Frontend Logprob →
      Option (Frontend Logprob)
  | g :: gs, samples :: output, e => do
    let st ← processSequenceGroupOutputs cfg S samples e.scheduler.manager g e.data e.seqCounter
    processGroups cfg S gs output
      ⟨{ e.scheduler with
          manager := st.manager
          running := e.scheduler.running.replace g st.group }, st.data, st.seqCounter⟩
  | _, _, e => some e

/-- `_process_model_outputs` -/
def processModelOutputs (cfg : Config) (S : Sampling Logprob Score)
    (scheduled : List SequenceGroup) (output : List (List (SequenceOutput Logprob)))
    (e : Frontend Logprob) : Option (Frontend Logprob) := do
  let e ← processGroups cfg S scheduled output e
  return { e with
    scheduler := { e.scheduler with
      running := e.scheduler.running.filter fun g => !g.isFinished } }

/-- The tokens are sampled; a step without groups has no outputs. -/
def sample (sampler : Sampler Hidden Logprob) (outputs : SchedulerOutputs) (hidden : List Hidden)
    (e : Frontend Logprob) : Option (List (List (SequenceOutput Logprob))) :=
  if outputs.scheduledSeqGroups.isEmpty then some []
  else sampler outputs.scheduledSeqGroups outputs.promptRun e.data hidden

/-- A step without a cache: the model makes a pass over all tokens. -/
def step (M : Decoder Hidden Entry) (cfg : Config) (S : Sampling Logprob Score)
    (sampler : Sampler Hidden Logprob) (e : Frontend Logprob) : Option (Frontend Logprob) := do
  let (tables, outputs, s) ← e.scheduler.schedule cfg
  let output ← e.sample sampler outputs
    (tables.map fun p => M.output (e.data p.1).getTokenIds)
  processModelOutputs cfg S outputs.scheduledSeqGroups output { e with scheduler := s }

end Frontend

namespace LLMEngine

def init (cfg : Config) (cachedLayerNum : Int) (data : Nat → SequenceData Logprob)
    (cache : Block → Nat → Nat → Entry) : LLMEngine Logprob Entry :=
  ⟨⟨Scheduler.init cfg cachedLayerNum, data, 0⟩, cache⟩

/-- The call of `execute_model` in the worker. The copy kernel takes the pairs in some order. -/
def executeModel (M : Decoder Hidden Entry) (cfg : Config)
    (kernel : List (Block × Block) → List (Block × Block)) (tables : List (Nat × List Nat))
    (outputs : SchedulerOutputs) (e : LLMEngine Logprob Entry) :
    Option (List Hidden × (Block → Nat → Nat → Entry)) :=
  if outputs.isEmpty then some ([], e.cache)
  else
    let cache := cacheSwap outputs (kernel (copyMoves outputs.blocksToCopy)) e.cache
    if outputs.scheduledSeqGroups.isEmpty then some ([], cache)
    else
      let inputs := tables.map fun p => ⟨(e.frontend.data p.1).getTokenIds, p.2⟩
      (KvCache.executeModel M cfg.blocks.blockSize outputs.promptRun inputs
        fun n => cache ⟨.gpu, n⟩).map fun (hidden, gpu) => (hidden, setGpu cache gpu)

/-- `step` -/
def step (M : Decoder Hidden Entry) (cfg : Config) (S : Sampling Logprob Score)
    (sampler : Sampler Hidden Logprob) (kernel : List (Block × Block) → List (Block × Block))
    (e : LLMEngine Logprob Entry) : Option (LLMEngine Logprob Entry) := do
  let (tables, outputs, s) ← e.frontend.scheduler.schedule cfg
  let (hidden, cache) ← e.executeModel M cfg kernel tables outputs
  let output ← e.frontend.sample sampler outputs hidden
  let frontend ← Frontend.processModelOutputs cfg S outputs.scheduledSeqGroups output
    { e.frontend with scheduler := s }
  return ⟨frontend, cache⟩

end LLMEngine

/-- The states of the engine that calls lead to, in any order, from states in which no waiting group
that may be admitted has finished sequences. At first the blocks may hold anything. -/
inductive LLMReach (M : Decoder Hidden Entry) (cfg : Config) (S : Sampling Logprob Score) :
    LLMEngine Logprob Entry → Prop
  | init {cachedLayerNum : Int} (hcached : -2 ≤ cachedLayerNum)
      (data : Nat → SequenceData Logprob) (cache : Block → Nat → Nat → Entry) :
      LLMReach M cfg S (.init cfg cachedLayerNum data cache)
  | addRequest {e : LLMEngine Logprob Entry} (h : LLMReach M cfg S e)
      (hone : Admissible cfg e.frontend.scheduler.waiting) (requestId : Nat)
      {promptTokenIds : List Nat} (hprompt : promptTokenIds ≠ []) {bestOf : Nat}
      (hpos : 0 < bestOf) (hle : bestOf ≤ cfg.maxNumSeqs) (useBeamSearch : Bool) :
      LLMReach M cfg S { e with
        frontend := e.frontend.addRequest S requestId promptTokenIds bestOf useBeamSearch }
  | abortRequest {e : LLMEngine Logprob Entry} (h : LLMReach M cfg S e)
      (hone : Admissible cfg e.frontend.scheduler.waiting) (requestIds : List Nat)
      {frontend : Frontend Logprob} (hcall : e.frontend.abortRequest requestIds = some frontend) :
      LLMReach M cfg S { e with frontend := frontend }
  | step {e e' : LLMEngine Logprob Entry} (h : LLMReach M cfg S e)
      (hone : Admissible cfg e.frontend.scheduler.waiting) (sampler : Sampler Hidden Logprob)
      {kernel : List (Block × Block) → List (Block × Block)}
      (hkernel : ∀ moves : List (Block × Block), moves.Perm (kernel moves))
      (hcall : e.step M cfg S sampler kernel = some e') : LLMReach M cfg S e'

variable {M : Decoder Hidden Entry} {cfg : Config} {S : Sampling Logprob Score}

/-- The engine has a run in the steps of the engine over the paged cache, and no id is used up to
the counter. -/
structure Frontend.Follows (M : Decoder Hidden Entry) (cfg : Config)
    (cache : Block → Nat → Nat → Entry) (sampled : List Nat) (e : Frontend Logprob) : Prop where
  reach : EngineReach M cfg ⟨e.scheduler, fun id => (e.data id).getTokenIds, cache, sampled⟩
  counter : ∀ id ∈ e.scheduler.seqIds, id < e.seqCounter

/-! ## The loop over the groups -/

theorem processGroups_waiting {gs : List SequenceGroup}
    {output : List (List (SequenceOutput Logprob))} {e e' : Frontend Logprob}
    (hcall : Frontend.processGroups cfg S gs output e = some e') :
    e'.scheduler.waiting = e.scheduler.waiting := by
  induction gs generalizing output e with
  | nil =>
    obtain rfl := Option.some.inj hcall
    rfl
  | cons g gs ih =>
    cases output with
    | nil =>
      obtain rfl := Option.some.inj hcall
      rfl
    | cons samples output =>
      obtain ⟨st, -, hcall⟩ := Option.bind_eq_some_iff.mp hcall
      have hwaiting := ih hcall
      exact hwaiting

theorem processModelOutputs_waiting {scheduled : List SequenceGroup}
    {output : List (List (SequenceOutput Logprob))} {e e' : Frontend Logprob}
    (hcall : Frontend.processModelOutputs cfg S scheduled output e = some e') :
    e'.scheduler.waiting = e.scheduler.waiting := by
  obtain ⟨e₁, hgroups, hcall⟩ := Option.bind_eq_some_iff.mp hcall
  obtain rfl := Option.some.inj hcall
  have hwaiting := processGroups_waiting hgroups
  exact hwaiting

section Groups

variable (hwindow : cfg.blocks.blockSlidingWindow = none)
  (hdynamic : cfg.dynamicIncreaseOncardWeights = false) (hsize : 0 < cfg.blocks.blockSize)
  {cache : Block → Nat → Nat → Entry} {sampled : List Nat} {gs : List SequenceGroup}
  {e e' : Frontend Logprob} {output : List (List (SequenceOutput Logprob))}
include hwindow hdynamic hsize

/-- One group. The sequences of the groups that come after it have still to take in their tokens. -/
theorem Frontend.Follows.process {g : SequenceGroup} {samples : List (SequenceOutput Logprob)}
    {st : Processing Logprob} (h : e.Follows M cfg cache sampled)
    (hrunning : (g :: gs).Subperm e.scheduler.running) (hone : Admissible cfg e.scheduler.waiting)
    (hsampled : ∀ g' ∈ g :: gs, ∀ q ∈ g'.getSeqs .running, q.seqId ∈ sampled)
    (hcall : processSequenceGroupOutputs cfg S samples e.scheduler.manager g e.data e.seqCounter =
      some st) :
    gs.Subperm (e.scheduler.running.replace g st.group) ∧
    ∃ sampled', Frontend.Follows M cfg cache sampled'
        ⟨{ e.scheduler with
            manager := st.manager
            running := e.scheduler.running.replace g st.group }, st.data, st.seqCounter⟩ ∧
      ∀ g' ∈ gs, ∀ q ∈ g'.getSeqs .running, q.seqId ∈ sampled' := by
  obtain ⟨before, after, hbefore, hsplit, herase⟩ :=
    List.exists_erase_eq (hrunning.subset List.mem_cons_self)
  have hothers : gs.Subperm (before ++ after) := by
    have hsub := hrunning.erase g
    rw [List.erase_cons_head, herase] at hsub
    exact hsub
  have hreplace : e.scheduler.running.replace g st.group = before ++ st.group :: after := by
    rw [hsplit, List.replace_append_right hbefore, List.replace_cons_self]
  rw [hreplace]
  -- the later groups are still in the queue, before or after the one that is replaced
  refine ⟨hothers.trans ((List.sublist_cons_self _ _).append_left before).subperm, ?_⟩
  let a : Around Entry := ⟨e.scheduler.waiting, e.scheduler.swapped, before, after, cache⟩
  let keep := gs.flatMap fun g => (g.getSeqs .running).map Sequence.seqId
  have hkeep : keep ⊆ a.seqIds := by
    intro id hid
    obtain ⟨g', hg', hid⟩ := List.mem_flatMap.mp hid
    obtain ⟨q, hq, rfl⟩ := List.mem_map.mp hid
    refine Requests.mem_seqIds.mpr ⟨g', ?_, q, (mem_getSeqs.mp hq).1, rfl⟩
    rcases List.mem_append.mp (hothers.subset hg') with hin | hin
    · exact List.mem_append_left _ (List.mem_append_right _ (List.mem_append_left _ hin))
    · exact List.mem_append_left _ (List.mem_append_right _ (List.mem_append_right _ hin))
  have hkept : keep ⊆ sampled := by
    intro id hid
    obtain ⟨g', hg', hid⟩ := List.mem_flatMap.mp hid
    obtain ⟨q, hq, rfl⟩ := List.mem_map.mp hid
    exact hsampled g' (.tail _ hg') q hq
  -- the engine around a group that is processed is the whole engine
  have hrun : ∀ (st : Processing Logprob) (sampled : List Nat),
      st.engine a [] sampled = ⟨⟨st.manager, e.scheduler.waiting, before ++ st.group :: after,
        e.scheduler.swapped⟩, fun id => (st.data id).getTokenIds, cache, sampled⟩ := by
    intro st sampled
    unfold Processing.engine
    rw [unstop_nil]
  have hstart : e.scheduler = ⟨e.scheduler.manager, e.scheduler.waiting, before ++ g :: after,
      e.scheduler.swapped⟩ := by
    rw [← hsplit]
  have hreach := h.reach
  have hcounter := h.counter
  rw [hstart] at hreach hcounter
  have hids := seqIds_engine a [] sampled ⟨e.scheduler.manager, g, e.data, e.seqCounter, []⟩
  rw [hrun] at hids
  rw [← hrun ⟨e.scheduler.manager, g, e.data, e.seqCounter, []⟩] at hreach
  obtain ⟨sampled', hreach', hkept', hcounter'⟩ := process_reach (a := a) hwindow hdynamic hsize
    hone hreach (fun id hid => hcounter id (hids.mem_iff.mpr hid)) (hsampled g (.head _)) hkeep
    hkept hcall
  have hids' := seqIds_engine a [] sampled' st
  rw [hrun] at hreach' hids'
  refine ⟨sampled', ⟨hreach', fun id hid => ?_⟩, fun g' hg' q hq => ?_⟩
  · exact hcounter' id (hids'.mem_iff.mp hid)
  · exact hkept' (List.mem_flatMap.mpr ⟨g', hg', List.mem_map_of_mem hq⟩)

theorem Frontend.Follows.processGroups (h : e.Follows M cfg cache sampled)
    (hrunning : gs.Subperm e.scheduler.running) (hone : Admissible cfg e.scheduler.waiting)
    (hsampled : ∀ g ∈ gs, ∀ q ∈ g.getSeqs .running, q.seqId ∈ sampled)
    (hcall : Frontend.processGroups cfg S gs output e = some e') :
    ∃ sampled', e'.Follows M cfg cache sampled' := by
  induction gs generalizing output e sampled with
  | nil =>
    obtain rfl := Option.some.inj hcall
    exact ⟨sampled, h⟩
  | cons g gs ih =>
    cases output with
    | nil =>
      obtain rfl := Option.some.inj hcall
      exact ⟨sampled, h⟩
    | cons samples output =>
      obtain ⟨st, hprocess, hcall⟩ := Option.bind_eq_some_iff.mp hcall
      obtain ⟨hrunning₁, sampled₁, h₁, hsampled₁⟩ :=
        h.process hwindow hdynamic hsize hrunning hone hsampled hprocess
      exact ih h₁ hrunning₁ hone hsampled₁ hcall

/-- The scheduled groups take in their outputs, and the finished ones leave. -/
theorem Frontend.Follows.processModelOutputs (h : e.Follows M cfg cache sampled)
    (hrunning : gs.Subperm e.scheduler.running) (hone : Admissible cfg e.scheduler.waiting)
    (hsampled : ∀ g ∈ gs, ∀ q ∈ g.getSeqs .running, q.seqId ∈ sampled)
    (hcall : Frontend.processModelOutputs cfg S gs output e = some e') :
    ∃ sampled', e'.Follows M cfg cache sampled' := by
  obtain ⟨e₁, hgroups, hcall⟩ := Option.bind_eq_some_iff.mp hcall
  obtain rfl := Option.some.inj hcall
  have hwaiting := processGroups_waiting hgroups
  obtain ⟨sampled', h'⟩ := h.processGroups hwindow hdynamic hsize hrunning hone hsampled hgroups
  have hmeets : Meets cfg e₁.scheduler :=
    Admissible.meets (hwaiting ▸ hone : Admissible cfg e₁.scheduler.waiting) hdynamic
  refine ⟨sampled', h'.reach.step hmeets .freeFinishedSeqGroups, fun id hid => h'.counter id ?_⟩
  refine (List.Sublist.flatMap ?_ _).subset hid
  exact ((List.Sublist.refl _).append List.filter_sublist).append (.refl _)

end Groups

/-! ## Runs -/

section Runs

variable (hwindow : cfg.blocks.blockSlidingWindow = none)
  (hdynamic : cfg.dynamicIncreaseOncardWeights = false) (hsize : 0 < cfg.blocks.blockSize)
  {e e' : LLMEngine Logprob Entry} {sampled : List Nat} {tables : List (Nat × List Nat)}
  {outputs : SchedulerOutputs} {s : Scheduler}

/-- The scheduled groups are among those that run. -/
theorem schedule_running {s₀ : Scheduler} (hcall : s₀.schedule cfg = some (tables, outputs, s)) :
    outputs.scheduledSeqGroups.Subperm s.running := by
  rcases schedule_run hcall with ⟨_, _, _, h⟩ | ⟨_, _, _, h⟩
  · rw [h.scheduled, h.running]
    exact (perm_sortByRequestId cfg _).symm.subperm.trans (List.sublist_append_right _ _).subperm
  · rw [h.scheduled]
    exact (perm_sortByRequestId cfg _).symm.subperm

/-- The tables are those of the scheduled sequences that run. -/
theorem map_fst_tables {s₀ : Scheduler} (hcall : s₀.schedule cfg = some (tables, outputs, s)) :
    tables.map Prod.fst = (runningSeqs outputs.scheduledSeqGroups).map Sequence.seqId := by
  unfold Scheduler.schedule at hcall
  obtain ⟨⟨chains, s₁⟩, -, hcall⟩ := Option.bind_eq_some_iff.mp hcall
  obtain ⟨⟨outputs₁, s₂⟩, -, hcall⟩ := Option.bind_eq_some_iff.mp hcall
  obtain ⟨tables₁, htables, hcall⟩ := Option.bind_eq_some_iff.mp hcall
  obtain ⟨rfl, heq⟩ := Prod.mk.inj (Option.some.inj hcall)
  obtain ⟨rfl, rfl⟩ := Prod.mk.inj heq
  rw [blockTables_eq htables, List.map_map]
  exact List.map_id _

theorem setGpu_self (cache : Block → Nat → Nat → Entry) :
    setGpu cache (fun n => cache ⟨.gpu, n⟩) = cache := by
  funext b
  obtain ⟨device, n⟩ := b
  cases device <;> rfl

/-- A step without groups and blocks to move leaves the cache as it is. -/
theorem cacheSwap_of_isEmpty {copies : List (Block × Block)}
    (hcopies : (copyMoves outputs.blocksToCopy).Perm copies) (hempty : outputs.isEmpty = true)
    (cache : Block → Nat → Nat → Entry) : cacheSwap outputs copies cache = cache := by
  simp only [SchedulerOutputs.isEmpty, Bool.and_eq_true, List.isEmpty_iff] at hempty
  obtain ⟨⟨⟨⟨-, hin⟩, hout⟩, hcopy⟩, -⟩ := hempty
  rw [hcopy] at hcopies
  obtain rfl := hcopies.symm.eq_nil
  rw [cacheSwap, hin, hout]
  rfl

include hwindow hdynamic hsize

/-- The worker gets its hidden states from the cache; they are those of passes over all tokens. -/
theorem executeModel_eq {kernel : List (Block × Block) → List (Block × Block)}
    (hkernel : ∀ moves : List (Block × Block), moves.Perm (kernel moves))
    (hreach : EngineReach M cfg ⟨e.frontend.scheduler, fun id => (e.frontend.data id).getTokenIds,
      e.cache, sampled⟩)
    (hone : Admissible cfg e.frontend.scheduler.waiting)
    (hcall : e.frontend.scheduler.schedule cfg = some (tables, outputs, s)) :
    ∃ cache, e.executeModel M cfg kernel tables outputs =
        some (tables.map fun p => M.output (e.frontend.data p.1).getTokenIds, cache) ∧
      EngineReach M cfg ⟨s, fun id => (e.frontend.data id).getTokenIds, cache,
        tables.map Prod.fst⟩ := by
  have hmeets := hone.meets hdynamic
  have hcopies := hkernel (copyMoves outputs.blocksToCopy)
  obtain ⟨e₁, hexecute, -⟩ := execute_inv hwindow hdynamic hsize
    (hreach.inv hwindow hdynamic hsize) hmeets hcall hcopies
  have hstep := hreach.step hmeets (.step hcall hcopies hexecute)
  obtain ⟨gpu, hmodel, rfl⟩ := execute_eq_some hexecute
  refine ⟨_, ?_, hstep⟩
  -- without groups there is nothing to compute
  have hnone : outputs.scheduledSeqGroups.isEmpty = true → tables = [] ∧
      gpu = fun n => cacheSwap outputs (kernel (copyMoves outputs.blocksToCopy)) e.cache ⟨.gpu, n⟩ := by
    intro hempty
    have htables := map_fst_tables hcall
    rw [List.isEmpty_iff.mp hempty] at htables
    obtain rfl := List.map_eq_nil_iff.mp htables
    exact ⟨rfl, (Prod.mk.inj (Option.some.inj hmodel)).2.symm⟩
  unfold LLMEngine.executeModel
  by_cases hempty : outputs.isEmpty = true
  · have hgroups : outputs.scheduledSeqGroups.isEmpty = true := by
      simp only [SchedulerOutputs.isEmpty, Bool.and_eq_true] at hempty
      exact hempty.1.1.1.1
    obtain ⟨rfl, rfl⟩ := hnone hgroups
    rw [if_pos hempty, setGpu_self, cacheSwap_of_isEmpty hcopies hempty]
    rfl
  · rw [if_neg hempty]
    by_cases hgroups : outputs.scheduledSeqGroups.isEmpty = true
    · obtain ⟨rfl, rfl⟩ := hnone hgroups
      simp only [hgroups, if_pos, setGpu_self]
      rfl
    · simp only [hgroups, Bool.false_eq_true, if_false]
      exact congrArg (Option.map _) hmodel

/-! ### What the engine over the paged cache does alike -/

omit [LinearOrder Score] hwindow hsize in
/-- A request arrives. Its sequence gets the number that the counter shows. -/
theorem Frontend.Follows.addRequest {f : Frontend Logprob} {cache : Block → Nat → Nat → Entry}
    (h : f.Follows M cfg cache sampled) (hone : Admissible cfg f.scheduler.waiting)
    (requestId : Nat) {promptTokenIds : List Nat} (hprompt : promptTokenIds ≠ []) {bestOf : Nat}
    (hpos : 0 < bestOf) (hle : bestOf ≤ cfg.maxNumSeqs) (useBeamSearch : Bool) :
    (f.addRequest S requestId promptTokenIds bestOf useBeamSearch).Follows M cfg cache sampled := by
  let q : Sequence := ⟨f.seqCounter, .waiting, promptTokenIds.length⟩
  have hid : q.seqId ∉ f.scheduler.seqIds := fun hin => Nat.lt_irrefl _ (h.counter _ hin)
  have hnew : NewRequest cfg f.scheduler ⟨requestId, [q], bestOf, useBeamSearch, none⟩ :=
    ⟨⟨q, rfl, rfl, hid⟩, rfl, hpos, hle⟩
  have hreach := h.reach.step (hone.meets hdynamic) (.addSeqGroup hnew rfl hprompt rfl)
  have htokens : (fun id => (Function.update f.data f.seqCounter
      ⟨promptTokenIds, [], S.zero⟩ id).getTokenIds) =
      Function.update (fun id => (f.data id).getTokenIds) q.seqId promptTokenIds := by
    funext id
    by_cases heq : id = f.seqCounter
    · rw [heq, Function.update_self, Function.update_self]
      exact List.append_nil _
    · rw [Function.update_of_ne heq, Function.update_of_ne heq]
  refine ⟨?_, fun id hin => ?_⟩
  · show EngineReach M cfg ⟨_, fun id => (Function.update f.data f.seqCounter
      ⟨promptTokenIds, [], S.zero⟩ id).getTokenIds, _, _⟩
    rw [htokens]
    exact hreach
  · have hcases : id ∈ f.scheduler.seqIds ∨ id = f.seqCounter := by
      simp only [Scheduler.seqIds, Frontend.addRequest, seqIds_append, seqIds_cons, List.mem_append,
        List.map_cons, List.map_nil, List.mem_singleton] at hin
      simp only [Scheduler.seqIds, seqIds_append, List.mem_append]
      have hnil : id ∉ Requests.seqIds [] := List.not_mem_nil
      tauto
    rcases hcases with hin | rfl
    · exact Nat.lt_succ_of_lt (h.counter id hin)
    · exact Nat.lt_succ_self _

omit hwindow hsize in
/-- Requests are aborted. The queues lose groups and get none. -/
theorem Frontend.Follows.abortRequest {f f' : Frontend Logprob}
    {cache : Block → Nat → Nat → Entry} (h : f.Follows M cfg cache sampled)
    (hone : Admissible cfg f.scheduler.waiting) {requestIds : List Nat}
    (hcall : f.abortRequest requestIds = some f') : f'.Follows M cfg cache sampled := by
  obtain ⟨s, habort, rfl⟩ := Option.map_eq_some_iff.mp hcall
  have hreach := h.reach.step (hone.meets hdynamic) (.abortSeqGroup requestIds habort)
  refine ⟨hreach, fun id hin => h.counter id ?_⟩
  obtain ⟨m, -, rfl⟩ := Option.map_eq_some_iff.mp habort
  refine (List.Sublist.flatMap ?_ _).subset hin
  exact ((takeAborted_sublist _ _).append (takeAborted_sublist _ _)).append
    (takeAborted_sublist _ _)

/-- A step: the groups are scheduled, the worker runs the model, and the sampled tokens are taken
in. -/
theorem LLMEngine.follows_step {kernel : List (Block × Block) → List (Block × Block)}
    (hkernel : ∀ moves : List (Block × Block), moves.Perm (kernel moves))
    {sampler : Sampler Hidden Logprob} (h : e.frontend.Follows M cfg e.cache sampled)
    (hbefore : Admissible cfg e.frontend.scheduler.waiting)
    (hone : Admissible cfg e'.frontend.scheduler.waiting)
    (hcall : e.step M cfg S sampler kernel = some e') :
    ∃ sampled', e'.frontend.Follows M cfg e'.cache sampled' := by
  obtain ⟨⟨tables, outputs, s⟩, hschedule, hcall⟩ := Option.bind_eq_some_iff.mp hcall
  obtain ⟨⟨hidden, cache⟩, hmodel, hcall⟩ := Option.bind_eq_some_iff.mp hcall
  obtain ⟨output, -, hcall⟩ := Option.bind_eq_some_iff.mp hcall
  obtain ⟨frontend, hprocess, hcall⟩ := Option.bind_eq_some_iff.mp hcall
  obtain rfl := Option.some.inj hcall
  obtain ⟨cache', hmodel', hreach⟩ := executeModel_eq hwindow hdynamic hsize hkernel h.reach
    hbefore hschedule
  obtain ⟨-, rfl⟩ := Prod.mk.inj (Option.some.inj (hmodel'.symm.trans hmodel))
  -- scheduling makes no sequences, so the counter is still past all of them
  have hscheduled : Frontend.Follows M cfg cache' (tables.map Prod.fst)
      { e.frontend with scheduler := s } := by
    refine ⟨hreach, fun id hin => ?_⟩
    obtain ⟨g', hg', q', hq', rfl⟩ := Requests.mem_seqIds.mp hin
    obtain ⟨g, hg, q, hq, hid, -⟩ := mem_groups_schedule hschedule hg' hq'
    exact h.counter _ (hid ▸ mem_seqIds_of_mem hg hq)
  have hwaiting := processModelOutputs_waiting hprocess
  refine hscheduled.processModelOutputs hwindow hdynamic hsize (schedule_running hschedule)
    (hwaiting ▸ hone)
    (fun g hg q hq => ?_) hprocess
  rw [map_fst_tables hschedule]
  exact List.mem_map_of_mem (List.mem_flatMap.mpr ⟨g, hg, hq⟩)

/-- In every state that the engine reaches, the engine over the paged cache can be where it is. -/
theorem LLMReach.follows (h : LLMReach M cfg S e) :
    Admissible cfg e.frontend.scheduler.waiting →
      ∃ sampled, e.frontend.Follows M cfg e.cache sampled := by
  induction h with
  | init hcached data cache =>
    exact fun _ => ⟨[], .init hcached _ cache, fun id hid => absurd hid List.not_mem_nil⟩
  | addRequest _ hbefore requestId hprompt hpos hle useBeamSearch ih =>
    intro _
    obtain ⟨sampled, h⟩ := ih hbefore
    exact ⟨sampled, h.addRequest hdynamic hbefore requestId hprompt hpos hle useBeamSearch⟩
  | abortRequest _ hbefore requestIds hcall ih =>
    intro _
    obtain ⟨sampled, h⟩ := ih hbefore
    exact ⟨sampled, h.abortRequest hdynamic hbefore hcall⟩
  | step _ hbefore sampler hkernel hcall ih =>
    intro hone
    obtain ⟨sampled, h⟩ := ih hbefore
    exact LLMEngine.follows_step hwindow hdynamic hsize hkernel h hbefore hone hcall

/-- A step of the engine over the paged cache does what a step of the engine without a cache does:
it raises when that raises, and else changes the scheduler and the sequences alike. -/
theorem step_eq_plain (h : LLMReach M cfg S e)
    (hone : Admissible cfg e.frontend.scheduler.waiting) (sampler : Sampler Hidden Logprob)
    {kernel : List (Block × Block) → List (Block × Block)}
    (hkernel : ∀ moves : List (Block × Block), moves.Perm (kernel moves)) :
    (e.step M cfg S sampler kernel).map LLMEngine.frontend = e.frontend.step M cfg S sampler := by
  obtain ⟨sampled, hfollows⟩ := h.follows hwindow hdynamic hsize hone
  unfold LLMEngine.step Frontend.step
  cases hschedule : e.frontend.scheduler.schedule cfg with
  | none => rfl
  | some result =>
    obtain ⟨tables, outputs, s⟩ := result
    obtain ⟨cache, hmodel, -⟩ := executeModel_eq hwindow hdynamic hsize hkernel hfollows.reach hone
      hschedule
    show ((e.executeModel M cfg kernel tables outputs).bind _).map _ = _
    rw [hmodel]
    show ((e.frontend.sample sampler outputs _).bind _).map _ =
      (e.frontend.sample sampler outputs _).bind _
    cases e.frontend.sample sampler outputs
      (tables.map fun p => M.output (e.frontend.data p.1).getTokenIds) with
    | none => rfl
    | some output =>
      show ((Frontend.processModelOutputs cfg S outputs.scheduledSeqGroups output _).bind _).map _ =
        Frontend.processModelOutputs cfg S outputs.scheduledSeqGroups output _
      cases Frontend.processModelOutputs cfg S outputs.scheduledSeqGroups output
        { e.frontend with scheduler := s } <;> rfl

end Runs

/-! ## Groups with two sequences -/

section Fork

/-- Sequences that do not stop, and a score that is the sum of the log probabilities. -/
def endless : Sampling Nat Nat where
  samplingParams := fun _ => ⟨1, .no, [], [], true, none⟩
  eosTokenId := none
  outputText := fun _ _ => ""
  zero := 0
  add := (· + ·)
  score := fun logprob _ _ => logprob

/-- A prompt gets two samples, and later each sequence the one that its hidden state is. -/
def forkSampler : Sampler Nat Nat := fun groups isPrompt _ hidden =>
  let rows := ((runningSeqs groups).map Sequence.seqId).zip hidden
  some (groups.map fun g => (g.getSeqs .running).flatMap fun q =>
    if isPrompt then [⟨q.seqId, 7, [(7, 0)]⟩, ⟨q.seqId, 8, [(8, 0)]⟩]
    else (rows.lookup q.seqId).toList.map fun h => ⟨q.seqId, h, [(h, 0)]⟩)

/-- Two requests for two sequences have come, the one with the larger id first. -/
def requested : LLMEngine Nat Nat :=
  let e : LLMEngine Nat Nat := .init forkConfig 0 (fun _ => ⟨[], [], 0⟩) fun _ _ _ => 0
  { e with
    frontend := (e.frontend.addRequest endless 1 (List.range 10) 2 false).addRequest endless 0
      (List.range 12) 2 false }

/-- The prompts have run, and both groups have forked. -/
def forkedEngine : LLMEngine Nat Nat :=
  (requested.step sumDecoder forkConfig endless forkSampler id).get (by decide +kernel)

theorem reach_forkedEngine : LLMReach sumDecoder forkConfig endless forkedEngine := by
  have hstart : LLMReach sumDecoder forkConfig endless
      (.init forkConfig 0 (fun _ => ⟨[], [], 0⟩) fun _ _ _ => 0) :=
    .init (show (-2 : Int) ≤ 0 by decide) _ _
  have hnone : Admissible forkConfig [] := fun _ hg => absurd hg List.not_mem_nil
  have hprompt : List.range 10 ≠ [] := by decide
  have hprompt' : List.range 12 ≠ [] := by decide
  have hfirst := LLMReach.addRequest hstart hnone 1 hprompt (show 0 < 2 by decide) (by decide) false
  have hrequested : LLMReach sumDecoder forkConfig endless requested := by
    refine .addRequest hfirst ?_ 0 hprompt' (by decide) (by decide) false
    unfold Admissible
    decide
  have hone : Admissible forkConfig requested.frontend.scheduler.waiting := by
    unfold Admissible
    decide
  exact .step hrequested hone forkSampler List.Perm.refl (Option.some_get _).symm

/-- The sequences of a group share the block of their prompt, and go on as without a cache. The group
with the smaller id was sampled first, so its child came first. -/
theorem step_eq_plain_forked :
    forkedEngine.frontend.scheduler.running =
        [⟨1, [⟨0, .running, 11⟩, ⟨3, .running, 11⟩], 2, false, none⟩,
          ⟨0, [⟨1, .running, 13⟩, ⟨2, .running, 13⟩], 2, false, none⟩] ∧
      (forkedEngine.step sumDecoder forkConfig endless forkSampler id).map LLMEngine.frontend =
        forkedEngine.frontend.step sumDecoder forkConfig endless forkSampler := by
  refine ⟨by decide, ?_⟩
  have hone : Admissible forkConfig forkedEngine.frontend.scheduler.waiting := by
    unfold Admissible
    decide
  exact step_eq_plain rfl rfl (by decide) reach_forkedEngine hone forkSampler List.Perm.refl

end Fork

end Mil.Requests
