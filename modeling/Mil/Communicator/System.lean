import Mathlib.Data.Finset.Union
import Mathlib.Logic.Relation
import Mil.Communicator.State

/-!
# Interleavings

Two transition systems over the communicator. In `Call` every method call is one step. In `Step`
a call is cut at its locks: `add_seqs_base_model` is seen between the `extend` and the decrement
it ends with, and `get_seqs_base_model` between the reads of two sources and between the choice
of a lock and the read under it. Readers and writers of different models interleave freely at
those points; the add lock serialises the adds of one model and the fetch lock the fetches of
one model.

`callStep_steps` says that a call is a run of its steps, so what holds in every state reached by
steps holds in every state reached by calls.
-/

set_option autoImplicit false

namespace Mil.Communicator

open Mil.Lib Relation

/-! ## The workload -/

section Workload

variable {α : Type}

/-- The inputs of `toModelId` that output `outReqId` of `fromModelId` feeds. -/
def inputsOf (cfg : Config α) (fromModelId toModelId : ModelId) (outReqId : ReqId) :
    List ReqId :=
  match cfg.inpReqFromWhichModelWhichOutReqs toModelId fromModelId with
  | some info => reversed info outReqId
  | none => [outReqId]

/-- The ids in the output pool once `raw` has been added: the ids themselves, or the merged
ids all of whose parts are in `raw`. -/
def pooledIds (cfg : Config α) (modelId : ModelId) (raw : List ReqId) : Finset ReqId :=
  match cfg.newOutReqPartNum modelId with
  | none => raw.toFinset
  | some d => (d.keys.filter fun newOutId =>
      let n := (d.lookup newOutId).getD 0
      0 < n ∧ ∀ i < n, ∃ r ∈ raw, cfg.outReqIdMapping modelId r = some (newOutId, i)).toFinset

/-- The input requests of `toModelId` when the models add the outputs `raw`. With one source or
independent sources every output stands for itself; otherwise a request needs all sources. -/
def inputReqs (cfg : Config α) (raw : ModelId → List ReqId) (toModelId : ModelId) :
    Finset ReqId :=
  let inps := cfg.inEdgeDictWithDummyInpNodes toModelId
  let fed := fun src => (pooledIds cfg src (raw src)).biUnion fun out =>
    (inputsOf cfg src toModelId out).toFinset
  if oneSrc cfg toModelId then inps.toFinset.biUnion fed
  else match inps with
    | [] => ∅
    | src :: _ => (fed src).filter fun id => ∀ src ∈ inps, id ∈ fed src

/-- The outputs the models are going to add, and what the request graph guarantees about them:
two outputs never fill the same part of a merged output, and an input request of a model with
independent sources comes from one of them. -/
structure Workload (cfg : Config α) where
  rawOutIds : ModelId → List ReqId
  merge_inj : ∀ u, ∀ r ∈ rawOutIds u, ∀ r' ∈ rawOutIds u, ∀ p,
    cfg.outReqIdMapping u r = some p → cfg.outReqIdMapping u r' = some p → r = r'
  indep_disjoint : ∀ m, oneSrc cfg m →
    ∀ src ∈ cfg.inEdgeDictWithDummyInpNodes m, ∀ src' ∈ cfg.inEdgeDictWithDummyInpNodes m,
    ∀ out ∈ pooledIds cfg src (rawOutIds src), ∀ out' ∈ pooledIds cfg src' (rawOutIds src'),
    ∀ id, id ∈ inputsOf cfg src m out → id ∈ inputsOf cfg src' m out' → src = src'

/-- The outputs `u` will have put into its pool. -/
def Workload.outIds {cfg : Config α} (w : Workload cfg) (u : ModelId) : Finset ReqId :=
  pooledIds cfg u (w.rawOutIds u)

/-- The input requests of `m`. -/
def Workload.inputReqs {cfg : Config α} (w : Workload cfg) (m : ModelId) : Finset ReqId :=
  Communicator.inputReqs cfg w.rawOutIds m

end Workload

/-! ## Configurations -/

variable {α : Type} [Content α]

/-- A call of `get_seqs_base_model` under way. `todo` are the sources still to read, `lockHeld`
the lock chosen for the first of them. -/
structure Fetch (α : Type) where
  sharedId : SharedId
  dpId : Nat
  dpSize : Nat
  todo : List (ModelId × Nat)
  lockHeld : Option LockKind
  acc : Acc α

/-- The communicator, the calls under way, and a record of what has happened: the outputs
added, the requests assembled, the requests returned with the worker they went to, the size set
by the last reset, and whether some call has answered `possible_to_get_future_reqs=False`. -/
structure Sys (α : Type) where
  st : State α
  adding : ModelId → Option Nat
  fetching : ModelId → Option (Fetch α)
  added : ModelId → List (Req α)
  assembled : ModelId → List (Req α)
  returned : ModelId → List (Nat × Req α)
  dpSize : ModelId → Nat
  signalled : ModelId → Bool

/-- The requests of `m` returned so far, to whichever worker. -/
def Sys.returnedReqs (s : Sys α) (m : ModelId) : List (Req α) := (s.returned m).map Prod.snd

/-- The requests of `m` no worker has fetched, according to its queue and its cursors. -/
def Sys.undelivered (s : Sys α) (m : ModelId) : List (Req α) :=
  pending (s.st.fusedInpQueues m) (s.st.fetchedFusedInpStart m) (s.st.fetchedFusedInpStart m).length

def Sys.init (cfg : Config α) (unavailableReqNums ungenedOutReqNums : ModelId → Int) : Sys α where
  st := State.init cfg unavailableReqNums ungenedOutReqNums
  adding := fun _ => none
  fetching := fun _ => none
  added := fun _ => []
  assembled := fun _ => []
  returned := fun _ => []
  dpSize := fun _ => 0
  signalled := fun _ => false

/-- Outputs `u` may add now: outputs of the workload, none of them added before. -/
def Sys.MayAdd {cfg : Config α} (w : Workload cfg) (s : Sys α) (u : ModelId)
    (seqs : List (Req α)) : Prop :=
  (seqs.map Prod.fst).Nodup ∧
    ∀ r ∈ seqs, r.1 ∈ w.rawOutIds u ∧ r.1 ∉ (s.added u).map Prod.fst

/-- The record after a call of `get_seqs_base_model` returned. -/
def Sys.record (s : Sys α) (m : ModelId) (dpId : Nat) (f : Fetched α) : Sys α :=
  { s with
    assembled := Function.update s.assembled m (s.assembled m ++ f.assembled)
    returned := Function.update s.returned m
      (s.returned m ++ f.ret.map fun req => (dpId, req))
    signalled := Function.update s.signalled m
      (s.signalled m || !f.possibleToGetFutureReqs) }

/-! ## Steps -/

inductive Step (cfg : Config α) (w : Workload cfg) : Sys α → Sys α → Prop
  | addExtend {s : Sys α} {u : ModelId} {seqs : List (Req α)} {st : State α} {n : Nat}
      (idle : s.adding u = none) (may : s.MayAdd w u seqs)
      (run : extendOutputPool cfg u s.st seqs = some (st, n)) :
      Step cfg w s { s with
        st := st
        adding := Function.update s.adding u (some n)
        added := Function.update s.added u (s.added u ++ seqs) }
  | addDec {s : Sys α} {u : ModelId} {n : Nat} (adding : s.adding u = some n) :
      Step cfg w s { s with
        st := decUngened u n s.st
        adding := Function.update s.adding u none }
  | fetchBegin {s : Sys α} {m : ModelId} {sharedId : SharedId} {dpId : Nat}
      (idle : s.fetching m = none) (dp : dpId < s.dpSize m) :
      Step cfg w s { s with
        fetching := Function.update s.fetching m
          (some ⟨sharedId, dpId, s.dpSize m, sourcesToRead cfg m s.st, none, Acc.empty⟩) }
  | fetchLock {s : Sys α} {m src : ModelId} {i : Nat} {rest : List (ModelId × Nat)}
      {f : Fetch α} (fetch : s.fetching m = some f) (todo : f.todo = (src, i) :: rest)
      (unlocked : f.lockHeld = none) :
      Step cfg w s { s with
        fetching := Function.update s.fetching m
          (some { f with lockHeld := some (getCorrectLock s.st src) }) }
  | fetchRead {s : Sys α} {m src : ModelId} {i : Nat} {rest : List (ModelId × Nat)}
      {f : Fetch α} {k : LockKind} (fetch : s.fetching m = some f)
      (todo : f.todo = (src, i) :: rest) (locked : f.lockHeld = some k)
      (free : k = .lock → s.adding src = none) :
      Step cfg w s { s with
        st := (readSource cfg m i src (s.st, f.acc)).1
        fetching := Function.update s.fetching m (some { f with
          todo := rest
          lockHeld := none
          acc := (readSource cfg m i src (s.st, f.acc)).2 }) }
  | fetchEnd {s : Sys α} {m : ModelId} {f : Fetch α} {reqs ret : List (Req α)} {st : State α}
      {possible : Bool} (fetch : s.fetching m = some f) (todo : f.todo = [])
      (fused : fusedReqs cfg m s.st f.acc = some reqs)
      (run : handOut cfg f.sharedId m f.dpId f.dpSize (appendFused m s.st reqs) =
        some (st, ret, possible)) :
      Step cfg w s { s.record m f.dpId ⟨reqs, ret, possible⟩ with
        st := st
        fetching := Function.update s.fetching m none }
  | reset {s : Sys α} {m : ModelId} {dpSize : Nat}
      (same : ∀ f, s.fetching m = some f → f.dpSize = dpSize) (pos : 0 < dpSize) :
      Step cfg w s { s with
        st := resetStateForBaseModel m dpSize s.st
        dpSize := Function.update s.dpSize m dpSize }

/-- One whole call. -/
inductive Call (cfg : Config α) (w : Workload cfg) : Sys α → Sys α → Prop
  | addSeqs {s : Sys α} {u : ModelId} (seqs : List (Req α)) {st : State α}
      (may : s.MayAdd w u seqs) (run : addSeqsBaseModel cfg u s.st seqs = some st) :
      Call cfg w s { s with
        st := st
        added := Function.update s.added u (s.added u ++ seqs) }
  | getSeqs {s : Sys α} {m : ModelId} (sharedId : SharedId) (dpId : Nat) {st : State α}
      {f : Fetched α} (dp : dpId < s.dpSize m)
      (run : getSeqsBaseModel cfg sharedId m dpId (s.dpSize m) s.st = some (st, f)) :
      Call cfg w s { s.record m dpId f with st := st }
  | reset {s : Sys α} {m : ModelId} (dpSize : Nat) (pos : 0 < dpSize) :
      Call cfg w s { s with
        st := resetStateForBaseModel m dpSize s.st
        dpSize := Function.update s.dpSize m dpSize }

/-! ## A call is a run of its steps -/

/-- No call is under way. -/
def Sys.Quiet (s : Sys α) : Prop := (∀ u, s.adding u = none) ∧ ∀ m, s.fetching m = none

variable {cfg : Config α} {w : Workload cfg}

omit [Content α] in
theorem Sys.quiet_init (u₀ g₀ : ModelId → Int) : (Sys.init cfg u₀ g₀).Quiet :=
  ⟨fun _ => rfl, fun _ => rfl⟩

theorem Call.quiet {s s' : Sys α} (h : Call cfg w s s') (hq : s.Quiet) : s'.Quiet := by
  cases h <;> exact hq

/-- The sources are read one after the other, each under its lock. -/
theorem readSources_steps {m : ModelId} :
    ∀ (srcs : List (ModelId × Nat)) {s : Sys α} {f : Fetch α},
      (∀ u, s.adding u = none) → s.fetching m = some f → f.todo = srcs → f.lockHeld = none →
      ReflTransGen (Step cfg w) s { s with
        st := (srcs.foldl (fun a e => readSource cfg m e.2 e.1 a) (s.st, f.acc)).1
        fetching := Function.update s.fetching m (some { f with
          todo := []
          acc := (srcs.foldl (fun a e => readSource cfg m e.2 e.1 a) (s.st, f.acc)).2 }) }
  | [], s, f, _, hf, htodo, _ => by
    have hsame : Function.update s.fetching m (some { f with todo := [], acc := f.acc }) =
        s.fetching := by
      rw [← htodo]
      exact Function.update_eq_self_iff.mpr hf.symm
    simp only [List.foldl_nil]
    rw [hsame]
  | (src, i) :: rest, s, f, hadd, hf, htodo, hlock => by
    have h₁ : Step cfg w s _ := Step.fetchLock hf htodo hlock
    have h₂ : Step cfg w { s with
        fetching := Function.update s.fetching m
          (some { f with lockHeld := some (getCorrectLock s.st src) }) } _ :=
      Step.fetchRead (Function.update_self ..) htodo rfl (fun _ => hadd src)
    have h₃ := readSources_steps rest
      (s := { s with
        st := (readSource cfg m i src (s.st, f.acc)).1
        fetching := Function.update (Function.update s.fetching m
          (some { f with lockHeld := some (getCorrectLock s.st src) })) m
          (some { f with
            todo := rest
            lockHeld := none
            acc := (readSource cfg m i src (s.st, f.acc)).2 }) })
      hadd (Function.update_self ..) rfl rfl
    refine ReflTransGen.head h₁ (ReflTransGen.head h₂ ?_)
    simp only [Function.update_idem, hlock] at h₃ ⊢
    exact h₃

omit [Content α] in
theorem appendFused_nil (m : ModelId) (st : State α) : appendFused m st [] = st := by
  unfold appendFused
  simp

/-- The atomic method, with the sources it reads spelled out. -/
theorem getSeqsBaseModel_eq (sharedId : SharedId) (m : ModelId) (dpId dpSize : Nat)
    (st : State α) :
    getSeqsBaseModel cfg sharedId m dpId dpSize st = (do
      let a := (sourcesToRead cfg m st).foldl (fun s e => readSource cfg m e.2 e.1 s)
        (st, Acc.empty)
      let reqs ← fusedReqs cfg m a.1 a.2
      let (st, ret, possible) ← handOut cfg sharedId m dpId dpSize (appendFused m a.1 reqs)
      return (st, ⟨reqs, ret, possible⟩)) := by
  unfold getSeqsBaseModel getFusedInpQueues sourcesToRead
  by_cases h : st.unavailableReqNums m = 0
  · have hnil : fusedReqs cfg m st Acc.empty = some [] := by
      unfold fusedReqs sortById Acc.empty
      split <;> simp
    simp [h, hnil, appendFused_nil]
  · simp only [if_neg h]
    cases fusedReqs cfg m _ _ <;> rfl

theorem callStep_steps {s s' : Sys α} (h : Call cfg w s s') (hq : s.Quiet) :
    ReflTransGen (Step cfg w) s s' := by
  obtain ⟨hadd, hfetch⟩ := hq
  cases h with
  | @addSeqs u seqs st may run =>
    unfold addSeqsBaseModel at run
    simp only [Option.bind_eq_bind, Option.bind_eq_some_iff, Option.pure_def,
      Option.some.injEq, Prod.exists] at run
    obtain ⟨st₁, n, hext, rfl⟩ := run
    have h₁ : Step cfg w s _ := Step.addExtend (hadd u) may hext
    have h₂ : Step cfg w { s with
        st := st₁
        adding := Function.update s.adding u (some n)
        added := Function.update s.added u (s.added u ++ seqs) } _ :=
      Step.addDec (Function.update_self ..)
    have hsame : Function.update s.adding u none = s.adding :=
      Function.update_eq_self_iff.mpr (hadd u).symm
    refine ReflTransGen.head h₁ (ReflTransGen.single ?_)
    simp only [Function.update_idem, hsame] at h₂
    exact h₂
  | @getSeqs m sharedId dpId st f dp run =>
    rw [getSeqsBaseModel_eq] at run
    simp only [Option.bind_eq_bind, Option.bind_eq_some_iff, Option.pure_def,
      Option.some.injEq, Prod.exists, Prod.mk.injEq] at run
    obtain ⟨reqs, hreqs, st₂, ret, possible, hrun, rfl, rfl⟩ := run
    have h₁ : Step cfg w s { s with
        fetching := Function.update s.fetching m
          (some ⟨sharedId, dpId, s.dpSize m, sourcesToRead cfg m s.st, none, Acc.empty⟩) } :=
      Step.fetchBegin (hfetch m) dp
    have h₂ : ReflTransGen (Step cfg w) { s with
        fetching := Function.update s.fetching m
          (some ⟨sharedId, dpId, s.dpSize m, sourcesToRead cfg m s.st, none, Acc.empty⟩) } _ :=
      readSources_steps (sourcesToRead cfg m s.st) hadd (Function.update_self ..) rfl rfl
    refine ReflTransGen.head h₁ (h₂.trans (ReflTransGen.single ?_))
    have h₃ : Step cfg w { s with
        st := ((sourcesToRead cfg m s.st).foldl (fun a e => readSource cfg m e.2 e.1 a)
          (s.st, Acc.empty)).1
        fetching := Function.update s.fetching m
          (some ⟨sharedId, dpId, s.dpSize m, [], none,
            ((sourcesToRead cfg m s.st).foldl (fun a e => readSource cfg m e.2 e.1 a)
              (s.st, Acc.empty)).2⟩) } _ :=
      Step.fetchEnd (Function.update_self ..) rfl hreqs hrun
    have hsame : Function.update s.fetching m none = s.fetching :=
      Function.update_eq_self_iff.mpr (hfetch m).symm
    simp only [Function.update_idem, Sys.record, hsame] at h₃ ⊢
    exact h₃
  | @reset m d pos => exact
    ReflTransGen.single (Step.reset (fun f hf => by rw [hfetch m] at hf; cases hf) pos)

/-- Whatever calls reach, their steps reach, and no call is under way there. -/
theorem calls_steps {s s' : Sys α} (h : ReflTransGen (Call cfg w) s s') (hq : s.Quiet) :
    ReflTransGen (Step cfg w) s s' ∧ s'.Quiet := by
  induction h with
  | refl => exact ⟨.refl, hq⟩
  | tail _ hstep ih => exact ⟨ih.1.trans (callStep_steps hstep ih.2), hstep.quiet ih.2⟩

/-! ## A small instance -/

/-- Prompts come from node `-1`. Model 0 reads them, and model 1 joins them with the outputs of
model 0. -/
def chainCfg : Config String where
  inEdgeDictWithDummyInpNodes := fun m => if m = 0 then [-1] else if m = 1 then [-1, 0] else []
  baseModelIdsDict := fun sharedId => [sharedId]
  inpReqFromWhichModelWhichOutReqs := fun _ _ => none
  outReqIdMapping := fun _ _ => none
  newOutReqPartNum := fun _ => none
  independentSrcs := fun _ => false
  promptTemplateArgs := fun _ => none
  inEdges_nodup := fun m => by split_ifs <;> decide

/-- Two prompts, and an output of model 0 for each. -/
def chainWork : Workload chainCfg where
  rawOutIds := fun u => if u = -1 ∨ u = 0 then [0, 1] else []
  merge_inj := fun _ _ _ _ _ _ h => by cases h
  indep_disjoint := fun m hone src hs src' hs' => by
    have hm : m ≠ 1 := by rintro rfl; exact absurd hone (by decide)
    simp only [chainCfg, hm, if_false] at hs hs'
    split_ifs at hs hs' <;> simp_all

end Mil.Communicator
