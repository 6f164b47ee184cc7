import Mil.Communicator.EndSignal

/-!
# Fused models: whose output is it?

A fused model runs the requests of several base models under one shared id. Its workers hand in
outputs by request id alone, and `add_seqs` looks up in `out_req_model_id_mapping` which base model
an output belongs to. The mapping keeps one base model per request id and is overwritten by every
later fetch of the id.

`FusedStep` runs the workers of one fused model over the communicator: `get_seqs` asks for one base
model after the other, `add_seqs` looks the outputs of a batch up one by one and then adds them base
model by base model, and everything else goes on in between. Each output carries the base model it
was fetched from, which the code does not see. `add_seqs_attributes` says that the look-up always
gives this base model, when the base models form a chain.
-/

set_option autoImplicit false

namespace Mil.Communicator

open Mil.Lib Relation

variable {α : Type} [Content α]

/-! ## Workers over the communicator -/

/-- A request that a worker has fetched and whose output has not been added. -/
structure Held where
  dpId : Nat
  model : ModelId
  id : ReqId
deriving DecidableEq

/-- What a request is, whichever worker has it. -/
def Held.request (h : Held) : ModelId × ReqId := (h.model, h.id)

/-- A call of `add_seqs` under way: the outputs still to be looked up, and
`base_model_seqs_dict`. -/
structure Batch (α : Type) where
  todo : List (Held × α)
  baseModelSeqsDict : List (ModelId × List (Held × α))

def Batch.items (b : Batch α) : List Held :=
  b.todo.map Prod.fst ++ b.baseModelSeqsDict.flatMap fun e => e.2.map Prod.fst

/-- `base_model_seqs_dict[base_model_id].append(seq)` on a `defaultdict(list)`. -/
def appendSeq (u : ModelId) (x : Held × α) :
    List (ModelId × List (Held × α)) → List (ModelId × List (Held × α))
  | [] => [(u, [x])]
  | (v, xs) :: rest => if v = u then (v, xs ++ [x]) :: rest else (v, xs) :: appendSeq u x rest

/-- `add_seqs` is called: with one base model nothing has to be looked up. -/
def Batch.start (cfg : Config α) (sharedId : SharedId) (seqs : List (Held × α)) : Batch α :=
  match cfg.baseModelIdsDict sharedId with
  | [m] => ⟨[], [(m, seqs)]⟩
  | _ => ⟨seqs, []⟩

/-- The communicator, the requests that the workers of one shared id have fetched, their calls of
`add_seqs`, and a record of the outputs added and the base model each was added to. -/
structure Fused (α : Type) where
  sys : Sys α
  held : List Held
  batches : List (Batch α)
  filed : List (Held × ModelId)

def Fused.init (cfg : Config α) (u₀ g₀ : ModelId → Int) : Fused α :=
  ⟨Sys.init cfg u₀ g₀, [], [], []⟩

/-- The workers of `sharedId` at work. The base models of `sharedId` are asked for only under this
id and get outputs only from its workers; all other steps of the communicator are `comm`. -/
inductive FusedStep (cfg : Config α) (w : Workload cfg) (sharedId : SharedId) :
    Fused α → Fused α → Prop
  | comm {s : Fused α} {sys : Sys α} (step : Step cfg w s.sys sys)
      (added : ∀ m ∈ cfg.baseModelIdsDict sharedId, sys.added m = s.sys.added m)
      (returned : ∀ m ∈ cfg.baseModelIdsDict sharedId, sys.returned m = s.sys.returned m)
      (own : ∀ m f, sys.fetching m = some f → f.sharedId = sharedId →
        m ∈ cfg.baseModelIdsDict sharedId) :
      FusedStep cfg w sharedId s { s with sys := sys }
  | fetchEnd {s : Fused α} {m : ModelId} {f : Fetch α} {reqs ret : List (Req α)} {st : State α}
      {possible : Bool} (member : m ∈ cfg.baseModelIdsDict sharedId)
      (fetch : s.sys.fetching m = some f) (shared : f.sharedId = sharedId) (todo : f.todo = [])
      (fused : fusedReqs cfg m s.sys.st f.acc = some reqs)
      (run : handOut cfg f.sharedId m f.dpId f.dpSize (appendFused m s.sys.st reqs) =
        some (st, ret, possible)) :
      FusedStep cfg w sharedId s { s with
        sys := { s.sys.record m f.dpId ⟨reqs, ret, possible⟩ with
          st := st
          fetching := Function.update s.sys.fetching m none }
        held := s.held ++ ret.map fun req => ⟨f.dpId, m, req.1⟩ }
  /-- After a restart the requests that were fetched are spread over other workers. -/
  | restart {s : Fused α} {held : List Held}
      (same : (held.map Held.request).Perm (s.held.map Held.request)) :
      FusedStep cfg w sharedId s { s with held := held }
  | addBegin {s : Fused α} {dpId : Nat} {seqs : List (Held × α)} {rest : List Held}
      (worker : ∀ x ∈ seqs, x.1.dpId = dpId)
      (split : s.held.Perm (seqs.map Prod.fst ++ rest)) :
      FusedStep cfg w sharedId s { s with
        held := rest
        batches := s.batches ++ [Batch.start cfg sharedId seqs] }
  | lookUp {s : Fused α} {before after : List (Batch α)} {b : Batch α} {x : Held × α}
      {xs : List (Held × α)} {u : ModelId} (batch : s.batches = before ++ b :: after)
      (todo : b.todo = x :: xs)
      (mapped : s.sys.st.outReqModelIdMapping sharedId x.1.id = some u) :
      FusedStep cfg w sharedId s { s with
        batches := before ++ ⟨xs, appendSeq u x b.baseModelSeqsDict⟩ :: after }
  | addExtend {s : Fused α} {before after : List (Batch α)} {b : Batch α} {u : ModelId}
      {seqs : List (Held × α)} {rest : List (ModelId × List (Held × α))} {st : State α} {n : Nat}
      (batch : s.batches = before ++ b :: after) (todo : b.todo = [])
      (groups : b.baseModelSeqsDict = (u, seqs) :: rest) (idle : s.sys.adding u = none)
      (run : extendOutputPool cfg u s.sys.st (seqs.map fun x => (x.1.id, x.2)) = some (st, n)) :
      FusedStep cfg w sharedId s { s with
        sys := { s.sys with
          st := st
          adding := Function.update s.sys.adding u (some n)
          added := Function.update s.sys.added u
            (s.sys.added u ++ seqs.map fun x => (x.1.id, x.2)) }
        batches := before ++ ⟨[], rest⟩ :: after
        filed := s.filed ++ seqs.map fun x => (x.1, u) }
  | addEnd {s : Fused α} {before after : List (Batch α)} {b : Batch α}
      (batch : s.batches = before ++ b :: after) (todo : b.todo = [])
      (groups : b.baseModelSeqsDict = []) :
      FusedStep cfg w sharedId s { s with batches := before ++ after }

/-! ## Chains of base models -/

/-- Base model `k'` follows `k`: it gets a request only once the output of `k` with the same id has
been added. -/
structure Follows (cfg : Config α) (k k' : ModelId) : Prop where
  source : k ∈ cfg.inEdgeDictWithDummyInpNodes k'
  only : oneSrc cfg k' = true → cfg.inEdgeDictWithDummyInpNodes k' = [k]
  same : ∀ raw, ∀ out ∈ pooledIds cfg k raw, ∀ r ∈ inputsOf cfg k k' out, r ∈ raw

/-- The base models of the shared id form a chain, and a request has its output under its own
id. -/
structure FusedChain (cfg : Config α) (w : Workload cfg) (sharedId : SharedId) : Prop where
  follows : (cfg.baseModelIdsDict sharedId).IsChain (Follows cfg)
  ids : ∀ m ∈ cfg.baseModelIdsDict sharedId, ∀ r ∈ w.inputReqs m, r ∈ w.rawOutIds m

section

variable {cfg : Config α} {w : Workload cfg} {sharedId : SharedId}

/-- What is assembled for a base model has been added for the one before it. -/
theorem Follows.added {k k' : ModelId} (hk : Follows cfg k k') {s : Sys α} (h : s.Ok cfg w)
    {r : ReqId} (hr : r ∈ (s.assembled k').map Prod.fst) : r ∈ (s.added k).map Prod.fst := by
  obtain ⟨⟨r, c⟩, hc, rfl⟩ := List.mem_map.mp hr
  have hin := h.mem_inputReqs_of_assembled hc
  have hfed : ∃ out ∈ pooledIds cfg k ((s.added k).map Prod.fst), r ∈ inputsOf cfg k k' out := by
    have hsource := hk.source
    cases hone : oneSrc cfg k' with
    | true =>
      rw [inputReqs, if_pos hone, hk.only hone] at hin
      simpa using hin
    | false =>
      rw [inputReqs, if_neg (by rw [hone]; exact Bool.false_ne_true)] at hin
      generalize cfg.inEdgeDictWithDummyInpNodes k' = inps at hin hsource
      cases inps with
      | nil => cases hsource
      | cons src rest =>
        have := (Finset.mem_filter.mp hin).2 k hsource
        simpa using this
  obtain ⟨out, hout, hin'⟩ := hfed
  exact hk.same _ out hout r hin'

/-- What is in the hands of the workers, up to the moment that it is added. -/
def Fused.items (s : Fused α) : List Held := s.held ++ s.batches.flatMap Batch.items

/-- The number of times that request `r` of `m` is in the hands of the workers. -/
def Fused.openCount (s : Fused α) (m : ModelId) (r : ReqId) : Nat :=
  (s.items.map Held.request).count (m, r)

/-- The number of times that request `r` of `m` has been returned, and its output added. -/
def Sys.returnedCount (s : Sys α) (m : ModelId) (r : ReqId) : Nat :=
  ((s.returnedReqs m).map Prod.fst).count r

def Sys.addedCount (s : Sys α) (m : ModelId) (r : ReqId) : Nat :=
  ((s.added m).map Prod.fst).count r

/-- The outputs that still have to be looked up, and those looked up wait in the right group. -/
structure BatchOk (cfg : Config α) (sharedId : SharedId) (b : Batch α) : Prop where
  todo : b.todo ≠ [] → (cfg.baseModelIdsDict sharedId).length ≠ 1
  groups : ∀ e ∈ b.baseModelSeqsDict, ∀ x ∈ e.2, x.1.model = e.1

structure Fused.Ok (cfg : Config α) (w : Workload cfg) (sharedId : SharedId) (s : Fused α) :
    Prop where
  sys : s.sys.Ok cfg w
  own : ∀ m f, s.sys.fetching m = some f → f.sharedId = sharedId →
    m ∈ cfg.baseModelIdsDict sharedId
  models : ∀ h ∈ s.items, h.model ∈ cfg.baseModelIdsDict sharedId
  balance : ∀ m ∈ cfg.baseModelIdsDict sharedId, ∀ r,
    s.openCount m r + s.sys.addedCount m r ≤ s.sys.returnedCount m r
  mapped : (cfg.baseModelIdsDict sharedId).length ≠ 1 →
    ∀ h ∈ s.held ++ s.batches.flatMap fun b => b.todo.map Prod.fst,
      s.sys.st.outReqModelIdMapping sharedId h.id = some h.model
  batches : ∀ b ∈ s.batches, BatchOk cfg sharedId b
  filed : ∀ e ∈ s.filed, e.2 = e.1.model
  added : ∀ m ∈ cfg.baseModelIdsDict sharedId,
    (s.sys.added m).map Prod.fst = (s.filed.filter fun e => e.2 = m).map fun e => e.1.id

theorem Sys.Ok.returnedCount_le {s : Sys α} (h : s.Ok cfg w) (m : ModelId) (r : ReqId) :
    s.returnedCount m r ≤ 1 := by
  have hnodup : ((s.returnedReqs m).map Prod.fst).Nodup := by
    have hall := ((h.delivered_perm m).map Prod.fst).nodup_iff.mpr (h.assembled_nodup m)
    rw [List.map_append] at hall
    exact (List.nodup_append'.mp hall).1
  exact List.nodup_iff_count_le_one.mp hnodup r

theorem Sys.Ok.assembled_of_returned {s : Sys α} (h : s.Ok cfg w) {m : ModelId} {r : ReqId}
    (hr : 0 < s.returnedCount m r) : r ∈ (s.assembled m).map Prod.fst := by
  refine ((h.delivered_perm m).map Prod.fst).subset ?_
  rw [List.map_append]
  exact List.mem_append_left _ (List.count_pos_iff.mp hr)

/-- Along a chain, what has been returned for a base model has been added for all before it. -/
theorem chain_added {s : Sys α} (h : s.Ok cfg w) {ms : List ModelId}
    (hchain : ms.IsChain (Follows cfg))
    (hadded : ∀ m ∈ ms, ∀ r, s.addedCount m r ≤ s.returnedCount m r) :
    ms.Pairwise fun k k' => ∀ r, 0 < s.returnedCount k' r → 0 < s.addedCount k r := by
  let before : ModelId → ModelId → Prop := fun k k' =>
    (∀ r, s.addedCount k r ≤ s.returnedCount k r) ∧
      ∀ r, 0 < s.returnedCount k' r → 0 < s.addedCount k r
  have htrans : Trans before before before := ⟨fun hab hbc => ⟨hab.1, fun r hr =>
    hab.2 r (Nat.lt_of_lt_of_le (hbc.2 r hr) (hbc.1 r))⟩⟩
  have hbefore : ms.IsChain before := hchain.imp_of_mem_imp fun k k' hk _ hfollow =>
    ⟨hadded k hk, fun r hr => List.count_pos_iff.mpr
      (hfollow.added h (h.assembled_of_returned hr))⟩
  exact (List.isChain_iff_pairwise.mp hbefore).imp fun hkk' => hkk'.2

/-- Two base models of the chain never have the same request in the hands of the workers. -/
theorem model_unique (hchain : FusedChain cfg w sharedId) {s : Fused α} (h : s.sys.Ok cfg w)
    (hmodels : ∀ x ∈ s.items, x.model ∈ cfg.baseModelIdsDict sharedId)
    (hbalance : ∀ m ∈ cfg.baseModelIdsDict sharedId, ∀ r,
      s.openCount m r + s.sys.addedCount m r ≤ s.sys.returnedCount m r)
    {x y : Held} (hx : x ∈ s.items) (hy : y ∈ s.items) (hid : x.id = y.id) :
    x.model = y.model := by
  have hopen : ∀ {z : Held}, z ∈ s.items → 0 < s.openCount z.model z.id := fun hz =>
    List.count_pos_iff.mpr (List.mem_map_of_mem hz)
  -- of two base models with the request, the output for the earlier one has been added
  have hbetween : ∀ {y z : Held}, y ∈ s.items → z ∈ s.items → y.id = z.id →
      ¬ ∀ r, 0 < s.sys.returnedCount z.model r → 0 < s.sys.addedCount y.model r := by
    intro y z hy hz hyz hadded
    have hz' := hopen hz
    have hzb := hbalance z.model (hmodels z hz) z.id
    have hy' := hopen hy
    have hyb := hbalance y.model (hmodels y hy) z.id
    have hadd := hadded z.id (by omega)
    have hone := h.returnedCount_le y.model z.id
    rw [hyz] at hy'
    omega
  have hpair := chain_added h hchain.follows fun m hm r =>
    (Nat.le_add_left _ _).trans (hbalance m hm r)
  by_contra hne
  have hsym : (cfg.baseModelIdsDict sharedId).Pairwise fun k k' =>
      (∀ r, 0 < s.sys.returnedCount k' r → 0 < s.sys.addedCount k r) ∨
      ∀ r, 0 < s.sys.returnedCount k r → 0 < s.sys.addedCount k' r := hpair.imp Or.inl
  have : Std.Symm fun k k' : ModelId =>
      (∀ r, 0 < s.sys.returnedCount k' r → 0 < s.sys.addedCount k r) ∨
      ∀ r, 0 < s.sys.returnedCount k r → 0 < s.sys.addedCount k' r := ⟨fun _ _ => Or.symm⟩
  rcases hsym.forall (hmodels x hx) (hmodels y hy) hne with hxy | hyx
  · exact hbetween hx hy hid hxy
  · exact hbetween hy hx hid.symm hyx

/-! ## The mapping -/

omit [Content α] in
theorem getSeqs_mapping {m : ModelId} {dpId dpSize : Nat} {st st' : State α} {ret : List (Req α)}
    (run : getSeqs m dpId dpSize st = some (st', ret)) :
    st'.outReqModelIdMapping = st.outReqModelIdMapping := by
  unfold getSeqs at run
  simp only [Option.bind_eq_bind, Option.bind_eq_some_iff, Option.pure_def, Option.some.injEq,
    Prod.mk.injEq] at run
  obtain ⟨start, -, rfl, -⟩ := run
  rfl

omit [Content α] in
theorem updateOutReq_mapping (m : ModelId) (reqs : List (Req α)) (st : State α)
    (g : SharedId) (id : ReqId) :
    (updateOutReqModelIdMapping cfg sharedId m reqs st).outReqModelIdMapping g id =
      if g = sharedId ∧ (cfg.baseModelIdsDict sharedId).length ≠ 1 ∧ id ∈ reqs.map Prod.fst
      then some m else st.outReqModelIdMapping g id := by
  rw [updateOutReqModelIdMapping]
  split
  · rename_i hone
    rw [if_neg fun h => h.2.1 hone]
  · rename_i hone
    by_cases hg : g = sharedId
    · subst hg
      refine (congrFun (Function.update_self ..) id).trans ?_
      by_cases hid : id ∈ reqs.map Prod.fst
      · exact (if_pos hid).trans (if_pos ⟨rfl, hone, hid⟩).symm
      · exact (if_neg hid).trans (if_neg fun h => hid h.2.2).symm
    · rw [if_neg fun h => hg h.1]
      exact congrFun (Function.update_of_ne hg ..) id

omit [Content α] in
/-- Handing out requests makes their base model the owner of their ids, and nothing else. -/
theorem handOut_mapping {m : ModelId} {dpId dpSize : Nat} {st st' : State α} {ret : List (Req α)}
    {possible : Bool}
    (run : handOut cfg sharedId m dpId dpSize st = some (st', ret, possible))
    (g : SharedId) (id : ReqId) :
    st'.outReqModelIdMapping g id =
      if g = sharedId ∧ (cfg.baseModelIdsDict sharedId).length ≠ 1 ∧ id ∈ ret.map Prod.fst
      then some m else st.outReqModelIdMapping g id := by
  obtain ⟨st₁, ret₁, hget, hcases⟩ := handOut_cases run
  have h₁ := getSeqs_mapping hget
  rcases hcases with ⟨-, rfl, -, rfl⟩ | ⟨-, st₂, hget₂, -, rfl⟩ | ⟨-, req, rest, -, rfl, -, rfl⟩ |
    ⟨-, -, rfl, -, rfl⟩
  · rw [updateOutReq_mapping, h₁]
  · have h₂ := getSeqs_mapping hget₂
    rw [updateOutReq_mapping, h₂, ← h₁]
    rfl
  · rw [updateOutReq_mapping, ← h₁]
    rfl
  · rw [if_neg fun h => List.not_mem_nil h.2.2, ← h₁]
    rfl

/-- A step that returns no request of the base models leaves the mapping alone. -/
theorem comm_mapping {s s' : Sys α} (step : Step cfg w s s')
    (hreturned : ∀ m ∈ cfg.baseModelIdsDict sharedId, s'.returned m = s.returned m)
    (hown : ∀ m f, s.fetching m = some f → f.sharedId = sharedId →
      m ∈ cfg.baseModelIdsDict sharedId) (id : ReqId) :
    s'.st.outReqModelIdMapping sharedId id = s.st.outReqModelIdMapping sharedId id := by
  cases step with
  | addExtend _ _ run =>
    obtain ⟨metaPool, toAdd, -, rfl⟩ := extendOutputPool_frame run
    rfl
  | addDec _ => rfl
  | fetchBegin _ _ => rfl
  | fetchLock _ _ _ => rfl
  | @fetchRead m src i rest f k fetch _ _ _ =>
    obtain ⟨slots, hframe⟩ := readSource_frame cfg m src i s.st f.acc
    dsimp only
    rw [hframe]
    rfl
  | @fetchEnd m f reqs ret st possible fetch _ _ run =>
    have hmapping := handOut_mapping run sharedId id
    refine hmapping.trans ?_
    split
    · rename_i hupdate
      obtain ⟨hshared, -, hid⟩ := hupdate
      have hsame := hreturned m (hown m f fetch hshared.symm)
      change Function.update s.returned m (s.returned m ++ ret.map fun req => (f.dpId, req)) m = _
        at hsame
      rw [Function.update_self, List.append_right_eq_self, List.map_eq_nil_iff] at hsame
      rw [hsame] at hid
      cases hid
    · rfl
  | reset _ _ => rfl

/-! ## The invariant -/

theorem Fused.Ok.init (u₀ g₀ : ModelId → Int) :
    (Fused.init cfg u₀ g₀).Ok cfg w sharedId where
  sys := Sys.Ok.init u₀ g₀
  own _ _ hf := by cases hf
  models _ h := by cases h
  balance _ _ _ := Nat.le_refl _
  mapped _ _ h := by cases h
  batches _ h := by cases h
  filed _ h := by cases h
  added _ _ := rfl

section

variable {s : Fused α}

omit [Content α] in
theorem openCount_of_perm {s' : Fused α} (h : (s'.items.map Held.request).Perm
    (s.items.map Held.request)) (m : ModelId) (r : ReqId) :
    s'.openCount m r = s.openCount m r := h.count_eq _

/-- Steps that leave the communicator alone and only move requests around. -/
theorem Fused.Ok.move (h : s.Ok cfg w sharedId) (held : List Held) (batches : List (Batch α))
    (hsame : ((Fused.items { s with held := held, batches := batches }).map Held.request).Perm
      (s.items.map Held.request))
    (hmapped : (cfg.baseModelIdsDict sharedId).length ≠ 1 →
      ∀ x ∈ held ++ batches.flatMap fun b => b.todo.map Prod.fst,
        s.sys.st.outReqModelIdMapping sharedId x.id = some x.model)
    (hbatches : ∀ b ∈ batches, BatchOk cfg sharedId b) :
    Fused.Ok cfg w sharedId { s with held := held, batches := batches } := by
  refine ⟨h.sys, h.own, fun x hx => ?_, fun m hm r => ?_, hmapped, hbatches, h.filed, h.added⟩
  · obtain ⟨y, hy, heq⟩ := List.mem_map.mp (hsame.mem_iff.mp (List.mem_map_of_mem hx))
    have hmodel : y.model = x.model := congrArg Prod.fst heq
    exact hmodel ▸ h.models y hy
  · rw [openCount_of_perm hsame]
    exact h.balance m hm r

theorem Fused.Ok.comm (h : s.Ok cfg w sharedId) {sys : Sys α} (step : Step cfg w s.sys sys)
    (added : ∀ m ∈ cfg.baseModelIdsDict sharedId, sys.added m = s.sys.added m)
    (returned : ∀ m ∈ cfg.baseModelIdsDict sharedId, sys.returned m = s.sys.returned m)
    (own : ∀ m f, sys.fetching m = some f → f.sharedId = sharedId →
      m ∈ cfg.baseModelIdsDict sharedId) :
    Fused.Ok cfg w sharedId { s with sys := sys } := by
  refine ⟨h.sys.step step, own, h.models, fun m hm r => ?_, fun hone x hx => ?_, h.batches,
    h.filed, fun m hm => ?_⟩
  · have hbalance := h.balance m hm r
    rw [Sys.addedCount, Sys.returnedCount, Sys.returnedReqs] at hbalance ⊢
    rwa [added m hm, returned m hm]
  · rw [comm_mapping step returned h.own]
    exact h.mapped hone x hx
  · rw [added m hm]
    exact h.added m hm

theorem Fused.Ok.restart (h : s.Ok cfg w sharedId) {held : List Held}
    (same : (held.map Held.request).Perm (s.held.map Held.request)) :
    Fused.Ok cfg w sharedId { s with held := held } := by
  refine h.move held s.batches ?_ (fun hone x hx => ?_) h.batches
  · rw [Fused.items, Fused.items, List.map_append, List.map_append]
    exact same.append_right _
  · rcases List.mem_append.mp hx with hx | hx
    · obtain ⟨y, hy, heq⟩ := List.mem_map.mp (same.mem_iff.mp (List.mem_map_of_mem hx))
      have hy' := h.mapped hone y (List.mem_append_left _ hy)
      have hid : y.id = x.id := congrArg Prod.snd heq
      have hmodel : y.model = x.model := congrArg Prod.fst heq
      rwa [hid, hmodel] at hy'
    · exact h.mapped hone x (List.mem_append_right _ hx)

omit [Content α] in
theorem Batch.items_start (seqs : List (Held × α)) :
    (Batch.start cfg sharedId seqs).items = seqs.map Prod.fst := by
  rw [Batch.start]
  split
  · exact List.append_nil _
  · exact List.append_nil _

theorem Fused.Ok.addBegin (h : s.Ok cfg w sharedId) {seqs : List (Held × α)} {rest : List Held}
    (split : s.held.Perm (seqs.map Prod.fst ++ rest)) :
    Fused.Ok cfg w sharedId { s with
      held := rest
      batches := s.batches ++ [Batch.start cfg sharedId seqs] } := by
  have hheld : ∀ x ∈ seqs, x.1 ∈ s.held := fun x hx =>
    split.mem_iff.mpr (List.mem_append_left _ (List.mem_map_of_mem hx))
  refine h.move rest _ ?_ (fun hone x hx => ?_) fun b hb => ?_
  · refine List.Perm.map _ ?_
    rw [Fused.items, Fused.items, List.flatMap_append, List.flatMap_singleton, Batch.items_start]
    refine .trans ?_ (split.symm.append_right _)
    rw [← List.append_assoc, List.append_assoc (seqs.map Prod.fst)]
    exact List.perm_append_comm
  · have hmapped := h.mapped hone x
    rw [List.flatMap_append, ← List.append_assoc] at hx
    rcases List.mem_append.mp hx with hx | hx
    · rcases List.mem_append.mp hx with hx | hx
      · exact hmapped (List.mem_append_left _ (split.mem_iff.mpr (List.mem_append_right _ hx)))
      · exact hmapped (List.mem_append_right _ hx)
    · refine hmapped (List.mem_append_left _ ?_)
      rw [List.flatMap_singleton, Batch.start] at hx
      split at hx
      · cases hx
      · obtain ⟨y, hy, rfl⟩ := List.mem_map.mp hx
        exact hheld y hy
  · rcases List.mem_append.mp hb with hb | hb
    · exact h.batches b hb
    · obtain rfl := List.mem_singleton.mp hb
      rw [Batch.start]
      split
      · rename_i m hdict
        refine ⟨fun hne => absurd rfl hne, fun e he x hx => ?_⟩
        obtain rfl := List.mem_singleton.mp he
        have := h.models x.1 (List.mem_append_left _ (hheld x hx))
        rw [hdict] at this
        exact List.mem_singleton.mp this
      · rename_i hdict
        refine ⟨fun _ hlen => ?_, fun e he => by cases he⟩
        obtain ⟨m, hm⟩ := List.length_eq_one_iff.mp hlen
        exact hdict m hm

omit [Content α] in
theorem appendSeq_perm (u : ModelId) (x : Held × α) (groups : List (ModelId × List (Held × α))) :
    ((appendSeq u x groups).flatMap fun e => e.2.map Prod.fst).Perm
      (x.1 :: groups.flatMap fun e => e.2.map Prod.fst) := by
  induction groups with
  | nil => exact .refl _
  | cons e rest ih =>
    obtain ⟨v, xs⟩ := e
    rw [appendSeq]
    split
    · rw [List.flatMap_cons, List.flatMap_cons, List.map_append, List.append_assoc]
      exact List.perm_middle
    · rw [List.flatMap_cons, List.flatMap_cons]
      exact (ih.append_left _).trans List.perm_middle

omit [Content α] in
theorem mem_appendSeq {u : ModelId} {x : Held × α} {groups : List (ModelId × List (Held × α))}
    {e : ModelId × List (Held × α)} (he : e ∈ appendSeq u x groups) {y : Held × α} (hy : y ∈ e.2) :
    e.1 = u ∧ y = x ∨ ∃ e' ∈ groups, e'.1 = e.1 ∧ y ∈ e'.2 := by
  induction groups with
  | nil =>
    obtain rfl := List.mem_singleton.mp he
    exact .inl ⟨rfl, List.mem_singleton.mp hy⟩
  | cons e' rest ih =>
    obtain ⟨v, xs⟩ := e'
    rw [appendSeq] at he
    split at he
    · rename_i hv
      rcases List.mem_cons.mp he with rfl | he
      · rcases List.mem_append.mp hy with hy | hy
        · exact .inr ⟨(v, xs), List.mem_cons_self, rfl, hy⟩
        · exact .inl ⟨hv, List.mem_singleton.mp hy⟩
      · exact .inr ⟨e, List.mem_cons_of_mem _ he, rfl, hy⟩
    · rcases List.mem_cons.mp he with rfl | he
      · exact .inr ⟨(v, xs), List.mem_cons_self, rfl, hy⟩
      · rcases ih he with hx | ⟨e', he', hv, hy'⟩
        · exact .inl hx
        · exact .inr ⟨e', List.mem_cons_of_mem _ he', hv, hy'⟩

/-- An output is looked up: it goes to the base model it was fetched from. -/
theorem Fused.Ok.lookUp (h : s.Ok cfg w sharedId) {before after : List (Batch α)} {b : Batch α}
    {x : Held × α} {xs : List (Held × α)} {u : ModelId} (batch : s.batches = before ++ b :: after)
    (todo : b.todo = x :: xs)
    (mapped : s.sys.st.outReqModelIdMapping sharedId x.1.id = some u) :
    Fused.Ok cfg w sharedId { s with
      batches := before ++ ⟨xs, appendSeq u x b.baseModelSeqsDict⟩ :: after } := by
  have hb := h.batches b (by rw [batch]; exact List.mem_append_right _ List.mem_cons_self)
  have hx : x.1 ∈ s.held ++ s.batches.flatMap fun b => b.todo.map Prod.fst := by
    refine List.mem_append_right _ (List.mem_flatMap.mpr ⟨b, ?_, ?_⟩)
    · rw [batch]
      exact List.mem_append_right _ List.mem_cons_self
    · rw [todo]
      exact List.mem_cons_self
  have hmodel : x.1.model = u := by
    have := h.mapped (hb.todo (by rw [todo]; exact List.cons_ne_nil _ _)) x.1 hx
    exact Option.some.inj (this.symm.trans mapped)
  refine h.move s.held _ ?_ (fun hone y hy => h.mapped hone y ?_) fun b' hb' => ?_
  · refine List.Perm.map _ (List.Perm.append_left _ ?_)
    rw [batch, List.flatMap_append, List.flatMap_append, List.flatMap_cons, List.flatMap_cons]
    refine List.Perm.append_left _ (List.Perm.append_right _ ?_)
    rw [Batch.items, Batch.items, todo, List.map_cons, List.cons_append]
    exact ((appendSeq_perm u x b.baseModelSeqsDict).append_left _).trans List.perm_middle
  · rcases List.mem_append.mp hy with hy | hy
    · exact List.mem_append_left _ hy
    · refine List.mem_append_right _ ?_
      rw [batch]
      simp only [List.flatMap_append, List.flatMap_cons, List.mem_append] at hy ⊢
      refine hy.imp id (Or.imp (fun hy => ?_) id)
      rw [todo]
      exact List.mem_cons_of_mem _ hy
  · rcases List.mem_append.mp hb' with hb' | hb'
    · exact h.batches b' (by rw [batch]; exact List.mem_append_left _ hb')
    · rcases List.mem_cons.mp hb' with rfl | hb'
      · refine ⟨fun _ => hb.todo (by rw [todo]; exact List.cons_ne_nil _ _), fun e he y hy => ?_⟩
        rcases mem_appendSeq he hy with ⟨hu, rfl⟩ | ⟨e', he', hv, hy'⟩
        · exact hmodel.trans hu.symm
        · exact (hb.groups e' he' y hy').trans hv
      · refine h.batches b' ?_
        rw [batch]
        exact List.mem_append_right _ (List.mem_cons_of_mem _ hb')

theorem Fused.Ok.addEnd (h : s.Ok cfg w sharedId) {before after : List (Batch α)} {b : Batch α}
    (batch : s.batches = before ++ b :: after) (todo : b.todo = [])
    (groups : b.baseModelSeqsDict = []) :
    Fused.Ok cfg w sharedId { s with batches := before ++ after } := by
  refine h.move s.held _ ?_ (fun hone y hy => h.mapped hone y ?_) fun b' hb' => ?_
  · rw [Fused.items, Fused.items, batch]
    simp only [List.flatMap_append, List.flatMap_cons, Batch.items, todo, groups, List.map_nil,
      List.flatMap_nil, List.nil_append, List.Perm.refl]
  · rw [batch]
    simp only [List.flatMap_append, List.flatMap_cons, todo, List.map_nil, List.nil_append] at hy ⊢
    exact hy
  · refine h.batches b' ?_
    rw [batch]
    exact List.mem_append.mpr ((List.mem_append.mp hb').imp id (List.mem_cons_of_mem _))

omit [Content α] in
/-- What a fetch returns is counted for its model. -/
theorem returnedCount_append {s s' : Sys α} {m : ModelId} {dpId : Nat} {ret : List (Req α)}
    (hreturned : s'.returned =
      Function.update s.returned m (s.returned m ++ ret.map fun req => (dpId, req)))
    (k : ModelId) (r : ReqId) : s'.returnedCount k r = s.returnedCount k r +
      ((ret.map fun req => (⟨dpId, m, req.1⟩ : Held)).map Held.request).count (k, r) := by
  rw [Sys.returnedCount, Sys.returnedCount, Sys.returnedReqs, Sys.returnedReqs, hreturned]
  by_cases heq : k = m
  · subst heq
    rw [Function.update_self, List.map_append, List.map_append, List.count_append]
    congr 1
    simp only [List.map_map, Function.comp_def, Held.request]
    rw [← List.count_map_of_injective (ret.map fun req => req.1) (fun id => (k, id))
      (fun _ _ h => congrArg Prod.snd h), List.map_map]
    rfl
  · have hzero : ((ret.map fun req => (⟨dpId, m, req.1⟩ : Held)).map Held.request).count
        (k, r) = 0 := by
      refine List.count_eq_zero_of_not_mem fun hmem => ?_
      obtain ⟨x, hx, hreq⟩ := List.mem_map.mp hmem
      obtain ⟨req, -, rfl⟩ := List.mem_map.mp hx
      exact heq (congrArg Prod.fst hreq).symm
    rw [Function.update_of_ne heq, hzero, Nat.add_zero]

theorem Fused.Ok.fetchEnd (hchain : FusedChain cfg w sharedId) (h : s.Ok cfg w sharedId)
    {m : ModelId} {f : Fetch α} {reqs ret : List (Req α)} {st : State α} {possible : Bool}
    (member : m ∈ cfg.baseModelIdsDict sharedId) (fetch : s.sys.fetching m = some f)
    (shared : f.sharedId = sharedId) (fused : fusedReqs cfg m s.sys.st f.acc = some reqs)
    (run : handOut cfg f.sharedId m f.dpId f.dpSize (appendFused m s.sys.st reqs) =
      some (st, ret, possible)) :
    Fused.Ok cfg w sharedId { s with
      sys := { s.sys.record m f.dpId ⟨reqs, ret, possible⟩ with
        st := st
        fetching := Function.update s.sys.fetching m none }
      held := s.held ++ ret.map fun req => ⟨f.dpId, m, req.1⟩ } := by
  have hsys := h.sys.fetchEnd fetch fused run
  generalize hsys' : ({ s.sys.record m f.dpId ⟨reqs, ret, possible⟩ with
        st := st
        fetching := Function.update s.sys.fetching m none } : Sys α) = sys' at hsys ⊢
  generalize hnew : (ret.map fun req => (⟨f.dpId, m, req.1⟩ : Held)) = new
  have hadded : sys'.added = s.sys.added := by rw [← hsys']; rfl
  have hst : sys'.st = st := by rw [← hsys']
  have hfetching : sys'.fetching = Function.update s.sys.fetching m none := by rw [← hsys']
  have hitems : (Fused.items { s with sys := sys', held := s.held ++ new }).Perm
      (new ++ s.items) := by
    rw [Fused.items, Fused.items, ← List.append_assoc]
    exact List.perm_append_comm.append_right _
  have hnewModel : ∀ x ∈ new, x.model = m ∧ x.id ∈ ret.map Prod.fst := by
    intro x hx
    rw [← hnew] at hx
    obtain ⟨req, hreq, rfl⟩ := List.mem_map.mp hx
    exact ⟨rfl, List.mem_map_of_mem hreq⟩
  have hmodels : ∀ x ∈ Fused.items { s with sys := sys', held := s.held ++ new },
      x.model ∈ cfg.baseModelIdsDict sharedId := by
    intro x hx
    rcases List.mem_append.mp (hitems.mem_iff.mp hx) with hx | hx
    · exact (hnewModel x hx).1 ▸ member
    · exact h.models x hx
  have hbalance : ∀ k ∈ cfg.baseModelIdsDict sharedId, ∀ r,
      Fused.openCount { s with sys := sys', held := s.held ++ new } k r + sys'.addedCount k r ≤
        sys'.returnedCount k r := by
    intro k hk r
    have hold := h.balance k hk r
    have hopen : Fused.openCount { s with sys := sys', held := s.held ++ new } k r =
        (new.map Held.request).count (k, r) + s.openCount k r := by
      rw [Fused.openCount, (hitems.map _).count_eq, List.map_append, List.count_append]
      rfl
    have hsame : sys'.addedCount k r = s.sys.addedCount k r := by
      rw [Sys.addedCount, Sys.addedCount, hadded]
    have hreturned : sys'.returnedCount k r =
        s.sys.returnedCount k r + (new.map Held.request).count (k, r) := by
      have hreturned' : sys'.returned = Function.update s.sys.returned m
          (s.sys.returned m ++ ret.map fun req => (f.dpId, req)) := by rw [← hsys']; rfl
      rw [returnedCount_append hreturned', hnew]
    omega
  refine ⟨hsys, fun k g hg hshared => ?_, hmodels, hbalance, fun hone x hx => ?_, h.batches,
    h.filed, fun k hk => ?_⟩
  · change sys'.fetching k = some g at hg
    rw [hfetching] at hg
    by_cases heq : k = m
    · exact heq ▸ member
    · rw [Function.update_of_ne heq] at hg
      exact h.own k g hg hshared
  · change sys'.st.outReqModelIdMapping sharedId x.id = some x.model
    have hmapping := handOut_mapping run sharedId x.id
    rw [hst, hmapping, shared]
    have hopen : x ∈ Fused.items { s with sys := sys', held := s.held ++ new } := by
      refine List.mem_append.mpr ((List.mem_append.mp hx).imp id fun hx => ?_)
      obtain ⟨b, hb, hx⟩ := List.mem_flatMap.mp hx
      exact List.mem_flatMap.mpr ⟨b, hb, List.mem_append_left _ hx⟩
    split
    · rename_i hupdate
      obtain ⟨req, hreq, hid⟩ := List.mem_map.mp hupdate.2.2
      have hy : (⟨f.dpId, m, req.1⟩ : Held) ∈
          Fused.items { s with sys := sys', held := s.held ++ new } := by
        refine hitems.mem_iff.mpr (List.mem_append_left _ ?_)
        rw [← hnew]
        exact List.mem_map_of_mem hreq
      have := model_unique hchain hsys hmodels hbalance hopen hy hid.symm
      exact congrArg some this.symm
    · rename_i hupdate
      refine h.mapped hone x ?_
      rcases List.mem_append.mp hx with hx | hx
      · refine List.mem_append_left _ ((List.mem_append.mp hx).resolve_right fun hx => ?_)
        exact hupdate ⟨rfl, hone, (hnewModel x hx).2⟩
      · exact List.mem_append_right _ hx
  · change (sys'.added k).map Prod.fst = _
    rw [hadded]
    exact h.added k hk

theorem Fused.Ok.addExtend (hchain : FusedChain cfg w sharedId) (h : s.Ok cfg w sharedId)
    {before after : List (Batch α)} {b : Batch α} {u : ModelId} {seqs : List (Held × α)}
    {rest : List (ModelId × List (Held × α))} {st : State α} {n : Nat}
    (batch : s.batches = before ++ b :: after) (todo : b.todo = [])
    (groups : b.baseModelSeqsDict = (u, seqs) :: rest)
    (run : extendOutputPool cfg u s.sys.st (seqs.map fun x => (x.1.id, x.2)) = some (st, n)) :
    Fused.Ok cfg w sharedId { s with
      sys := { s.sys with
        st := st
        adding := Function.update s.sys.adding u (some n)
        added := Function.update s.sys.added u
          (s.sys.added u ++ seqs.map fun x => (x.1.id, x.2)) }
      batches := before ++ ⟨[], rest⟩ :: after
      filed := s.filed ++ seqs.map fun x => (x.1, u) } := by
  have hgroup := (h.batches b (by rw [batch]; exact List.mem_append_right _ List.mem_cons_self)).groups
  rw [groups] at hgroup
  have hmodel : ∀ x ∈ seqs, x.1.model = u := hgroup (u, seqs) List.mem_cons_self
  -- the outputs of the group leave the hands of the workers
  have hitems : s.items.Perm (seqs.map Prod.fst ++ Fused.items { s with
      batches := before ++ ⟨[], rest⟩ :: after }) := by
    rw [Fused.items, Fused.items, batch]
    simp only [List.flatMap_append, List.flatMap_cons, Batch.items, todo, groups, List.map_nil,
      List.nil_append, List.append_assoc]
    refine .trans ?_ (List.perm_append_comm_assoc ..)
    exact List.Perm.append_left _ (List.perm_append_comm_assoc ..)
  have hopen : ∀ k r, s.openCount k r = ((seqs.map Prod.fst).map Held.request).count (k, r) +
      Fused.openCount { s with batches := before ++ ⟨[], rest⟩ :: after } k r := by
    intro k r
    rw [Fused.openCount, (hitems.map _).count_eq, List.map_append, List.count_append]
    rfl
  have hmember : ∀ x ∈ seqs, u ∈ cfg.baseModelIdsDict sharedId := by
    intro x hx
    rw [← hmodel x hx]
    exact h.models x.1 (hitems.mem_iff.mpr (List.mem_append_left _ (List.mem_map_of_mem hx)))
  have hids : ∀ r, ((seqs.map fun x => (x.1.id, x.2)).map Prod.fst).count r =
      ((seqs.map Prod.fst).map Held.request).count (u, r) := by
    intro r
    rw [← List.count_map_of_injective _ (fun id => (u, id)) (fun _ _ h => congrArg Prod.snd h)]
    congr 1
    simp only [List.map_map, Function.comp_def]
    exact List.map_congr_left fun x hx => by rw [Held.request, hmodel x hx]
  have hpos : ∀ x ∈ seqs, 0 < ((seqs.map fun x => (x.1.id, x.2)).map Prod.fst).count x.1.id :=
    fun x hx => List.count_pos_iff.mpr (by
      rw [List.map_map]
      exact List.mem_map_of_mem (f := Prod.fst ∘ fun x : Held × α => (x.1.id, x.2)) hx)
  have may : s.sys.MayAdd w u (seqs.map fun x => (x.1.id, x.2)) := by
    refine ⟨List.nodup_iff_count_le_one.mpr fun r => ?_, fun r hr => ?_⟩
    · by_cases hr : r ∈ (seqs.map fun x => (x.1.id, x.2)).map Prod.fst
      · obtain ⟨y, hy, -⟩ := List.mem_map.mp hr
        obtain ⟨x, hx, -⟩ := List.mem_map.mp hy
        have := h.balance u (hmember x hx) r
        have := h.sys.returnedCount_le u r
        have := hopen u r
        rw [hids]
        omega
      · rw [List.count_eq_zero_of_not_mem hr]
        exact Nat.zero_le _
    · obtain ⟨x, hx, rfl⟩ := List.mem_map.mp hr
      have hu := hmember x hx
      have hcount := hpos x hx
      have := h.balance u hu x.1.id
      have := h.sys.returnedCount_le u x.1.id
      have := hopen u x.1.id
      rw [hids] at hcount
      have hreturned : 0 < s.sys.returnedCount u x.1.id := by omega
      refine ⟨hchain.ids u hu _ ?_, fun hadded => ?_⟩
      · exact h.sys.assembled_subset u (List.mem_toFinset.mpr
          (h.sys.assembled_of_returned hreturned))
      · have : 0 < s.sys.addedCount u x.1.id := List.count_pos_iff.mpr hadded
        omega
  have hsys := h.sys.addExtend may run
  have hst : st.outReqModelIdMapping = s.sys.st.outReqModelIdMapping := by
    obtain ⟨metaPool, toAdd, -, rfl⟩ := extendOutputPool_frame run
    rfl
  refine ⟨hsys, h.own, fun x hx => ?_, fun k hk r => ?_, fun hone x hx => ?_, fun b' hb' => ?_,
    fun e he => ?_, fun k hk => ?_⟩
  · exact h.models x (hitems.mem_iff.mpr (List.mem_append_right _ hx))
  · have hold := h.balance k hk r
    have hsplit := hopen k r
    rw [Sys.addedCount] at hold ⊢
    change Fused.openCount { s with batches := before ++ ⟨[], rest⟩ :: after } k r +
      ((Function.update s.sys.added u (s.sys.added u ++ seqs.map fun x => (x.1.id, x.2)) k).map
        Prod.fst).count r ≤ s.sys.returnedCount k r
    by_cases heq : k = u
    · subst heq
      rw [Function.update_self, List.map_append, List.count_append, hids]
      omega
    · rw [Function.update_of_ne heq]
      omega
  · change st.outReqModelIdMapping sharedId x.id = some x.model
    rw [hst]
    refine h.mapped hone x ?_
    rw [batch]
    simpa only [List.flatMap_append, List.flatMap_cons, todo, List.map_nil] using hx
  · rcases List.mem_append.mp hb' with hb' | hb'
    · exact h.batches b' (by rw [batch]; exact List.mem_append_left _ hb')
    · rcases List.mem_cons.mp hb' with rfl | hb'
      · exact ⟨fun hne => absurd rfl hne, fun e he => hgroup e (List.mem_cons_of_mem _ he)⟩
      · refine h.batches b' ?_
        rw [batch]
        exact List.mem_append_right _ (List.mem_cons_of_mem _ hb')
  · rcases List.mem_append.mp he with he | he
    · exact h.filed e he
    · obtain ⟨x, hx, rfl⟩ := List.mem_map.mp he
      exact (hmodel x hx).symm
  · have hold := h.added k hk
    change (Function.update s.sys.added u (s.sys.added u ++ seqs.map fun x => (x.1.id, x.2)) k).map
      Prod.fst = _
    by_cases heq : k = u
    · subst heq
      have hall : (seqs.map fun x => (x.1, k)).filter (fun e => e.2 = k) =
          seqs.map fun x => (x.1, k) := by
        refine List.filter_eq_self.mpr fun e he => ?_
        obtain ⟨x, -, rfl⟩ := List.mem_map.mp he
        exact decide_eq_true rfl
      rw [Function.update_self, List.map_append, hold, List.filter_append, hall, List.map_append]
      simp only [List.map_map, Function.comp_def]
    · have hnone : (seqs.map fun x => (x.1, u)).filter (fun e => e.2 = k) = [] := by
        refine List.filter_eq_nil_iff.mpr fun e he hu => ?_
        obtain ⟨x, -, rfl⟩ := List.mem_map.mp he
        exact heq (of_decide_eq_true hu).symm
      rw [Function.update_of_ne heq, hold, List.filter_append, hnone, List.append_nil]

theorem Fused.Ok.step (hchain : FusedChain cfg w sharedId) {s' : Fused α}
    (h : s.Ok cfg w sharedId) (hstep : FusedStep cfg w sharedId s s') : s'.Ok cfg w sharedId := by
  cases hstep with
  | comm step added returned own => exact h.comm step added returned own
  | fetchEnd member fetch shared _ fused run =>
    exact h.fetchEnd hchain member fetch shared fused run
  | restart same => exact h.restart same
  | addBegin _ split => exact h.addBegin split
  | lookUp batch todo mapped => exact h.lookUp batch todo mapped
  | addExtend batch todo groups _ run => exact h.addExtend hchain batch todo groups run
  | addEnd batch todo groups => exact h.addEnd batch todo groups

end

/-- **Attribution.** In every interleaving each output is added to the base model it was fetched
from, the outputs added to a base model are exactly these, and every look-up still to come finds
the base model it should. -/
theorem add_seqs_attributes (hchain : FusedChain cfg w sharedId) {u₀ g₀ : ModelId → Int}
    {s : Fused α} (h : ReflTransGen (FusedStep cfg w sharedId) (Fused.init cfg u₀ g₀) s) :
    (∀ e ∈ s.filed, e.2 = e.1.model) ∧
    (∀ m ∈ cfg.baseModelIdsDict sharedId,
      (s.sys.added m).map Prod.fst = (s.filed.filter fun e => e.2 = m).map fun e => e.1.id) ∧
    ∀ b ∈ s.batches, ∀ x ∈ b.todo,
      s.sys.st.outReqModelIdMapping sharedId x.1.id = some x.1.model := by
  have hok : s.Ok cfg w sharedId := by
    induction h with
    | refl => exact .init u₀ g₀
    | tail _ hstep ih => exact ih.step hchain hstep
  refine ⟨hok.filed, hok.added, fun b hb x hx => ?_⟩
  refine hok.mapped ((hok.batches b hb).todo (List.ne_nil_of_mem hx)) x.1 ?_
  exact List.mem_append_right _ (List.mem_flatMap.mpr ⟨b, hb, List.mem_map_of_mem hx⟩)

end

/-! ## A small instance -/

/-- The two models of `chainCfg` fused under the shared id 0. -/
def fusedCfg : Config String :=
  { chainCfg with baseModelIdsDict := fun sharedId => if sharedId = 0 then [0, 1] else [] }

def fusedWork : Workload fusedCfg where
  rawOutIds := fun u => if u = -1 ∨ u = 0 ∨ u = 1 then [0, 1] else []
  merge_inj := fun _ _ _ _ _ _ h => by cases h
  indep_disjoint := fun m hone src hs src' hs' => by
    have hm : m ≠ 1 := by rintro rfl; exact absurd hone (by decide)
    simp only [fusedCfg, chainCfg, hm, if_false] at hs hs'
    split_ifs at hs hs' <;> simp_all

theorem fusedChain : FusedChain fusedCfg fusedWork 0 where
  follows := by
    refine .cons_cons ⟨by decide, fun h => absurd h (by decide), fun raw out hout r hr => ?_⟩
      (.singleton 1)
    obtain rfl := List.mem_singleton.mp hr
    exact List.mem_toFinset.mp hout
  ids := by decide

theorem fusedCfg_own {fetching : ModelId → Option (Fetch String)} {m₀ : ModelId}
    {f₀ : Option (Fetch String)} (h₀ : m₀ ∈ fusedCfg.baseModelIdsDict 0)
    (h : ∀ m f, fetching m = some f → m ∈ fusedCfg.baseModelIdsDict 0) (m : ModelId)
    (f : Fetch String) (hf : Function.update fetching m₀ f₀ m = some f) :
    m ∈ fusedCfg.baseModelIdsDict 0 := by
  by_cases hm : m = m₀
  · rw [hm]
    exact h₀
  · rw [Function.update_of_ne hm] at hf
    exact h m f hf

/-- A prompt is fetched for model 0 and its output looked up and added. Model 1 gets the request
under the same id, which is looked up again. -/
theorem add_seqs_attributes_two : ∃ s : Fused String,
    ReflTransGen (FusedStep fusedCfg fusedWork 0) (Fused.init fusedCfg (fun _ => 1) fun _ => 1) s ∧
    s.filed = [(⟨0, 0, 0⟩, 0), (⟨0, 1, 0⟩, 1)] ∧ s.sys.assembled 1 = [(0, "ab")] ∧
    s.sys.st.outReqModelIdMapping 0 0 = some 1 ∧ ∀ e ∈ s.filed, e.2 = e.1.model := by
  have hprompt : FusedStep fusedCfg fusedWork 0 (Fused.init fusedCfg (fun _ => 1) fun _ => 1) _ :=
    .comm (@Step.addExtend _ _ _ _ _ (-1) [(0, "a")] _ _ rfl ⟨by decide, by decide⟩ rfl)
      (by decide) (fun _ _ => rfl) fun _ _ h => by cases h
  have h₀ : 0 ∈ fusedCfg.baseModelIdsDict 0 := List.mem_cons_self
  have h₁ : 1 ∈ fusedCfg.baseModelIdsDict 0 := List.mem_cons_of_mem 0 List.mem_cons_self
  have hidle : ∀ (m : ModelId) (f : Fetch String),
      (Fused.init fusedCfg (fun _ => 1) fun _ => 1).sys.fetching m = some f →
        m ∈ fusedCfg.baseModelIdsDict 0 := fun _ _ h => by cases h
  -- the prompt is forwarded, and model 0 fetches, looks up and adds
  have hfirst := ((((((((((ReflTransGen.single hprompt).tail
    (.comm (.addDec (u := -1) (n := 1) rfl) (fun _ _ => rfl) (fun _ _ => rfl)
      fun m f h _ => hidle m f h)).tail
    (.comm (@Step.reset _ _ _ _ _ 0 2 (fun _ h => by cases h) (by decide))
      (fun _ _ => rfl) (fun _ _ => rfl) fun m f h _ => hidle m f h)).tail
    (.comm (@Step.fetchBegin _ _ _ _ _ 0 0 0 rfl (by decide))
      (fun _ _ => rfl) (fun _ _ => rfl) fun m f h _ => fusedCfg_own h₀ hidle m f h)).tail
    (.comm (.fetchLock (m := 0) rfl rfl rfl) (fun _ _ => rfl) (fun _ _ => rfl)
      fun m f h _ => fusedCfg_own h₀ (fusedCfg_own h₀ hidle) m f h)).tail
    (.comm (.fetchRead (m := 0) rfl rfl rfl (fun _ => rfl)) (fun _ _ => rfl) (fun _ _ => rfl)
      fun m f h _ => fusedCfg_own h₀ (fusedCfg_own h₀ (fusedCfg_own h₀ hidle)) m f h)).tail
    (.fetchEnd (m := 0) (by decide) rfl rfl rfl rfl rfl)).tail
    (@FusedStep.addBegin _ _ _ _ _ _ 0 [(⟨0, 0, 0⟩, "b")] [] (by decide) (by decide))).tail
    (@FusedStep.lookUp _ _ _ _ _ _ [] [] ⟨[(⟨0, 0, 0⟩, "b")], []⟩ (⟨0, 0, 0⟩, "b") [] 0
      rfl rfl rfl)).tail
    (@FusedStep.addExtend _ _ _ _ _ _ [] [] ⟨[], [(0, [(⟨0, 0, 0⟩, "b")])]⟩ 0 _ _ _ 1
      rfl rfl rfl (by decide) rfl)).tail
    (@FusedStep.addEnd _ _ _ _ _ _ [] [] ⟨[], []⟩ rfl rfl rfl)
  have hafter : ∀ {f₀ f₁ f₂ f₃ : Option (Fetch String)} (m : ModelId) (f : Fetch String),
      Function.update (Function.update (Function.update (Function.update
        (Fused.init fusedCfg (fun _ => 1) fun _ => 1).sys.fetching 0 f₀) 0 f₁) 0 f₂) 0 f₃ m =
        some f → m ∈ fusedCfg.baseModelIdsDict 0 :=
    fusedCfg_own h₀ (fusedCfg_own h₀ (fusedCfg_own h₀ (fusedCfg_own h₀ hidle)))
  -- model 1 fetches the request from both pools, under the same id, and adds it as well
  have hrun := ((((((((((((hfirst.tail
    (.comm (.addDec (u := 0) (n := 1) rfl) (fun _ _ => rfl) (fun _ _ => rfl)
      fun m f h _ => hafter m f h)).tail
    (.comm (@Step.reset _ _ _ _ _ 1 1 (fun _ h => by cases h) (by decide))
      (fun _ _ => rfl) (fun _ _ => rfl) fun m f h _ => hafter m f h)).tail
    (.comm (@Step.fetchBegin _ _ _ _ _ 1 0 0 rfl (by decide))
      (fun _ _ => rfl) (fun _ _ => rfl) fun m f h _ => fusedCfg_own h₁ hafter m f h)).tail
    (.comm (.fetchLock (m := 1) rfl rfl rfl) (fun _ _ => rfl) (fun _ _ => rfl)
      fun m f h _ => fusedCfg_own h₁ (fusedCfg_own h₁ hafter) m f h)).tail
    (.comm (.fetchRead (m := 1) rfl rfl rfl (fun _ => rfl)) (fun _ _ => rfl) (fun _ _ => rfl)
      fun m f h _ => fusedCfg_own h₁ (fusedCfg_own h₁ (fusedCfg_own h₁ hafter)) m f h)).tail
    (.comm (.fetchLock (m := 1) rfl rfl rfl) (fun _ _ => rfl) (fun _ _ => rfl)
      fun m f h _ => fusedCfg_own h₁ (fusedCfg_own h₁ (fusedCfg_own h₁ (fusedCfg_own h₁ hafter)))
        m f h)).tail
    (.comm (.fetchRead (m := 1) rfl rfl rfl (fun _ => rfl)) (fun _ _ => rfl) (fun _ _ => rfl)
      fun m f h _ => fusedCfg_own h₁ (fusedCfg_own h₁ (fusedCfg_own h₁ (fusedCfg_own h₁
        (fusedCfg_own h₁ hafter)))) m f h)).tail
    (.fetchEnd (m := 1) (by decide) rfl rfl rfl rfl rfl)).tail
    (@FusedStep.addBegin _ _ _ _ _ _ 0 [(⟨0, 1, 0⟩, "c")] [] (by decide) (by decide))).tail
    (@FusedStep.lookUp _ _ _ _ _ _ [] [] ⟨[(⟨0, 1, 0⟩, "c")], []⟩ (⟨0, 1, 0⟩, "c") [] 1
      rfl rfl rfl)).tail
    (@FusedStep.addExtend _ _ _ _ _ _ [] [] ⟨[], [(1, [(⟨0, 1, 0⟩, "c")])]⟩ 1 _ _ _ 1
      rfl rfl rfl (by decide) rfl)).tail
    (@FusedStep.addEnd _ _ _ _ _ _ [] [] ⟨[], []⟩ rfl rfl rfl))
  exact ⟨_, hrun, rfl, rfl, rfl, (add_seqs_attributes fusedChain hrun).1⟩

end Mil.Communicator
