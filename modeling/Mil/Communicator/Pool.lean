import Mil.Communicator.System

/-!
# The output pool

What `add_seqs_base_model` leaves behind, as a function of the outputs added so far and not of
the calls they came in. Without a part table the pool is the outputs themselves. With one, the
meta pool holds each merged output's parts in the slots `out_req_id_mapping` gives them, and the
pool holds the merged outputs whose parts are all there (`MergeOk`).

The one assumption is `Workload.merge_inj`: no two outputs are the same part of the same merged
output. It is what makes the counter of the meta pool count slots.
-/

set_option autoImplicit false

namespace Mil.Communicator

open Mil.Lib

variable {α : Type} {cfg : Config α} {u : ModelId}

/-- How many parts merged output `newOutId` of `u` has. -/
def partNum (cfg : Config α) (u : ModelId) (newOutId : ReqId) : Nat :=
  ((cfg.newOutReqPartNum u).bind fun d => d.lookup newOutId).getD 0

/-- The part of `newOutId` for slot `i`, if it is among the outputs added. -/
def partAt (cfg : Config α) (u : ModelId) (added : List (Req α)) (i : Nat) (newOutId : ReqId) :
    Option α :=
  (added.find? fun r => cfg.outReqIdMapping u r.1 = some (newOutId, i)).map Prod.snd

theorem partAt_isSome {added : List (Req α)} {i : Nat} {k : ReqId} :
    (partAt cfg u added i k).isSome ↔
      ∃ r ∈ added, cfg.outReqIdMapping u r.1 = some (k, i) := by
  simp [partAt]

theorem partAt_append {added : List (Req α)} {req : Req α} {i : Nat} {k : ReqId}
    (hmap : cfg.outReqIdMapping u req.1 = some (k, i)) (hnone : partAt cfg u added i k = none) :
    partAt cfg u (added ++ [req]) = arrived (partAt cfg u added) i k req.2 := by
  funext j l
  unfold arrived
  by_cases h : j = i ∧ l = k
  · obtain ⟨rfl, rfl⟩ := h
    rw [if_pos ⟨rfl, rfl⟩]
    unfold partAt at hnone ⊢
    rw [Option.map_eq_none_iff] at hnone
    simp [List.find?_append, hnone, hmap]
  · rw [if_neg h]
    have hne : ¬ (k = l ∧ i = j) := fun hk => h ⟨hk.2.symm, hk.1.symm⟩
    unfold partAt
    simp [List.find?_append, hmap, hne]

/-- A part already there stays what it is. -/
theorem partAt_append_of_isSome {added : List (Req α)} {req : Req α} {i : Nat} {k : ReqId}
    (h : (partAt cfg u added i k).isSome) :
    partAt cfg u (added ++ [req]) i k = partAt cfg u added i k := by
  unfold partAt at h ⊢
  rw [Option.isSome_map] at h
  obtain ⟨r, hr⟩ := Option.isSome_iff_exists.mp h
  simp [List.find?_append, hr]

/-! ## The meta pool -/

variable [Content α]

/-- The meta pool and the pool of a model whose outputs are merged, after `added`. -/
structure MergeOk (cfg : Config α) (u : ModelId) (metaPool : ReqId → Option (Slots α))
    (added pool : List (Req α)) : Prop where
  keys : ∀ k, (metaPool k).isSome → ∃ d, cfg.newOutReqPartNum u = some d ∧ (d.lookup k).isSome
  table : TableOk (partNum cfg u) (partAt cfg u added)
    (fun k => (metaPool k).getD (Slots.empty 0)) (pool.map Prod.fst)
  content : ∀ r ∈ pool, fuseInpSrcs
    ((List.range (partNum cfg u r.1)).map fun i => partAt cfg u added i r.1) = some r.2

theorem MergeOk.init : MergeOk cfg u (initMetaOutputPool cfg u) [] [] where
  keys k h := by
    unfold initMetaOutputPool at h
    rw [Option.isSome_map, Option.isSome_bind, Option.any_eq_true] at h
    exact h
  table := by
    have hrow : (fun k => (initMetaOutputPool cfg u k).getD (Slots.empty 0)) =
        fun k => (Slots.empty (partNum cfg u k) : Slots α) := by
      funext k
      unfold initMetaOutputPool partNum
      cases (cfg.newOutReqPartNum u).bind fun d => d.lookup k <;> rfl
    rw [hrow]
    exact TableOk.init _
  content r hr := absurd hr List.not_mem_nil

/-- What one iteration of `_process_outputs` does: output `req` is part `i` of `k`, it goes into
its slot, and `k` joins the result if that was the last part. -/
theorem processOutput_cases {st st' : State α} {ret ret' : List (Req α)} {req : Req α}
    (h : processOutput cfg u (st, ret) req = some (st', ret')) :
    ∃ k i slots, cfg.outReqIdMapping u req.1 = some (k, i) ∧
      st.metaOutputPool u k = some slots ∧ i < slots.parts.length ∧
      st' = { st with
        metaOutputPool := Function.update st.metaOutputPool u
          (Function.update (st.metaOutputPool u) k (some (slots.put i req.2))) } ∧
      (((slots.put i req.2).count = (slots.put i req.2).parts.length ∧
          ∃ c, fuseInpSrcs (slots.put i req.2).parts = some c ∧ ret' = ret ++ [(k, c)]) ∨
        ((slots.put i req.2).count ≠ (slots.put i req.2).parts.length ∧ ret' = ret)) := by
  unfold processOutput at h
  simp only [Option.bind_eq_bind, Option.bind_eq_some_iff, Prod.exists] at h
  obtain ⟨k, i, hmap, slots, hslots, h⟩ := h
  refine ⟨k, i, slots, hmap, hslots, ?_⟩
  split at h
  · rename_i hi
    refine ⟨hi, ?_⟩
    split at h
    · rename_i hc
      simp only [Option.bind_eq_some_iff, Option.pure_def, Option.some.injEq,
        Prod.mk.injEq] at h
      obtain ⟨c, hfuse, rfl, rfl⟩ := h
      exact ⟨rfl, .inl ⟨hc, c, hfuse, rfl⟩⟩
    · rename_i hc
      simp only [Option.pure_def, Option.some.injEq, Prod.mk.injEq] at h
      obtain ⟨rfl, rfl⟩ := h
      exact ⟨rfl, .inr ⟨hc, rfl⟩⟩
  · cases h

/-- One output more. -/
theorem MergeOk.process {st st' : State α} {added pool ret ret' : List (Req α)} {req : Req α}
    (h : MergeOk cfg u (st.metaOutputPool u) added (pool ++ ret))
    (fresh : ∀ r ∈ added, ∀ p, cfg.outReqIdMapping u r.1 = some p →
      cfg.outReqIdMapping u req.1 ≠ some p)
    (run : processOutput cfg u (st, ret) req = some (st', ret')) :
    MergeOk cfg u (st'.metaOutputPool u) (added ++ [req]) (pool ++ ret') := by
  obtain ⟨k, i, slots, hmap, hslots, hi, rfl, hret⟩ := processOutput_cases run
  have hrow : ((st.metaOutputPool u k).getD (Slots.empty 0)) = slots := by rw [hslots]; rfl
  have hlen : slots.parts.length = partNum cfg u k := by
    rw [← hrow]
    exact (h.table.holds k).length
  have hnone : partAt cfg u added i k = none := by
    rw [← Option.not_isSome_iff_eq_none, partAt_isSome]
    rintro ⟨r, hr, hrk⟩
    exact fresh r hr _ hrk hmap
  have harr := partAt_append hmap hnone
  have htable := h.table.arrive (fun l => (Function.update (st.metaOutputPool u) k
    (some (slots.put i req.2)) l).getD (Slots.empty 0)) (hlen ▸ hi) hnone req.2 (by
      funext l
      by_cases hl : l = k
      · subst hl; simp [hslots]
      · simp [hl])
  simp only [hrow] at htable
  have hcontent : ∀ r ∈ pool ++ ret, fuseInpSrcs ((List.range (partNum cfg u r.1)).map
      fun i => partAt cfg u (added ++ [req]) i r.1) = some r.2 := by
    intro r hr
    rw [← h.content r hr]
    congr 1
    refine List.map_congr_left fun j hj => partAt_append_of_isSome ?_
    exact h.table.some_of_complete (List.mem_map_of_mem hr) (List.mem_range.mp hj)
  have hparts : (slots.put i req.2).parts = (List.range (partNum cfg u k)).map
      fun j => partAt cfg u (added ++ [req]) j k := by
    rw [harr, ← htable.parts_eq k]
    simp
  have hput : (slots.put i req.2).parts.length = partNum cfg u k := by
    simp [Slots.put, hlen]
  simp only [Function.update_self]
  refine ⟨fun l hl => ?_, ?_, ?_⟩
  · by_cases hlk : l = k
    · subst hlk
      exact h.keys l (by simp [hslots])
    · rw [Function.update_of_ne hlk] at hl
      exact h.keys l hl
  · rw [harr]
    rcases hret with ⟨hc, c, -, rfl⟩ | ⟨hc, rfl⟩
    · rw [if_pos (hput ▸ hc)] at htable
      simpa [← List.append_assoc] using htable
    · rw [if_neg (hput ▸ hc)] at htable
      exact htable
  · rcases hret with ⟨hc, c, hfuse, rfl⟩ | ⟨hc, rfl⟩
    · intro r hr
      rw [← List.append_assoc, List.mem_append, List.mem_singleton] at hr
      rcases hr with hr | rfl
      · exact hcontent r hr
      · rw [← hfuse, hparts]
    · exact hcontent

/-- `_process_outputs` on any batch. -/
theorem MergeOk.processAll {pool : List (Req α)} :
    ∀ (seqs : List (Req α)) {st st' : State α} {added ret ret' : List (Req α)},
      MergeOk cfg u (st.metaOutputPool u) added (pool ++ ret) →
      (seqs.map Prod.fst).Nodup →
      (∀ r ∈ seqs, r.1 ∉ added.map Prod.fst) →
      (∀ r ∈ added ++ seqs, ∀ r' ∈ added ++ seqs, ∀ p, cfg.outReqIdMapping u r.1 = some p →
        cfg.outReqIdMapping u r'.1 = some p → r.1 = r'.1) →
      seqs.foldlM (processOutput cfg u) (st, ret) = some (st', ret') →
      MergeOk cfg u (st'.metaOutputPool u) (added ++ seqs) (pool ++ ret')
  | [], st, st', added, ret, ret', h, _, _, _, run => by
    simp only [List.foldlM_nil, Option.pure_def, Option.some.injEq, Prod.mk.injEq] at run
    obtain ⟨rfl, rfl⟩ := run
    simpa using h
  | req :: rest, st, st', added, ret, ret', h, hnodup, hnew, hinj, run => by
    simp only [List.foldlM_cons, Option.bind_eq_bind, Option.bind_eq_some_iff,
      Prod.exists] at run
    obtain ⟨st₁, ret₁, hone, hrest⟩ := run
    rw [List.map_cons, List.nodup_cons] at hnodup
    have hmem : ∀ r, r ∈ added → r ∈ added ++ req :: rest := fun r hr =>
      List.mem_append_left _ hr
    have h₁ := h.process (fun r hr p hp hp' => hnew req List.mem_cons_self (by
      rw [hinj req (by simp) r (hmem r hr) p hp' hp]
      exact List.mem_map_of_mem hr)) hone
    have hsplit : added ++ req :: rest = (added ++ [req]) ++ rest := by simp
    rw [hsplit] at hinj ⊢
    refine MergeOk.processAll rest h₁ hnodup.2 (fun r hr => ?_) hinj hrest
    rw [List.map_append, List.mem_append, not_or]
    refine ⟨hnew r (List.mem_cons_of_mem _ hr), ?_⟩
    simp only [List.map_cons, List.map_nil, List.mem_singleton]
    intro heq
    exact hnodup.1 (heq ▸ List.mem_map_of_mem hr)

/-- `_process_outputs` writes the meta pool of its model and nothing else. -/
theorem processOutputs_frame :
    ∀ (seqs : List (Req α)) {st st' : State α} {ret ret' : List (Req α)},
      seqs.foldlM (processOutput cfg u) (st, ret) = some (st', ret') →
      ∃ metaPool, st' = { st with
        metaOutputPool := Function.update st.metaOutputPool u metaPool }
  | [], st, st', ret, ret', run => by
    simp only [List.foldlM_nil, Option.pure_def, Option.some.injEq, Prod.mk.injEq] at run
    exact ⟨st.metaOutputPool u, by simp [← run.1]⟩
  | req :: rest, st, st', ret, ret', run => by
    simp only [List.foldlM_cons, Option.bind_eq_bind, Option.bind_eq_some_iff,
      Prod.exists] at run
    obtain ⟨st₁, ret₁, hone, hrest⟩ := run
    obtain ⟨k, i, slots, -, -, -, rfl, -⟩ := processOutput_cases hone
    obtain ⟨metaPool, rfl⟩ := processOutputs_frame rest hrest
    exact ⟨metaPool, by simp⟩

/-! ## The pool -/

/-- The pool of `u` after `added`, merged or not. -/
structure PoolOk (cfg : Config α) (u : ModelId) (metaPool : ReqId → Option (Slots α))
    (added pool : List (Req α)) : Prop where
  plain : cfg.newOutReqPartNum u = none → pool = added
  merged : (cfg.newOutReqPartNum u).isSome → MergeOk cfg u metaPool added pool

theorem PoolOk.init : PoolOk cfg u (initMetaOutputPool cfg u) [] [] :=
  ⟨fun _ => rfl, fun _ => MergeOk.init⟩

/-- What `extendOutputPool` can do: extend the pool by the outputs themselves, or by what
`_process_outputs` makes of them. -/
theorem extendOutputPool_cases {st st' : State α} {seqs : List (Req α)} {n : Nat}
    (run : extendOutputPool cfg u st seqs = some (st', n)) :
    ∃ st₁ toAdd, toAdd.length = n ∧
      st' = { st₁ with
        outputPool := Function.update st₁.outputPool u (st₁.outputPool u ++ toAdd) } ∧
      ((cfg.newOutReqPartNum u = none ∧ st₁ = st ∧ toAdd = seqs) ∨
        ((cfg.newOutReqPartNum u).isSome ∧
          seqs.foldlM (processOutput cfg u) (st, []) = some (st₁, toAdd))) := by
  unfold extendOutputPool at run
  split at run
  · rename_i hsome
    simp only [Option.bind_eq_bind, Option.bind_eq_some_iff, Option.pure_def,
      Option.some.injEq, Prod.mk.injEq, Prod.exists] at run
    obtain ⟨st₁, toAdd, hproc, rfl, rfl⟩ := run
    exact ⟨st₁, toAdd, rfl, rfl, .inr ⟨hsome, hproc⟩⟩
  · rename_i hnone
    simp only [Option.bind_eq_bind, Option.bind_some, Option.pure_def, Option.some.injEq,
      Prod.mk.injEq] at run
    obtain ⟨rfl, rfl⟩ := run
    exact ⟨st, seqs, rfl, rfl, .inl ⟨by simpa using hnone, rfl, rfl⟩⟩

/-- `add_seqs_base_model` writes the two pools of its model and grows the output pool by the
number it counts off. -/
theorem extendOutputPool_frame {st st' : State α} {seqs : List (Req α)} {n : Nat}
    (run : extendOutputPool cfg u st seqs = some (st', n)) :
    ∃ metaPool toAdd, toAdd.length = n ∧ st' = { st with
      metaOutputPool := Function.update st.metaOutputPool u metaPool
      outputPool := Function.update st.outputPool u (st.outputPool u ++ toAdd) } := by
  obtain ⟨st₁, toAdd, hlen, rfl, ⟨-, rfl, -⟩ | ⟨-, hproc⟩⟩ := extendOutputPool_cases run
  · exact ⟨st₁.metaOutputPool u, toAdd, hlen, by simp⟩
  · obtain ⟨metaPool, rfl⟩ := processOutputs_frame seqs hproc
    exact ⟨metaPool, toAdd, hlen, rfl⟩

theorem PoolOk.extend {st st' : State α} {added seqs : List (Req α)} {n : Nat}
    (h : PoolOk cfg u (st.metaOutputPool u) added (st.outputPool u))
    (hnodup : (seqs.map Prod.fst).Nodup)
    (hnew : ∀ r ∈ seqs, r.1 ∉ added.map Prod.fst)
    (hinj : ∀ r ∈ added ++ seqs, ∀ r' ∈ added ++ seqs, ∀ p, cfg.outReqIdMapping u r.1 = some p →
      cfg.outReqIdMapping u r'.1 = some p → r.1 = r'.1)
    (run : extendOutputPool cfg u st seqs = some (st', n)) :
    PoolOk cfg u (st'.metaOutputPool u) (added ++ seqs) (st'.outputPool u) := by
  obtain ⟨st₁, toAdd, -, rfl, ⟨hn, rfl, rfl⟩ | ⟨hs, hproc⟩⟩ := extendOutputPool_cases run
  · refine ⟨fun _ => ?_, fun hs => by simp [hn] at hs⟩
    simp only [Function.update_self, h.plain hn]
  · refine ⟨fun hn => by simp [hn] at hs, fun _ => ?_⟩
    have hall := MergeOk.processAll seqs (by simpa using h.merged hs) hnodup hnew hinj hproc
    obtain ⟨metaPool, rfl⟩ := processOutputs_frame seqs hproc
    simpa only [Function.update_self] using hall

theorem PoolOk.nodup {metaPool : ReqId → Option (Slots α)} {added pool : List (Req α)}
    (h : PoolOk cfg u metaPool added pool) (hadded : (added.map Prod.fst).Nodup) :
    (pool.map Prod.fst).Nodup := by
  cases hn : cfg.newOutReqPartNum u with
  | none => rwa [h.plain hn]
  | some d => exact (h.merged (by simp [hn])).table.nodup

/-- **The ids in the pool** are the ids the outputs added so far make up. -/
theorem PoolOk.mem_ids {metaPool : ReqId → Option (Slots α)} {added pool : List (Req α)}
    (h : PoolOk cfg u metaPool added pool) (id : ReqId) :
    id ∈ pool.map Prod.fst ↔ id ∈ pooledIds cfg u (added.map Prod.fst) := by
  unfold pooledIds
  cases hn : cfg.newOutReqPartNum u with
  | none => rw [h.plain hn, List.mem_toFinset]
  | some d =>
    rw [(h.merged (by simp [hn])).table.mem_iff id]
    have hnum : partNum cfg u id = (d.lookup id).getD 0 := by simp [partNum, hn]
    have hkey : 0 < partNum cfg u id → id ∈ d.keys := by
      intro hpos
      by_contra hnot
      rw [hnum, AList.lookup_eq_none.mpr hnot] at hpos
      exact absurd hpos (by simp)
    simp only [List.mem_toFinset, List.mem_filter, decide_eq_true_eq, ← hnum, partAt_isSome,
      List.mem_map, exists_exists_and_eq_and]
    exact ⟨fun hm => ⟨hkey hm.1, hm⟩, fun hm => hm.2⟩

omit [Content α] in
/-- More outputs make up more. -/
theorem pooledIds_mono {raw raw' : List ReqId} (h : raw ⊆ raw') :
    pooledIds cfg u raw ⊆ pooledIds cfg u raw' := by
  unfold pooledIds
  split
  · exact fun id hid => List.mem_toFinset.mpr (h (List.mem_toFinset.mp hid))
  · intro id
    simp only [List.mem_toFinset, List.mem_filter, decide_eq_true_eq]
    rintro ⟨hk, hpos, hall⟩
    refine ⟨hk, hpos, fun i hi => ?_⟩
    obtain ⟨r, hr, hmap⟩ := hall i hi
    exact ⟨r, h hr, hmap⟩

end Mil.Communicator
