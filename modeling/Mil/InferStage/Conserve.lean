import Mil.InferStage.Worker

/-!
# Tokens over stages

A request takes tokens as *credit*: what a stage credits is taken off the output length and added
to the input length, and the request is dropped when nothing is left. Over a run of stages the
credits add up. This file has the bookkeeping for lists of requests, the result of a stage model by
model, and when a stage conserves all requests: exactly when the levels of each request id of a
fused plan are consecutive.
-/

set_option autoImplicit false

namespace Mil.InferStage

open Mil.Lib Mil.Fcfs

/-! ## Bookkeeping -/

/-- `l'` is what the requests `l` have become with the given credits. -/
structure Conserves (l l' : List Request) (credit : Nat → Nat) : Prop where
  le : ∀ r ∈ l, credit r.seqId ≤ r.outLen
  kept : ∀ r ∈ l, credit r.seqId < r.outLen → r.advance (credit r.seqId) ∈ l'
  dropped : ∀ r ∈ l, credit r.seqId = r.outLen → r.seqId ∉ ids l'
  origin : ids l' ⊆ ids l

theorem Conserves.refl {l : List Request} (hpos : ∀ r ∈ l, 0 < r.outLen) :
    Conserves l l fun _ => 0 where
  le _ _ := Nat.zero_le _
  kept _ hr _ := hr
  dropped r hr h := absurd h (Nat.ne_of_lt (hpos r hr))
  origin := List.Subset.refl _

theorem Conserves.trans {l l' l'' : List Request} {c c' : Nat → Nat} (h : Conserves l l' c)
    (h' : Conserves l' l'' c') (hgone : ∀ id, id ∉ ids l' → c' id = 0) :
    Conserves l l'' fun id => c id + c' id := by
  have hcases : ∀ r ∈ l, c r.seqId = r.outLen ∧ c' r.seqId = 0 ∨
      r.advance (c r.seqId) ∈ l' := by
    intro r hr
    rcases Nat.lt_or_eq_of_le (h.le r hr) with hlt | heq
    · exact .inr (h.kept r hr hlt)
    · exact .inl ⟨heq, hgone _ (h.dropped r hr heq)⟩
  refine ⟨fun r hr => ?_, fun r hr hlt => ?_, fun r hr heq => ?_,
    List.Subset.trans h'.origin h.origin⟩
  · rcases hcases r hr with ⟨hc, hc'⟩ | hmem
    · rw [hc, hc']
      exact Nat.le_refl _
    · have := h'.le _ hmem
      have hle := h.le r hr
      simp only [Request.advance] at this
      omega
  · rcases hcases r hr with ⟨hc, hc'⟩ | hmem
    · rw [hc, hc'] at hlt
      exact absurd hlt (Nat.lt_irrefl _)
    · have hmem' := h'.kept _ hmem (by simp only [Request.advance]; omega)
      have hsum : (r.advance (c r.seqId)).advance (c' r.seqId) =
          r.advance (c r.seqId + c' r.seqId) := by
        simp only [Request.advance, Request.mk.injEq, true_and]
        omega
      rwa [← hsum]
  · rcases hcases r hr with ⟨hc, -⟩ | hmem
    · exact fun hin => h.dropped r hr hc (h'.origin hin)
    · exact h'.dropped (r.advance (c r.seqId)) hmem (by simp only [Request.advance]; omega)

/-- What a request has of input and output together stays the same. -/
theorem Conserves.sum_eq {l l' : List Request} {c : Nat → Nat} (h : Conserves l l' c)
    (hids : (ids l').Nodup) {r r' : Request} (hr : r ∈ l) (hr' : r' ∈ l')
    (hid : r'.seqId = r.seqId) : r'.inpLen + r'.outLen = r.inpLen + r.outLen := by
  have hle := h.le r hr
  rcases Nat.lt_or_eq_of_le hle with hlt | hdone
  · have heq := eq_of_seqId hids hr' (h.kept r hr hlt) hid
    rw [heq]
    simp only [Request.advance]
    omega
  · exact absurd (hid ▸ List.mem_map_of_mem hr') (h.dropped r hr hdone)

/-- A request that is gone has been credited with all it wanted. -/
theorem Conserves.eq_of_gone {l l' : List Request} {c : Nat → Nat} (h : Conserves l l' c)
    {r : Request} (hr : r ∈ l) (hgone : r.seqId ∉ ids l') : c r.seqId = r.outLen := by
  refine Nat.le_antisymm (h.le r hr) (Nat.le_of_not_lt fun hlt => hgone ?_)
  exact List.mem_map.mpr ⟨_, h.kept r hr hlt, rfl⟩

/-! ## Credits -/

variable {τ : Type} [LinearOrder τ] [Sub τ]

/-- The requests of a level that are with some worker, with their `finished_lens`. -/
def ExecPlan.credits (p : ExecPlan τ) (s : ModelStates) (stageStopTime : τ) (k : Nat) :
    List (Request × Nat) :=
  (List.range p.dpSize).flatMap fun dpId => ((p.dpRequests s dpId).getD k []).zip
    (((p.progress dpId).finishedAt stageStopTime).getD k [])

/-- The tokens the stage credits to the request `seqId` of a level. -/
def ExecPlan.credit (p : ExecPlan τ) (s : ModelStates) (stageStopTime : τ) (k seqId : Nat) : Nat :=
  (((p.credits s stageStopTime k).find? fun c => c.1.seqId = seqId).map Prod.snd).getD 0

/-- Ids are different, and every remaining request wants tokens. -/
structure WellFormed (s : ModelStates) : Prop where
  nodup : ∀ m, (ids (s m)).Nodup
  pos : ∀ m, ∀ r ∈ s m, 0 < r.outLen

section

variable [Zero τ] {p : ExecPlan τ} {s : ModelStates} {stop : τ} {k : Nat}

/-- The simulations of a plan's workers were run for the workers' requests. -/
def ExecPlan.Simulated (p : ExecPlan τ) (s : ModelStates) : Prop :=
  ∀ dpId < p.dpSize, ∃ rows, SimulatedBy (p.progress dpId) (p.dpRequests s dpId) rows

omit [Zero τ] in
theorem mem_served_of_mem {dpId : Nat} (hdp : dpId < p.dpSize) {level : List Request}
    (hl : level ∈ p.dpRequests s dpId) {r : Request} (hr : r ∈ level) :
    ∃ k < p.baseModelIds.length, r ∈ p.served s k := by
  obtain ⟨k, hk, rfl⟩ := List.mem_iff_getElem.mp hl
  refine ⟨k, (length_dpRequests (p := p) (s := s) dpId) ▸ hk, mem_together.mpr ⟨dpId, hdp, ?_⟩⟩
  rwa [List.getD_eq_getElem?_getD, List.getElem?_eq_getElem hk, Option.getD_some]

omit [LinearOrder τ] [Zero τ] [Sub τ] in
theorem level_eq (hk : k < p.baseModelIds.length) : p.level s k = s p.baseModelIds[k] := by
  rw [ExecPlan.level, List.getD_eq_getElem?_getD, List.getElem?_map, List.getElem?_eq_getElem hk]
  rfl

omit [Zero τ] in
theorem dpRequests_pos (hs : WellFormed s) {dpId : Nat} (hdp : dpId < p.dpSize) :
    ∀ level ∈ p.dpRequests s dpId, ∀ r ∈ level, 0 < r.outLen := by
  intro level hl r hr
  obtain ⟨k, hk, hserved⟩ := mem_served_of_mem hdp hl hr
  have hmem := (served_subset (fun m _ => hs.nodup m) hk).2 hserved
  rw [level_eq hk] at hmem
  exact hs.pos _ r hmem

/-- As many `finished_lens` as requests, and none larger than the request's output length. -/
theorem finishedAt_spec (hs : WellFormed s) {dpId : Nat} (hdp : dpId < p.dpSize)
    {rows : List (List (List Rng))}
    (h : SimulatedBy (p.progress dpId) (p.dpRequests s dpId) rows) (k : Nat) :
    (((p.progress dpId).finishedAt stop).getD k []).length =
        ((p.dpRequests s dpId).getD k []).length ∧
      ∀ c ∈ ((p.dpRequests s dpId).getD k []).zip
        (((p.progress dpId).finishedAt stop).getD k []), c.2 ≤ c.1.outLen := by
  rw [WorkerProgress.finishedAt]
  cases hlast : (p.progress dpId).cumsumLatencys.getLast? with
  | none =>
    rw [h.eq_nil (List.getLast?_eq_none_iff.mp hlast) (dpRequests_pos hs hdp)]
    exact ⟨rfl, by simp⟩
  | some last =>
    refine ⟨?_, fun c hc => ?_⟩
    · simp only [h.finishedLens, List.length_map, h.length_level]
    · obtain ⟨j, hj⟩ := List.mem_iff_getElem?.mp hc
      obtain ⟨hr, hf⟩ := List.getElem?_zip_eq_some.mp hj
      obtain ⟨row, -, hdone, hle⟩ := h.finished_le hr
      rw [hdone] at hf
      exact (Option.some.inj hf) ▸ hle

theorem credits_fst (hs : WellFormed s) (hsim : p.Simulated s) (stop : τ) (k : Nat) :
    (p.credits s stop k).map Prod.fst = p.served s k := by
  rw [ExecPlan.credits, List.map_flatMap, ExecPlan.served, together]
  refine List.flatMap_congr fun dpId hdp => ?_
  obtain ⟨rows, h⟩ := hsim dpId (List.mem_range.mp hdp)
  exact List.map_fst_zip
    (Nat.le_of_eq (finishedAt_spec hs (List.mem_range.mp hdp) h k).1.symm)

theorem snd_le_of_mem_credits (hs : WellFormed s) (hsim : p.Simulated s) {c : Request × Nat}
    (hc : c ∈ p.credits s stop k) : c.2 ≤ c.1.outLen := by
  obtain ⟨dpId, hdp, hc⟩ := List.mem_flatMap.mp hc
  obtain ⟨rows, h⟩ := hsim dpId (List.mem_range.mp hdp)
  exact (finishedAt_spec hs (List.mem_range.mp hdp) h k).2 c hc

/-- The credit of a request that is with a worker. -/
theorem credit_of_mem (hs : WellFormed s) (hsim : p.Simulated s)
    (hk : k < p.baseModelIds.length) {c : Request × Nat} (hc : c ∈ p.credits s stop k) :
    p.credit s stop k c.1.seqId = c.2 := by
  have hnodup : ((p.credits s stop k).map fun c => c.1.seqId).Nodup := by
    have := (served_subset (p := p) (s := s) (fun m _ => hs.nodup m) hk).1
    rwa [← credits_fst hs hsim stop k, ids, List.map_map] at this
  have hsome : ((p.credits s stop k).find? fun d => d.1.seqId = c.1.seqId).isSome :=
    List.find?_isSome.mpr ⟨c, hc, decide_eq_true rfl⟩
  obtain ⟨d, hd⟩ := Option.isSome_iff_exists.mp hsome
  have hfound := List.find?_some hd
  rw [decide_eq_true_eq] at hfound
  have heq := List.inj_on_of_nodup_map hnodup (List.mem_of_find?_eq_some hd) hc hfound
  rw [ExecPlan.credit, hd, heq]
  rfl

/-- A request that is with no worker is credited with nothing. -/
theorem credit_of_not_mem (stop : τ) (hs : WellFormed s) (hsim : p.Simulated s) {seqId : Nat}
    (hid : seqId ∉ ids (p.served s k)) : p.credit s stop k seqId = 0 := by
  have hnone : (p.credits s stop k).find? (fun c => c.1.seqId = seqId) = none := by
    refine List.find?_eq_none.mpr fun c hc heq => hid ?_
    rw [decide_eq_true_eq] at heq
    rw [← credits_fst hs hsim stop k, ids, List.map_map]
    exact heq ▸ List.mem_map_of_mem hc
  rw [ExecPlan.credit, hnone]
  rfl

/-! ## The result for one level -/

theorem mergedLevel_perm (hs : WellFormed s) (hsim : p.Simulated s) :
    (p.mergedLevel s stop k).Perm
      (((p.credits s stop k).map fun c => c.1.advance c.2).filter (0 < ·.outLen)) := by
  rw [ExecPlan.mergedLevel]
  have hworkers : (List.range p.dpSize).flatMap (fun dpId =>
      (p.newInpOutLensOf s stop dpId).getD k []) =
      ((p.credits s stop k).map fun c => c.1.advance c.2).filter (0 < ·.outLen) := by
    rw [ExecPlan.credits, List.map_flatMap, List.filter_flatMap]
    refine List.flatMap_congr fun dpId hdp => ?_
    obtain ⟨rows, h⟩ := hsim dpId (List.mem_range.mp hdp)
    rw [newInpOutLensOf_getD h (dpRequests_pos hs (List.mem_range.mp hdp)), remaining,
      ← List.map_uncurry_zip_eq_zipWith]
    rfl
  rw [hworkers]
  refine ((sortBySeqId_perm _).filter _).trans (List.Perm.of_eq ?_)
  rw [List.filter_filter]
  refine List.filter_congr fun r _ => ?_
  rw [← Bool.decide_and, decide_eq_decide]
  omega

/-- The merge has each request once. -/
theorem mergedLevel_nodup (hs : WellFormed s) (hsim : p.Simulated s)
    (hk : k < p.baseModelIds.length) : (ids (p.mergedLevel s stop k)).Nodup := by
  rw [ids, ((mergedLevel_perm hs hsim).map _).nodup_iff]
  have hnodup := (served_subset (p := p) (s := s) (fun m _ => hs.nodup m) hk).1
  rw [← credits_fst hs hsim stop k, ids, List.map_map] at hnodup
  refine List.Nodup.sublist (List.filter_sublist.map _) ?_
  rwa [List.map_map]

theorem mem_mergedLevel (hs : WellFormed s) (hsim : p.Simulated s) {r : Request} :
    r ∈ p.mergedLevel s stop k ↔
      ∃ c ∈ p.credits s stop k, c.1.advance c.2 = r ∧ c.2 < c.1.outLen := by
  rw [(mergedLevel_perm hs hsim).mem_iff, List.mem_filter, List.mem_map, decide_eq_true_eq]
  constructor
  · rintro ⟨⟨c, hc, rfl⟩, hpos⟩
    exact ⟨c, hc, rfl, Nat.lt_of_sub_pos hpos⟩
  · rintro ⟨c, hc, rfl, hlt⟩
    exact ⟨⟨c, hc, rfl⟩, Nat.sub_pos_of_lt hlt⟩

/-- A level conserves its requests exactly when each of them is with a worker. -/
theorem conserves_iff (hs : WellFormed s) (hsim : p.Simulated s)
    (hk : k < p.baseModelIds.length) :
    Conserves (p.level s k) (p.mergedLevel s stop k) (p.credit s stop k) ↔
      p.level s k ⊆ p.served s k := by
  obtain ⟨hnodup, hsub⟩ := served_subset (p := p) (s := s) (fun m _ => hs.nodup m) hk
  have hlevel : (ids (p.level s k)).Nodup := by
    rw [level_eq hk]
    exact hs.nodup _
  have hpair : ∀ r ∈ p.served s k, ∃ c ∈ p.credits s stop k, c.1 = r := fun r hr => by
    rw [← credits_fst hs hsim stop k] at hr
    exact List.mem_map.mp hr
  constructor
  · intro h r hr
    by_contra hout
    have hid : r.seqId ∉ ids (p.served s k) := fun hin => by
      obtain ⟨q, hq, heq⟩ := List.mem_map.mp hin
      exact hout (eq_of_seqId hlevel (hsub hq) hr heq ▸ hq)
    have hzero := credit_of_not_mem stop hs hsim hid
    have hpos : 0 < r.outLen := by
      rw [level_eq hk] at hr
      exact hs.pos _ r hr
    obtain ⟨c, hc, heq, -⟩ := (mem_mergedLevel hs hsim).mp (h.kept r hr (hzero ▸ hpos))
    refine hid ?_
    rw [← credits_fst hs hsim stop k, ids, List.map_map]
    have hcid := congrArg Request.seqId heq
    change c.1.seqId = r.seqId at hcid
    exact hcid ▸ List.mem_map_of_mem hc
  · intro h
    refine ⟨fun r hr => ?_, fun r hr hlt => ?_, fun r hr heq hin => ?_, fun id hid => ?_⟩
    · obtain ⟨c, hc, rfl⟩ := hpair r (h hr)
      rw [credit_of_mem hs hsim hk hc]
      exact snd_le_of_mem_credits hs hsim hc
    · obtain ⟨c, hc, rfl⟩ := hpair r (h hr)
      rw [credit_of_mem hs hsim hk hc] at hlt ⊢
      exact (mem_mergedLevel hs hsim).mpr ⟨c, hc, rfl, hlt⟩
    · obtain ⟨q, hq, hqid⟩ := List.mem_map.mp hin
      obtain ⟨c, hc, rfl, hlt⟩ := (mem_mergedLevel hs hsim).mp hq
      have hmem : c.1 ∈ p.served s k := by
        rw [← credits_fst hs hsim stop k]
        exact List.mem_map_of_mem hc
      obtain rfl := eq_of_seqId hlevel (hsub hmem) hr hqid
      rw [credit_of_mem hs hsim hk hc] at heq
      omega
    · obtain ⟨q, hq, rfl⟩ := List.mem_map.mp hid
      obtain ⟨c, hc, rfl, -⟩ := (mem_mergedLevel hs hsim).mp hq
      have hmem : c.1 ∈ p.served s k := by
        rw [← credits_fst hs hsim stop k]
        exact List.mem_map_of_mem hc
      exact List.mem_map.mpr ⟨c.1, hsub hmem, rfl⟩

end

end Mil.InferStage
