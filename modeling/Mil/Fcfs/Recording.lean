import Mil.Fcfs.Simulator

/-!
# What the simulator records

Prefill steps and decode steps write to `infer_progress` in one way: some requests take part in
all iterations from the current one up to a later one. `Advanced` is what such a write does, and
every step of the simulator is proved to be a chain of writes. What a record must satisfy at all
times, `Recorded`, is then a matter of one write.
-/

set_option autoImplicit false

namespace Mil.Fcfs

open Mil.Lib

/-- The ranges of the request `id`. -/
def Progress.rngs (p : Progress) (id : Nat) : List Rng := p.inferProgress.getD id []

/-- The tokens the request `id` has generated. -/
def Progress.tokens (p : Progress) (id : Nat) : Nat := iterNum (p.rngs id)

/-- Every request has disjoint ranges that do not touch, all in the past, and no iteration has
passed without a request. -/
structure Recorded (p : Progress) : Prop where
  increasing : ∀ id, Increasing 1 (p.rngs id)
  ends : ∀ id, EndsBefore (p.rngs id) p.totIterNum
  attended : ∀ t < p.totIterNum, ∃ id < p.inferProgress.length, Attends (p.rngs id) t

/-- `p'` is `p` after every request of `ids` has generated `n` tokens and the others none. -/
structure Advanced (p p' : Progress) (ids : List Nat) (n : Nat) : Prop where
  recorded : Recorded p'
  length_eq : p'.inferProgress.length = p.inferProgress.length
  tokens_eq : ∀ id, p'.tokens id = p.tokens id + if id ∈ ids then n else 0

theorem Advanced.nil {p : Progress} (h : Recorded p) (n : Nat) : Advanced p p [] n :=
  ⟨h, rfl, fun id => by simp⟩

theorem Advanced.trans {p p' p'' : Progress} {ids ids' : List Nat} {n : Nat}
    (h : Advanced p p' ids n) (h' : Advanced p' p'' ids' n) (hnodup : (ids ++ ids').Nodup) :
    Advanced p p'' (ids ++ ids') n := by
  refine ⟨h'.recorded, h'.length_eq.trans h.length_eq, fun id => ?_⟩
  rw [h'.tokens_eq, h.tokens_eq, Nat.add_assoc]
  have hdisjoint : id ∈ ids → id ∉ ids' := fun hid hid' => List.disjoint_of_nodup_append hnodup hid hid'
  by_cases hid : id ∈ ids
  · simp [hid, hdisjoint hid]
  · simp [hid]

/-! ## One write -/

@[simp] theorem storeInferState_length (start last : Nat) (ids : List Nat) (l : List (List Rng)) :
    (storeInferState start last l ids).length = l.length := by
  induction ids generalizing l with
  | nil => rfl
  | cons id ids ih => rw [storeInferState, List.foldl_cons, ← storeInferState, ih, List.length_modify]

theorem getD_storeInferState {start last : Nat} {ids : List Nat} {l : List (List Rng)}
    (hnodup : ids.Nodup) (hids : ∀ id ∈ ids, id < l.length) (i : Nat) :
    (storeInferState start last l ids).getD i [] =
      if i ∈ ids then addRange (l.getD i []) start last else l.getD i [] := by
  induction ids generalizing l with
  | nil => simp [storeInferState]
  | cons id ids ih =>
    have hne := (List.nodup_cons.mp hnodup).1
    rw [storeInferState, List.foldl_cons, ← storeInferState,
      ih (List.nodup_cons.mp hnodup).2
        (by simpa using fun j hj => hids j (List.mem_cons_of_mem _ hj))]
    by_cases hi : i = id
    · subst hi
      have hlt := hids i (.head _)
      simp [hne, List.getD_eq_getElem?_getD, hlt]
    · simp [hi, List.getD_eq_getElem?_getD, Ne.symm hi]

/-- The requests `ids` take part in the next `n` iterations. -/
theorem Advanced.store {p p' : Progress} {ids : List Nat} {n : Nat} (h : Recorded p)
    (hnodup : ids.Nodup) (hids : ∀ id ∈ ids, id < p.inferProgress.length) (hne : ids ≠ [])
    (hpos : 0 < n) (htot : p'.totIterNum = p.totIterNum + n)
    (hstore : p'.inferProgress =
      storeInferState p.totIterNum (p.totIterNum + n - 1) p.inferProgress ids) :
    Advanced p p' ids n := by
  have hrngs : ∀ i, p'.rngs i =
      if i ∈ ids then addRange (p.rngs i) p.totIterNum (p.totIterNum + n - 1) else p.rngs i := by
    intro i
    rw [Progress.rngs, hstore, getD_storeInferState hnodup hids]
    rfl
  have hlength : p'.inferProgress.length = p.inferProgress.length := by
    rw [hstore, storeInferState_length]
  have hle : p.totIterNum ≤ p.totIterNum + n - 1 := by omega
  refine ⟨⟨fun i => ?_, fun i => ?_, fun t ht => ?_⟩, hlength, fun i => ?_⟩
  · rw [hrngs]
    split
    · exact (h.increasing i).addRange (h.ends i) hle
    · exact h.increasing i
  · have hpast : EndsBefore (p.rngs i) p'.totIterNum := (h.ends i).mono (by omega)
    rw [hrngs]
    split
    · exact hpast.addRange (by omega)
    · exact hpast
  · rw [hlength]
    by_cases hpast : t < p.totIterNum
    · obtain ⟨i, hi, hat⟩ := h.attended t hpast
      refine ⟨i, hi, ?_⟩
      rw [hrngs]
      split
      · exact (attends_addRange (h.increasing i).le hle t).mpr (.inl hat)
      · exact hat
    · obtain ⟨i, hi⟩ := List.exists_mem_of_ne_nil ids hne
      refine ⟨i, hids i hi, ?_⟩
      rw [hrngs, if_pos hi]
      exact (attends_addRange (h.increasing i).le hle t).mpr (.inr ⟨by omega, by omega⟩)
  · rw [Progress.tokens, hrngs]
    split
    · rw [iterNum_addRange (h.increasing i).le hle, Progress.tokens]
      omega
    · rfl

/-! ## Prefill steps -/

/-- `p'` is `p` after the prompts of the requests `ids` have been prefilled. -/
structure Prefilled (p p' : Progress) (ids : List Nat) : Prop extends Advanced p p' ids 1 where
  logs_eq : p'.totIterNum + p.prefillLogs.length = p.totIterNum + p'.prefillLogs.length
  tot_le : p.totIterNum ≤ p'.totIterNum

theorem Prefilled.trans {p p' p'' : Progress} {ids ids' : List Nat} (h : Prefilled p p' ids)
    (h' : Prefilled p' p'' ids') (hnodup : (ids ++ ids').Nodup) :
    Prefilled p p'' (ids ++ ids') where
  toAdvanced := h.toAdvanced.trans h'.toAdvanced hnodup
  logs_eq := by
    have := h.logs_eq
    have := h'.logs_eq
    omega
  tot_le := h.tot_le.trans h'.tot_le

/-- A step with a prompt has a longest prompt. -/
theorem exists_getPrefillStep (l : List (List Rng)) {seqs : List (Nat × Nat)} (hne : seqs ≠ []) :
    ∃ step, getPrefillStep l seqs = some step := by
  obtain ⟨most, hmost⟩ : ∃ most, (seqs.map Prod.fst).max? = some most :=
    Option.ne_none_iff_exists'.mp (by simpa using hne)
  rw [getPrefillStep, hmost]
  exact ⟨_, rfl⟩

theorem recordPrefill_spec {p : Progress} {seqs : List (Nat × Nat)} (h : Recorded p)
    (hnodup : (seqs.map Prod.snd).Nodup)
    (hids : ∀ id ∈ seqs.map Prod.snd, id < p.inferProgress.length) (hne : seqs ≠ []) :
    ∃ p', recordPrefill p seqs = some p' ∧ Prefilled p p' (seqs.map Prod.snd) := by
  obtain ⟨step, hstep⟩ := exists_getPrefillStep p.inferProgress hne
  refine ⟨_, by rw [recordPrefill, hstep]; rfl, ?_, ?_, ?_⟩
  · exact Advanced.store h hnodup hids (by simpa using hne) Nat.one_pos rfl rfl
  · simp only [List.length_append, List.length_singleton]
    omega
  · exact Nat.le_succ _

/-- The fold keeps the prompts it has not recorded yet. It never records an empty batch: the first
prompt fits an empty one. -/
theorem foldlM_batchPrompt {maxNumBatchedTokens : Nat} {prompts : List (Nat × Nat)} :
    ∀ (p : Progress) (seqs : List (Nat × Nat)), Recorded p →
    ((seqs ++ prompts).map Prod.snd).Nodup →
    (∀ id ∈ (seqs ++ prompts).map Prod.snd, id < p.inferProgress.length) →
    (∀ prompt ∈ prompts, prompt.1 ≤ maxNumBatchedTokens) → seqs ++ prompts ≠ [] →
    ∃ p', (prompts.foldlM (batchPrompt maxNumBatchedTokens) (p, seqs)).bind
        (fun s => recordPrefill s.1 s.2) = some p' ∧
      Prefilled p p' ((seqs ++ prompts).map Prod.snd) := by
  induction prompts with
  | nil =>
    intro p seqs h hnodup hids _ hne
    simp only [List.append_nil] at *
    simpa using recordPrefill_spec h hnodup hids hne
  | cons prompt prompts ih =>
    intro p seqs h hnodup hids hfit hne
    have hrest : ∀ q ∈ prompts, q.1 ≤ maxNumBatchedTokens := fun q hq => hfit q (.tail _ hq)
    rw [List.foldlM_cons]
    by_cases hbatch : ((seqs.map Prod.fst).foldr max prompt.1) * (seqs.length + 1) ≤
        maxNumBatchedTokens
    · simp only [batchPrompt, if_pos hbatch]
      have := ih p (seqs ++ [prompt]) h (by simpa using hnodup)
        (by simpa using hids) hrest (by simp)
      simpa using this
    · have hseqs : seqs ≠ [] := by
        rintro rfl
        exact hbatch (by simpa using hfit prompt (.head _))
      rw [List.map_append] at hnodup hids ⊢
      obtain ⟨p₁, hrecord, hp₁⟩ := recordPrefill_spec h hnodup.of_append_left
        (fun id hid => hids id (List.mem_append_left _ hid)) hseqs
      obtain ⟨p', hfold, hp'⟩ := ih p₁ [prompt] hp₁.recorded
        hnodup.of_append_right
        (fun id hid => hp₁.length_eq ▸ hids id (List.mem_append_right _ hid)) hrest (by simp)
      refine ⟨p', ?_, hp₁.trans hp' hnodup⟩
      simpa [batchPrompt, if_neg hbatch, hrecord] using hfold

/-- No prompt is lost or prefilled twice, and no batch fails. -/
theorem updatePrefillLogs_spec (maxNumBatchedTokens : Nat) {p : Progress}
    (prompts : List (Nat × Nat)) (h : Recorded p) (hnodup : (prompts.map Prod.snd).Nodup)
    (hids : ∀ id ∈ prompts.map Prod.snd, id < p.inferProgress.length)
    (hfit : ∀ prompt ∈ prompts, prompt.1 ≤ maxNumBatchedTokens) :
    ∃ p', updatePrefillLogs maxNumBatchedTokens prompts p = some p' ∧
      Prefilled p p' (prompts.map Prod.snd) := by
  by_cases hne : prompts = []
  · subst hne
    exact ⟨p, rfl, Advanced.nil h 1, rfl, le_rfl⟩
  · obtain ⟨p', hfold, hp'⟩ := foldlM_batchPrompt p [] h hnodup hids hfit hne
    refine ⟨p', ?_, hp'⟩
    rw [updatePrefillLogs, if_neg hne]
    exact hfold

end Mil.Fcfs
