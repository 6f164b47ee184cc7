import Mil.Stages.Timeline

/-!
# The queues of the GPUs

A task leaves the queue of a GPU only when it is in a stage (`mem_waiting_or`), and if it is the first
there it does leave (`not_mem_waiting_succ`).
-/

set_option autoImplicit false

namespace Mil.Stages.Timeline

variable {ι τ : Type} [LinearOrder τ] {tl : Timeline ι τ}

/-! ## Marking GPUs -/

theorem getD_foldl_set (gs : List Nat) (b : Bool) (busy : List Bool) (g : Nat) :
    (gs.foldl (fun busy g => busy.set g b) busy).getD g false =
      if g ∈ gs ∧ g < busy.length then b else busy.getD g false := by
  induction gs generalizing busy with
  | nil => simp
  | cons g' gs ih =>
    rw [List.foldl_cons, ih, List.length_set]
    by_cases hg : g < busy.length
    · by_cases hmem : g ∈ gs
      · rw [if_pos ⟨hmem, hg⟩, if_pos ⟨.tail _ hmem, hg⟩]
      · rw [if_neg fun h => hmem h.1, List.getD_eq_getElem?_getD]
        by_cases heq : g' = g
        · subst heq
          rw [List.getElem?_set_self hg, if_pos ⟨.head _, hg⟩, Option.getD_some]
        · rw [List.getElem?_set_ne heq, if_neg, List.getD_eq_getElem?_getD]
          rintro ⟨h, -⟩
          rcases List.mem_cons.mp h with rfl | h
          · exact heq rfl
          · exact hmem h
    · rw [if_neg fun h => hg h.2, if_neg fun h => hg h.2,
        List.getD_eq_default _ _ (by rw [List.length_set]; exact Nat.not_lt.mp hg),
        List.getD_eq_default _ _ (Nat.not_lt.mp hg)]

theorem length_foldl_set (gs : List Nat) (b : Bool) (busy : List Bool) :
    (gs.foldl (fun busy g => busy.set g b) busy).length = busy.length := by
  induction gs generalizing busy with
  | nil => rfl
  | cons g gs ih => rw [List.foldl_cons, ih, List.length_set]

section

variable (m : τ)

/-- The GPUs of the running tasks are marked, one task after another. -/
def mark (tl : Timeline ι τ) (running : List ι) (busy : List Bool) : List Bool :=
  running.foldl (fun busy t => (tl.gpus t).foldl (fun busy g => busy.set g (m < tl.finish t)) busy)
    busy

theorem length_mark (running : List ι) (busy : List Bool) :
    (tl.mark m running busy).length = busy.length := by
  induction running generalizing busy with
  | nil => rfl
  | cons t running ih => exact (ih _).trans (length_foldl_set _ _ _)

theorem exists_of_mark {running : List ι} {busy : List Bool} {g : Nat}
    (h : (tl.mark m running busy).getD g false = true) :
    busy.getD g false = true ∨ ∃ t ∈ running, g ∈ tl.gpus t ∧ m < tl.finish t := by
  induction running generalizing busy with
  | nil => exact .inl h
  | cons t running ih =>
    rcases ih h with h | ⟨t', ht', hrest⟩
    · rw [getD_foldl_set] at h
      split at h
      · rename_i hg
        exact .inr ⟨t, .head _, hg.1, of_decide_eq_true h⟩
      · exact .inl h
    · exact .inr ⟨t', .tail _ ht', hrest⟩

theorem mark_of_all {running : List ι} {busy : List Bool} {g : Nat} (hg : g < busy.length)
    (hall : ∀ t ∈ running, g ∈ tl.gpus t → m < tl.finish t)
    (hex : busy.getD g false = true ∨ ∃ t ∈ running, g ∈ tl.gpus t) :
    (tl.mark m running busy).getD g false = true := by
  induction running generalizing busy with
  | nil => exact hex.elim id fun ⟨t, ht, _⟩ => absurd ht List.not_mem_nil
  | cons t running ih =>
    obtain ⟨ht, hall⟩ := List.forall_mem_cons.mp hall
    refine ih ((length_foldl_set _ _ _).symm ▸ hg) hall ?_
    rw [getD_foldl_set]
    by_cases hgt : g ∈ tl.gpus t
    · rw [if_pos ⟨hgt, hg⟩]
      exact .inl (decide_eq_true (ht hgt))
    · rw [if_neg fun h => hgt h.1]
      refine hex.imp id ?_
      rintro ⟨t', ht', hgt'⟩
      rcases List.mem_cons.mp ht' with rfl | ht'
      · exact absurd hgt' hgt
      · exact ⟨t', ht', hgt'⟩

end

/-! ## Leaving queues -/

variable [DecidableEq ι]

theorem length_leave (t : ι) (waiting : List (List ι)) (g : Nat) :
    (leave t waiting g).length = waiting.length := by
  rw [leave]
  split
  · exact List.length_set
  · rfl

theorem length_foldl_leave (t : ι) (gs : List Nat) (waiting : List (List ι)) :
    (gs.foldl (leave t) waiting).length = waiting.length := by
  induction gs generalizing waiting with
  | nil => rfl
  | cons g gs ih => rw [List.foldl_cons, ih, length_leave]

theorem length_leaveAll (started : List ι) (waiting : List (List ι)) :
    (tl.leaveAll started waiting).length = waiting.length := by
  induction started generalizing waiting with
  | nil => rfl
  | cons t started ih => exact (ih _).trans (length_foldl_leave _ _ _)

theorem getD_leave (t : ι) (waiting : List (List ι)) (g g' : Nat) :
    (leave t waiting g).getD g' [] =
      if g = g' ∧ (waiting.getD g []).head? = some t then (waiting.getD g []).tail
      else waiting.getD g' [] := by
  rw [leave]
  split
  · rename_i hhead
    have hg : g < waiting.length := by
      by_contra hg
      rw [List.getD_eq_default _ _ (Nat.not_lt.mp hg)] at hhead
      cases hhead
    by_cases heq : g = g'
    · subst heq
      rw [if_pos ⟨rfl, hhead⟩, List.getD_eq_getElem?_getD, List.getElem?_set_self hg,
        Option.getD_some]
    · rw [if_neg fun h => heq h.1, List.getD_eq_getElem?_getD, List.getElem?_set_ne heq,
        List.getD_eq_getElem?_getD]
  · rename_i hhead
    rw [if_neg fun h => hhead h.2]

theorem getD_leave_sublist (t : ι) (waiting : List (List ι)) (g g' : Nat) :
    ((leave t waiting g).getD g' []).Sublist (waiting.getD g' []) := by
  rw [getD_leave]
  split
  · rename_i h
    exact h.1 ▸ List.tail_sublist _
  · exact List.Sublist.refl _

/-- A task that leaves is the one that is started. -/
theorem mem_leave_or (t : ι) {x : ι} {waiting : List (List ι)} (g : Nat) {g' : Nat}
    (h : x ∈ waiting.getD g' []) : x ∈ (leave t waiting g).getD g' [] ∨ x = t := by
  rw [getD_leave]
  split
  · rename_i hg
    obtain ⟨rfl, hhead⟩ := hg
    obtain ⟨l, hl⟩ := List.head?_eq_some_iff.mp hhead
    rw [hl] at h ⊢
    exact (List.mem_cons.mp h).symm
  · exact .inl h

/-- The queue keeps the task first or has not got it. -/
theorem head_leave {t x : ι} {waiting : List (List ι)} {g g' : Nat}
    (hnodup : (waiting.getD g []).Nodup)
    (hhead : x ∈ waiting.getD g [] → (waiting.getD g []).head? = some x)
    (h : x ∈ (leave t waiting g').getD g []) : ((leave t waiting g').getD g []).head? = some x := by
  rw [getD_leave] at h ⊢
  split
  · rename_i hg
    obtain ⟨rfl, hfirst⟩ := hg
    obtain ⟨l, hl⟩ := List.head?_eq_some_iff.mp hfirst
    rw [if_pos ⟨rfl, hfirst⟩, hl, List.tail_cons] at h
    -- The one that left was `x`, which is not in the queue twice.
    rw [hl, List.nodup_cons] at hnodup
    rw [hl] at hhead
    obtain rfl : t = x := Option.some.inj (hhead (.tail _ h))
    exact absurd h hnodup.1
  · rename_i hg
    rw [if_neg hg] at h
    exact hhead h

/-! ## Folds -/

theorem leaveAll_eq (started : List ι) (waiting : List (List ι)) :
    tl.leaveAll started waiting = (started.flatMap fun t => (tl.gpus t).map (t, ·)).foldl
      (fun waiting e => leave e.1 waiting e.2) waiting := by
  rw [leaveAll, List.foldl_flatMap]
  congr 1
  funext waiting t
  rw [List.foldl_map]

theorem foldl_leave_sublist (es : List (ι × Nat)) (waiting : List (List ι)) (g : Nat) :
    ((es.foldl (fun waiting e => leave e.1 waiting e.2) waiting).getD g []).Sublist
      (waiting.getD g []) := by
  induction es generalizing waiting with
  | nil => exact List.Sublist.refl _
  | cons e es ih => exact (ih _).trans (getD_leave_sublist _ _ _ _)

theorem mem_foldl_leave_or {x : ι} (es : List (ι × Nat)) {waiting : List (List ι)} {g : Nat}
    (h : x ∈ waiting.getD g []) :
    x ∈ (es.foldl (fun waiting e => leave e.1 waiting e.2) waiting).getD g [] ∨
      ∃ e ∈ es, e.1 = x := by
  induction es generalizing waiting with
  | nil => exact .inl h
  | cons e es ih =>
    rcases mem_leave_or e.1 e.2 h with h | rfl
    · exact (ih h).imp id fun ⟨e', he', heq⟩ => ⟨e', .tail _ he', heq⟩
    · exact .inr ⟨e, .head _, rfl⟩

theorem head_foldl_leave {x : ι} (es : List (ι × Nat)) {waiting : List (List ι)} {g : Nat}
    (hnodup : (waiting.getD g []).Nodup)
    (hhead : x ∈ waiting.getD g [] → (waiting.getD g []).head? = some x)
    (h : x ∈ (es.foldl (fun waiting e => leave e.1 waiting e.2) waiting).getD g []) :
    ((es.foldl (fun waiting e => leave e.1 waiting e.2) waiting).getD g []).head? = some x := by
  induction es generalizing waiting with
  | nil => exact hhead h
  | cons e es ih =>
    exact ih ((getD_leave_sublist _ _ _ _).nodup hnodup) (head_leave hnodup hhead) h

/-- The first of a queue leaves it when it is started. -/
theorem not_mem_foldl_leave {x : ι} {es : List (ι × Nat)} {waiting : List (List ι)} {g : Nat}
    (hnodup : (waiting.getD g []).Nodup) (hhead : (waiting.getD g []).head? = some x)
    (hmem : (x, g) ∈ es) :
    x ∉ (es.foldl (fun waiting e => leave e.1 waiting e.2) waiting).getD g [] := by
  obtain ⟨es₁, es₂, rfl⟩ := List.append_of_mem hmem
  rw [List.foldl_append, List.foldl_cons]
  set between := es₁.foldl (fun waiting e => leave e.1 waiting e.2) waiting with hbetween
  have hnodup' : (between.getD g []).Nodup := (foldl_leave_sublist es₁ waiting g).nodup hnodup
  have hgone : x ∉ (leave x between g).getD g [] := by
    intro hx
    have hbefore := (getD_leave_sublist x between g g).subset hx
    have hfirst := head_foldl_leave es₁ hnodup (fun _ => hhead) hbefore
    rw [getD_leave, if_pos ⟨rfl, hfirst⟩] at hx
    obtain ⟨l, hl⟩ := List.head?_eq_some_iff.mp hfirst
    rw [← hbetween] at hl
    rw [hl] at hnodup' hx
    exact (List.nodup_cons.mp hnodup').1 hx
  exact fun hx => hgone ((foldl_leave_sublist es₂ _ g).subset hx)

/-! ## Waiting tasks -/

variable [Zero τ]

theorem length_waiting (k : Nat) : (tl.state k).waiting.length = tl.queues.length := by
  induction k with
  | zero => rfl
  | succ k ih => exact (length_leaveAll _ _).trans ih

theorem waiting_succ_sublist (k g : Nat) : (tl.waiting (k + 1) g).Sublist (tl.waiting k g) := by
  show ((tl.leaveAll (tl.stage k) (tl.state k).waiting).getD g []).Sublist _
  rw [leaveAll_eq]
  exact foldl_leave_sublist _ _ g

theorem waiting_sublist {i j : Nat} (h : i ≤ j) (g : Nat) :
    (tl.waiting j g).Sublist (tl.waiting i g) := by
  induction j, h using Nat.le_induction with
  | base => exact List.Sublist.refl _
  | succ j _ ih => exact (waiting_succ_sublist j g).trans ih

theorem waiting_sorted (k g : Nat) : (tl.waiting k g).Pairwise tl.before :=
  (tl.queue_sorted g).sublist (waiting_sublist (Nat.zero_le k) g)

theorem waiting_nodup (k g : Nat) : (tl.waiting k g).Nodup :=
  (waiting_sorted k g).imp ne_of_before

/-- A task that does not wait any more was in a stage. -/
theorem mem_waiting_or {t : ι} {g : Nat} (h : t ∈ tl.queues.getD g []) (k : Nat) :
    t ∈ tl.waiting k g ∨ ∃ j < k, t ∈ tl.stage j := by
  induction k with
  | zero => exact .inl h
  | succ k ih =>
    rcases ih with hmem | ⟨j, hj, hmem⟩
    · have hor := mem_foldl_leave_or ((tl.stage k).flatMap fun t => (tl.gpus t).map (t, ·)) hmem
      rw [← leaveAll_eq] at hor
      rcases hor with hmem | ⟨e, he, rfl⟩
      · exact .inl hmem
      · obtain ⟨t, ht, he⟩ := List.mem_flatMap.mp he
        obtain ⟨g', -, rfl⟩ := List.mem_map.mp he
        exact .inr ⟨k, Nat.lt_succ_self k, ht⟩
    · exact .inr ⟨j, Nat.lt_succ_of_lt hj, hmem⟩

theorem not_mem_waiting_succ {t : ι} {k g : Nat} (hhead : (tl.waiting k g).head? = some t)
    (hmem : t ∈ tl.stage k) (hg : g ∈ tl.gpus t) : t ∉ tl.waiting (k + 1) g := by
  show t ∉ (tl.leaveAll (tl.stage k) (tl.state k).waiting).getD g []
  rw [leaveAll_eq]
  refine not_mem_foldl_leave (waiting_nodup k g) hhead ?_
  exact List.mem_flatMap.mpr ⟨t, hmem, List.mem_map_of_mem hg⟩

/-- The others that wait come after the first. -/
theorem before_of_head {u v : ι} {k g : Nat} (hhead : (tl.waiting k g).head? = some v)
    (hu : u ∈ tl.waiting k g) : u = v ∨ tl.before v u := by
  obtain ⟨l, hl⟩ := List.head?_eq_some_iff.mp hhead
  have hsorted : (tl.waiting k g).Pairwise tl.before := waiting_sorted k g
  rw [hl] at hu hsorted
  exact (List.mem_cons.mp hu).imp id fun hmem => (List.pairwise_cons.mp hsorted).1 u hmem

/-! ## Busy GPUs -/

omit [DecidableEq ι] in
theorem busy_eq_mark (running : List ι) : tl.busy running =
    tl.mark (tl.splitTime running) running (List.replicate tl.queues.length false) := rfl

omit [DecidableEq ι] in
theorem length_busy (running : List ι) : (tl.busy running).length = tl.queues.length := by
  rw [busy_eq_mark, length_mark, List.length_replicate]

theorem exists_of_busy {k g : Nat} (h : (tl.busy (tl.state k).running).getD g false = true) :
    ∃ t ∈ (tl.state k).running, g ∈ tl.gpus t ∧ tl.time k < tl.finish t := by
  rw [busy_eq_mark] at h
  rcases exists_of_mark _ h with h | h
  · rw [List.getD_eq_getElem?_getD, List.getElem?_replicate] at h
    split at h <;> cases h
  · exact h

/-- The GPU of a task that runs on is busy if no other task runs there. -/
theorem busy_of_mem {t : ι} {k g : Nat} (ht : t ∈ (tl.state k).running)
    (hg : t ∈ tl.queues.getD g [])
    (hall : ∀ t ∈ (tl.state k).running, g ∈ tl.gpus t → tl.time k < tl.finish t) :
    (tl.busy (tl.state k).running).getD g false = true := by
  rw [busy_eq_mark]
  refine mark_of_all _ ?_ hall (.inr ⟨t, ht, ((tl.mem_queue t g).mp hg).2⟩)
  rw [List.length_replicate]
  exact lt_length_of_mem_queue hg

theorem ready_iff {s : State ι} {t : ι} : tl.ready s t = true ↔ ∀ g ∈ tl.gpus t,
    (s.waiting.getD g []).head? = some t ∧ (tl.busy s.running).getD g false = false := by
  simp [ready]

end Mil.Stages.Timeline
