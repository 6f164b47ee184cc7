import Mathlib.Order.Basic
import Mathlib.Order.MinMax
import Mathlib.Algebra.Notation.Defs
import Mathlib.Data.List.GetD
import Mathlib.Data.List.Nodup
import Mathlib.Data.List.Perm.Subperm
import Mathlib.Data.Nat.Find

/-!
# Tasks on GPUs, stage by stage

A timeline gives every task a start, a finish and its GPUs, and every GPU the queue of its tasks. A
round looks at the least finish of the running tasks, the split time. The next stage has the tasks that
are under way then, those that were started before, and those that can be started in advance: they
are the first that wait on all of their GPUs, and none of these is busy.

Split times increase (`time_lt_succ`), so a stage is empty after at most as many rounds as there are
tasks (`exists_empty_stage`), and a task stays until its finish (`mem_stage_of_le`).
-/

set_option autoImplicit false

namespace Mil.Stages

variable {ι τ : Type} [LinearOrder τ]

/-! ## Timelines -/

structure Timeline (ι τ : Type) [LinearOrder τ] where
  tasks : List ι
  start : ι → τ
  finish : ι → τ
  gpus : ι → List Nat
  /-- The tasks of each GPU. -/
  queues : List (List ι)
  /-- The order of the queues. -/
  before : ι → ι → Prop
  mem_queue : ∀ t g, t ∈ queues.getD g [] ↔ t ∈ tasks ∧ g ∈ gpus t
  queue_sorted : ∀ g, (queues.getD g []).Pairwise before
  before_asymm : ∀ u v, before u v → ¬ before v u
  start_le_of_before : ∀ u v, before u v → start u ≤ start v

namespace Timeline

variable (tl : Timeline ι τ)

variable {tl} in
theorem ne_of_before {u v : ι} (h : tl.before u v) : u ≠ v := by
  rintro rfl
  exact tl.before_asymm u u h h

variable {tl} in
theorem lt_length_of_mem_queue {t : ι} {g : Nat} (h : t ∈ tl.queues.getD g []) :
    g < tl.queues.length := by
  by_contra hg
  rw [List.getD_eq_default _ _ (Nat.not_lt.mp hg)] at h
  cases h

/-! ## Rounds -/

variable [DecidableEq ι] [Zero τ]

/-- The tasks of the last stage, and the tasks that wait on each GPU. -/
structure State (ι : Type) where
  running : List ι
  waiting : List (List ι)

/-- The least finish of the running tasks. -/
def splitTime (running : List ι) : τ := ((running.map tl.finish).min?).getD 0

/-- Which GPUs have a task that runs on after the split time. -/
def busy (running : List ι) : List Bool :=
  running.foldl (fun busy t =>
      (tl.gpus t).foldl (fun busy g => busy.set g (tl.splitTime running < tl.finish t)) busy)
    (List.replicate tl.queues.length false)

/-- The task can be started in advance. -/
def ready (s : State ι) (t : ι) : Bool :=
  (tl.gpus t).all fun g =>
    (s.waiting.getD g []).head? = some t && !(tl.busy s.running).getD g false

def alive (s : State ι) : List ι :=
  tl.tasks.filter fun t => tl.splitTime s.running < tl.finish t ∧
    (tl.start t ≤ tl.splitTime s.running ∨ t ∈ s.running ∨ tl.ready s t)

/-- The task leaves the queue of the GPU. -/
def leave (t : ι) (waiting : List (List ι)) (g : Nat) : List (List ι) :=
  if (waiting.getD g []).head? = some t then waiting.set g (waiting.getD g []).tail else waiting

/-- The tasks leave the queues of their GPUs. -/
def leaveAll (started : List ι) (waiting : List (List ι)) : List (List ι) :=
  started.foldl (fun waiting t => (tl.gpus t).foldl (leave t) waiting) waiting

def next (s : State ι) : State ι := ⟨tl.alive s, tl.leaveAll (tl.alive s) s.waiting⟩

def state : Nat → State ι
  | 0 => ⟨[], tl.queues⟩
  | k + 1 => tl.next (state k)

/-- The stage that round `k` gives. -/
def stage (k : Nat) : List ι := tl.alive (tl.state k)

/-- The split time of round `k`. -/
def time (k : Nat) : τ := tl.splitTime (tl.state k).running

/-- The tasks that wait on a GPU before round `k`. -/
def waiting (k g : Nat) : List ι := (tl.state k).waiting.getD g []

variable {tl}

/-! ## Stages -/

@[simp] theorem running_succ (k : Nat) : (tl.state (k + 1)).running = tl.stage k := rfl

theorem mem_stage {k : Nat} {t : ι} : t ∈ tl.stage k ↔ t ∈ tl.tasks ∧ tl.time k < tl.finish t ∧
    (tl.start t ≤ tl.time k ∨ t ∈ (tl.state k).running ∨ tl.ready (tl.state k) t) := by
  simp [stage, alive, time]

theorem mem_tasks_of_mem_stage {k : Nat} {t : ι} (h : t ∈ tl.stage k) : t ∈ tl.tasks :=
  (mem_stage.mp h).1

theorem time_lt_finish {k : Nat} {t : ι} (h : t ∈ tl.stage k) : tl.time k < tl.finish t :=
  (mem_stage.mp h).2.1

/-- A task that runs past the split time stays. -/
theorem mem_stage_succ {k : Nat} {t : ι} (h : t ∈ tl.stage k)
    (hlt : tl.time (k + 1) < tl.finish t) : t ∈ tl.stage (k + 1) :=
  mem_stage.mpr ⟨mem_tasks_of_mem_stage h, hlt, .inr (.inl h)⟩

theorem mem_stage_of_start_le {k : Nat} {t : ι} (h : t ∈ tl.tasks) (hstart : tl.start t ≤ tl.time k)
    (hlt : tl.time k < tl.finish t) : t ∈ tl.stage k :=
  mem_stage.mpr ⟨h, hlt, .inl hstart⟩

/-- The split time after a stage that is not empty. -/
theorem time_succ_spec {k : Nat} (h : tl.stage k ≠ []) :
    (∃ t ∈ tl.stage k, tl.finish t = tl.time (k + 1)) ∧
      ∀ t ∈ tl.stage k, tl.time (k + 1) ≤ tl.finish t := by
  obtain ⟨least, hleast⟩ : ∃ least, ((tl.stage k).map tl.finish).min? = some least :=
    Option.ne_none_iff_exists'.mp (by simpa using h)
  have htime : tl.time (k + 1) = least := by
    rw [time, running_succ, splitTime, hleast, Option.getD_some]
  obtain ⟨hmem, hle⟩ := List.min?_eq_some_iff.mp hleast
  rw [htime]
  exact ⟨List.mem_map.mp hmem, fun t ht => hle _ (List.mem_map_of_mem ht)⟩

theorem time_succ_le {k : Nat} {t : ι} (h : t ∈ tl.stage k) : tl.time (k + 1) ≤ tl.finish t :=
  (time_succ_spec (List.ne_nil_of_mem h)).2 t h

theorem time_lt_succ {k : Nat} (h : tl.stage k ≠ []) : tl.time k < tl.time (k + 1) := by
  obtain ⟨⟨t, ht, hfinish⟩, -⟩ := time_succ_spec h
  exact hfinish ▸ time_lt_finish ht

/-! ## The rounds end -/

section

variable {n : Nat} (hrun : ∀ k < n, tl.stage k ≠ [])

include hrun

theorem time_lt {i j : Nat} (h : i < j) (hj : j ≤ n) : tl.time i < tl.time j := by
  induction j with
  | zero => cases h
  | succ j ih =>
    have hlast := time_lt_succ (hrun j hj)
    rcases Nat.lt_succ_iff_lt_or_eq.mp h with h | rfl
    · exact (ih h (Nat.le_of_succ_le hj)).trans hlast
    · exact hlast

theorem time_le {i j : Nat} (h : i ≤ j) (hj : j ≤ n) : tl.time i ≤ tl.time j := by
  rcases Nat.eq_or_lt_of_le h with rfl | h
  · exact le_rfl
  · exact (time_lt hrun h hj).le

theorem time_inj {i j : Nat} (hi : i ≤ n) (hj : j ≤ n) (h : tl.time i = tl.time j) : i = j := by
  rcases Nat.lt_trichotomy i j with hlt | heq | hlt
  · exact absurd h (time_lt hrun hlt hj).ne
  · exact heq
  · exact absurd h.symm (time_lt hrun hlt hi).ne

/-- A task stays until its finish. -/
theorem mem_stage_of_le {i j : Nat} {t : ι} (h : i ≤ j) (hj : j ≤ n) (hmem : t ∈ tl.stage i)
    (hlt : tl.time j < tl.finish t) : t ∈ tl.stage j := by
  induction j, h using Nat.le_induction with
  | base => exact hmem
  | succ j hij ih =>
    have hj' := Nat.le_of_succ_le hj
    exact mem_stage_succ (ih hj' ((time_lt hrun (Nat.lt_succ_self j) hj).trans hlt)) hlt

/-- A task is not there after its finish. -/
theorem lt_of_mem_stage {i j : Nat} {t : ι} (hi : i ≤ n) (hmem : t ∈ tl.stage i)
    (hle : tl.finish t ≤ tl.time j) : i < j := by
  by_contra hji
  exact absurd (time_le hrun (Nat.not_lt.mp hji) hi)
    (not_le.mpr ((time_lt_finish hmem).trans_le hle))

/-- Every split time but the first is the finish of a task. -/
theorem length_of_running : n ≤ tl.tasks.length := by
  have hsub : (List.range n).map (fun k => tl.time (k + 1)) ⊆ tl.tasks.map tl.finish := by
    intro m hm
    obtain ⟨k, hk, rfl⟩ := List.mem_map.mp hm
    obtain ⟨⟨t, ht, hfinish⟩, -⟩ := time_succ_spec (hrun k (List.mem_range.mp hk))
    exact List.mem_map.mpr ⟨t, mem_tasks_of_mem_stage ht, hfinish⟩
  have hnodup : ((List.range n).map fun k => tl.time (k + 1)).Nodup := by
    refine List.Nodup.map_on (fun i hi j hj heq => ?_) List.nodup_range
    exact Nat.succ.inj (time_inj hrun (List.mem_range.mp hi) (List.mem_range.mp hj) heq)
  have hle := (List.subperm_of_subset hnodup hsub).length_le
  rwa [List.length_map, List.length_range, List.length_map] at hle

end

/-- After at most as many rounds as there are tasks a stage is empty. -/
theorem exists_empty_stage (tl : Timeline ι τ) :
    ∃ n ≤ tl.tasks.length, tl.stage n = [] ∧ ∀ k < n, tl.stage k ≠ [] := by
  have hex : ∃ n, tl.stage n = [] := by
    by_contra hne
    have hrun : ∀ k < tl.tasks.length + 1, tl.stage k ≠ [] := fun k _ hk => hne ⟨k, hk⟩
    exact absurd (length_of_running hrun) (Nat.not_succ_le_self _)
  have hrun : ∀ k < Nat.find hex, tl.stage k ≠ [] := fun k hk => Nat.find_min hex hk
  exact ⟨Nat.find hex, length_of_running hrun, Nat.find_spec hex, hrun⟩

end Timeline

end Mil.Stages
