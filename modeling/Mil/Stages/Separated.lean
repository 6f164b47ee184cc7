import Mathlib.Data.Finset.Max
import Mathlib.Data.List.Pairwise
import Mil.Stages.Queues

/-!
# When the stages are right

All tasks come into a stage, and none shares a GPU with another one of its stage, if and only if at
no split time two tasks of one GPU are due: when a task starts after another one on its GPU, then no
split time lies between its start and the finish of the other one, and it finishes later
(`allStaged_iff`). The split times are zero and the finishes of the tasks.

In one direction, the tasks of a GPU that have been started are always the first of its queue, and a
task whose finish has passed has been started (`Kept`). In the other direction, at a split time in
between both tasks are due, and the second one cannot have been started in advance.
-/

set_option autoImplicit false

namespace Mil.Stages.Timeline

variable {ι τ : Type} [DecidableEq ι] [LinearOrder τ] [Zero τ] {tl : Timeline ι τ}

/-! ## The property and the condition -/

/-- The first `n` stages have all tasks, and no stage has two of one GPU. -/
structure AllStaged (tl : Timeline ι τ) (n : Nat) : Prop where
  exists_stage : ∀ t ∈ tl.tasks, ∃ k < n, t ∈ tl.stage k
  exclusive : ∀ k < n, ∀ u ∈ tl.stage k, ∀ v ∈ tl.stage k, ∀ g ∈ tl.gpus u, g ∈ tl.gpus v → u = v

omit [DecidableEq ι] in
/-- No split time lies between the start of a task and the finish of one before it. -/
structure Separated (tl : Timeline ι τ) : Prop where
  finish_pos : ∀ t ∈ tl.tasks, 0 < tl.finish t
  finish_lt : ∀ u ∈ tl.tasks, ∀ v ∈ tl.tasks, ∀ g ∈ tl.gpus u, g ∈ tl.gpus v → tl.before u v →
    tl.finish u < tl.finish v
  start_pos : ∀ u ∈ tl.tasks, ∀ v ∈ tl.tasks, ∀ g ∈ tl.gpus u, g ∈ tl.gpus v → tl.before u v →
    0 < tl.start v
  gap : ∀ u ∈ tl.tasks, ∀ v ∈ tl.tasks, ∀ g ∈ tl.gpus u, g ∈ tl.gpus v → tl.before u v →
    ∀ w ∈ tl.tasks, tl.finish w < tl.start v ∨ tl.finish u ≤ tl.finish w

/-! ## Started tasks -/

/-- The task is in a stage before round `k`. -/
def Started (tl : Timeline ι τ) (k : Nat) (t : ι) : Prop := ∃ j < k, t ∈ tl.stage j

theorem started_succ {k : Nat} {t : ι} : tl.Started (k + 1) t ↔ tl.Started k t ∨ t ∈ tl.stage k := by
  constructor
  · rintro ⟨j, hj, hmem⟩
    rcases Nat.lt_succ_iff_lt_or_eq.mp hj with hj | rfl
    · exact .inl ⟨j, hj, hmem⟩
    · exact .inr hmem
  · rintro (⟨j, hj, hmem⟩ | hmem)
    · exact ⟨j, Nat.lt_succ_of_lt hj, hmem⟩
    · exact ⟨k, Nat.lt_succ_self k, hmem⟩

theorem started_of_mem_running {k : Nat} {t : ι} (h : t ∈ (tl.state k).running) :
    tl.Started k t := by
  cases k with
  | zero => cases h
  | succ k => exact ⟨k, Nat.lt_succ_self k, h⟩

/-- The first stage of a task. -/
theorem exists_first_of_mem {k : Nat} {t : ι} (h : t ∈ tl.stage k) :
    ∃ i ≤ k, t ∈ tl.stage i ∧ ¬ tl.Started i t := by
  classical
  have hex : ∃ i, t ∈ tl.stage i := ⟨k, h⟩
  exact ⟨Nat.find hex, Nat.find_min' hex h, Nat.find_spec hex,
    fun ⟨j, hj, hmem⟩ => Nat.find_min hex hj hmem⟩

section

variable {n : Nat} (hrun : ∀ k < n, tl.stage k ≠ [])

include hrun

theorem mem_running_of_started {k : Nat} {t : ι} (hk : k ≤ n) (h : tl.Started k t)
    (hlt : tl.time k < tl.finish t) : t ∈ (tl.state k).running := by
  obtain ⟨j, hj, hmem⟩ := h
  obtain ⟨k, rfl⟩ : ∃ i, k = i + 1 := ⟨k - 1, by omega⟩
  exact mem_stage_of_le hrun (Nat.le_of_lt_succ hj) (Nat.le_of_succ_le hk) hmem
    ((time_lt hrun (Nat.lt_succ_self k) hk).trans hlt)

theorem time_eq {k : Nat} (hk : k ≤ n) :
    tl.time k = 0 ∨ ∃ w ∈ tl.tasks, tl.finish w = tl.time k := by
  cases k with
  | zero => exact .inl rfl
  | succ k =>
    obtain ⟨⟨t, ht, hfinish⟩, -⟩ := time_succ_spec (hrun k hk)
    exact .inr ⟨t, mem_tasks_of_mem_stage ht, hfinish⟩

end

omit [DecidableEq ι] [Zero τ] in
theorem before_or_before {u v : ι} {g : Nat} (hu : u ∈ tl.queues.getD g [])
    (hv : v ∈ tl.queues.getD g []) (hne : u ≠ v) : tl.before u v ∨ tl.before v u := by
  have hsym : Std.Symm fun a b => tl.before a b ∨ tl.before b a := ⟨fun _ _ => Or.symm⟩
  have hpair : (tl.queues.getD g []).Pairwise fun a b => tl.before a b ∨ tl.before b a :=
    (tl.queue_sorted g).imp Or.inl
  exact hpair.forall hu hv hne

omit [DecidableEq ι] [Zero τ] in
/-- A property that each task hands down to one with an earlier finish has no task. -/
theorem not_of_descent (tl : Timeline ι τ) {P : ι → Prop}
    (h : ∀ t ∈ tl.tasks, P t → ∃ u ∈ tl.tasks, P u ∧ tl.finish u < tl.finish t) :
    ∀ t ∈ tl.tasks, ¬ P t := by
  classical
  intro t ht hP
  have hne : (tl.tasks.toFinset.filter P).Nonempty :=
    ⟨t, Finset.mem_filter.mpr ⟨List.mem_toFinset.mpr ht, hP⟩⟩
  obtain ⟨least, hmem, hle⟩ := Finset.exists_min_image _ tl.finish hne
  obtain ⟨hleast, hP⟩ := Finset.mem_filter.mp hmem
  obtain ⟨u, hu, hPu, hlt⟩ := h least (List.mem_toFinset.mp hleast) hP
  exact absurd (hle u (Finset.mem_filter.mpr ⟨List.mem_toFinset.mpr hu, hPu⟩)) (not_le.mpr hlt)

/-! ## The condition is enough -/

/-- What the rounds keep. -/
structure Kept (tl : Timeline ι τ) (k : Nat) : Prop where
  finished : ∀ t ∈ tl.tasks, tl.finish t ≤ tl.time k → tl.Started k t
  not_waiting : ∀ t ∈ tl.tasks, tl.Started k t → ∀ g ∈ tl.gpus t, t ∉ tl.waiting k g
  before : ∀ u ∈ tl.tasks, ∀ v ∈ tl.tasks, ∀ g ∈ tl.gpus u, g ∈ tl.gpus v → tl.before u v →
    tl.Started k v → tl.Started k u
  exclusive : ∀ u ∈ (tl.state k).running, ∀ v ∈ (tl.state k).running, ∀ g ∈ tl.gpus u,
    g ∈ tl.gpus v → u = v

theorem kept_zero (h : tl.Separated) : tl.Kept 0 where
  finished := fun t ht hle => absurd (h.finish_pos t ht) (not_lt.mpr hle)
  not_waiting := fun _ _ ⟨_, hj, _⟩ => absurd hj (Nat.not_lt_zero _)
  before := fun _ _ _ _ _ _ _ _ ⟨_, hj, _⟩ => absurd hj (Nat.not_lt_zero _)
  exclusive := fun _ hu => absurd hu List.not_mem_nil

section

variable {n k : Nat} (h : tl.Separated) (hrun : ∀ k < n, tl.stage k ≠ []) (hk : k ≤ n)
  (hkept : tl.Kept k)

include h hrun hk in
/-- What comes before a task that is due has finished. -/
theorem Separated.finish_le {u v : ι} {g : Nat} (hu : u ∈ tl.tasks) (hv : v ∈ tl.tasks)
    (hgu : g ∈ tl.gpus u) (hgv : g ∈ tl.gpus v) (hbefore : tl.before u v)
    (hstart : tl.start v ≤ tl.time k) : tl.finish u ≤ tl.time k := by
  rcases time_eq hrun hk with hzero | ⟨w, hw, hfinish⟩
  · have hpos := h.start_pos u hu v hv g hgu hgv hbefore
    exact absurd (hzero ▸ hstart) (not_le.mpr hpos)
  · rw [← hfinish] at hstart ⊢
    exact (h.gap u hu v hv g hgu hgv hbefore w hw).resolve_left (not_lt.mpr hstart)

include h hrun hk hkept in
/-- A new task of a stage is the first that waits on its GPUs. -/
theorem Kept.head {t : ι} {g : Nat} (ht : t ∈ tl.stage k) (hnew : ¬ tl.Started k t)
    (hg : g ∈ tl.gpus t) : (tl.waiting k g).head? = some t := by
  obtain ⟨hmem, -, hstart | hrunning | hready⟩ := mem_stage.mp ht
  · have hwaits : t ∈ tl.waiting k g :=
      (mem_waiting_or ((tl.mem_queue t g).mpr ⟨hmem, hg⟩) k).resolve_right hnew
    obtain ⟨first, hfirst⟩ : ∃ first, (tl.waiting k g).head? = some first :=
      Option.ne_none_iff_exists'.mp fun hnone => by
        rw [List.head?_eq_none_iff.mp hnone] at hwaits
        cases hwaits
    rcases before_of_head hfirst hwaits with rfl | hbefore
    · exact hfirst
    · -- What comes before has finished and does not wait any more.
      have hqueue : first ∈ tl.waiting k g := List.mem_of_mem_head? hfirst
      obtain ⟨hfirst_mem, hfirst_g⟩ :=
        (tl.mem_queue first g).mp ((waiting_sublist (Nat.zero_le k) g).subset hqueue)
      have hfinish := h.finish_le hrun hk hfirst_mem hmem hfirst_g hg hbefore hstart
      have hstarted := hkept.finished first hfirst_mem hfinish
      exact absurd hqueue (hkept.not_waiting first hfirst_mem hstarted g hfirst_g)
  · exact absurd (started_of_mem_running hrunning) hnew
  · exact (ready_iff.mp hready g hg).1

include h hrun hk hkept in
/-- A new task of a stage does not share a GPU with one that runs on. -/
theorem Kept.free {t z : ι} {g : Nat} (ht : t ∈ tl.stage k) (hnew : ¬ tl.Started k t)
    (hz : z ∈ (tl.state k).running) (hlt : tl.time k < tl.finish z) (hgt : g ∈ tl.gpus t)
    (hgz : g ∈ tl.gpus z) : False := by
  have hz_started := started_of_mem_running hz
  have hz_mem : z ∈ tl.tasks := by
    obtain ⟨j, -, hmem⟩ := hz_started
    exact mem_tasks_of_mem_stage hmem
  obtain ⟨ht_mem, -, hstart | hrunning | hready⟩ := mem_stage.mp ht
  · have hne : z ≠ t := fun heq => hnew (heq ▸ hz_started)
    rcases before_or_before ((tl.mem_queue z g).mpr ⟨hz_mem, hgz⟩)
      ((tl.mem_queue t g).mpr ⟨ht_mem, hgt⟩) hne with hbefore | hbefore
    · exact absurd (h.finish_le hrun hk hz_mem ht_mem hgz hgt hbefore hstart) (not_le.mpr hlt)
    · exact hnew (hkept.before t ht_mem z hz_mem g hgt hgz hbefore hz_started)
  · exact hnew (started_of_mem_running hrunning)
  · have hbusy := busy_of_mem hz ((tl.mem_queue z g).mpr ⟨hz_mem, hgz⟩) fun z' hz' hg' => by
      rw [hkept.exclusive z' hz' z hz g hg' hgz]
      exact hlt
    rw [(ready_iff.mp hready g hgt).2] at hbusy
    cases hbusy

include h hrun hk hkept in
theorem Kept.stage_exclusive : ∀ u ∈ tl.stage k, ∀ v ∈ tl.stage k, ∀ g ∈ tl.gpus u,
    g ∈ tl.gpus v → u = v := by
  intro u hu v hv g hgu hgv
  have hruns {t : ι} (ht : t ∈ tl.stage k) (hstarted : tl.Started k t) :
      t ∈ (tl.state k).running := mem_running_of_started hrun hk hstarted (time_lt_finish ht)
  by_cases hu' : tl.Started k u <;> by_cases hv' : tl.Started k v
  · exact hkept.exclusive u (hruns hu hu') v (hruns hv hv') g hgu hgv
  · exact (hkept.free h hrun hk hv hv' (hruns hu hu') (time_lt_finish hu) hgv hgu).elim
  · exact (hkept.free h hrun hk hu hu' (hruns hv hv') (time_lt_finish hv) hgu hgv).elim
  · have hu_head := hkept.head h hrun hk hu hu' hgu
    rw [hkept.head h hrun hk hv hv' hgv] at hu_head
    exact (Option.some.inj hu_head).symm

include h hkept in
/-- Why a task was not started: one that finishes earlier is in the way. -/
theorem Kept.exists_earlier {t : ι} (ht : t ∈ tl.tasks) (hnot : ¬ tl.Started (k + 1) t) :
    ∃ u ∈ tl.tasks, tl.finish u < tl.finish t ∧ (tl.Started (k + 1) u → u ∈ tl.stage k) := by
  rw [started_succ, not_or] at hnot
  have hlt : tl.time k < tl.finish t := not_le.mp fun hle => hnot.1 (hkept.finished t ht hle)
  have hready : ¬ tl.ready (tl.state k) t = true := fun hready =>
    hnot.2 (mem_stage.mpr ⟨ht, hlt, .inr (.inr hready)⟩)
  rw [ready_iff] at hready
  push Not at hready
  obtain ⟨g, hg, hready⟩ := hready
  have hqueue := (tl.mem_queue t g).mpr ⟨ht, hg⟩
  have hwaits : t ∈ tl.waiting k g := (mem_waiting_or hqueue k).resolve_right hnot.1
  obtain ⟨first, hfirst⟩ : ∃ first, (tl.waiting k g).head? = some first :=
    Option.ne_none_iff_exists'.mp fun hnone => by
      rw [List.head?_eq_none_iff.mp hnone] at hwaits
      cases hwaits
  rcases before_of_head hfirst hwaits with rfl | hbefore
  · -- The task is the first, so a task that runs on has the GPU.
    obtain ⟨z, hz, hgz, hz_lt⟩ := exists_of_busy (by simpa using hready hfirst)
    obtain ⟨j, hj, hz_stage⟩ := started_of_mem_running hz
    have hz_mem := mem_tasks_of_mem_stage hz_stage
    have hne : z ≠ t := fun heq => hnot.1 (heq ▸ ⟨j, hj, hz_stage⟩)
    rcases before_or_before ((tl.mem_queue z g).mpr ⟨hz_mem, hgz⟩) hqueue hne with
      hbefore | hbefore
    · exact ⟨z, hz_mem, h.finish_lt z hz_mem t ht g hgz hg hbefore,
        fun _ => mem_stage.mpr ⟨hz_mem, hz_lt, .inr (.inl hz)⟩⟩
    · exact absurd (hkept.before t ht z hz_mem g hg hgz hbefore ⟨j, hj, hz_stage⟩) hnot.1
  · have hfirst_waits : first ∈ tl.waiting k g := List.mem_of_mem_head? hfirst
    obtain ⟨hfirst_mem, hfirst_g⟩ :=
      (tl.mem_queue first g).mp ((waiting_sublist (Nat.zero_le k) g).subset hfirst_waits)
    refine ⟨first, hfirst_mem, h.finish_lt first hfirst_mem t ht g hfirst_g hg hbefore, ?_⟩
    intro hstarted
    refine (started_succ.mp hstarted).resolve_left fun hstarted => ?_
    exact hkept.not_waiting first hfirst_mem hstarted g hfirst_g hfirst_waits

include h hrun hkept in
theorem Kept.succ (hk : k < n) : tl.Kept (k + 1) where
  finished := by
    intro t ht hle
    by_contra hnot
    refine not_of_descent tl
      (P := fun t => ¬ tl.Started (k + 1) t ∧ tl.finish t ≤ tl.time (k + 1)) ?_ t ht ⟨hnot, hle⟩
    rintro t ht ⟨hnot, hle⟩
    obtain ⟨u, hu, hlt, hstarted⟩ := hkept.exists_earlier h ht hnot
    refine ⟨u, hu, ⟨fun hu' => ?_, (hlt.trans_le hle).le⟩, hlt⟩
    exact absurd (time_succ_le (hstarted hu')) (not_le.mpr (hlt.trans_le hle))
  not_waiting := by
    intro t ht hstarted g hg hwaits
    have hwaits' := (waiting_succ_sublist k g).subset hwaits
    by_cases hold : tl.Started k t
    · exact hkept.not_waiting t ht hold g hg hwaits'
    · have hstage := (started_succ.mp hstarted).resolve_left hold
      exact not_mem_waiting_succ (hkept.head h hrun hk.le hstage hold hg) hstage hg hwaits
  before := by
    intro u hu v hv g hgu hgv hbefore hstarted
    by_cases hold : tl.Started k v
    · exact started_succ.mpr (.inl (hkept.before u hu v hv g hgu hgv hbefore hold))
    · have hstage := (started_succ.mp hstarted).resolve_left hold
      have hhead := hkept.head h hrun hk.le hstage hold hgv
      refine started_succ.mpr (.inl ?_)
      refine (mem_waiting_or ((tl.mem_queue u g).mpr ⟨hu, hgu⟩) k).resolve_left fun hwaits => ?_
      rcases before_of_head hhead hwaits with rfl | hafter
      · exact ne_of_before hbefore rfl
      · exact tl.before_asymm u v hbefore hafter
  exclusive := hkept.stage_exclusive h hrun hk.le

end

section

variable {n : Nat} (h : tl.Separated) (hrun : ∀ k < n, tl.stage k ≠ [])

include h hrun

theorem Separated.kept {k : Nat} (hk : k ≤ n) : tl.Kept k := by
  induction k with
  | zero => exact kept_zero h
  | succ k ih => exact (ih (Nat.le_of_succ_le hk)).succ h hrun hk

theorem Separated.allStaged (hlast : tl.stage n = []) : tl.AllStaged n where
  exists_stage := by
    intro t ht
    by_contra hnot
    refine not_of_descent tl (P := fun t => ¬ tl.Started n t) ?_ t ht fun ⟨k, hk, hmem⟩ =>
      hnot ⟨k, hk, hmem⟩
    intro t ht hnot
    have hsame (t : ι) : tl.Started (n + 1) t ↔ tl.Started n t := by
      rw [started_succ, hlast]
      exact or_iff_left List.not_mem_nil
    obtain ⟨u, hu, hlt, hstarted⟩ :=
      (h.kept hrun le_rfl).exists_earlier h ht fun hstarted => hnot ((hsame t).mp hstarted)
    refine ⟨u, hu, fun hu' => ?_, hlt⟩
    have hmem := hstarted ((hsame u).mpr hu')
    rw [hlast] at hmem
    cases hmem
  exclusive := fun k hk => (h.kept hrun hk.le).stage_exclusive h hrun hk.le

/-- The tasks of a GPU come in the order of its queue. -/
theorem Separated.started_of_before {k : Nat} (hk : k ≤ n) {u v : ι} {g : Nat} (hu : u ∈ tl.tasks)
    (hgu : g ∈ tl.gpus u) (hgv : g ∈ tl.gpus v) (hbefore : tl.before u v) (hv : v ∈ tl.stage k) :
    tl.Started k u := by
  have hkept := h.kept hrun hk
  have hv_mem := mem_tasks_of_mem_stage hv
  by_cases hold : tl.Started k v
  · exact hkept.before u hu v hv_mem g hgu hgv hbefore hold
  · have hhead := hkept.head h hrun hk hv hold hgv
    refine (mem_waiting_or ((tl.mem_queue u g).mpr ⟨hu, hgu⟩) k).resolve_left fun hwaits => ?_
    rcases before_of_head hhead hwaits with rfl | hafter
    · exact ne_of_before hbefore rfl
    · exact tl.before_asymm u v hbefore hafter

end

/-! ## The condition is needed -/

section

variable {n : Nat} (h : tl.AllStaged n) (hrun : ∀ k < n, tl.stage k ≠ []) (hlast : tl.stage n = [])

include h hlast in
/-- Every finish is a split time, after the last stage of the task. -/
theorem AllStaged.exists_time {t : ι} (ht : t ∈ tl.tasks) :
    ∃ k < n, t ∈ tl.stage k ∧ tl.time (k + 1) = tl.finish t := by
  obtain ⟨i, hi, hmem⟩ := h.exists_stage t ht
  by_contra hnot
  push Not at hnot
  -- Otherwise the task would stay in all stages.
  have hstays : ∀ j, i + j ≤ n → t ∈ tl.stage (i + j) := by
    intro j
    induction j with
    | zero => exact fun _ => hmem
    | succ j ih =>
      intro hj
      have hstage := ih (Nat.le_of_succ_le hj)
      exact mem_stage_succ hstage ((time_succ_le hstage).lt_of_ne (hnot _ hj hstage))
  have hend := hstays (n - i) (by omega)
  rw [Nat.add_sub_cancel' hi.le, hlast] at hend
  cases hend

include h hrun in
/-- A task that is due has a first stage. -/
theorem AllStaged.exists_first {v : ι} (hv : v ∈ tl.tasks) {k : Nat}
    (hstart : tl.start v ≤ tl.time k) :
    ∃ i ≤ k, v ∈ tl.stage i ∧ ¬ tl.Started i v := by
  rcases lt_or_ge (tl.time k) (tl.finish v) with hlt | hle
  · exact exists_first_of_mem (mem_stage_of_start_le hv hstart hlt)
  · obtain ⟨j, hj, hmem⟩ := h.exists_stage v hv
    obtain ⟨i, hi, hfirst⟩ := exists_first_of_mem hmem
    exact ⟨i, hi.trans (lt_of_mem_stage hrun hj.le hmem hle).le, hfirst⟩

include h hrun hlast in
/-- At a split time at which a task is due, the tasks before it have finished. -/
theorem AllStaged.finish_le {u v : ι} {g : Nat} (hu : u ∈ tl.tasks) (hv : v ∈ tl.tasks)
    (hgu : g ∈ tl.gpus u) (hgv : g ∈ tl.gpus v) (hbefore : tl.before u v) {k : Nat} (hk : k ≤ n)
    (hstart : tl.start v ≤ tl.time k) : tl.finish u ≤ tl.time k := by
  rcases Nat.eq_or_lt_of_le hk with rfl | hk
  · obtain ⟨j, hj, -, hfinish⟩ := h.exists_time hlast hu
    exact hfinish ▸ time_le hrun hj le_rfl
  by_contra hlt
  replace hlt := not_le.mp hlt
  have hstart_le := tl.start_le_of_before u v hbefore
  obtain ⟨i, hik, hvi, hfirst⟩ := h.exists_first hrun hv hstart
  have hi := hik.trans_lt hk
  have hlt_u := (time_le hrun hik hk.le).trans_lt hlt
  -- The earlier task is in the first stage of the later one.
  suffices hui : u ∈ tl.stage i from
    ne_of_before hbefore (h.exclusive i hi u hui v hvi g hgu hgv)
  obtain ⟨-, -, hdue | hrunning | hready⟩ := mem_stage.mp hvi
  · exact mem_stage_of_start_le hu (hstart_le.trans hdue) hlt_u
  · exact absurd (started_of_mem_running hrunning) hfirst
  · -- Started in advance, the later one is the first that waits, so the earlier one has been started.
    have hhead := (ready_iff.mp hready g hgv).1
    rcases mem_waiting_or ((tl.mem_queue u g).mpr ⟨hu, hgu⟩) i with hwaits | ⟨j, hj, hmem⟩
    · rcases before_of_head hhead hwaits with rfl | hafter
      · exact absurd rfl (ne_of_before hbefore)
      · exact absurd hafter (tl.before_asymm u v hbefore)
    · exact mem_stage_of_le hrun hj.le hi.le hmem hlt_u

include h hrun hlast in
theorem AllStaged.finish_lt (hle : ∀ t ∈ tl.tasks, tl.start t ≤ tl.finish t) {u v : ι} {g : Nat}
    (hu : u ∈ tl.tasks) (hv : v ∈ tl.tasks) (hgu : g ∈ tl.gpus u) (hgv : g ∈ tl.gpus v)
    (hbefore : tl.before u v) : tl.finish u < tl.finish v := by
  obtain ⟨k, hk, hvk, hv_time⟩ := h.exists_time hlast hv
  obtain ⟨j, hj, huj, hu_time⟩ := h.exists_time hlast hu
  have hfinish := h.finish_le hrun hlast hu hv hgu hgv hbefore (Nat.succ_le_of_lt hk)
    (hv_time ▸ hle v hv)
  rw [hv_time] at hfinish
  refine hfinish.lt_of_ne fun heq => ?_
  -- With one finish their last stages would be the same.
  have htime : tl.time (j + 1) = tl.time (k + 1) := by rw [hu_time, hv_time, heq]
  obtain rfl := Nat.succ.inj (time_inj hrun hj hk htime)
  exact ne_of_before hbefore (h.exclusive j hj u huj v hvk g hgu hgv)

include h hrun hlast in
theorem AllStaged.separated (hle : ∀ t ∈ tl.tasks, tl.start t ≤ tl.finish t) : tl.Separated where
  finish_pos := by
    intro t ht
    obtain ⟨k, hk, hmem⟩ := h.exists_stage t ht
    exact (time_le hrun (Nat.zero_le k) hk.le).trans_lt (time_lt_finish hmem)
  finish_lt := fun u hu v hv g hgu hgv hbefore =>
    h.finish_lt hrun hlast hle hu hv hgu hgv hbefore
  start_pos := by
    intro u hu v hv g hgu hgv hbefore
    by_contra hstart
    have hfinish := h.finish_le hrun hlast hu hv hgu hgv hbefore (Nat.zero_le n) (not_lt.mp hstart)
    obtain ⟨k, hk, hmem⟩ := h.exists_stage u hu
    have hpos := (time_le hrun (Nat.zero_le k) hk.le).trans_lt (time_lt_finish hmem)
    exact absurd hfinish (not_le.mpr hpos)
  gap := by
    intro u hu v hv g hgu hgv hbefore w hw
    obtain ⟨k, hk, -, htime⟩ := h.exists_time hlast hw
    rw [← htime, or_iff_not_imp_left, not_lt]
    exact h.finish_le hrun hlast hu hv hgu hgv hbefore hk

end

theorem allStaged_iff (hle : ∀ t ∈ tl.tasks, tl.start t ≤ tl.finish t) {n : Nat}
    (hrun : ∀ k < n, tl.stage k ≠ []) (hlast : tl.stage n = []) :
    tl.AllStaged n ↔ tl.Separated :=
  ⟨fun h => h.separated hrun hlast hle, fun h => h.allStaged hrun hlast⟩

end Mil.Stages.Timeline
