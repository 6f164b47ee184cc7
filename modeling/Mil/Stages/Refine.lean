import Mathlib.Logic.Function.Basic
import Mil.Lib.FoldM
import Mil.Stages.Extract
import Mil.Stages.Separated

/-!
# The extraction goes along a timeline

What the solver gives is a timeline: a task finishes at its planned end, or at the end of its first
input if that is later, and the queue of a GPU is sorted by start, tasks with one start by their number.
`_get_complete_non_preemptive_schedule` is a round of that timeline (`addPlanGroup_eq`). It does not
fail, because a task that is not over and not running waits on all of its GPUs.
-/

set_option autoImplicit false

namespace Mil.Stages

open Mil.Lib

/-- A stable sort keeps the order of elements that compare both ways. -/
theorem pairwise_mergeSort_stable {α : Type} {le : α → α → Bool} {R : α → α → Prop}
    (trans : ∀ a b c, le a b → le b c → le a c) (total : ∀ a b, le a b || le b a)
    {l : List α} (h : l.Pairwise R) :
    (l.mergeSort le).Pairwise fun a b => le a b = true ∧ (le b a = true → R a b) := by
  have hsorted := List.pairwise_mergeSort (List.zipIdxLE_trans trans) (List.zipIdxLE_total total)
    l.zipIdx
  have hnodup : (l.zipIdx.mergeSort (List.zipIdxLE le)).Nodup := by
    refine (List.mergeSort_perm _ _).nodup_iff.mpr (List.Nodup.of_map Prod.snd ?_)
    rw [List.zipIdx_map_snd]
    exact List.nodup_range'
  have hmem {a : α} {i : Nat} (he : (a, i) ∈ l.zipIdx.mergeSort (List.zipIdxLE le)) :
      l[i]? = some a := List.mem_zipIdx_iff_getElem?.mp (List.mem_mergeSort.mp he)
  rw [← List.mergeSort_zipIdx, List.pairwise_map]
  refine (hsorted.and hnodup).imp_of_mem ?_
  rintro ⟨a, i⟩ ⟨b, j⟩ ha hb ⟨hle, hne⟩
  rw [List.zipIdxLE] at hle
  split at hle
  · rename_i hab
    refine ⟨hab, fun hba => ?_⟩
    rw [if_pos hba, decide_eq_true_eq] at hle
    have hij : i ≠ j := by
      rintro rfl
      exact hne (Prod.ext (Option.some.inj ((hmem ha).symm.trans (hmem hb))) rfl)
    obtain ⟨hi, rfl⟩ := List.getElem?_eq_some_iff.mp (hmem ha)
    obtain ⟨hj, rfl⟩ := List.getElem?_eq_some_iff.mp (hmem hb)
    exact List.pairwise_iff_getElem.mp h i j hi hj (Nat.lt_of_le_of_ne hle hij)
  · cases hle

/-! ## What the solver promises -/

/-- The tasks are entered in order, each with a simulated plan of its model and GPUs of the cluster;
costs are not negative; all models and their inputs are scheduled. -/
structure LpResult.WellFormed (lp : LpResult) : Prop where
  taskIdxs_sorted : (Dict.keys lp.selection).Pairwise (· < ·)
  gpus_lt : ∀ e ∈ lp.selection, ∀ g ∈ e.2.selectedGpus, g < lp.totGpuNum
  order_eq : ∀ e ∈ lp.selection, lp.modelId2Order.lookup e.2.plan.modelId = some e.1
  latency_ne : ∀ e ∈ lp.selection, e.2.plan.totalLatencyList ≠ []
  latency_nonneg : ∀ e ∈ lp.selection, ∀ l ∈ e.2.plan.totalLatencyList, 0 ≤ l
  extraCost_nonneg : ∀ e ∈ lp.selection, 0 ≤ e.2.plan.extraCost
  scheduled : ∀ model ∈ lp.models, ∀ modelId ∈ model.modelId :: model.inputModelIds,
    ∃ taskIdx ∈ Dict.keys lp.selection, lp.modelId2Order.lookup modelId = some taskIdx

namespace LpResult

variable (lp : LpResult)

def info (taskIdx : Nat) : Selected := (lp.selection.lookup taskIdx).getD ⟨[], 0, ⟨0, [], 0⟩⟩

/-- The task of a model. -/
def taskOf (modelId : Nat) : Nat := (lp.modelId2Order.lookup modelId).getD 0

/-- The start of a task with the latency of its plan and the extra cost. -/
def plannedEnd (taskIdx : Nat) : ℚ :=
  (lp.info taskIdx).startTime + (lp.info taskIdx).plan.totalLatencyList.max?.getD 0 +
    (lp.info taskIdx).plan.extraCost

/-- A task ends no earlier than the task of the first model it reads from, model by model. -/
def prolong (ends : Nat → ℚ) (model : Model) : Nat → ℚ :=
  match model.inputModelIds with
  | [] => ends
  | inp :: _ => Function.update ends (lp.taskOf model.modelId)
      (max (ends (lp.taskOf model.modelId)) (ends (lp.taskOf inp)))

/-- When a task ends. -/
def latestEnd : Nat → ℚ := lp.models.foldl lp.prolong lp.plannedEnd

/-- The order of the tasks of a GPU. -/
def comesBefore (t t' : Nat) : Prop :=
  (lp.info t).startTime < (lp.info t').startTime ∨
    (lp.info t).startTime = (lp.info t').startTime ∧ t < t'

variable {lp}

theorem WellFormed.nodup (h : lp.WellFormed) : (Dict.keys lp.selection).Nodup :=
  h.taskIdxs_sorted.imp fun hlt => hlt.ne

theorem WellFormed.lookup_eq (h : lp.WellFormed) {e : Nat × Selected} (he : e ∈ lp.selection) :
    lp.selection.lookup e.1 = some e.2 := Dict.lookup_of_mem h.nodup he

theorem WellFormed.info_eq (h : lp.WellFormed) {e : Nat × Selected} (he : e ∈ lp.selection) :
    lp.info e.1 = e.2 := by
  rw [info, h.lookup_eq he, Option.getD_some]

theorem WellFormed.mem (h : lp.WellFormed) {t : Nat} (ht : t ∈ Dict.keys lp.selection) :
    (t, lp.info t) ∈ lp.selection := by
  obtain ⟨⟨t', i⟩, he, rfl⟩ := List.mem_map.mp ht
  rw [h.info_eq he]
  exact he

theorem WellFormed.lookup_info (h : lp.WellFormed) {t : Nat} (ht : t ∈ Dict.keys lp.selection) :
    lp.selection.lookup t = some (lp.info t) := h.lookup_eq (h.mem ht)

/-! ## The timeline -/

/-- The tasks of a GPU by start. -/
def queue (lp : LpResult) (gpuIdx : Nat) : List Nat :=
  (((lp.selection.filter fun e => gpuIdx ∈ e.2.selectedGpus).map
    fun e => (e.1, e.2.startTime)).mergeSort fun info info' => info.2 ≤ info'.2).map Prod.fst

theorem map_sort_gpuModelOrder : (lp.gpuModelOrder.map fun gpu =>
    (gpu.mergeSort fun info info' => info.2 ≤ info'.2).map Prod.fst) =
      (List.range lp.totGpuNum).map lp.queue := by
  rw [gpuModelOrder, List.map_map]
  rfl

theorem mem_queue {t gpuIdx : Nat} :
    t ∈ lp.queue gpuIdx ↔ ∃ e ∈ lp.selection, gpuIdx ∈ e.2.selectedGpus ∧ e.1 = t := by
  simp only [queue, List.mem_map, List.mem_mergeSort, List.mem_filter, decide_eq_true_eq]
  constructor
  · rintro ⟨-, ⟨e, ⟨he, hg⟩, rfl⟩, rfl⟩
    exact ⟨e, he, hg, rfl⟩
  · rintro ⟨e, he, hg, rfl⟩
    exact ⟨_, ⟨e, ⟨he, hg⟩, rfl⟩, rfl⟩

theorem WellFormed.queue_sorted (h : lp.WellFormed) (gpuIdx : Nat) :
    (lp.queue gpuIdx).Pairwise lp.comesBefore := by
  set rows := (lp.selection.filter fun e => gpuIdx ∈ e.2.selectedGpus).map
    fun e => (e.1, e.2.startTime) with hrows
  have hinfo : ∀ r ∈ rows, r.2 = (lp.info r.1).startTime := by
    intro r hr
    obtain ⟨e, he, rfl⟩ := List.mem_map.mp hr
    rw [h.info_eq (List.mem_of_mem_filter he)]
  have hlt : rows.Pairwise fun a b => a.1 < b.1 := by
    rw [hrows, List.pairwise_map]
    exact (List.pairwise_map.mp h.taskIdxs_sorted).filter _
  have hstable : (rows.mergeSort fun a b => a.2 ≤ b.2).Pairwise fun a b =>
      decide (a.2 ≤ b.2) = true ∧ (decide (b.2 ≤ a.2) = true → a.1 < b.1) :=
    pairwise_mergeSort_stable
      (fun a b c hab hbc => decide_eq_true ((of_decide_eq_true hab).trans (of_decide_eq_true hbc)))
      (fun a b => by simpa using le_total a.2 b.2) hlt
  rw [queue, ← hrows, List.pairwise_map]
  refine hstable.imp_of_mem fun {a b} ha hb hab => ?_
  rw [comesBefore, ← hinfo a (List.mem_mergeSort.mp ha), ← hinfo b (List.mem_mergeSort.mp hb)]
  rcases (of_decide_eq_true hab.1).lt_or_eq with hlt | heq
  · exact .inl hlt
  · exact .inr ⟨heq, hab.2 (decide_eq_true heq.ge)⟩

/-- The timeline that the solver gives. -/
def timeline (lp : LpResult) (h : lp.WellFormed) : Timeline Nat ℚ where
  tasks := Dict.keys lp.selection
  start := fun t => (lp.info t).startTime
  finish := lp.latestEnd
  gpus := fun t => (lp.info t).selectedGpus
  queues := (List.range lp.totGpuNum).map lp.queue
  before := lp.comesBefore
  mem_queue := by
    intro t g
    have hiff : t ∈ lp.queue g ↔ t ∈ Dict.keys lp.selection ∧ g ∈ (lp.info t).selectedGpus := by
      rw [LpResult.mem_queue]
      constructor
      · rintro ⟨e, he, hg, rfl⟩
        exact ⟨List.mem_map_of_mem he, (h.info_eq he).symm ▸ hg⟩
      · rintro ⟨ht, hg⟩
        exact ⟨_, h.mem ht, hg, rfl⟩
    rw [List.getD_eq_getElem?_getD, List.getElem?_map]
    by_cases hg : g < lp.totGpuNum
    · rw [List.getElem?_range hg]
      exact hiff
    · rw [List.getElem?_eq_none (by rw [List.length_range]; exact Nat.not_lt.mp hg)]
      refine iff_of_false List.not_mem_nil fun ht => hg ?_
      exact h.gpus_lt _ (h.mem ht.1) g ht.2
  queue_sorted := by
    intro g
    rw [List.getD_eq_getElem?_getD, List.getElem?_map]
    cases hg : (List.range lp.totGpuNum)[g]? with
    | none => exact List.Pairwise.nil
    | some g' => exact h.queue_sorted g'
  before_asymm := by
    rintro u v (huv | ⟨heq, huv⟩) (hvu | ⟨heq', hvu⟩)
    · exact lt_asymm huv hvu
    · exact huv.ne heq'.symm
    · exact hvu.ne heq.symm
    · exact Nat.lt_asymm huv hvu
  start_le_of_before := by
    rintro u v (huv | ⟨heq, -⟩)
    · exact huv.le
    · exact heq.le

end LpResult

/-! ## End times -/

section

variable {lp : LpResult} (h : lp.WellFormed)

/-- The values of a function as a dictionary. -/
def table (keys : List Nat) (f : Nat → ℚ) : List (Nat × ℚ) := keys.map fun t => (t, f t)

theorem lookup_table {keys : List Nat} {f : Nat → ℚ} {t : Nat} (ht : t ∈ keys) :
    (table keys f).lookup t = some (f t) := by
  induction keys with
  | nil => cases ht
  | cons k keys ih =>
    by_cases hk : k = t
    · subst hk
      exact Dict.lookup_cons_self
    · rw [table, List.map_cons, Dict.lookup_cons_ne hk]
      exact ih ((List.mem_cons.mp ht).resolve_left fun heq => hk heq.symm)

theorem set_table {keys : List Nat} (hnodup : keys.Nodup) (f : Nat → ℚ) {t : Nat} (ht : t ∈ keys)
    (a : ℚ) : Dict.set t a (table keys f) = table keys (Function.update f t a) := by
  induction keys with
  | nil => cases ht
  | cons k keys ih =>
    obtain ⟨hk, hnodup⟩ := List.nodup_cons.mp hnodup
    by_cases heq : k = t
    · subst heq
      have hrest : table keys f = table keys (Function.update f k a) :=
        List.map_congr_left fun t ht => by
          have hne : t ≠ k := fun heq => hk (heq ▸ ht)
          rw [Function.update_of_ne hne]
      show (if k = k then (k, a) :: table keys f else _) =
        (k, Function.update f k a k) :: table keys (Function.update f k a)
      rw [if_pos rfl, Function.update_self, hrest]
    · show (if k = t then _ else (k, f k) :: Dict.set t a (table keys f)) =
        (k, Function.update f t a k) :: table keys (Function.update f t a)
      rw [if_neg heq, Function.update_of_ne heq,
        ih hnodup ((List.mem_cons.mp ht).resolve_left fun heq' => heq heq'.symm)]

include h

theorem stretchEndTime_eq {model : Model} (hmodel : model ∈ lp.models) (ends : Nat → ℚ) :
    stretchEndTime lp (table (Dict.keys lp.selection) ends) model =
      some (table (Dict.keys lp.selection) (lp.prolong ends model)) := by
  rw [stretchEndTime, LpResult.prolong]
  cases hinp : model.inputModelIds with
  | nil => rfl
  | cons inp inps =>
    obtain ⟨t, ht, hlookup⟩ := h.scheduled model hmodel model.modelId (.head _)
    obtain ⟨t', ht', hlookup'⟩ := h.scheduled model hmodel inp (by rw [hinp]; exact .tail _ (.head _))
    have htask : lp.taskOf model.modelId = t := by rw [LpResult.taskOf, hlookup, Option.getD_some]
    have htask' : lp.taskOf inp = t' := by rw [LpResult.taskOf, hlookup', Option.getD_some]
    simp only [hlookup, hlookup', lookup_table ht, lookup_table ht', htask, htask',
      Option.bind_eq_bind, Option.bind_some, set_table h.nodup ends ht]
    rfl

theorem endTimes_eq : endTimes lp = some (table (Dict.keys lp.selection) lp.latestEnd) := by
  have hplanned : (lp.selection.mapM fun e => do
      let latency ← e.2.plan.totalLatencyList.max?
      return (e.1, e.2.startTime + latency + e.2.plan.extraCost)) =
      some (table (Dict.keys lp.selection) lp.plannedEnd) := by
    rw [table, Dict.keys, List.map_map]
    refine mapM_of_forall fun e he => ?_
    obtain ⟨latency, hlatency⟩ : ∃ l, e.2.plan.totalLatencyList.max? = some l :=
      Option.ne_none_iff_exists'.mp (by simpa using h.latency_ne e he)
    rw [Function.comp_apply, LpResult.plannedEnd, h.info_eq he, hlatency]
    rfl
  have hloop (models : List Model) (hmodels : ∀ m ∈ models, m ∈ lp.models) (ends : Nat → ℚ) :
      models.foldlM (stretchEndTime lp) (table (Dict.keys lp.selection) ends) =
        some (table (Dict.keys lp.selection) (models.foldl lp.prolong ends)) := by
    induction models generalizing ends with
    | nil => rfl
    | cons m models ih =>
      obtain ⟨hm, hmodels⟩ := List.forall_mem_cons.mp hmodels
      rw [List.foldlM_cons, stretchEndTime_eq h hm]
      exact ih hmodels _
  rw [endTimes, hplanned]
  exact hloop lp.models (fun _ hm => hm) lp.plannedEnd

end

/-! ## A round -/

theorem isRunnable_eq {remaining : List (List Nat)} {busy : List Bool} {t : Nat} {gpus : List Nat}
    (hwaits : ∀ g ∈ gpus, t ∈ remaining.getD g []) (hbusy : ∀ g ∈ gpus, g < busy.length) :
    isRunnable remaining busy t gpus = some (gpus.all fun g =>
      (remaining.getD g []).head? = some t && !busy.getD g false) := by
  induction gpus with
  | nil => rfl
  | cons g gpus ih =>
    obtain ⟨hg, hwaits⟩ := List.forall_mem_cons.mp hwaits
    obtain ⟨hgb, hbusy⟩ := List.forall_mem_cons.mp hbusy
    obtain ⟨waiting, hwaiting⟩ : ∃ waiting, remaining[g]? = some waiting := by
      refine Option.ne_none_iff_exists'.mp fun hnone => ?_
      rw [List.getD_eq_getElem?_getD, hnone] at hg
      cases hg
    rw [List.getD_eq_getElem?_getD, hwaiting, Option.getD_some] at hg
    obtain ⟨first, hfirst⟩ : ∃ first, waiting.head? = some first :=
      Option.ne_none_iff_exists'.mp fun hnone => by
        rw [List.head?_eq_none_iff.mp hnone] at hg
        cases hg
    rw [isRunnable, List.all_cons, ih hwaits hbusy, List.getD_eq_getElem?_getD, hwaiting,
      Option.getD_some, hfirst, List.getD_eq_getElem?_getD, List.getElem?_eq_getElem hgb,
      Option.getD_some]
    simp only [Option.bind_eq_bind, Option.bind_some, hfirst]
    show (if first ≠ t then some false else (if busy[g] then some false else _)) = _
    by_cases heq : first = t
    · subst heq
      rw [if_neg (not_not.mpr rfl), decide_eq_true rfl, Bool.true_and]
      cases busy[g] <;> rfl
    · rw [if_pos heq, decide_eq_false (by simpa using heq)]
      rfl

section

variable {lp : LpResult} (h : lp.WellFormed)

/-- The plan of a task. -/
def LpResult.plan (lp : LpResult) (t : Nat) : ExecPlan := (lp.info t).plan

/-- What the loop has before round `k`. -/
def extraction (h : lp.WellFormed) (k : Nat) : Extraction where
  remaining := ((lp.timeline h).state k).waiting
  planGroupList := [] :: (List.range k).map fun j => ((lp.timeline h).stage j).map lp.plan

include h

theorem length_queues : (lp.timeline h).queues.length = lp.totGpuNum := by
  show ((List.range lp.totGpuNum).map lp.queue).length = _
  rw [List.length_map, List.length_range]

theorem gpuIsBusy_eq (m : ℚ) {running : List Nat}
    (hrunning : ∀ t ∈ running, t ∈ Dict.keys lp.selection) :
    gpuIsBusy lp (table (Dict.keys lp.selection) lp.latestEnd) m running =
      some ((lp.timeline h).mark m running (List.replicate lp.totGpuNum false)) := by
  refine foldlM_eq_foldl (P := fun _ => True) (fun t ht busy _ => ⟨?_, trivial⟩) trivial
  rw [h.lookup_info (hrunning t ht), lookup_table (hrunning t ht)]
  rfl

/-- A task that is alive leaves the queues. -/
theorem leaveQueues_eq {t : Nat} (ht : t ∈ Dict.keys lp.selection) {remaining : List (List Nat)}
    (hlen : remaining.length = lp.totGpuNum) : leaveQueues lp remaining t =
      some (((lp.timeline h).gpus t).foldl (Timeline.leave t) remaining) ∧
      (((lp.timeline h).gpus t).foldl (Timeline.leave t) remaining).length = lp.totGpuNum := by
  constructor
  · rw [leaveQueues, h.lookup_info ht]
    refine foldlM_eq_foldl (P := fun r => r.length = lp.totGpuNum) (fun g hg r hr => ?_) hlen
    have hlt : g < r.length := hr ▸ h.gpus_lt _ (h.mem ht) g hg
    refine ⟨?_, (Timeline.length_leave t r g).trans hr⟩
    rw [Timeline.leave, List.getD_eq_getElem?_getD, List.getElem?_eq_getElem hlt]
    simp only [Option.bind_eq_bind, Option.bind_some, Option.getD_some]
    split <;> rfl
  · exact (Timeline.length_foldl_leave t _ _).trans hlen

omit h in
/-- The loop that collects what passes a test. -/
theorem foldlM_append_eq_filter {α β : Type} {p : α → Option Bool} {q : α → Bool} (f : α → β)
    {l : List α} (hp : ∀ a ∈ l, p a = some (q a)) (acc : List β) :
    (l.foldlM (fun acc a => do
      let b ← p a
      return if b then acc ++ [f a] else acc) acc) = some (acc ++ (l.filter q).map f) := by
  induction l generalizing acc with
  | nil =>
    rw [List.filter_nil, List.map_nil, List.append_nil]
    rfl
  | cons a l ih =>
    obtain ⟨ha, hl⟩ := List.forall_mem_cons.mp hp
    rw [List.foldlM_cons, ha, List.filter_cons]
    simp only [Option.bind_eq_bind, Option.bind_some]
    refine (ih hl _).trans ?_
    cases q a with
    | false => rfl
    | true =>
      rw [if_pos rfl, if_pos rfl, List.map_cons, List.append_assoc]
      rfl

theorem running_subset (k : Nat) :
    ∀ t ∈ ((lp.timeline h).state k).running, t ∈ Dict.keys lp.selection := by
  intro t ht
  obtain ⟨j, -, hmem⟩ := Timeline.started_of_mem_running ht
  exact Timeline.mem_tasks_of_mem_stage hmem

theorem planGroupList_succ (k : Nat) : (extraction h (k + 1)).planGroupList =
    (extraction h k).planGroupList ++ [((lp.timeline h).stage k).map lp.plan] := by
  show [] :: (List.range (k + 1)).map _ = _
  rw [List.range_succ, List.map_append]
  rfl

theorem getLast?_planGroupList (k : Nat) : (extraction h k).planGroupList.getLast? =
    some (((lp.timeline h).state k).running.map lp.plan) := by
  cases k with
  | zero => rfl
  | succ k =>
    rw [planGroupList_succ, List.getLast?_concat]
    rfl

/-- The tasks of plans. -/
theorem mapM_plan {tasks : List Nat} (htasks : ∀ t ∈ tasks, t ∈ Dict.keys lp.selection) :
    ((tasks.map lp.plan).mapM fun plan => lp.modelId2Order.lookup plan.modelId) = some tasks := by
  rw [List.mapM_map]
  refine (mapM_of_forall (h := id) fun t ht => ?_).trans (congrArg some (List.map_id tasks))
  exact h.order_eq _ (h.mem (htasks t ht))

variable {n : Nat} (hrun : ∀ k < n, (lp.timeline h).stage k ≠ []) {k : Nat} (hk : k ≤ n)

include hrun hk

/-- Whether a task is alive, as the code asks it. A task that is not over and does not run has not
been started, so it waits on all of its GPUs. -/
theorem isAlive_eq {t : Nat} (ht : t ∈ Dict.keys lp.selection) :
    isAlive lp ((lp.timeline h).state k).waiting
      ((lp.timeline h).busy ((lp.timeline h).state k).running) ((lp.timeline h).time k)
      ((lp.timeline h).state k).running t (lp.latestEnd t) =
      some (decide (t ∈ (lp.timeline h).stage k)) := by
  have hmem : t ∈ (lp.timeline h).stage k ↔ (lp.timeline h).time k < lp.latestEnd t ∧
      ((lp.info t).startTime ≤ (lp.timeline h).time k ∨ t ∈ ((lp.timeline h).state k).running ∨
        (lp.timeline h).ready ((lp.timeline h).state k) t = true) :=
    Timeline.mem_stage.trans (and_iff_right ht)
  rw [isAlive, h.lookup_info ht]
  simp only [Option.bind_eq_bind, Option.bind_some]
  split
  · rename_i hdue
    rw [decide_eq_true (hmem.mpr ⟨hdue.2, .inl hdue.1⟩)]
  rename_i hdue
  split
  · rename_i hover
    rw [decide_eq_false fun hstage => not_lt.mpr hover (hmem.mp hstage).1]
  rename_i hover
  have hlt := not_le.mp hover
  split
  · rename_i hrunning
    rw [decide_eq_true (hmem.mpr ⟨hlt, .inr (.inl hrunning)⟩)]
  rename_i hrunning
  have hwaits : ∀ g ∈ (lp.info t).selectedGpus,
      t ∈ ((lp.timeline h).state k).waiting.getD g [] := by
    intro g hg
    refine (Timeline.mem_waiting_or (((lp.timeline h).mem_queue t g).mpr ⟨ht, hg⟩) k).resolve_right
      fun hstarted => hrunning ?_
    exact Timeline.mem_running_of_started hrun hk hstarted hlt
  have hbusy : ∀ g ∈ (lp.info t).selectedGpus,
      g < ((lp.timeline h).busy ((lp.timeline h).state k).running).length := by
    intro g hg
    rw [Timeline.length_busy, length_queues]
    exact h.gpus_lt _ (h.mem ht) g hg
  rw [isRunnable_eq hwaits hbusy]
  refine congrArg some (Bool.eq_iff_iff.mpr (Iff.trans ?_ decide_eq_true_iff.symm))
  rw [hmem]
  constructor
  · exact fun hready => ⟨hlt, .inr (.inr hready)⟩
  · rintro ⟨-, hstart | hmem | hready⟩
    · exact absurd ⟨hstart, hlt⟩ hdue
    · exact absurd hmem hrunning
    · exact hready

theorem aliveTaskIdxs_eq :
    ((table (Dict.keys lp.selection) lp.latestEnd).foldlM (fun alive e => do
      let isAlive ← isAlive lp ((lp.timeline h).state k).waiting
        ((lp.timeline h).busy ((lp.timeline h).state k).running) ((lp.timeline h).time k)
        ((lp.timeline h).state k).running e.1 e.2
      return if isAlive then alive ++ [e.1] else alive) []) = some ((lp.timeline h).stage k) := by
  have htest : ∀ e ∈ table (Dict.keys lp.selection) lp.latestEnd,
      isAlive lp ((lp.timeline h).state k).waiting
        ((lp.timeline h).busy ((lp.timeline h).state k).running) ((lp.timeline h).time k)
        ((lp.timeline h).state k).running e.1 e.2 =
        some (decide (e.1 ∈ (lp.timeline h).stage k)) := by
    intro e he
    obtain ⟨t, ht, rfl⟩ := List.mem_map.mp he
    exact isAlive_eq h hrun hk ht
  refine (foldlM_append_eq_filter Prod.fst htest []).trans (congrArg some ?_)
  rw [List.nil_append, table, List.filter_map, List.map_map]
  refine (List.map_id _).trans ?_
  refine List.filter_congr fun t ht => ?_
  show decide (t ∈ (lp.timeline h).stage k) = _
  rw [decide_eq_decide]
  exact Timeline.mem_stage.trans (and_iff_right ht)

/-- A round of the loop is a round of the timeline. -/
theorem addPlanGroup_eq :
    addPlanGroup lp (extraction h k) = some (extraction h (k + 1)) := by
  have hrunning := running_subset h k
  have hstage : ∀ t ∈ (lp.timeline h).stage k, t ∈ Dict.keys lp.selection :=
    fun t ht => Timeline.mem_tasks_of_mem_stage ht
  have hends : (((lp.timeline h).state k).running.mapM fun t =>
      (table (Dict.keys lp.selection) lp.latestEnd).lookup t) =
      some (((lp.timeline h).state k).running.map lp.latestEnd) :=
    mapM_of_forall fun t ht => lookup_table (hrunning t ht)
  have hbusy : gpuIsBusy lp (table (Dict.keys lp.selection) lp.latestEnd) ((lp.timeline h).time k)
      ((lp.timeline h).state k).running =
      some ((lp.timeline h).busy ((lp.timeline h).state k).running) := by
    rw [gpuIsBusy_eq h _ hrunning, ← length_queues h]
    rfl
  have hplans : (((lp.timeline h).stage k).mapM fun t =>
      (lp.selection.lookup t).map Selected.plan) =
      some (((lp.timeline h).stage k).map lp.plan) :=
    mapM_of_forall fun t ht => by
      rw [h.lookup_info (hstage t ht)]
      rfl
  have hleave : ((lp.timeline h).stage k).foldlM (leaveQueues lp) ((lp.timeline h).state k).waiting =
      some ((lp.timeline h).leaveAll ((lp.timeline h).stage k) ((lp.timeline h).state k).waiting) :=
    foldlM_eq_foldl (P := fun r => r.length = lp.totGpuNum)
      (fun t ht r hr => leaveQueues_eq h (hstage t ht) hr)
      ((Timeline.length_waiting k).trans (length_queues h))
  rw [addPlanGroup, endTimes_eq h]
  simp only [Option.bind_eq_bind, Option.bind_some, getLast?_planGroupList, mapM_plan h hrunning,
    hends]
  show Option.bind (gpuIsBusy lp _ ((lp.timeline h).time k) ((lp.timeline h).state k).running) _ = _
  rw [hbusy, Option.bind_some]
  show Option.bind (List.foldlM _ [] (table (Dict.keys lp.selection) lp.latestEnd)) _ = _
  refine Eq.trans (congrArg (Option.bind · _) (aliveTaskIdxs_eq h hrun hk)) ?_
  rw [Option.bind_some, hplans, Option.bind_some]
  show Option.bind (List.foldlM (leaveQueues lp) ((lp.timeline h).state k).waiting _) _ = _
  rw [hleave, Option.bind_some]
  exact congrArg (fun l => some (Extraction.mk _ l)) (planGroupList_succ h k).symm

/-- The loop ends at the first empty stage. -/
theorem addPlanGroups_eq (hlast : (lp.timeline h).stage n = []) {fuel : Nat} (hfuel : n < k + fuel) :
    addPlanGroups lp fuel (extraction h k) = some (extraction h (n + 1)).planGroupList := by
  induction fuel generalizing k with
  | zero => exact absurd hk (Nat.not_le.mpr hfuel)
  | succ fuel ih =>
    rw [addPlanGroups, addPlanGroup_eq h hrun hk]
    simp only [Option.bind_eq_bind, Option.bind_some, getLast?_planGroupList,
      Timeline.running_succ, List.length_map]
    rcases Nat.eq_or_lt_of_le hk with rfl | hlt
    · rw [hlast]
      rfl
    · rw [if_neg fun hlen => hrun k hlt (List.length_eq_zero_iff.mp hlen)]
      exact ih hlt (by omega)

end

/-- `get_complete_non_preemptive_schedule` returns the stages of the timeline up to the first empty
one. -/
theorem getCompleteNonPreemptiveSchedule_eq {lp : LpResult} (h : lp.WellFormed) {n : Nat}
    (hn : n ≤ lp.selection.length) (hrun : ∀ k < n, (lp.timeline h).stage k ≠ [])
    (hlast : (lp.timeline h).stage n = []) :
    getCompleteNonPreemptiveSchedule lp (lp.selection.length + 1) lp.gpuModelOrder =
      some ((List.range n).map fun k => ((lp.timeline h).stage k).map lp.plan) := by
  have hloop : addPlanGroups lp (lp.selection.length + 1) (extraction h 0) =
      some (extraction h (n + 1)).planGroupList :=
    addPlanGroups_eq h hrun (Nat.zero_le n) hlast (by omega)
  rw [getCompleteNonPreemptiveSchedule, LpResult.map_sort_gpuModelOrder]
  refine Eq.trans (congrArg (Option.bind · _) hloop) ?_
  rw [Option.bind_some, planGroupList_succ, List.filter_append, hlast]
  show some (((List.range n).map _).filter _ ++ []) = _
  rw [List.append_nil, List.filter_eq_self.mpr]
  intro planGroup hmem
  obtain ⟨k, hk, rfl⟩ := List.mem_map.mp hmem
  rw [decide_eq_true_eq, List.length_map]
  exact List.length_pos_of_ne_nil (hrun k (List.mem_range.mp hk))

end Mil.Stages
