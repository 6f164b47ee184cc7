import Mil.Fcfs.PlanInputs
import Mil.Fcfs.Relabel

/-!
# The keys of kept simulations

The key of a plan has the lengths and arrival times of every worker's requests. For a plan of one model
they are all that a simulation looks at. A simulation of fused models also looks at the ids, which the
key does not have: two plans with one key have the same simulations if their ids link the levels in the
same way (`SameLinks`).
-/

set_option autoImplicit false

namespace Mil.Fcfs

open Mil.Lib

/-- The ids of a worker's levels link its requests in the same way: some change of ids that keeps
different ids different, and those of later levels in order, turns the ones into the others. -/
structure SameLinks (levels levels' : List Level) : Prop where
  exists_relabel : ∃ f : Nat → Nat,
    levels'.map Level.seqIds = levels.map (fun l => l.seqIds.map f) ∧
    (∀ i j, i ∈ levels.flatMap Level.seqIds → j ∈ levels.flatMap Level.seqIds → f i = f j → i = j) ∧
    OrderedOn f (· ∈ levels.tail.flatMap Level.seqIds)

/-- The ids link the requests of every worker in the same way. -/
def MyVerticalFusedExecPlan.SameLinks (p : MyVerticalFusedExecPlan) (arriveTimesList : List (List ℚ))
    (p' : MyVerticalFusedExecPlan) (arriveTimesList' : List (List ℚ)) : Prop :=
  ∀ workers workers', p.workers arriveTimesList = some workers →
    p'.workers arriveTimesList' = some workers' → List.Forall₂ Fcfs.SameLinks workers workers'

section

/-! ## Lists of levels -/

theorem level_lists_ext {levels levels' : List Level}
    (hinp : levels.map Level.inpLens = levels'.map Level.inpLens)
    (hout : levels.map Level.outLens = levels'.map Level.outLens)
    (harrive : levels.map Level.arriveTimes = levels'.map Level.arriveTimes)
    (hids : levels.map Level.seqIds = levels'.map Level.seqIds) : levels = levels' := by
  induction levels generalizing levels' with
  | nil => exact (List.map_eq_nil_iff.mp hinp.symm).symm
  | cons l levels ih =>
    cases levels' with
    | nil => cases hinp
    | cons l' levels' =>
      obtain ⟨hinp, hinps⟩ := List.cons.inj hinp
      obtain ⟨hout, houts⟩ := List.cons.inj hout
      obtain ⟨harrive, harrives⟩ := List.cons.inj harrive
      obtain ⟨hids, hidss⟩ := List.cons.inj hids
      have hl : l = l' := by
        cases l
        cases l'
        rw [Level.mk.injEq]
        exact ⟨hinp, hout, harrive, hids⟩
      rw [hl, ih hinps houts harrives hidss]

/-- An injective change of some ids can be made one of all ids. -/
theorem exists_injective {f : Nat → Nat} {ids : List Nat}
    (hf : ∀ i j, i ∈ ids → j ∈ ids → f i = f j → i = j) :
    ∃ g : Nat → Nat, Function.Injective g ∧ ∀ i ∈ ids, g i = f i := by
  obtain ⟨bound, hbound⟩ : ∃ bound, ∀ i ∈ ids, f i < bound := by
    clear hf
    induction ids with
    | nil => exact ⟨0, fun i hi => absurd hi List.not_mem_nil⟩
    | cons a ids ih =>
      obtain ⟨bound, hbound⟩ := ih
      refine ⟨max bound (f a + 1), fun i hi => ?_⟩
      rcases List.mem_cons.mp hi with rfl | hi
      · exact lt_max_of_lt_right (Nat.lt_succ_self _)
      · exact lt_max_of_lt_left (hbound i hi)
  refine ⟨fun i => if i ∈ ids then f i else bound + i, fun i j hij => ?_, fun i hi => if_pos hi⟩
  by_cases hi : i ∈ ids <;> by_cases hj : j ∈ ids
  · simp only [if_pos hi, if_pos hj] at hij
    exact hf i j hi hj hij
  · simp only [if_pos hi, if_neg hj] at hij
    exact absurd (hbound i hi) (by omega)
  · simp only [if_neg hi, if_pos hj] at hij
    exact absurd (hbound j hj) (by omega)
  · simp only [if_neg hi, if_neg hj] at hij
    exact Nat.add_left_cancel hij

theorem mem_levelInfos {i : Nat} (start : Nat) {levels : List Level}
    (h : i ∈ (levelInfos start levels).map Prod.fst) : i ∈ levels.flatMap Level.seqIds := by
  induction levels generalizing start with
  | nil => cases h
  | cons l levels ih =>
    rw [levelInfos, List.map_append, List.mem_append] at h
    rw [List.flatMap_cons, List.mem_append]
    rcases h with h | h
    · obtain ⟨e, he, rfl⟩ := List.mem_map.mp h
      obtain ⟨e', he', rfl⟩ := List.mem_map.mp he
      obtain ⟨⟨k, r⟩, j⟩ := e'
      have hzip := List.fst_mem_of_mem_zipIdx he'
      exact .inl (List.of_mem_zip hzip).1
    · exact .inr (ih _ h)

theorem arrived_relabel (f : Nat → Nat) (l : Level) : (l.relabel f).arrived = l.arrived.relabel f := by
  rw [Level.arrived, Level.arrived]
  have harrive : (l.relabel f).arriveTimes = l.arriveTimes := rfl
  rw [harrive]
  split <;> rfl

theorem arrived_seqIds (l : Level) : l.arrived.seqIds = l.seqIds := by
  rw [Level.arrived]
  split <;> rfl

theorem flatMap_arrived (levels : List Level) :
    (levels.map Level.arrived).flatMap Level.seqIds = levels.flatMap Level.seqIds := by
  rw [List.flatMap_map]
  congr 1
  funext l
  exact arrived_seqIds l

/-! ## One worker -/

/-- The simulation of a worker does not look at the ids of its requests. -/
theorem simulateWorker_congr (cfg : WorkerConfig) (fuel : Nat) {l l' : Level}
    (hinp : l.inpLens = l'.inpLens) (hout : l.outLens = l'.outLens)
    (harrive : l.arriveTimes = l'.arriveTimes) :
    simulateWorker cfg fuel l = simulateWorker cfg fuel l' := by
  rw [simulateWorker, simulateWorker, hinp, hout, harrive]

theorem simulateFusedWorker_relabel (cfg : WorkerConfig) (fuel : Nat) {f : Nat → Nat}
    (hf : Function.Injective f) {levels : List Level}
    (hordered : OrderedOn f (· ∈ levels.tail.flatMap Level.seqIds)) :
    simulateFusedWorker cfg fuel (levels.map (Level.relabel f)) = simulateFusedWorker cfg fuel levels := by
  cases levels with
  | nil => rfl
  | cons first later =>
    have hempty : (∀ l ∈ first.relabel f :: later.map (Level.relabel f), l.inpLens = []) ↔
        ∀ l ∈ first :: later, l.inpLens = [] := by
      rw [← List.map_cons, List.forall_mem_map]
      rfl
    have hlater : (later.map (Level.relabel f)).map Level.arrived =
        (later.map Level.arrived).map (Level.relabel f) := by
      rw [List.map_map, List.map_map]
      exact List.map_congr_left fun l _ => arrived_relabel f l
    have hlens : ∀ {β : Type} (b : β), ((first.relabel f :: later.map (Level.relabel f)).map fun _ => b) =
        (first :: later).map fun _ => b := by
      intro β b
      rw [List.map_cons, List.map_cons, List.map_map]
      rfl
    have hordered' : OrderedOn f (· ∈
        (levelInfos first.arrived.inpLens.length (later.map Level.arrived)).map Prod.fst) := by
      have hmem : ∀ i ∈ (levelInfos first.arrived.inpLens.length
          (later.map Level.arrived)).map Prod.fst, i ∈ later.flatMap Level.seqIds := by
        intro i hi
        rw [← flatMap_arrived]
        exact mem_levelInfos _ hi
      exact fun i j hi hj => hordered i j (hmem i hi) (hmem j hj)
    have hsim : fakeFCFSScheduleVerticalFuse cfg.toArrivalConfig fuel (first.arrived.relabel f)
        ((later.map Level.arrived).map (Level.relabel f)) =
        fakeFCFSScheduleVerticalFuse cfg.toArrivalConfig fuel first.arrived
          (later.map Level.arrived) :=
      fakeFCFSScheduleVerticalFuse_relabel hf fuel _ _ hordered'
    rw [List.map_cons, simulateFusedWorker, simulateFusedWorker, arrived_relabel, hlater, hsim, hlens,
      hlens]
    by_cases h : ∀ l ∈ first :: later, l.inpLens = []
    · rw [if_pos h, if_pos (hempty.mpr h)]
    · rw [if_neg h, if_neg (hempty.not.mpr h)]

/-- With the same lengths and arrival times, and ids that link them in the same way, the simulations
of a worker are the same. -/
theorem simulateFusedWorker_congr (cfg : WorkerConfig) (fuel : Nat) {levels levels' : List Level}
    (hinp : levels.map Level.inpLens = levels'.map Level.inpLens)
    (hout : levels.map Level.outLens = levels'.map Level.outLens)
    (harrive : levels.map Level.arriveTimes = levels'.map Level.arriveTimes)
    (hlinks : SameLinks levels levels') :
    simulateFusedWorker cfg fuel levels = simulateFusedWorker cfg fuel levels' := by
  obtain ⟨f, hids, hf, hordered⟩ := hlinks.exists_relabel
  obtain ⟨g, hg, hgf⟩ := exists_injective hf
  have hmem : ∀ l ∈ levels, ∀ i ∈ l.seqIds, g i = f i := fun l hl i hi =>
    hgf i (List.mem_flatMap.mpr ⟨l, hl, hi⟩)
  have hlevels : levels' = levels.map (Level.relabel g) := by
    refine level_lists_ext ?_ ?_ ?_ ?_
    · rw [← hinp, List.map_map]
      rfl
    · rw [← hout, List.map_map]
      rfl
    · rw [← harrive, List.map_map]
      rfl
    · rw [hids, List.map_map]
      exact List.map_congr_left fun l hl =>
        List.map_congr_left fun i hi => (hmem l hl i hi).symm
  have hlater : ∀ i ∈ levels.tail.flatMap Level.seqIds, g i = f i := by
    intro i hi
    obtain ⟨l, hl, hi⟩ := List.mem_flatMap.mp hi
    exact hmem l (List.mem_of_mem_tail hl) i hi
  have hordered' : OrderedOn g (· ∈ levels.tail.flatMap Level.seqIds) := by
    intro i j hi hj
    rw [hlater i hi, hlater j hj]
    exact hordered i j hi hj
  rw [hlevels, simulateFusedWorker_relabel cfg fuel hg hordered']

/-! ## Plans -/

/-- Plans of one model with the same key have the same simulations. Plans of fused models with the same
key do if their ids link the levels in the same way. -/
theorem freshRes_of_resKey (limits : String → PlanKey → WorkerConfig) (fuel : Nat) :
    (∀ (p p' : MyExecPlan) (arriveTimes arriveTimes' : List ℚ),
      p.resKey arriveTimes = p'.resKey arriveTimes' →
      p.freshRes limits fuel arriveTimes = p'.freshRes limits fuel arriveTimes') ∧
    (∀ (p p' : MyVerticalFusedExecPlan) (arriveTimesList arriveTimesList' : List (List ℚ)),
      p.resKey arriveTimesList = p'.resKey arriveTimesList' →
      p.SameLinks arriveTimesList p' arriveTimesList' →
      p.freshRes limits fuel arriveTimesList = p'.freshRes limits fuel arriveTimesList') := by
  constructor
  · intro p p' arriveTimes arriveTimes' hkey
    rw [MyExecPlan.resKey, MyExecPlan.resKey] at hkey
    simp only [ResKey.mk.injEq] at hkey
    obtain ⟨hname, hplan, hinp, hout, harrive⟩ := hkey
    rw [MyExecPlan.freshRes, MyExecPlan.freshRes, hname, hplan]
    generalize p.workers arriveTimes = workers at hinp hout harrive
    generalize p'.workers arriveTimes' = workers' at hinp hout harrive
    -- worker by worker: the lists of the key are the lists of the workers
    induction workers generalizing workers' with
    | nil =>
      rw [List.map_eq_nil_iff.mp hinp.symm]
    | cons l workers ih =>
      cases workers' with
      | nil => cases hinp
      | cons l' workers' =>
        obtain ⟨hinp, hinps⟩ := List.cons.inj hinp
        obtain ⟨hout, houts⟩ := List.cons.inj hout
        obtain ⟨harrive, harrives⟩ := List.cons.inj harrive
        rw [List.mapM_cons, List.mapM_cons, simulateWorker_congr _ _ hinp hout harrive,
          ih workers' hinps houts harrives]
  · intro p p' arriveTimesList arriveTimesList' hkey hlinks
    rw [MyVerticalFusedExecPlan.resKey, MyVerticalFusedExecPlan.resKey] at hkey
    rw [MyVerticalFusedExecPlan.freshRes, MyVerticalFusedExecPlan.freshRes]
    cases hworkers : p.workers arriveTimesList with
    | none =>
      rw [hworkers] at hkey
      rw [Option.map_eq_none_iff.mp hkey.symm]
      rfl
    | some workers =>
      cases hworkers' : p'.workers arriveTimesList' with
      | none =>
        rw [hworkers, hworkers'] at hkey
        cases hkey
      | some workers' =>
        have hforall := hlinks workers workers' hworkers hworkers'
        rw [hworkers, hworkers'] at hkey
        simp only [Option.map_some, Option.some.injEq, ResKey.mk.injEq] at hkey
        obtain ⟨hname, hplan, hinp, hout, harrive⟩ := hkey
        rw [Option.bind_some, Option.bind_some, hname, hplan]
        clear hworkers hworkers' hlinks
        induction hforall with
        | nil => rfl
        | cons hlevels _ ih =>
          obtain ⟨hinp, hinps⟩ := List.cons.inj hinp
          obtain ⟨hout, houts⟩ := List.cons.inj hout
          obtain ⟨harrive, harrives⟩ := List.cons.inj harrive
          rw [List.mapM_cons, List.mapM_cons, simulateFusedWorker_congr _ _ hinp hout harrive hlevels,
            ih hinps houts harrives]

/-- Two fused models on one worker: the same requests, and the ids changed from 0, 3, 5 to 2, 7, 8. -/
theorem freshRes_of_resKey_renumbered :
    (⟨"opt", ⟨1, 1, 1, 0, 1⟩, [⟨[3, 3, 3], [2, 6, 1], [2, 7, 8]⟩, ⟨[5], [2], [7]⟩], 0⟩ :
        MyVerticalFusedExecPlan).freshRes
        (fun _ _ => ⟨⟨⟨4, 20, 64, 2, 1⟩, 1, false, fun _ => 1, fun _ => 1⟩, fun _ _ _ _ l => l⟩) 60
        [[0, 0, 50], [0]] =
      (⟨"opt", ⟨1, 1, 1, 0, 1⟩, [⟨[3, 3, 3], [2, 6, 1], [0, 3, 5]⟩, ⟨[5], [2], [3]⟩], 0⟩ :
        MyVerticalFusedExecPlan).freshRes
        (fun _ _ => ⟨⟨⟨4, 20, 64, 2, 1⟩, 1, false, fun _ => 1, fun _ => 1⟩, fun _ _ _ _ l => l⟩) 60
        [[0, 0, 50], [0]] := by
  refine (freshRes_of_resKey _ 60).2 _ _ _ _ (by decide +kernel) fun workers workers' h h' => ?_
  have hworkers : (⟨"opt", ⟨1, 1, 1, 0, 1⟩, [⟨[3, 3, 3], [2, 6, 1], [2, 7, 8]⟩, ⟨[5], [2], [7]⟩], 0⟩ :
      MyVerticalFusedExecPlan).workers [[0, 0, 50], [0]] =
      some [[⟨[3, 3, 3], [2, 6, 1], [0, 0, 50], [2, 7, 8]⟩, ⟨[5], [2], [0], [7]⟩]] := by decide +kernel
  have hworkers' : (⟨"opt", ⟨1, 1, 1, 0, 1⟩, [⟨[3, 3, 3], [2, 6, 1], [0, 3, 5]⟩, ⟨[5], [2], [3]⟩], 0⟩ :
      MyVerticalFusedExecPlan).workers [[0, 0, 50], [0]] =
      some [[⟨[3, 3, 3], [2, 6, 1], [0, 0, 50], [0, 3, 5]⟩, ⟨[5], [2], [0], [3]⟩]] := by decide +kernel
  obtain rfl := Option.some.inj (h.symm.trans hworkers)
  obtain rfl := Option.some.inj (h'.symm.trans hworkers')
  refine .cons ⟨fun i => if i = 2 then 0 else if i = 7 then 3 else 5, rfl, ?_, ?_⟩ .nil
  · have hids : ∀ i ∈ [2, 7, 8, 7], ∀ j ∈ [2, 7, 8, 7],
        (if i = 2 then 0 else if i = 7 then 3 else 5) = (if j = 2 then 0 else if j = 7 then 3 else 5) →
          i = j := by decide
    exact fun i j hi hj => hids i hi j hj
  · intro i j hi hj
    rw [List.mem_singleton.mp hi, List.mem_singleton.mp hj]
    exact ⟨fun _ => le_refl _, fun _ => le_refl _⟩

/-- The first model has the requests 0, 1 and 3 left, or 1, 2 and 3; the second one has 0, 1 and 2. The
key is the same, and the latencies and finish times are not. -/
theorem freshRes_differs :
    (⟨"opt", ⟨1, 1, 1, 0, 1⟩, [⟨[3, 3, 3], [2, 6, 1], [0, 1, 3]⟩,
        ⟨[5, 5, 5], [2, 9, 2], [0, 1, 2]⟩], 0⟩ :
        MyVerticalFusedExecPlan).resKey [[0, 0, 20], [0, 0, 0]] =
      (⟨"opt", ⟨1, 1, 1, 0, 1⟩, [⟨[3, 3, 3], [2, 6, 1], [1, 2, 3]⟩,
        ⟨[5, 5, 5], [2, 9, 2], [0, 1, 2]⟩], 0⟩ :
        MyVerticalFusedExecPlan).resKey [[0, 0, 20], [0, 0, 0]] ∧
    ((⟨"opt", ⟨1, 1, 1, 0, 1⟩, [⟨[3, 3, 3], [2, 6, 1], [0, 1, 3]⟩,
        ⟨[5, 5, 5], [2, 9, 2], [0, 1, 2]⟩], 0⟩ :
        MyVerticalFusedExecPlan).freshRes
        (fun _ _ => ⟨⟨⟨4, 20, 64, 2, 1⟩, 1, false, fun _ => 1, fun _ => 1⟩, fun _ _ _ _ l => l⟩) 60
        [[0, 0, 20], [0, 0, 0]]).map (·.map fun sim => (sim.cumsumLatencys, sim.finishTimes)) =
      some [([1, 2, 3, 4, 5, 6, 7, 8, 9, 10, 11, 12, 13, 14, 15, 16, 21],
        [[2, 7, 21], [4, 16, 2]])] ∧
    ((⟨"opt", ⟨1, 1, 1, 0, 1⟩, [⟨[3, 3, 3], [2, 6, 1], [1, 2, 3]⟩,
        ⟨[5, 5, 5], [2, 9, 2], [0, 1, 2]⟩], 0⟩ :
        MyVerticalFusedExecPlan).freshRes
        (fun _ _ => ⟨⟨⟨4, 20, 64, 2, 1⟩, 1, false, fun _ => 1, fun _ => 1⟩, fun _ _ _ _ l => l⟩) 60
        [[0, 0, 20], [0, 0, 0]]).map (·.map fun sim => (sim.cumsumLatencys, sim.finishTimes)) =
      some [([1, 2, 3, 4, 5, 6, 7, 8, 9, 10, 11, 12, 21], [[2, 7, 21], [2, 12, 9]])] := by
  refine ⟨?_, ?_, ?_⟩
  · decide +kernel
  · decide +kernel
  · decide +kernel

end

end Mil.Fcfs
