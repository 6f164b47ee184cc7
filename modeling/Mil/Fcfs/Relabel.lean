import Mathlib.Data.List.Sort
import Mil.Fcfs.Receiving

/-!
# Fused simulations under other ids

The simulator of fused models uses the ids of the requests for two things: to tell which request of a
level continues which one, and to order the requests that become known at the same time. With other ids
that keep both it goes through the same rounds (`fusedLoop_relabel`). The ids are changed by a function
that is injective, and keeps the order of the ids of the later levels.
-/

set_option autoImplicit false

namespace Mil.Fcfs

open Mil.Lib

/-- The requests of a level under other ids. -/
def Level.relabel (f : Nat → Nat) (l : Level) : Level := { l with seqIds := l.seqIds.map f }

/-- A dictionary under other keys. -/
def relabelKeys {α : Type} (f : Nat → Nat) (d : List (Nat × α)) : List (Nat × α) :=
  d.map fun e => (f e.1, e.2)

/-- A state of the fused simulator under other ids. -/
def Fused.relabel (f : Nat → Nat) (v : Fused) : Fused where
  toArriving := v.rename f
  refSeqIds := v.refSeqIds.map f
  unknown := relabelKeys f v.unknown
  slots := relabelKeys f v.slots

/-- `f` keeps the order of the ids that satisfy `p`. -/
def OrderedOn (f : Nat → Nat) (p : Nat → Prop) : Prop := ∀ i j, p i → p j → (i ≤ j ↔ f i ≤ f j)

section

variable {f : Nat → Nat} {cfg : ArrivalConfig} {α : Type}

/-! ## Dictionaries -/

theorem keys_relabelKeys (d : List (Nat × α)) : Dict.keys (relabelKeys f d) = (Dict.keys d).map f := by
  rw [Dict.keys, Dict.keys, relabelKeys, List.map_map, List.map_map]
  rfl

theorem lookup_relabelKeys (hf : Function.Injective f) (d : List (Nat × α)) (i : Nat) :
    (relabelKeys f d).lookup (f i) = d.lookup i := by
  induction d with
  | nil => rfl
  | cons e d ih =>
    by_cases hi : e.1 = i
    · subst hi
      exact Dict.lookup_cons_self.trans Dict.lookup_cons_self.symm
    · rw [Dict.lookup_cons_ne hi, ← ih]
      exact Dict.lookup_cons_ne (p := (f e.1, e.2)) fun heq => hi (hf heq)

theorem set_relabelKeys (hf : Function.Injective f) (d : List (Nat × α)) (i : Nat) (a : α) :
    Dict.set (f i) a (relabelKeys f d) = relabelKeys f (Dict.set i a d) := by
  induction d with
  | nil => rfl
  | cons e d ih =>
    by_cases hi : e.1 = i
    · have hfi : f e.1 = f i := congrArg f hi
      show (if f e.1 = f i then _ else _) = relabelKeys f (if e.1 = i then _ else _)
      rw [if_pos hi, if_pos hfi]
      rfl
    · have hfi : ¬ f e.1 = f i := fun heq => hi (hf heq)
      show (if f e.1 = f i then _ else _) = relabelKeys f (if e.1 = i then _ else _)
      rw [if_neg hi, if_neg hfi]
      show _ :: Dict.set (f i) a (relabelKeys f d) = _
      rw [ih]
      rfl

/-! ## A check -/

/-- The requests to add are the same. -/
theorem toAdd_relabel (hf : Function.Injective f) {v : Fused}
    (hordered : OrderedOn f (· ∈ Dict.keys v.unknown)) :
    (v.relabel f).toAdd = relabelKeys f v.toAdd := by
  have hunknown : (v.relabel f).unknown = relabelKeys f v.unknown := rfl
  have hids : ((v.relabel f).sched.runningSeqs.map Seq.id ++
      (v.relabel f).refSeqIds.drop (v.relabel f).sched.pointer) =
      (v.sched.runningSeqs.map Seq.id ++ v.refSeqIds.drop v.sched.pointer).map f := by
    show (v.sched.runningSeqs.map (Seq.rename f)).map Seq.id ++ (v.refSeqIds.map f).drop v.sched.pointer = _
    rw [List.map_map, List.map_append, List.map_map, List.map_drop]
    rfl
  simp only [Fused.toAdd, hunknown, hids, keys_relabelKeys, List.filter_map]
  have hfilter : ((Dict.keys v.unknown).filter ((fun seqId => decide (seqId ∉
        (v.sched.runningSeqs.map Seq.id ++ v.refSeqIds.drop v.sched.pointer).map f)) ∘ f)) =
      (Dict.keys v.unknown).filter (· ∉ v.sched.runningSeqs.map Seq.id ++
        v.refSeqIds.drop v.sched.pointer) := by
    refine List.filter_congr fun i _ => ?_
    rw [Function.comp_apply, decide_eq_decide, List.mem_map_of_injective hf]
  rw [hfilter, ← List.map_insertionSort (r := fun i j => i ≤ j) (s := fun i j => i ≤ j) f _
    (fun i hi j hj => hordered i j (List.mem_of_mem_filter hi) (List.mem_of_mem_filter hj)),
    List.filterMap_map]
  refine Eq.trans ?_ List.map_filterMap.symm
  congr 1
  funext i
  rw [Function.comp_apply, lookup_relabelKeys hf, Option.map_map]
  rfl

theorem updateSeqInfo_relabel (hf : Function.Injective f) {v : Fused}
    (hordered : OrderedOn f (· ∈ Dict.keys v.unknown)) :
    updateSeqInfo (v.relabel f) = (updateSeqInfo v).relabel f := by
  have hadd := toAdd_relabel hf hordered
  have hfst : (relabelKeys f v.toAdd).map Prod.fst = (v.toAdd.map Prod.fst).map f :=
    keys_relabelKeys v.toAdd
  have hmap : ∀ {β : Type} (g : SeqInfo → β),
      (relabelKeys f v.toAdd).map (fun e => g e.2) = v.toAdd.map fun e => g e.2 := by
    intro β g
    rw [relabelKeys, List.map_map]
    rfl
  have hslots : ∀ (added : List (Nat × SeqInfo)) (d : List (Nat × Nat)),
      (relabelKeys f added).foldl (fun slots e => Dict.set e.1 e.2.slot slots) (relabelKeys f d) =
        relabelKeys f (added.foldl (fun slots e => Dict.set e.1 e.2.slot slots) d) := by
    intro added
    induction added with
    | nil => intro d; rfl
    | cons e added ih =>
      intro d
      show (relabelKeys f added).foldl _ (Dict.set (f e.1) e.2.slot (relabelKeys f d)) = _
      rw [set_relabelKeys hf, ih]
      rfl
  have hunknown : (relabelKeys f v.unknown).filterMap (fun e =>
      if e.1 ∈ (v.toAdd.map Prod.fst).map f then
        if e.2.tail = [] then none else some (e.1, e.2.tail) else some e) =
      relabelKeys f (v.unknown.filterMap fun e =>
        if e.1 ∈ v.toAdd.map Prod.fst then
          if e.2.tail = [] then none else some (e.1, e.2.tail) else some e) := by
    rw [relabelKeys, relabelKeys, List.filterMap_map, List.map_filterMap]
    congr 1
    funext e
    simp only [Function.comp_apply, List.mem_map_of_injective hf]
    split
    · split <;> rfl
    · rfl
  have hsched : (v.relabel f).sched = v.sched.rename f := rfl
  have harrive : (v.relabel f).arriveTimes = v.arriveTimes := rfl
  have htime : (v.relabel f).totInferenceTime = v.totInferenceTime := rfl
  have href : (v.relabel f).refSeqIds = v.refSeqIds.map f := rfl
  have hpointer : (v.sched.rename f).pointer = v.sched.pointer := rfl
  have hinp : (v.sched.rename f).inpLens = v.sched.inpLens := rfl
  have hout : (v.sched.rename f).outLens = v.sched.outLens := rfl
  have hunknown' : (v.relabel f).unknown = relabelKeys f v.unknown := rfl
  have hslots' : (v.relabel f).slots = relabelKeys f v.slots := rfl
  have hknown := hmap fun i => max i.arriveTime v.totInferenceTime
  simp only [updateSeqInfo, hadd, hfst, hmap SeqInfo.inpLen, hmap SeqInfo.outLen, hknown,
    harrive, htime, href, hsched, hpointer, hinp, hout,
    hunknown', hslots', hslots, hunknown, ← List.map_append, permuteFrom_map]
  rfl

theorem checkNewInputRequestsVerticalFuse_relabel (v : Fused) :
    checkNewInputRequestsVerticalFuse cfg (v.relabel f) =
      (checkNewInputRequestsVerticalFuse cfg v).relabel f := by
  have hnew : (v.relabel f).newRequests = v.newRequests := by
    rw [Arriving.newRequests, Arriving.newRequests]
    simp only [Fused.relabel, Arriving.rename, Sched.rename, List.length_map]
  rw [checkNewInputRequestsVerticalFuse, checkNewInputRequestsVerticalFuse, hnew]
  cases v.newRequests with
  | none => rfl
  | some r =>
    have hreorder : ∀ {β : Type} (l : List β),
        (v.relabel f).reorder cfg r.2 l = v.reorder cfg r.2 l := fun l => rfl
    have href : (v.relabel f).refSeqIds = v.refSeqIds.map f := rfl
    have hseqIds : (v.relabel f).sched.seqIds = v.sched.seqIds.map f := rfl
    have hpointer : (v.relabel f).sched.pointer = v.sched.pointer := rfl
    have hslice : slice (v.refSeqIds.map f) v.sched.pointer r.2 =
        (slice v.refSeqIds v.sched.pointer r.2).map f := by
      rw [slice, slice, ← List.map_drop, ← List.map_take]
    simp only [Arriving.receive, hreorder, href, hseqIds, hpointer, hslice, ← List.map_append,
      reorder_map]
    rfl

/-! ## Rounds -/

theorem keys_updateSeqInfo (v : Fused) :
    ∀ i ∈ Dict.keys (updateSeqInfo v).unknown, i ∈ Dict.keys v.unknown := by
  intro i hi
  obtain ⟨e, he, rfl⟩ := List.mem_map.mp hi
  obtain ⟨e', he', heq⟩ := List.mem_filterMap.mp he
  have hfst : e.1 = e'.1 := by
    split at heq
    · split at heq
      · cases heq
      · exact (congrArg Prod.fst (Option.some.inj heq)).symm
    · exact (congrArg Prod.fst (Option.some.inj heq)).symm
  exact hfst ▸ List.mem_map_of_mem he'

theorem checkNewInputRequestsVerticalFuse_unknown (v : Fused) :
    (checkNewInputRequestsVerticalFuse cfg v).unknown = v.unknown := by
  rw [checkNewInputRequestsVerticalFuse]
  split <;> rfl

/-- A round under other ids. -/
theorem fusedRound_relabel (hf : Function.Injective f) (reqNum : Nat) {v : Fused}
    (hordered : OrderedOn f (· ∈ Dict.keys v.unknown)) :
    fusedRound cfg reqNum (v.relabel f) = (fusedRound cfg reqNum v).map (Fused.relabel f) ∧
    ∀ v', fusedRound cfg reqNum v = some v' →
      ∀ i ∈ Dict.keys v'.unknown, i ∈ Dict.keys v.unknown := by
  have hchecks : (v.relabel f).checks cfg = v.checks cfg := by
    rw [Arriving.checks, Arriving.checks]
    have hrunning : (v.relabel f).sched.runningSeqs.length = v.sched.runningSeqs.length :=
      List.length_map _
    have hseqIds : (v.relabel f).sched.seqIds.length = v.sched.seqIds.length := List.length_map _
    rw [hrunning, hseqIds]
    rfl
  rw [fusedRound, fusedRound, hchecks]
  cases v.checks cfg with
  | none => exact ⟨rfl, fun v' hv' => by cases hv'⟩
  | some b =>
    have hchecked : (if b then checkNewInputRequestsVerticalFuse cfg (updateSeqInfo (v.relabel f))
        else v.relabel f) =
        (if b then checkNewInputRequestsVerticalFuse cfg (updateSeqInfo v) else v).relabel f := by
      cases b with
      | false => rfl
      | true =>
        show checkNewInputRequestsVerticalFuse cfg (updateSeqInfo (v.relabel f)) = _
        rw [updateSeqInfo_relabel hf hordered, checkNewInputRequestsVerticalFuse_relabel]
        rfl
    have hkeys : ∀ i ∈ Dict.keys
        (if b then checkNewInputRequestsVerticalFuse cfg (updateSeqInfo v) else v).unknown,
        i ∈ Dict.keys v.unknown := by
      cases b with
      | false => exact fun i hi => hi
      | true =>
        intro i hi
        rw [if_pos rfl, checkNewInputRequestsVerticalFuse_unknown] at hi
        exact keys_updateSeqInfo v i hi
    simp only [Option.bind_eq_bind, Option.bind_some, hchecked]
    generalize (if b then checkNewInputRequestsVerticalFuse cfg (updateSeqInfo v) else v) = w at hkeys
    have hslot : (w.relabel f).slot ∘ f = w.slot := by
      funext i
      rw [Function.comp_apply, Fused.slot, Fused.slot]
      exact congrArg (Option.getD · 0) (lookup_relabelKeys hf w.slots i)
    have hlen : (w.relabel f).sched.seqIds.length = w.sched.seqIds.length := List.length_map f
    have href : (w.relabel f).refSeqIds.length = w.refSeqIds.length := List.length_map f
    have harriving : (w.relabel f).toArriving = w.toArriving.rename f := rfl
    rw [hlen, href, harriving, arrivalRound_rename, hslot]
    cases arrivalRound cfg w.slot (decide (w.sched.seqIds.length < reqNum) &&
      decide (w.sched.seqIds.length < w.refSeqIds.length)) w.toArriving with
    | none => exact ⟨rfl, fun v' hv' => by cases hv'⟩
    | some round =>
      refine ⟨rfl, fun v' hv' => ?_⟩
      obtain rfl := Option.some.inj hv'
      exact hkeys

/-- All rounds under other ids. -/
theorem fusedLoop_relabel (hf : Function.Injective f) (reqNum fuel : Nat) {v : Fused}
    (hordered : OrderedOn f (· ∈ Dict.keys v.unknown)) :
    fusedLoop cfg reqNum fuel (v.relabel f) = (fusedLoop cfg reqNum fuel v).map (Fused.relabel f) := by
  induction fuel generalizing v with
  | zero => rfl
  | succ fuel ih =>
    obtain ⟨hround, hkeys⟩ := fusedRound_relabel hf reqNum hordered
    have hunfinished : (v.relabel f).sched.unfinishedReqnum = v.sched.unfinishedReqnum := rfl
    rw [fusedLoop, fusedLoop, hunfinished, hround]
    split
    · rfl
    · cases hv : fusedRound cfg reqNum v with
      | none => rfl
      | some v' =>
        exact ih fun i j hi hj => hordered i j (hkeys v' hv i hi) (hkeys v' hv j hj)

/-! ## Simulations -/

theorem levelInfos_relabel (start : Nat) (levels : List Level) :
    levelInfos start (levels.map (Level.relabel f)) = relabelKeys f (levelInfos start levels) := by
  induction levels generalizing start with
  | nil => rfl
  | cons l levels ih =>
    have hinfos : (l.relabel f).infos start = relabelKeys f (l.infos start) := by
      rw [Level.infos, Level.infos, relabelKeys, List.map_map]
      show ((l.seqIds.map f).zip _).zipIdx.map _ = _
      rw [List.zip_map_left, List.zipIdx_map, List.map_map]
      rfl
    rw [List.map_cons, levelInfos, levelInfos, hinfos, relabelKeys, relabelKeys, List.map_append]
    show _ ++ levelInfos (start + l.inpLens.length) _ = _
    rw [ih]
    rfl

theorem unknownSeqInfo_relabel (hf : Function.Injective f) {infos : List (Nat × SeqInfo)}
    (hordered : OrderedOn f (· ∈ infos.map Prod.fst)) :
    unknownSeqInfo (relabelKeys f infos) = relabelKeys f (unknownSeqInfo infos) := by
  have hkeys : (relabelKeys f infos).map Prod.fst = (infos.map Prod.fst).map f := keys_relabelKeys infos
  have hunique : unique ((infos.map Prod.fst).map f) = (unique (infos.map Prod.fst)).map f := by
    rw [unique, unique, ← List.map_insertionSort (r := fun i j => i ≤ j) (s := fun i j => i ≤ j) f _
      (fun i hi j hj => hordered i j hi hj), List.dedup_map_of_injective hf]
  rw [unknownSeqInfo, unknownSeqInfo, hkeys, hunique, relabelKeys, relabelKeys, List.map_map,
    List.map_map]
  refine List.map_congr_left fun i _ => ?_
  refine Prod.ext rfl ?_
  show ((infos.map fun e => (f e.1, e.2)).filter (·.1 = f i)).map Prod.snd =
    (infos.filter (·.1 = i)).map Prod.snd
  rw [List.filter_map, List.map_map]
  refine congrArg _ (List.filter_congr fun e _ => ?_)
  rw [Function.comp_apply, decide_eq_decide]
  exact hf.eq_iff

/-- A simulation does not depend on the ids beyond which are the same and how those of the later
levels are ordered. -/
theorem fakeFCFSScheduleVerticalFuse_relabel (hf : Function.Injective f) (fuel : Nat) (first : Level)
    (later : List Level)
    (hordered : OrderedOn f (· ∈ (levelInfos first.inpLens.length later).map Prod.fst)) :
    fakeFCFSScheduleVerticalFuse cfg fuel (first.relabel f) (later.map (Level.relabel f)) =
      fakeFCFSScheduleVerticalFuse cfg fuel first later := by
  have hlens : ((first.relabel f :: later.map (Level.relabel f)).map fun l => l.inpLens.length) =
      (first :: later).map fun l => l.inpLens.length := by
    rw [List.map_cons, List.map_cons, List.map_map]
    rfl
  have hreqNum : reqNum (first.relabel f :: later.map (Level.relabel f)) = reqNum (first :: later) :=
    congrArg List.sum hlens
  have hinit : Fused.init (first.relabel f) (later.map (Level.relabel f)) =
      (Fused.init first later).relabel f := by
    rw [Fused.init, hreqNum]
    have hunknown := unknownSeqInfo_relabel hf hordered
    rw [← levelInfos_relabel] at hunknown
    have hslots : (first.seqIds.map f).zipIdx = relabelKeys f first.seqIds.zipIdx := by
      rw [List.zipIdx_map]
      rfl
    show ({
      toArriving := _
      refSeqIds := _
      unknown := unknownSeqInfo (levelInfos first.inpLens.length _)
      slots := (first.seqIds.map f).zipIdx } : Fused) = _
    rw [hunknown, hslots]
    rfl
  have hkeys : OrderedOn f (· ∈ Dict.keys (Fused.init first later).unknown) := by
    have hmem : ∀ i ∈ Dict.keys (Fused.init first later).unknown,
        i ∈ (levelInfos first.inpLens.length later).map Prod.fst := by
      intro i hi
      obtain ⟨e, he, rfl⟩ := List.mem_map.mp hi
      obtain ⟨j, hj, rfl⟩ := List.mem_map.mp he
      exact mem_unique.mp hj
    exact fun i j hi hj => hordered i j (hmem i hi) (hmem j hj)
  rw [fakeFCFSScheduleVerticalFuse, fakeFCFSScheduleVerticalFuse, hlens, hreqNum, hinit,
    fusedLoop_relabel hf _ _ hkeys]
  by_cases hlater : later = []
  · subst hlater
    rfl
  · rw [if_neg hlater, if_neg (List.map_eq_nil_iff.not.mpr hlater)]
    cases fusedLoop cfg (reqNum (first :: later)) fuel (Fused.init first later) with
    | none => rfl
    | some v => rfl

end

end Mil.Fcfs
