import Mil.InferStage.Plan

/-!
# The requests of the workers

Every remaining request of a plan's models is with exactly one worker, level by level, provided
that the levels of a request id are consecutive. A fused plan gives a request that it has seen at an
earlier level to the worker that has it at the level just before, so a request that has skipped a
level is with no worker at all.
-/

set_option autoImplicit false

namespace Mil.InferStage

open Mil.Lib

/-! ## Sorting and splitting -/

/-- The request ids of a list. -/
abbrev ids (l : List Request) : List Nat := l.map Request.seqId

theorem sortBySeqId_perm (l : List Request) : (sortBySeqId l).Perm l :=
  List.perm_insertionSort _ _

theorem sortByArrival_perm {τ : Type} [LinearOrder τ] (arrive : Nat → τ) (l : List Request) :
    (sortByArrival arrive l).Perm l :=
  List.perm_insertionSort _ _

theorem splitKnown_eq {l : List Request} (hids : (ids l).Nodup) (visited : List Nat) :
    splitKnown l visited = (l.filter (·.seqId ∉ visited), l.filter (·.seqId ∈ visited)) := by
  induction l generalizing visited with
  | nil => rfl
  | cons r l ih =>
    obtain ⟨hr, hids⟩ := List.nodup_cons.mp hids
    rw [splitKnown]
    by_cases hv : r.seqId ∈ visited
    · rw [if_pos hv, ih hids]
      simp [hv]
    · have hsame : ∀ q ∈ l, (q.seqId ∈ visited ++ [r.seqId] ↔ q.seqId ∈ visited) := by
        intro q hq
        have hne : q.seqId ≠ r.seqId := fun heq => hr (heq ▸ List.mem_map_of_mem hq)
        simp [hne]
      rw [if_neg hv, ih hids]
      simp only [hv, not_false_eq_true, decide_true, decide_false, Bool.false_eq_true,
        List.filter_cons_of_pos, List.filter_cons_of_neg, Prod.mk.injEq, List.cons.injEq, true_and]
      constructor
      · exact List.filter_congr fun q hq => by rw [decide_eq_decide, not_congr (hsame q hq)]
      · exact List.filter_congr fun q hq => by rw [decide_eq_decide, hsame q hq]

/-- All that the workers have together. -/
def together (dpSize : Nat) (assigned : Nat → List Request) : List Request :=
  (List.range dpSize).flatMap assigned

theorem mem_together {dpSize : Nat} {assigned : Nat → List Request} {r : Request} :
    r ∈ together dpSize assigned ↔ ∃ dpId < dpSize, r ∈ assigned dpId := by
  simp [together]

@[simp] theorem together_nil (dpSize : Nat) : together dpSize (fun _ => []) = [] := by
  simp [together, List.flatMap_eq_nil_iff]

theorem together_congr {dpSize : Nat} {a b : Nat → List Request}
    (h : ∀ dpId < dpSize, (a dpId).Perm (b dpId)) :
    (together dpSize a).Perm (together dpSize b) :=
  List.Perm.flatMap_left _ fun dpId hdp => h dpId (List.mem_range.mp hdp)

theorem nodup_of_ids {l : List Request} (h : (ids l).Nodup) : l.Nodup := h.of_map _

/-- In a list with different ids, requests with one id are the same. -/
theorem eq_of_seqId {l : List Request} (h : (ids l).Nodup) {a b : Request} (ha : a ∈ l)
    (hb : b ∈ l) (heq : a.seqId = b.seqId) : a = b :=
  List.inj_on_of_nodup_map h ha hb heq

theorem ids_nodup_of_subset {l l' : List Request} (h : (ids l).Nodup) (hl' : l'.Nodup)
    (hsub : l' ⊆ l) : (ids l').Nodup :=
  (List.nodup_map_iff_inj_on hl').mpr fun _ ha _ hb heq => eq_of_seqId h (hsub ha) (hsub hb) heq

/-! ## One level -/

section

variable {τ : Type} [LinearOrder τ] {dpSize : Nat} {arrive : Nat → τ} {requests : List Request}
  {visited : List Nat} {previous : Nat → List Request}

theorem together_strided (hdp : 0 < dpSize) (l : List Request) :
    (together dpSize fun dpId => strided l dpId dpSize).Perm l :=
  pending_range hdp l

/-- The workers have those requests of the level that are new or that one of them had at the level
before. -/
theorem together_assignLevel (arrive : Nat → τ) (visited : List Nat) (hdp : 0 < dpSize)
    (hids : (ids requests).Nodup)
    (hprevious : (ids (together dpSize previous)).Nodup) :
    (together dpSize (assignLevel dpSize arrive requests visited previous)).Perm
      (requests.filter fun r => r.seqId ∉ visited ∨ r.seqId ∈ ids (together dpSize previous)) := by
  have hsplit := splitKnown_eq hids visited
  have happend : (together dpSize (assignLevel dpSize arrive requests visited previous)).Perm
      ((together dpSize fun dpId =>
          strided (sortByArrival arrive (splitKnown requests visited).1) dpId dpSize) ++
        together dpSize fun dpId => (sortBySeqId (splitKnown requests visited).2).filter
          (·.seqId ∈ ids (previous dpId))) :=
    (List.flatMap_append_perm _ _ _).symm
  have hunknown := ((together_strided hdp _).trans (sortByArrival_perm arrive
    (splitKnown requests visited).1))
  have hdisjoint : (List.range dpSize).Pairwise fun a b =>
      (ids (previous a)).Disjoint (ids (previous b)) := by
    rw [ids, together, List.map_flatMap] at hprevious
    exact (List.nodup_flatMap.mp hprevious).2
  have hknown : (together dpSize fun dpId => (sortBySeqId (splitKnown requests visited).2).filter
      (·.seqId ∈ ids (previous dpId))).Perm ((requests.filter (·.seqId ∈ visited)).filter
        (·.seqId ∈ ids (together dpSize previous))) := by
    have hmem : ∀ r, r ∈ sortBySeqId (splitKnown requests visited).2 ↔
        r ∈ requests ∧ r.seqId ∈ visited := fun r => by
      rw [(sortBySeqId_perm _).mem_iff, hsplit]
      simp
    have hnodup : (sortBySeqId (splitKnown requests visited).2).Nodup := by
      rw [(sortBySeqId_perm _).nodup_iff, hsplit]
      exact (nodup_of_ids hids).filter _
    refine (List.perm_ext_iff_of_nodup ?_ (((nodup_of_ids hids).filter _).filter _)).mpr
      fun r => ?_
    · refine List.nodup_flatMap.mpr ⟨fun _ _ => hnodup.filter _, hdisjoint.imp ?_⟩
      intro a b hab r ha hb
      exact hab (of_decide_eq_true (List.mem_filter.mp ha).2)
        (of_decide_eq_true (List.mem_filter.mp hb).2)
    · simp only [mem_together, List.mem_filter, hmem, decide_eq_true_eq, ids, List.mem_map]
      constructor
      · rintro ⟨dpId, hdpId, hr, q, hq, heq⟩
        exact ⟨hr, q, ⟨dpId, hdpId, hq⟩, heq⟩
      · rintro ⟨hr, q, ⟨dpId, hdpId, hq⟩, heq⟩
        exact ⟨dpId, hdpId, hr, q, hq, heq⟩
  refine happend.trans ((hunknown.append hknown).trans ?_)
  rw [hsplit]
  refine (List.perm_ext_iff_of_nodup (List.nodup_append'.mpr
    ⟨(nodup_of_ids hids).filter _, ((nodup_of_ids hids).filter _).filter _, fun r ha hb => ?_⟩)
    ((nodup_of_ids hids).filter _)).mpr fun r => ?_
  · exact of_decide_eq_true (List.mem_filter.mp ha).2
      (of_decide_eq_true (List.mem_filter.mp (List.mem_of_mem_filter hb)).2)
  · simp only [List.mem_append, List.mem_filter, decide_eq_true_eq]
    tauto

/-! ## All levels -/

/-- A request id that has occurred at an earlier level occurs at the level just before: the levels
of an id are consecutive. -/
def LevelsLinked (levels : List (List Request)) : Prop :=
  ∀ k < levels.length, ∀ r ∈ levels.getD k [], ∀ l ∈ levels.take k, r.seqId ∈ ids l →
    r.seqId ∈ ids ((levels.take k).getLastD [])

variable {arrivals : Nat → Nat → τ}

/-- What has been visited once a level is done. -/
theorem mem_visited {before : List (List Request)} (hids : (ids requests).Nodup)
    (hvisited : ∀ id, id ∈ visited ↔ ∃ l ∈ before, id ∈ ids l) (id : Nat) :
    id ∈ visited ++ ids (splitKnown requests visited).1 ↔ ∃ l ∈ before ++ [requests], id ∈ ids l := by
  rw [splitKnown_eq hids, List.mem_append, hvisited]
  simp only [List.mem_append, List.mem_singleton, or_and_right, exists_or, exists_eq_left]
  refine or_congr_right' fun hnot => ?_
  simp only [ids, List.mem_map, List.mem_filter, decide_eq_true_eq]
  constructor
  · rintro ⟨r, ⟨hr, -⟩, rfl⟩
    exact ⟨r, hr, rfl⟩
  · rintro ⟨r, hr, rfl⟩
    exact ⟨r, ⟨hr, fun hv => hnot ((hvisited _).mp hv)⟩, rfl⟩

theorem length_assignLevels (level : Nat) (levels : List (List Request)) (visited : List Nat)
    (previous : Nat → List Request) :
    (assignLevels dpSize arrivals level levels visited previous).length = levels.length := by
  induction levels generalizing level visited previous with
  | nil => rfl
  | cons requests levels ih => rw [assignLevels, List.length_cons, ih, List.length_cons]

/-- What the workers have of a level belongs to it, once; and of an id seen before they have it only
if the level just before has it. -/
theorem assignLevels_subset (hdp : 0 < dpSize) {level : Nat} (before : List (List Request))
    {rest : List (List Request)}
    (hids : ∀ l ∈ rest, (ids l).Nodup)
    (hvisited : ∀ id, id ∈ visited ↔ ∃ l ∈ before, id ∈ ids l)
    (hprevious : (ids (together dpSize previous)).Nodup)
    (hsub : ids (together dpSize previous) ⊆ ids (before.getLastD [])) {k : Nat}
    (hk : k < rest.length) {assigned : Nat → List Request}
    (hassigned : (assignLevels dpSize arrivals level rest visited previous)[k]? = some assigned) :
    (ids (together dpSize assigned)).Nodup ∧ together dpSize assigned ⊆ rest.getD k [] ∧
      ∀ r ∈ together dpSize assigned, ∀ l ∈ before ++ rest.take k, r.seqId ∈ ids l →
        r.seqId ∈ ids ((before ++ rest.take k).getLastD []) := by
  induction rest generalizing level before visited previous k with
  | nil => exact absurd hk (Nat.not_lt_zero k)
  | cons requests rest ih =>
    have hfirst := hids requests (.head _)
    have hlevel := together_assignLevel (arrivals level) visited hdp hfirst
      hprevious
    have hmine : together dpSize (assignLevel dpSize (arrivals level) requests visited previous) ⊆
        requests := fun r hr => List.mem_of_mem_filter (hlevel.subset hr)
    have hnodup : (ids (together dpSize
        (assignLevel dpSize (arrivals level) requests visited previous))).Nodup :=
      ids_nodup_of_subset hfirst (hlevel.nodup_iff.mpr ((nodup_of_ids hfirst).filter _)) hmine
    cases k with
    | zero =>
      rw [assignLevels, List.getElem?_cons_zero] at hassigned
      obtain rfl := Option.some.inj hassigned
      refine ⟨hnodup, hmine, fun r hr l hl hin => ?_⟩
      rw [List.take_zero, List.append_nil] at hl ⊢
      have hkept := (List.mem_filter.mp (hlevel.subset hr)).2
      rw [decide_eq_true_eq] at hkept
      exact hsub (hkept.resolve_left fun hnot => hnot ((hvisited _).mpr ⟨l, hl, hin⟩))
    | succ k =>
      rw [assignLevels, List.getElem?_cons_succ] at hassigned
      have hrest := ih (before ++ [requests]) (fun l hl => hids l (.tail _ hl))
        (mem_visited hfirst hvisited) hnodup
        (by rw [List.getLastD_concat]; exact List.map_subset _ hmine)
        (Nat.lt_of_succ_lt_succ hk) hassigned
      rw [List.append_assoc, List.singleton_append] at hrest
      exact hrest

/-- With consecutive levels the workers have every request. -/
theorem subset_assignLevels (hdp : 0 < dpSize) {level : Nat} (before : List (List Request))
    {rest : List (List Request)}
    (hids : ∀ l ∈ rest, (ids l).Nodup)
    (hlinked : ∀ k < rest.length, ∀ r ∈ rest.getD k [], ∀ l ∈ before ++ rest.take k,
      r.seqId ∈ ids l → r.seqId ∈ ids ((before ++ rest.take k).getLastD []))
    (hvisited : ∀ id, id ∈ visited ↔ ∃ l ∈ before, id ∈ ids l)
    (hprevious : (ids (together dpSize previous)).Nodup)
    (hsup : ids (before.getLastD []) ⊆ ids (together dpSize previous)) {k : Nat}
    (hk : k < rest.length) {assigned : Nat → List Request}
    (hassigned : (assignLevels dpSize arrivals level rest visited previous)[k]? = some assigned) :
    rest.getD k [] ⊆ together dpSize assigned := by
  induction rest generalizing level before visited previous k with
  | nil => exact absurd hk (Nat.not_lt_zero k)
  | cons requests rest ih =>
    have hfirst := hids requests (.head _)
    have hlevel := together_assignLevel (arrivals level) visited hdp hfirst
      hprevious
    have hmine : requests ⊆
        together dpSize (assignLevel dpSize (arrivals level) requests visited previous) := by
      intro r hr
      refine hlevel.symm.subset (List.mem_filter.mpr ⟨hr, decide_eq_true ?_⟩)
      refine or_iff_not_imp_left.mpr fun hv => ?_
      obtain ⟨l, hl, hin⟩ := (hvisited _).mp (not_not.mp hv)
      have := hlinked 0 (Nat.zero_lt_succ _) r hr l (by simpa using hl) hin
      rw [List.take_zero, List.append_nil] at this
      exact hsup this
    have hnodup : (ids (together dpSize
        (assignLevel dpSize (arrivals level) requests visited previous))).Nodup :=
      ids_nodup_of_subset hfirst (hlevel.nodup_iff.mpr ((nodup_of_ids hfirst).filter _))
        fun r hr => List.mem_of_mem_filter (hlevel.subset hr)
    cases k with
    | zero =>
      rw [assignLevels, List.getElem?_cons_zero] at hassigned
      obtain rfl := Option.some.inj hassigned
      exact hmine
    | succ k =>
      rw [assignLevels, List.getElem?_cons_succ] at hassigned
      refine ih (before ++ [requests]) (fun l hl => hids l (.tail _ hl))
        (fun j hj r hr l hl hin => ?_) (mem_visited hfirst hvisited) hnodup
        (by rw [List.getLastD_concat]; exact List.map_subset _ hmine)
        (Nat.lt_of_succ_lt_succ hk) hassigned
      rw [List.append_assoc, List.singleton_append] at hl ⊢
      exact hlinked (j + 1) (Nat.succ_lt_succ hj) r hr l hl hin

end

/-! ## The plan -/

section

variable {τ : Type} [LinearOrder τ] [Sub τ] {p : ExecPlan τ} {s : ModelStates}

/-- The requests of a level that are with some worker. -/
def ExecPlan.served (p : ExecPlan τ) (s : ModelStates) (k : Nat) : List Request :=
  together p.dpSize fun dpId => (p.dpRequests s dpId).getD k []

/-- The requests of a level of the plan. -/
def ExecPlan.level (p : ExecPlan τ) (s : ModelStates) (k : Nat) : List Request :=
  (p.baseModelIds.map s).getD k []

theorem length_dpRequests (dpId : Nat) : (p.dpRequests s dpId).length = p.baseModelIds.length := by
  rw [ExecPlan.dpRequests]
  split
  · rw [List.length_map, length_assignLevels, List.length_map]
  · rw [List.length_map]

theorem exists_served (hfused : p.fused = true) {k : Nat} (hk : k < p.baseModelIds.length) :
    ∃ assigned, (assignLevels p.dpSize p.arrive 0 (p.baseModelIds.map s) [] fun _ => [])[k]? =
      some assigned ∧ (p.served s k).Perm (together p.dpSize assigned) := by
  have hlt : k < (assignLevels p.dpSize p.arrive 0 (p.baseModelIds.map s) [] fun _ => []).length := by
    rwa [length_assignLevels, List.length_map]
  refine ⟨_, List.getElem?_eq_getElem hlt, together_congr fun dpId _ => ?_⟩
  rw [ExecPlan.dpRequests, if_pos hfused, List.getD_eq_getElem?_getD, List.getElem?_map,
    List.getElem?_eq_getElem hlt]
  exact sortBySeqId_perm _

theorem served_of_single (hsingle : p.fused = false) {k : Nat} (hk : k < p.baseModelIds.length) :
    (p.served s k).Perm (p.level s k) := by
  have hlevel : p.level s k = s p.baseModelIds[k] := by
    rw [ExecPlan.level, List.getD_eq_getElem?_getD, List.getElem?_map,
      List.getElem?_eq_getElem hk]
    rfl
  have hserved : p.served s k = together p.dpSize fun dpId =>
      strided (sortByArrival (p.arrive 0) (s p.baseModelIds[k])) dpId p.dpSize := by
    refine congrArg _ (funext fun dpId => ?_)
    rw [ExecPlan.dpRequests, if_neg (by simp [hsingle]), List.getD_eq_getElem?_getD,
      List.getElem?_map, List.getElem?_eq_getElem hk]
    rfl
  rw [hlevel, hserved]
  exact (together_strided p.dpSize_pos _).trans (sortByArrival_perm _ _)

theorem served_subset (hids : ∀ m ∈ p.baseModelIds, (ids (s m)).Nodup) {k : Nat}
    (hk : k < p.baseModelIds.length) :
    (ids (p.served s k)).Nodup ∧ p.served s k ⊆ p.level s k := by
  cases hfused : p.fused with
  | false =>
    have hperm := served_of_single (s := s) hfused hk
    refine ⟨((hperm.map _).nodup_iff).mpr ?_, hperm.subset⟩
    rw [ExecPlan.level, List.getD_eq_getElem?_getD, List.getElem?_map,
      List.getElem?_eq_getElem hk]
    exact hids _ (List.getElem_mem hk)
  | true =>
    obtain ⟨assigned, hassigned, hperm⟩ := exists_served (s := s) hfused hk
    obtain ⟨hnodup, hsub, -⟩ := assignLevels_subset p.dpSize_pos []
      (List.forall_mem_map.mpr hids)
      (by simp) (by simp) (by simp) (by rwa [List.length_map]) hassigned
    exact ⟨((hperm.map _).nodup_iff).mpr hnodup, fun r hr => hsub (hperm.subset hr)⟩

/-- With consecutive levels every request is with exactly one worker. -/
theorem served_perm (hids : ∀ m ∈ p.baseModelIds, (ids (s m)).Nodup)
    (hlinked : LevelsLinked (p.baseModelIds.map s)) {k : Nat} (hk : k < p.baseModelIds.length) :
    (p.served s k).Perm (p.level s k) := by
  cases hfused : p.fused with
  | false => exact served_of_single hfused hk
  | true =>
    obtain ⟨assigned, hassigned, hperm⟩ := exists_served (s := s) hfused hk
    have hsup := subset_assignLevels p.dpSize_pos []
      (List.forall_mem_map.mpr hids)
      hlinked (by simp) (by simp) (by simp) (by rwa [List.length_map])
      hassigned
    obtain ⟨hnodup, hsub⟩ := served_subset hids hk
    refine (List.perm_ext_iff_of_nodup (nodup_of_ids hnodup) ?_).mpr fun r =>
      ⟨fun hr => hsub hr, fun hr => hperm.symm.subset (hsup hr)⟩
    refine nodup_of_ids (l := p.level s k) ?_
    rw [ExecPlan.level, List.getD_eq_getElem?_getD, List.getElem?_map,
      List.getElem?_eq_getElem hk]
    exact hids _ (List.getElem_mem hk)

/-- If every request is with some worker, the levels are consecutive. -/
theorem levelsLinked_of_served (hids : ∀ m ∈ p.baseModelIds, (ids (s m)).Nodup)
    (h : ∀ k < p.baseModelIds.length, p.level s k ⊆ p.served s k) :
    LevelsLinked (p.baseModelIds.map s) := by
  intro k hk r hr l hl hin
  rw [List.length_map] at hk
  cases hfused : p.fused with
  | false =>
    have hsingle := p.single hfused
    obtain rfl : k = 0 := by omega
    exact absurd hl (by simp)
  | true =>
    obtain ⟨assigned, hassigned, hperm⟩ := exists_served (s := s) hfused hk
    obtain ⟨-, -, hlast⟩ := assignLevels_subset p.dpSize_pos []
      (List.forall_mem_map.mpr hids)
      (by simp) (by simp) (by simp) (by rwa [List.length_map]) hassigned
    exact hlast r (hperm.subset (h k hk hr)) l hl hin

end

end Mil.InferStage
