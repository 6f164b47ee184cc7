import Mathlib.Data.List.GetD
import Mathlib.Data.List.Nodup
import Mil.HybridFlow.Placements

/-!
# The placements are the partitions

A placement is a list of lists of models; what it says is the partition of the models into the sets
of these lists (`partsOf`). Putting one more model in front of a placement adds the model to the
partition, as a part of its own or to one of the parts. So the placements of a collection are the
partitions of its models that pass both tests of the generator, and every one is yielded once: the
tests may be made along the way because a partition that passes them passes them without the first
model too.
-/

set_option autoImplicit false

namespace Mil.HybridFlow

open Mil.Lib

/-- The partition a placement stands for. -/
def partsOf (placement : List (List Nat)) : Finset (Finset Nat) :=
  (placement.map List.toFinset).toFinset

/-- The sets of several models fit at the size of a unit. -/
def Feasible (test : MemTest) (fullyConnectedGpuUnit : Nat) (parts : Finset (Finset Nat)) : Prop :=
  ∀ s ∈ parts, 1 < s.card → test.isEnough s.toList fullyConnectedGpuUnit = true

/-- The placement puts the models of `s` into distinct sets. -/
structure Represents (s : Finset Nat) (placement : List (List Nat)) : Prop where
  nodup : (placement.map List.toFinset).Nodup
  partition : IsPartition s (partsOf placement)

variable {test : MemTest} {fullyConnectedGpuUnit totGpuNum : Nat}

theorem MemTest.isEnough_congr {modelIds modelIds' : List Nat} (numWorker : Nat)
    (hsame : modelIds.toFinset = modelIds'.toFinset) :
    test.isEnough modelIds numWorker = test.isEnough modelIds' numWorker := by
  have hsub : modelIds ⊆ modelIds' := fun m hm => by
    rw [← List.mem_toFinset, ← hsame, List.mem_toFinset]; exact hm
  have hsub' : modelIds' ⊆ modelIds := fun m hm => by
    rw [← List.mem_toFinset, hsame, List.mem_toFinset]; exact hm
  rw [Bool.eq_iff_iff]
  exact ⟨test.mono hsub', test.mono hsub⟩

theorem Represents.card_partsOf {s : Finset Nat} {placement : List (List Nat)}
    (h : Represents s placement) : (partsOf placement).card = placement.length := by
  rw [partsOf, List.toFinset_card_of_nodup h.nodup, List.length_map]

theorem mem_partsOf {placement : List (List Nat)} {t : Finset Nat} :
    t ∈ partsOf placement ↔ ∃ n < placement.length, (placement.getD n []).toFinset = t := by
  rw [partsOf, List.mem_toFinset, List.mem_map]
  constructor
  · rintro ⟨l, hl, rfl⟩
    obtain ⟨n, hn, rfl⟩ := List.mem_iff_getElem.mp hl
    exact ⟨n, hn, by rw [List.getD_eq_getElem _ _ hn]⟩
  · rintro ⟨n, hn, rfl⟩
    exact ⟨placement[n], List.getElem_mem hn, by rw [List.getD_eq_getElem _ _ hn]⟩

/-! ## One more model -/

section

variable {s : Finset Nat} {first : Nat} {smaller : List (List Nat)}

theorem Represents.single (first : Nat) (h : Represents s smaller) (hfirst : first ∉ s) :
    partsOf ([first] :: smaller) = newPart first (partsOf smaller) ∧
      Represents (insert first s) ([first] :: smaller) := by
  have hparts : partsOf ([first] :: smaller) = newPart first (partsOf smaller) := by
    simp only [partsOf, newPart, List.map_cons, List.toFinset_cons, List.toFinset_nil]
    rfl
  refine ⟨hparts, ?_, hparts ▸ h.partition.newPart hfirst⟩
  rw [List.map_cons, List.nodup_cons]
  refine ⟨fun hmem => ?_, h.nodup⟩
  have hmem : [first].toFinset ∈ partsOf smaller := List.mem_toFinset.mpr hmem
  exact h.partition.notMem_part hfirst hmem (by simp)

theorem joinAt_eq_set {n : Nat} (hn : n < smaller.length) :
    joinAt first smaller n = smaller.set n (first :: smaller.getD n []) := by
  rw [joinAt, List.set_eq_take_append_cons_drop, if_pos hn, List.append_assoc,
    List.singleton_append]

theorem toFinset_set_of_nodup {l : List (Finset Nat)} (hnd : l.Nodup) {n : Nat}
    (hn : n < l.length) (t : Finset Nat) :
    (l.set n t).toFinset = insert t (l.toFinset.erase l[n]) := by
  ext x
  rw [List.mem_toFinset, Finset.mem_insert, Finset.mem_erase, List.mem_toFinset,
    List.mem_iff_getElem, List.mem_iff_getElem]
  constructor
  · rintro ⟨k, hk, rfl⟩
    rw [List.length_set] at hk
    by_cases hkn : n = k
    · subst hkn
      exact .inl (List.getElem_set_self _)
    · right
      rw [List.getElem_set_ne hkn]
      exact ⟨fun heq => hkn ((hnd.getElem_inj_iff.mp heq).symm), k, hk, rfl⟩
  · rintro (rfl | ⟨hne, k, hk, rfl⟩)
    · exact ⟨n, by rwa [List.length_set], List.getElem_set_self _⟩
    · refine ⟨k, by rwa [List.length_set], List.getElem_set_ne (fun heq => ?_) _⟩
      subst heq
      exact hne rfl

theorem Represents.join (h : Represents s smaller) (hfirst : first ∉ s) {n : Nat}
    (hn : n < smaller.length) :
    partsOf (joinAt first smaller n) =
        joinPart first (smaller.getD n []).toFinset (partsOf smaller) ∧
      Represents (insert first s) (joinAt first smaller n) := by
  have ht : (smaller.getD n []).toFinset ∈ partsOf smaller := mem_partsOf.mpr ⟨n, hn, rfl⟩
  have hmap : (joinAt first smaller n).map List.toFinset =
      (smaller.map List.toFinset).set n (insert first (smaller.getD n []).toFinset) := by
    rw [joinAt_eq_set hn, List.map_set, List.toFinset_cons]
  have hparts : partsOf (joinAt first smaller n) =
      joinPart first (smaller.getD n []).toFinset (partsOf smaller) := by
    rw [partsOf, hmap, toFinset_set_of_nodup h.nodup (by rwa [List.length_map]),
      List.getElem_map, joinPart, partsOf, List.getD_eq_getElem _ _ hn]
  refine ⟨hparts, ?_, hparts ▸ h.partition.joinPart hfirst ht⟩
  rw [hmap]
  refine h.nodup.set fun hmem => ?_
  exact h.partition.notMem_part hfirst (List.mem_toFinset.mpr hmem) (Finset.mem_insert_self _ _)

theorem mem_extendPlacement {placement : List (List Nat)} :
    placement ∈ extendPlacement test fullyConnectedGpuUnit totGpuNum first smaller ↔
      (∃ n < smaller.length,
        test.isEnough (first :: smaller.getD n []) fullyConnectedGpuUnit = true ∧
          placement = joinAt first smaller n) ∨
      (smaller.length < totGpuNum ∧ placement = [first] :: smaller) := by
  rw [extendPlacement, List.mem_append, List.mem_map]
  refine or_congr ⟨?_, ?_⟩ ?_
  · rintro ⟨n, hn, rfl⟩
    obtain ⟨hn, hmem⟩ := List.mem_filter.mp hn
    exact ⟨n, List.mem_range.mp hn, hmem, rfl⟩
  · rintro ⟨n, hn, hmem, rfl⟩
    exact ⟨n, List.mem_filter.mpr ⟨List.mem_range.mpr hn, hmem⟩, rfl⟩
  · split
    · next hle => simp [Nat.not_lt.mpr hle]
    · next hlt => simp [Nat.not_le.mp hlt]

/-- Without the first model the placement is the one it was put in front of. -/
theorem Represents.extend (h : Represents s smaller) (hfirst : first ∉ s)
    {placement : List (List Nat)}
    (hmem : placement ∈ extendPlacement test fullyConnectedGpuUnit totGpuNum first smaller) :
    Represents (insert first s) placement ∧
      without first (partsOf placement) = partsOf smaller := by
  rcases mem_extendPlacement.mp hmem with ⟨n, hn, -, rfl⟩ | ⟨-, rfl⟩
  · obtain ⟨hparts, hrep⟩ := h.join hfirst hn
    exact ⟨hrep, hparts ▸ h.partition.without_joinPart hfirst (mem_partsOf.mpr ⟨n, hn, rfl⟩)⟩
  · obtain ⟨hparts, hrep⟩ := h.single first hfirst
    exact ⟨hrep, hparts ▸ h.partition.without_newPart hfirst⟩

theorem joinPart_inj {parts : Finset (Finset Nat)} (h : IsPartition s parts) (hfirst : first ∉ s)
    {t t' : Finset Nat} (ht : t ∈ parts) (ht' : t' ∈ parts)
    (heq : joinPart first t parts = joinPart first t' parts) : t = t' := by
  have hmem : insert first t ∈ joinPart first t' parts :=
    heq ▸ Finset.mem_insert_self _ _
  rcases Finset.mem_insert.mp hmem with hsame | hmem
  · have herase := congrArg (·.erase first) hsame
    simpa only [Finset.erase_insert (h.notMem_part hfirst ht),
      Finset.erase_insert (h.notMem_part hfirst ht')] using herase
  · exact absurd (Finset.mem_insert_self first t)
      (h.notMem_part hfirst (Finset.mem_of_mem_erase hmem))

theorem Represents.nodup_extend (h : Represents s smaller) (hfirst : first ∉ s) :
    ((extendPlacement test fullyConnectedGpuUnit totGpuNum first smaller).map partsOf).Nodup := by
  rw [extendPlacement, List.map_append, List.map_map, List.nodup_append]
  refine ⟨?_, ?_, ?_⟩
  · refine List.Nodup.map_on (fun n hn n' hn' heq => ?_) (List.nodup_range.filter _)
    have hn := List.mem_range.mp (List.mem_filter.mp hn).1
    have hn' := List.mem_range.mp (List.mem_filter.mp hn').1
    simp only [Function.comp_apply, (h.join hfirst hn).1, (h.join hfirst hn').1] at heq
    have hsame := joinPart_inj h.partition hfirst (mem_partsOf.mpr ⟨n, hn, rfl⟩)
      (mem_partsOf.mpr ⟨n', hn', rfl⟩) heq
    have hl : n < (smaller.map List.toFinset).length := by rwa [List.length_map]
    have hl' : n' < (smaller.map List.toFinset).length := by rwa [List.length_map]
    have hget : (smaller.map List.toFinset)[n] = (smaller.map List.toFinset)[n'] := by
      rwa [List.getElem_map, List.getElem_map, ← List.getD_eq_getElem _ [] hn,
        ← List.getD_eq_getElem _ [] hn']
    exact h.nodup.getElem_inj_iff.mp hget
  · split
    · exact List.nodup_nil
    · exact List.nodup_singleton _
  · -- The two kinds differ in the number of parts.
    rintro p hp q hq rfl
    obtain ⟨n, hn, rfl⟩ := List.mem_map.mp hp
    have hn := List.mem_range.mp (List.mem_filter.mp hn).1
    split at hq
    · exact absurd hq List.not_mem_nil
    · have hq := List.mem_singleton.mp hq
      rw [Function.comp_apply, (h.join hfirst hn).1, (h.single first hfirst).1] at hq
      have hcard := congrArg Finset.card hq
      rw [h.partition.card_joinPart hfirst (mem_partsOf.mpr ⟨n, hn, rfl⟩),
        h.partition.card_newPart hfirst] at hcard
      omega

end

/-! ## All placements -/

theorem getPlacements_represents {collection : List Nat} (hnd : collection.Nodup) :
    ∀ p ∈ getPlacements test fullyConnectedGpuUnit totGpuNum collection,
      Represents collection.toFinset p := by
  induction collection using getPlacements.induct with
  | case1 => exact fun p hp => absurd hp List.not_mem_nil
  | case2 m =>
    intro p hp
    rw [getPlacements, List.mem_singleton] at hp
    subst hp
    exact ⟨List.nodup_singleton _, isPartition_singleton_iff.mpr rfl⟩
  | case3 first second rest ih =>
    intro p hp
    rw [List.nodup_cons] at hnd
    obtain ⟨smaller, hsmaller, hp⟩ := List.mem_flatMap.mp hp
    have hfirst : first ∉ (second :: rest).toFinset := by
      rw [List.mem_toFinset]; exact hnd.1
    rw [List.toFinset_cons]
    exact ((ih hnd.2 smaller hsmaller).extend hfirst hp).1

/-- A placement holds every model of the collection once. -/
theorem perm_flatten_getPlacements {collection : List Nat} :
    ∀ p ∈ getPlacements test fullyConnectedGpuUnit totGpuNum collection,
      p.flatten.Perm collection := by
  induction collection using getPlacements.induct with
  | case1 => exact fun p hp => absurd hp List.not_mem_nil
  | case2 m =>
    intro p hp
    rw [getPlacements, List.mem_singleton] at hp
    subst hp
    exact List.Perm.refl _
  | case3 first second rest ih =>
    intro p hp
    obtain ⟨smaller, hsmaller, hp⟩ := List.mem_flatMap.mp hp
    refine List.Perm.trans ?_ ((ih smaller hsmaller).cons first)
    rcases mem_extendPlacement.mp hp with ⟨n, hn, -, rfl⟩ | ⟨-, rfl⟩
    · have hsplit : smaller.take n ++ (smaller.getD n [] :: smaller.drop (n + 1)) = smaller := by
        rw [List.getD_eq_getElem _ _ hn, List.getElem_cons_drop, List.take_append_drop]
      conv_rhs => rw [← hsplit]
      rw [joinAt, List.append_assoc, List.singleton_append, List.flatten_append,
        List.flatten_append, List.flatten_cons, List.flatten_cons, List.cons_append]
      exact List.perm_middle
    · exact List.Perm.refl _

theorem nodup_getPlacements {collection : List Nat} (hnd : collection.Nodup) :
    ((getPlacements test fullyConnectedGpuUnit totGpuNum collection).map partsOf).Nodup := by
  induction collection using getPlacements.induct with
  | case1 => exact List.nodup_nil
  | case2 m => exact List.nodup_singleton _
  | case3 first second rest ih =>
    rw [List.nodup_cons] at hnd
    have hfirst : first ∉ (second :: rest).toFinset := by
      rw [List.mem_toFinset]; exact hnd.1
    have hrep : ∀ p ∈ getPlacements test fullyConnectedGpuUnit totGpuNum (second :: rest),
        Represents (second :: rest).toFinset p := getPlacements_represents hnd.2
    rw [getPlacements, List.map_flatMap, List.nodup_flatMap]
    refine ⟨fun smaller hsmaller => (hrep smaller hsmaller).nodup_extend hfirst, ?_⟩
    refine (List.pairwise_map.mp (ih hnd.2)).imp_of_mem fun {p q} hp hq hne => ?_
    intro parts hpart hpart'
    obtain ⟨p', hp', rfl⟩ := List.mem_map.mp hpart
    obtain ⟨q', hq', heq⟩ := List.mem_map.mp hpart'
    apply hne
    rw [← ((hrep p hp).extend hfirst hp').2, ← ((hrep q hq).extend hfirst hq').2, heq]

/-! ## What is yielded -/

/-- What the first model is taken out of passes the tests too. -/
theorem Feasible.of_cover {parts parts' : Finset (Finset Nat)}
    (h : Feasible test fullyConnectedGpuUnit parts') (hcover : ∀ s ∈ parts, ∃ s' ∈ parts', s ⊆ s') :
    Feasible test fullyConnectedGpuUnit parts := by
  intro s hs hcard
  obtain ⟨s', hs', hsub⟩ := hcover s hs
  refine test.mono (fun m hm => ?_) (h s' hs' (hcard.trans_le (Finset.card_le_card hsub)))
  exact Finset.mem_toList.mpr (hsub (Finset.mem_toList.mp hm))

theorem feasible_newPart {first : Nat} {parts : Finset (Finset Nat)} :
    Feasible test fullyConnectedGpuUnit (newPart first parts) ↔
      Feasible test fullyConnectedGpuUnit parts := by
  constructor
  · exact fun h => h.of_cover fun s hs => ⟨s, Finset.mem_insert_of_mem hs, Finset.Subset.refl s⟩
  · intro h s hs hcard
    rcases Finset.mem_insert.mp hs with rfl | hs
    · rw [Finset.card_singleton] at hcard
      exact absurd hcard (lt_irrefl 1)
    · exact h s hs hcard

theorem feasible_joinPart {s t : Finset Nat} {first : Nat} {parts : Finset (Finset Nat)}
    (hpart : IsPartition s parts) (hfirst : first ∉ s) (ht : t ∈ parts) :
    Feasible test fullyConnectedGpuUnit (joinPart first t parts) ↔
      Feasible test fullyConnectedGpuUnit parts ∧
        test.isEnough (insert first t).toList fullyConnectedGpuUnit = true := by
  constructor
  · intro h
    refine ⟨h.of_cover fun p hp => ?_, h _ (Finset.mem_insert_self _ _) ?_⟩
    · by_cases hpt : p = t
      · exact ⟨_, Finset.mem_insert_self _ _, hpt ▸ Finset.subset_insert first t⟩
      · exact ⟨p, Finset.mem_insert_of_mem (Finset.mem_erase.mpr ⟨hpt, hp⟩), Finset.Subset.refl p⟩
    · have hne : t ≠ ∅ := fun heq => (isPartition_iff.mp hpart).2.2 (heq ▸ ht)
      rw [Finset.card_insert_of_notMem (hpart.notMem_part hfirst ht)]
      have hpos := Finset.card_pos.mpr (Finset.nonempty_iff_ne_empty.mpr hne)
      omega
  · rintro ⟨h, henough⟩ p hp hcard
    rcases Finset.mem_insert.mp hp with rfl | hp
    · exact henough
    · exact h p (Finset.mem_of_mem_erase hp) hcard

theorem mem_getPlacements {collection : List Nat} (hnd : collection.Nodup) (hne : collection ≠ [])
    (htot : 0 < totGpuNum) (parts : Finset (Finset Nat)) :
    parts ∈ (getPlacements test fullyConnectedGpuUnit totGpuNum collection).map partsOf ↔
      IsPartition collection.toFinset parts ∧ parts.card ≤ totGpuNum ∧
        Feasible test fullyConnectedGpuUnit parts := by
  induction collection using getPlacements.induct generalizing parts with
  | case1 => exact absurd rfl hne
  | case2 m =>
    rw [getPlacements, List.map_singleton, List.mem_singleton]
    show parts = {{m}} ↔ IsPartition {m} parts ∧ _
    rw [isPartition_singleton_iff]
    refine ⟨?_, fun h => h.1⟩
    rintro rfl
    refine ⟨rfl, htot, fun s hs hcard => ?_⟩
    rw [Finset.mem_singleton.mp hs, Finset.card_singleton] at hcard
    exact absurd hcard (lt_irrefl 1)
  | case3 first second rest ih =>
    rw [List.nodup_cons] at hnd
    have hfirst : first ∉ (second :: rest).toFinset := by
      rw [List.mem_toFinset]; exact hnd.1
    have hrep : ∀ p ∈ getPlacements test fullyConnectedGpuUnit totGpuNum (second :: rest),
        Represents (second :: rest).toFinset p := getPlacements_represents hnd.2
    have ih := ih hnd.2 (List.cons_ne_nil _ _)
    rw [getPlacements, List.mem_map, List.toFinset_cons (a := first)]
    -- `first` joins a part of a partition of the rest, or is a part of its own
    constructor
    · rintro ⟨p, hp, rfl⟩
      obtain ⟨smaller, hsmaller, hp⟩ := List.mem_flatMap.mp hp
      have h := hrep smaller hsmaller
      obtain ⟨-, hcard, hfeas⟩ := (ih _).mp (List.mem_map_of_mem hsmaller)
      rcases mem_extendPlacement.mp hp with ⟨n, hn, henough, rfl⟩ | ⟨hlt, rfl⟩
      · have ht := mem_partsOf.mpr ⟨n, hn, rfl⟩
        rw [(h.join hfirst hn).1, h.partition.card_joinPart hfirst ht,
          feasible_joinPart h.partition hfirst ht]
        refine ⟨h.partition.joinPart hfirst ht, hcard, hfeas, ?_⟩
        rw [← henough]
        exact MemTest.isEnough_congr _ (by rw [Finset.toList_toFinset, List.toFinset_cons])
      · rw [(h.single first hfirst).1, h.partition.card_newPart hfirst, feasible_newPart,
          h.card_partsOf]
        exact ⟨h.partition.newPart hfirst, hlt, hfeas⟩
    -- taking `first` out of a partition gives one of the rest, which was found before
    · rintro ⟨hpart, hcard, hfeas⟩
      have hwithout := hpart.without hfirst
      rcases hpart.eq_newPart_or_joinPart with heq | ⟨t, ht, heq⟩
      · rw [heq, hwithout.card_newPart hfirst] at hcard
        rw [heq, feasible_newPart] at hfeas
        obtain ⟨smaller, hsmaller, hsame⟩ :=
          List.mem_map.mp ((ih _).mpr ⟨hwithout, (Nat.le_succ _).trans hcard, hfeas⟩)
        have h := hrep smaller hsmaller
        refine ⟨[first] :: smaller, List.mem_flatMap.mpr ⟨smaller, hsmaller, ?_⟩, ?_⟩
        · refine mem_extendPlacement.mpr (.inr ⟨?_, rfl⟩)
          rwa [← h.card_partsOf, hsame]
        · rw [(h.single first hfirst).1, hsame, ← heq]
      · rw [heq, hwithout.card_joinPart hfirst ht] at hcard
        rw [heq, feasible_joinPart hwithout hfirst ht] at hfeas
        obtain ⟨smaller, hsmaller, hsame⟩ :=
          List.mem_map.mp ((ih _).mpr ⟨hwithout, hcard, hfeas.1⟩)
        have h := hrep smaller hsmaller
        obtain ⟨n, hn, hset⟩ := mem_partsOf.mp (hsame ▸ ht)
        refine ⟨joinAt first smaller n, List.mem_flatMap.mpr ⟨smaller, hsmaller, ?_⟩, ?_⟩
        · refine mem_extendPlacement.mpr (.inl ⟨n, hn, ?_, rfl⟩)
          rw [← hfeas.2]
          exact MemTest.isEnough_congr _
            (by rw [Finset.toList_toFinset, List.toFinset_cons, hset])
        · rw [(h.join hfirst hn).1, hset, hsame, ← heq]

end Mil.HybridFlow
