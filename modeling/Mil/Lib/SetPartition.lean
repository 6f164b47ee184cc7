import Mathlib.Order.Partition.Finpartition

/-!
# Partitions of a set with one more element

A partition of a finite set is taken as the set of its parts. A partition of `insert a s`, for an `a`
that is not in `s`, comes from a partition of `s` in one of two ways: `a` is a part of its own
(`newPart`), or it joins one of the parts (`joinPart`). Taking `a` out again (`without`) gives the
partition of `s` back, so no partition comes about twice.
-/

set_option autoImplicit false

namespace Mil.Lib

variable {α : Type} [DecidableEq α]

/-- The parts of a partition of `s`. -/
def IsPartition (s : Finset α) (parts : Finset (Finset α)) : Prop :=
  ∃ π : Finpartition s, π.parts = parts

/-- `a` by itself. -/
def newPart (a : α) (parts : Finset (Finset α)) : Finset (Finset α) := insert {a} parts

/-- `a` in the part `t`. -/
def joinPart (a : α) (t : Finset α) (parts : Finset (Finset α)) : Finset (Finset α) :=
  insert (insert a t) (parts.erase t)

/-- The parts without `a`. -/
def without (a : α) (parts : Finset (Finset α)) : Finset (Finset α) :=
  (parts.image (·.erase a)).erase ∅

variable {a : α} {s t : Finset α} {parts : Finset (Finset α)}

theorem isPartition_iff : IsPartition s parts ↔ (∀ p ∈ parts, p ⊆ s) ∧
    (∀ x ∈ s, ∃! p, p ∈ parts ∧ x ∈ p) ∧ ∅ ∉ parts := by
  constructor
  · rintro ⟨π, rfl⟩
    exact ⟨fun p hp => π.le hp, fun x hx => π.existsUnique_mem hx, π.bot_notMem⟩
  · rintro ⟨hsub, hunique, hempty⟩
    exact ⟨.ofExistsUnique parts hsub hunique hempty, rfl⟩

theorem isPartition_singleton_iff : IsPartition {a} parts ↔ parts = {{a}} := by
  rw [isPartition_iff]
  constructor
  · rintro ⟨hsub, hunique, hempty⟩
    have hpart : ∀ p ∈ parts, p = {a} := fun p hp => by
      rcases Finset.subset_singleton_iff.mp (hsub p hp) with rfl | rfl
      · exact absurd hp hempty
      · rfl
    obtain ⟨p, ⟨hp, -⟩, -⟩ := hunique a (Finset.mem_singleton_self a)
    refine Finset.eq_singleton_iff_unique_mem.mpr ⟨hpart p hp ▸ hp, hpart⟩
  · rintro rfl
    refine ⟨fun p hp => (Finset.mem_singleton.mp hp).subset, fun x hx => ⟨{a}, ?_, ?_⟩, ?_⟩
    · exact ⟨Finset.mem_singleton_self _, hx⟩
    · exact fun p hp => Finset.mem_singleton.mp hp.1
    · exact fun h => (Finset.singleton_ne_empty a) (Finset.mem_singleton.mp h).symm

/-! ## Adding an element -/

theorem IsPartition.notMem_part (h : IsPartition s parts) (ha : a ∉ s) {p : Finset α}
    (hp : p ∈ parts) : a ∉ p :=
  fun hap => ha ((isPartition_iff.mp h).1 p hp hap)

theorem IsPartition.newPart (h : IsPartition s parts) (ha : a ∉ s) :
    IsPartition (insert a s) (newPart a parts) := by
  obtain ⟨hsub, hunique, hempty⟩ := isPartition_iff.mp h
  refine isPartition_iff.mpr ⟨fun p hp => ?_, fun x hx => ?_, fun hmem => ?_⟩
  · rcases Finset.mem_insert.mp hp with rfl | hp
    · exact Finset.singleton_subset_iff.mpr (Finset.mem_insert_self a s)
    · exact (hsub p hp).trans (Finset.subset_insert a s)
  · rcases Finset.mem_insert.mp hx with rfl | hx
    · refine ⟨{x}, ⟨Finset.mem_insert_self _ _, Finset.mem_singleton_self x⟩, ?_⟩
      rintro p ⟨hp, hxp⟩
      rcases Finset.mem_insert.mp hp with rfl | hp
      · rfl
      · exact absurd hxp (h.notMem_part ha hp)
    · obtain ⟨p, ⟨hp, hxp⟩, hone⟩ := hunique x hx
      refine ⟨p, ⟨Finset.mem_insert_of_mem hp, hxp⟩, ?_⟩
      rintro q ⟨hq, hxq⟩
      rcases Finset.mem_insert.mp hq with rfl | hq
      · exact absurd (Finset.mem_singleton.mp hxq ▸ hx) ha
      · exact hone q ⟨hq, hxq⟩
  · rcases Finset.mem_insert.mp hmem with heq | hmem
    · exact Finset.singleton_ne_empty a heq.symm
    · exact hempty hmem

theorem IsPartition.joinPart (h : IsPartition s parts) (ha : a ∉ s) (ht : t ∈ parts) :
    IsPartition (insert a s) (joinPart a t parts) := by
  obtain ⟨hsub, hunique, hempty⟩ := isPartition_iff.mp h
  refine isPartition_iff.mpr ⟨fun p hp => ?_, fun x hx => ?_, fun hmem => ?_⟩
  · rcases Finset.mem_insert.mp hp with rfl | hp
    · exact Finset.insert_subset_insert a (hsub t ht)
    · exact (hsub p (Finset.mem_of_mem_erase hp)).trans (Finset.subset_insert a s)
  · rcases Finset.mem_insert.mp hx with rfl | hx
    · refine ⟨insert x t, ⟨Finset.mem_insert_self _ _, Finset.mem_insert_self _ _⟩, ?_⟩
      rintro p ⟨hp, hxp⟩
      rcases Finset.mem_insert.mp hp with rfl | hp
      · rfl
      · exact absurd hxp (h.notMem_part ha (Finset.mem_of_mem_erase hp))
    · obtain ⟨p, ⟨hp, hxp⟩, hone⟩ := hunique x hx
      have hxa : x ≠ a := fun heq => ha (heq ▸ hx)
      by_cases hpt : p = t
      · subst hpt
        refine ⟨insert a p, ⟨Finset.mem_insert_self _ _, Finset.mem_insert_of_mem hxp⟩, ?_⟩
        rintro q ⟨hq, hxq⟩
        rcases Finset.mem_insert.mp hq with rfl | hq
        · rfl
        · obtain ⟨hne, hq⟩ := Finset.mem_erase.mp hq
          exact absurd (hone q ⟨hq, hxq⟩) hne
      · refine ⟨p, ⟨Finset.mem_insert_of_mem (Finset.mem_erase.mpr ⟨hpt, hp⟩), hxp⟩, ?_⟩
        rintro q ⟨hq, hxq⟩
        rcases Finset.mem_insert.mp hq with rfl | hq
        · rcases Finset.mem_insert.mp hxq with rfl | hxt
          · exact absurd rfl hxa
          · exact absurd (hone t ⟨ht, hxt⟩).symm hpt
        · exact hone q ⟨Finset.mem_of_mem_erase hq, hxq⟩
  · rcases Finset.mem_insert.mp hmem with heq | hmem
    · exact Finset.insert_ne_empty a t heq.symm
    · exact hempty (Finset.mem_of_mem_erase hmem)

/-! ## Taking it out again -/

theorem IsPartition.image_erase (h : IsPartition s parts) (ha : a ∉ s) {q : Finset (Finset α)}
    (hq : q ⊆ parts) : q.image (·.erase a) = q := by
  have hsame : q.image (·.erase a) = q.image id := Finset.image_congr fun p hp =>
    Finset.erase_eq_of_notMem (h.notMem_part ha (hq hp))
  rw [hsame, Finset.image_id]

theorem IsPartition.without_newPart (h : IsPartition s parts) (ha : a ∉ s) :
    without a (Lib.newPart a parts) = parts := by
  rw [without, Lib.newPart, Finset.image_insert, h.image_erase ha (Finset.Subset.refl _),
    Finset.erase_singleton, Finset.erase_insert (isPartition_iff.mp h).2.2]

theorem IsPartition.without_joinPart (h : IsPartition s parts) (ha : a ∉ s) (ht : t ∈ parts) :
    without a (Lib.joinPart a t parts) = parts := by
  rw [without, Lib.joinPart, Finset.image_insert, h.image_erase ha (Finset.erase_subset _ _),
    Finset.erase_insert (h.notMem_part ha ht), Finset.insert_erase ht,
    Finset.erase_eq_of_notMem (isPartition_iff.mp h).2.2]

theorem IsPartition.without (h : IsPartition (insert a s) parts) (ha : a ∉ s) :
    IsPartition s (without a parts) := by
  obtain ⟨hsub, hunique, hempty⟩ := isPartition_iff.mp h
  refine isPartition_iff.mpr ⟨fun p hp x hx => ?_, fun x hx => ?_, Finset.notMem_erase _ _⟩
  · obtain ⟨q, hq, rfl⟩ := Finset.mem_image.mp (Finset.mem_of_mem_erase hp)
    obtain ⟨hne, hxq⟩ := Finset.mem_erase.mp hx
    exact (Finset.mem_insert.mp (hsub q hq hxq)).resolve_left hne
  · have hxa : x ≠ a := fun heq => ha (heq ▸ hx)
    obtain ⟨p, ⟨hp, hxp⟩, hone⟩ := hunique x (Finset.mem_insert_of_mem hx)
    have hxp' : x ∈ p.erase a := Finset.mem_erase.mpr ⟨hxa, hxp⟩
    refine ⟨p.erase a, ⟨Finset.mem_erase.mpr ⟨Finset.ne_empty_of_mem hxp', ?_⟩, hxp'⟩, ?_⟩
    · exact Finset.mem_image_of_mem _ hp
    · rintro q ⟨hq, hxq⟩
      obtain ⟨r, hr, rfl⟩ := Finset.mem_image.mp (Finset.mem_of_mem_erase hq)
      rw [hone r ⟨hr, Finset.mem_of_mem_erase hxq⟩]

/-- Every partition of the larger set comes about in one of the two ways. -/
theorem IsPartition.eq_newPart_or_joinPart (h : IsPartition (insert a s) parts) :
    parts = Lib.newPart a (Lib.without a parts) ∨
      ∃ t ∈ Lib.without a parts, parts = Lib.joinPart a t (Lib.without a parts) := by
  obtain ⟨-, hunique, hempty⟩ := isPartition_iff.mp h
  obtain ⟨p, ⟨hp, hap⟩, hone⟩ := hunique a (Finset.mem_insert_self a s)
  have hothers : (parts.erase p).image (·.erase a) = parts.erase p := by
    have hsame : (parts.erase p).image (·.erase a) = (parts.erase p).image id :=
      Finset.image_congr fun q hq => by
        obtain ⟨hne, hq⟩ := Finset.mem_erase.mp hq
        exact Finset.erase_eq_of_notMem fun haq => hne (hone q ⟨hq, haq⟩)
    rw [hsame, Finset.image_id]
  have hempty' : ∅ ∉ parts.erase p := fun hmem => hempty (Finset.mem_of_mem_erase hmem)
  have hwithout : Lib.without a parts = (insert (p.erase a) (parts.erase p)).erase ∅ := by
    conv_lhs => rw [Lib.without, ← Finset.insert_erase hp, Finset.image_insert, hothers]
  by_cases hnil : p.erase a = ∅
  · left
    have hsingle : p = {a} := by rw [← Finset.insert_erase hap, hnil]; rfl
    rw [hwithout, hnil, Finset.erase_insert hempty', Lib.newPart, ← hsingle,
      Finset.insert_erase hp]
  · right
    have hnew : p.erase a ∉ parts.erase p := fun hmem => by
      obtain ⟨x, hx⟩ := Finset.nonempty_iff_ne_empty.mpr hnil
      obtain ⟨hne, hmem⟩ := Finset.mem_erase.mp hmem
      obtain ⟨q, -, hq⟩ := hunique x ((isPartition_iff.mp h).1 _ hmem hx)
      exact hne ((hq _ ⟨hmem, hx⟩).trans (hq p ⟨hp, Finset.mem_of_mem_erase hx⟩).symm)
    have hwithout' : Lib.without a parts = insert (p.erase a) (parts.erase p) := by
      rw [hwithout, Finset.erase_eq_of_notMem]
      intro hmem
      rcases Finset.mem_insert.mp hmem with heq | hmem
      · exact hnil heq.symm
      · exact hempty' hmem
    refine ⟨p.erase a, by rw [hwithout']; exact Finset.mem_insert_self _ _, ?_⟩
    rw [hwithout', Lib.joinPart, Finset.erase_insert hnew, Finset.insert_erase hap,
      Finset.insert_erase hp]

/-! ## The number of parts -/

theorem IsPartition.card_newPart (h : IsPartition s parts) (ha : a ∉ s) :
    (Lib.newPart a parts).card = parts.card + 1 :=
  Finset.card_insert_of_notMem fun hmem =>
    h.notMem_part ha hmem (Finset.mem_singleton_self a)

theorem IsPartition.card_joinPart (h : IsPartition s parts) (ha : a ∉ s) (ht : t ∈ parts) :
    (Lib.joinPart a t parts).card = parts.card := by
  have hnew : insert a t ∉ parts.erase t := fun hmem =>
    h.notMem_part ha (Finset.mem_of_mem_erase hmem) (Finset.mem_insert_self a t)
  rw [Lib.joinPart, Finset.card_insert_of_notMem hnew, Finset.card_erase_add_one ht]

end Mil.Lib
