import Mathlib.Data.List.Sort
import Mathlib.Order.Basic
import Mil.Lib.FoldM

/-!
# Parallel arrays

Records kept as parallel arrays are sorted by their positions: `argsort` gives the positions in the
order of one array, and every array is then indexed by these positions (`gather`). That the arrays
still belong together afterwards is `gather_argsort`: each is the array of the sorted records.
Looking up sorted keys by binary search is indexing too (`gather_searchsorted`).
-/

set_option autoImplicit false

namespace Mil.Lib

variable {ρ κ α : Type}

/-- `array[order]` for an array of positions; a position that does not exist is an exception. -/
def gather (order : List Nat) (l : List α) : Option (List α) := order.mapM (l[·]?)

/-- The positions in the order of the keys. -/
def argsort (r : κ → κ → Prop) [DecidableRel r] (keys : List κ) : List Nat :=
  (keys.zipIdx.insertionSort fun a b => r a.1 b.1).map Prod.snd

/-- `np.searchsorted` for one value. -/
def searchsorted [LinearOrder κ] (l : List κ) (value : κ) : Nat :=
  l.findIdx fun x => decide (value ≤ x)

theorem gather_map {β : Type} (f : α → β) (order : List Nat) {l l' : List α}
    (h : gather order l = some l') : gather order (l.map f) = some (l'.map f) := by
  induction order generalizing l' with
  | nil =>
    obtain rfl := Option.some.inj h
    rfl
  | cons i order ih =>
    rw [gather, List.mapM_cons] at h
    obtain ⟨a, ha, h⟩ := Option.bind_eq_some_iff.mp h
    obtain ⟨as, has, h⟩ := Option.bind_eq_some_iff.mp h
    obtain rfl := Option.some.inj h
    have hrest : (order.mapM fun j => (l.map f)[j]?) = some (as.map f) := ih has
    rw [gather, List.mapM_cons, List.getElem?_map, ha, hrest]
    rfl

theorem mem_gather {order : List Nat} {l l' : List α} (h : gather order l = some l') {a : α} :
    a ∈ l' ↔ ∃ i ∈ order, l[i]? = some a := by
  induction order generalizing l' with
  | nil =>
    obtain rfl := Option.some.inj h
    simp
  | cons i order ih =>
    rw [gather, List.mapM_cons] at h
    obtain ⟨b, hb, h⟩ := Option.bind_eq_some_iff.mp h
    obtain ⟨bs, hbs, h⟩ := Option.bind_eq_some_iff.mp h
    obtain rfl := Option.some.inj h
    rw [List.mem_cons, ih hbs, List.exists_mem_cons_iff, hb, Option.some_inj, eq_comm]

/-- Different positions have different elements. -/
theorem nodup_gather {order : List Nat} (horder : order.Nodup) {l l' : List α} (hl : l.Nodup)
    (h : gather order l = some l') : l'.Nodup := by
  induction order generalizing l' with
  | nil =>
    obtain rfl := Option.some.inj h
    exact .nil
  | cons i order ih =>
    rw [gather, List.mapM_cons] at h
    obtain ⟨a, ha, h⟩ := Option.bind_eq_some_iff.mp h
    obtain ⟨as, has, h⟩ := Option.bind_eq_some_iff.mp h
    obtain rfl := Option.some.inj h
    obtain ⟨hi, horder⟩ := List.nodup_cons.mp horder
    refine List.nodup_cons.mpr ⟨fun hmem => ?_, ih horder has⟩
    obtain ⟨j, hj, haj⟩ := (mem_gather has).mp hmem
    have hlt := (List.getElem?_eq_some_iff.mp ha).1
    exact hi ((List.getElem?_inj hlt hl).mp (ha.trans haj.symm) ▸ hj)

/-- The records, sorted. -/
theorem gather_argsort_self (r : κ → κ → Prop) [DecidableRel r] (key : ρ → κ) (l : List ρ) :
    gather (argsort r (l.map key)) l = some (l.insertionSort fun a b => r (key a) (key b)) := by
  have hkeys : argsort r (l.map key) =
      (l.zipIdx.insertionSort fun a b => r (key a.1) (key b.1)).map Prod.snd := by
    rw [argsort, List.zipIdx_map, ← List.map_insertionSort (fun a b => r (key a.1) (key b.1)) _
      (Prod.map key id) l.zipIdx fun _ _ _ _ => Iff.rfl, List.map_map]
    rfl
  have hget : ∀ e ∈ l.zipIdx.insertionSort fun a b => r (key a.1) (key b.1),
      l[e.2]? = some e.1 := fun e he =>
    List.mem_zipIdx_iff_getElem?.mp ((List.mem_insertionSort _).mp he)
  rw [hkeys, gather, List.mapM_map]
  refine (mapM_of_forall hget).trans ?_
  rw [List.map_insertionSort (fun a b => r (key a.1) (key b.1)) (fun a b => r (key a) (key b))
    Prod.fst l.zipIdx fun _ _ _ _ => Iff.rfl, List.zipIdx_map_fst]

theorem gather_argsort {β : Type} (r : κ → κ → Prop) [DecidableRel r] (key : ρ → κ) (f : ρ → β)
    (l : List ρ) : gather (argsort r (l.map key)) (l.map f) =
      some ((l.insertionSort fun a b => r (key a) (key b)).map f) :=
  gather_map f _ (gather_argsort_self r key l)

section

variable [LinearOrder κ]

/-- Among different sorted keys a key is found where it is. -/
theorem getElem?_searchsorted {key : ρ → κ} {l : List ρ}
    (hsorted : l.Pairwise fun a b => key a < key b) {a : ρ} (ha : a ∈ l) :
    l[searchsorted (l.map key) (key a)]? = some a := by
  induction hsorted with
  | nil => cases ha
  | @cons b l hb _ ih =>
    rw [List.map_cons, searchsorted, List.findIdx_cons]
    rcases List.mem_cons.mp ha with rfl | ha
    · rw [decide_eq_true (le_refl _)]
      rfl
    · rw [decide_eq_false (not_le.mpr (hb a ha))]
      exact ih ha

theorem gather_searchsorted {key : ρ → κ} {l l' : List ρ}
    (hsorted : l.Pairwise fun a b => key a < key b) (hsub : l' ⊆ l) :
    gather ((l'.map key).map (searchsorted (l.map key))) l = some l' := by
  rw [gather, List.map_map, List.mapM_map]
  have hget : ∀ a ∈ l', l[searchsorted (l.map key) (key a)]? = some a := fun a ha =>
    getElem?_searchsorted hsorted (hsub ha)
  exact (mapM_of_forall (h := id) hget).trans (congrArg some (List.map_id l'))

end

end Mil.Lib
