import Mathlib.Data.List.Basic
import Mil.Lib.Columns
import Mil.Lib.FoldM

/-!
# Batches

The rows of a batch are the rows of its items one after the other: an index range gathers the rows
of an item (`gather_range'`), and the ranges of some items gather theirs (`gather_blocks`). The
items of a batch are sorted into categories, and what is computed category by category is put back by
the index of the item (`lookup_category`, `mapM_lookup_categories`).
-/

set_option autoImplicit false

namespace Mil.Lib

variable {α β γ ι κ ρ σ : Type}

/-! ## Rows -/

theorem gather_append {order order' : List Nat} {l xs ys : List α}
    (h : gather order l = some xs) (h' : gather order' l = some ys) :
    gather (order ++ order') l = some (xs ++ ys) := by
  unfold gather at h h' ⊢
  rw [List.mapM_append, h, h']
  rfl

/-- A range of indices gathers a slice. -/
theorem gather_range' {start n : Nat} {l : List α} (h : start + n ≤ l.length) :
    gather (List.range' start n) l = some ((l.drop start).take n) := by
  induction n generalizing start with
  | zero => rfl
  | succ n ih =>
    have hlt : start < l.length := by omega
    have hrest := @ih (start + 1) (by omega)
    have hone : gather [start] l = some [l[start]] := by
      rw [gather, List.mapM_cons, List.getElem?_eq_getElem hlt]
      rfl
    rw [List.range'_succ, ← List.singleton_append, gather_append hone hrest,
      List.drop_eq_getElem_cons hlt, List.take_succ_cons]
    rfl

/-- A range of indices into a block among others. -/
theorem gather_block (front block back : List α) {start n : Nat}
    (h : start + n ≤ block.length) :
    gather (List.range' (front.length + start) n) (front ++ (block ++ back)) =
      some ((block.drop start).take n) := by
  have hle : front.length + start + n ≤ (front ++ (block ++ back)).length := by
    rw [List.length_append, List.length_append]
    omega
  have hdrop : (front ++ (block ++ back)).drop (front.length + start) =
      block.drop start ++ back := by
    rw [← List.drop_drop, List.drop_left, List.drop_append_of_le_length (by omega)]
  rw [gather_range' hle, hdrop, List.take_append_of_le_length]
  rw [List.length_drop]
  omega

/-- The indices of the second parts of the blocks that are picked; each block has two parts. -/
def blockIndices (pick : ι → Bool) (skip size : ι → Nat) : Nat → List ι → List Nat
  | _, [] => []
  | start, i :: is =>
    (if pick i then List.range' (start + skip i) (size i) else []) ++
      blockIndices pick skip size (start + skip i + size i) is

theorem blockIndices_map {ι' : Type} (f : ι' → ι) (pick : ι → Bool) (skip size : ι → Nat)
    (start : Nat) (is : List ι') :
    blockIndices pick skip size start (is.map f) =
      blockIndices (fun i => pick (f i)) (fun i => skip (f i)) (fun i => size (f i)) start is := by
  induction is generalizing start with
  | nil => rfl
  | cons i is ih => exact congrArg (_ ++ ·) (ih _)

theorem gather_blocks (pick : ι → Bool) {skip size : ι → Nat} {first second : ι → List α}
    {is : List ι} (hskip : ∀ i ∈ is, (first i).length = skip i)
    (hsize : ∀ i ∈ is, (second i).length = size i) (front back : List α) :
    gather (blockIndices pick skip size front.length is)
        (front ++ (is.flatMap fun i => first i ++ second i) ++ back) =
      some ((is.filter pick).flatMap second) := by
  induction is generalizing front with
  | nil => rfl
  | cons i is ih =>
    have hrest := ih (fun j hj => hskip j (.tail _ hj)) (fun j hj => hsize j (.tail _ hj))
      (front ++ (first i ++ second i))
    have hi := hskip i (.head _)
    have hi' := hsize i (.head _)
    rw [List.length_append, List.length_append, hi, hi', ← Nat.add_assoc] at hrest
    have hall : front ++ ((i :: is).flatMap fun i => first i ++ second i) ++ back =
        front ++ (first i ++ second i) ++ (is.flatMap fun i => first i ++ second i) ++ back := by
      rw [List.flatMap_cons]
      simp only [List.append_assoc]
    rw [hall, blockIndices]
    cases hpick : pick i with
    | false =>
      rw [List.filter_cons_of_neg (by simp [hpick])]
      exact hrest
    | true =>
      have hfirst : gather (List.range' (front.length + skip i) (size i))
          (front ++ (first i ++ second i) ++ (is.flatMap fun i => first i ++ second i) ++ back) =
          some (second i) := by
        have hle : 0 + size i ≤ (second i).length := by rw [Nat.zero_add, hi']
        have hslice := gather_block (front ++ first i) (second i)
          ((is.flatMap fun i => first i ++ second i) ++ back) hle
        rw [List.length_append, hi, List.drop_zero, ← hi', List.take_length, hi', Nat.add_zero]
          at hslice
        simpa only [List.append_assoc] using hslice
      rw [List.filter_cons_of_pos hpick, List.flatMap_cons]
      exact gather_append hfirst hrest

/-! ## Loops -/

theorem le_foldl_max {a b : Nat} {l : List Nat} (h : a ≤ b ∨ a ∈ l) : a ≤ l.foldl max b := by
  induction l generalizing b with
  | nil => exact h.resolve_right List.not_mem_nil
  | cons c l ih =>
    rw [List.foldl_cons]
    apply ih
    rcases h with h | h
    · exact .inl (Nat.le_trans h (Nat.le_max_left b c))
    · rcases List.mem_cons.mp h with rfl | h
      · exact .inl (Nat.le_max_right b a)
      · exact .inr h

theorem zipWith_flatMap {f : α → β → γ} {a : ι → List α} {b : ι → List β} {is : List ι}
    (h : ∀ i ∈ is, (a i).length = (b i).length) :
    List.zipWith f (is.flatMap a) (is.flatMap b) =
      is.flatMap fun i => List.zipWith f (a i) (b i) := by
  induction is with
  | nil => rfl
  | cons i is ih =>
    obtain ⟨hi, his⟩ := List.forall_mem_cons.mp h
    rw [List.flatMap_cons, List.flatMap_cons, List.flatMap_cons, List.zipWith_append hi, ih his]

theorem mapM_eq_none_iff {f : α → Option β} {l : List α} :
    l.mapM f = none ↔ ∃ a ∈ l, f a = none := by
  induction l with
  | nil => simp
  | cons a l ih =>
    rw [List.mapM_cons, List.exists_mem_cons_iff, ← ih]
    cases f a with
    | none => simp
    | some b =>
      cases l.mapM f with
      | none => simp
      | some bs => simp

/-- What a loop gives comes from its items, and each item gives something. -/
theorem mem_of_mapM {f : α → Option β} {l : List α} {bs : List β} (h : l.mapM f = some bs) :
    (∀ b ∈ bs, ∃ a ∈ l, f a = some b) ∧ ∀ a ∈ l, ∃ b ∈ bs, f a = some b := by
  induction l generalizing bs with
  | nil =>
    obtain rfl := Option.some.inj h
    exact ⟨fun b hb => absurd hb List.not_mem_nil, fun a ha => absurd ha List.not_mem_nil⟩
  | cons a l ih =>
    rw [List.mapM_cons] at h
    obtain ⟨b, hb, h⟩ := Option.bind_eq_some_iff.mp h
    obtain ⟨bs', hbs, h⟩ := Option.bind_eq_some_iff.mp h
    obtain rfl := Option.some.inj h
    obtain ⟨hfrom, hto⟩ := ih hbs
    refine ⟨List.forall_mem_cons.mpr ⟨⟨a, .head _, hb⟩, fun b' hb' => ?_⟩,
      List.forall_mem_cons.mpr ⟨⟨b, .head _, hb⟩, fun a' ha' => ?_⟩⟩
    · obtain ⟨a', ha', hab⟩ := hfrom b' hb'
      exact ⟨a', .tail _ ha', hab⟩
    · obtain ⟨b', hb', hab⟩ := hto a' ha'
      exact ⟨b', .tail _ hb', hab⟩

/-- Two loops, one behind the other, are one loop. -/
theorem mapM_bind_zip (f : ι → Option ρ) (g : ι × ρ → Option σ) (is : List ι) :
    ((is.mapM f).bind fun rs => (is.zip rs).mapM g) =
      is.mapM fun i => (f i).bind fun r => g (i, r) := by
  induction is with
  | nil => rfl
  | cons i is ih =>
    rw [List.mapM_cons, List.mapM_cons]
    cases f i with
    | none => rfl
    | some r =>
      rw [← ih]
      cases is.mapM f with
      | none =>
        show none = (g (i, r)).bind fun _ => none
        cases g (i, r) <;> rfl
      | some rs =>
        show (((i, r) :: is.zip rs).mapM g) = _
        rw [List.mapM_cons]
        rfl

/-- A loop over the indices is one over the items. -/
theorem mapM_range_bind (f : ι → Option ρ) (is : List ι) :
    ((List.range is.length).mapM fun n => is[n]?.bind f) = is.mapM f := by
  induction is with
  | nil => rfl
  | cons i is ih =>
    rw [List.length_cons, List.range_succ_eq_map, List.mapM_cons, List.mapM_cons, List.mapM_map,
      ← ih]
    rfl

/-! ## Categories -/

variable [DecidableEq κ]

/-- The items of a category with their indices. -/
def category (key : ι → κ) (k : κ) (start : Nat) (is : List ι) : List (Nat × ι) :=
  ((is.zipIdx start).filter fun p => key p.1 = k).map fun p => (p.2, p.1)

theorem category_cons (key : ι → κ) (k : κ) (start : Nat) (i : ι) (is : List ι) :
    category key k start (i :: is) =
      (if key i = k then [(start, i)] else []) ++ category key k (start + 1) is := by
  unfold category
  rw [List.zipIdx_cons, List.filter_cons]
  by_cases h : key i = k <;> simp [h]

theorem lookup_category_of_lt (key : ι → κ) (k : κ) {start n : Nat} {is : List ι}
    (h : n < start) : (category key k start is).lookup n = none := by
  rw [List.lookup_eq_none_iff]
  intro p hp
  obtain ⟨q, hq, rfl⟩ := List.mem_map.mp hp
  have hle := List.le_snd_of_mem_zipIdx (List.mem_filter.mp hq).1
  exact bne_iff_ne.mpr (Nat.ne_of_lt (Nat.lt_of_lt_of_le h hle))

/-- An item is found in its category only. -/
theorem lookup_category (key : ι → κ) (k : κ) {start n : Nat} {is : List ι} :
    (category key k start is).lookup (start + n) =
      is[n]?.bind fun i => if key i = k then some i else none := by
  induction is generalizing start n with
  | nil => rfl
  | cons i is ih =>
    rw [category_cons, List.lookup_append]
    cases n with
    | zero =>
      rw [Nat.add_zero, lookup_category_of_lt key k (Nat.lt_succ_self start), Option.or_none]
      by_cases hkey : key i = k
      · simp [hkey]
      · simp [hkey]
    | succ n =>
      have hne : (start + (n + 1) == start) = false := by
        rw [beq_eq_false_iff_ne]
        omega
      have hhead : (if key i = k then [(start, i)] else []).lookup (start + (n + 1)) = none := by
        split
        · rw [List.lookup_cons, hne]
          rfl
        · rfl
      have hnext : start + (n + 1) = start + 1 + n := by omega
      rw [hhead, Option.none_or, hnext, ih, List.getElem?_cons_succ]

/-- The results of the items of a category, with the indices of the items. -/
def categoryResults (key : ι → κ) (f : ι → Option ρ) (k : κ) (is : List ι) :
    Option (List (Nat × ρ)) :=
  (category key k 0 is).mapM fun p => (f p.2).map (p.1, ·)

theorem lookup_of_mapM {f : ι → Option ρ} {l : List (Nat × ι)} {rs : List (Nat × ρ)}
    (h : (l.mapM fun p => (f p.2).map (p.1, ·)) = some rs) (n : Nat) :
    rs.lookup n = (l.lookup n).bind f := by
  induction l generalizing rs with
  | nil =>
    obtain rfl := Option.some.inj h
    rfl
  | cons p l ih =>
    rw [List.mapM_cons] at h
    obtain ⟨r, hr, h⟩ := Option.bind_eq_some_iff.mp h
    obtain ⟨rs', hrs, h⟩ := Option.bind_eq_some_iff.mp h
    obtain rfl := Option.some.inj h
    obtain ⟨x, hx, rfl⟩ := Option.map_eq_some_iff.mp hr
    obtain ⟨m, i⟩ := p
    rw [List.lookup_cons, List.lookup_cons, ih hrs]
    cases n == m with
    | true => exact hx.symm
    | false => rfl

theorem lookup_categoryResults {key : ι → κ} {f : ι → Option ρ} {k : κ} {is : List ι}
    {rs : List (Nat × ρ)} (h : categoryResults key f k is = some rs) {n : Nat} {i : ι}
    (hi : is[n]? = some i) : rs.lookup n = if key i = k then f i else none := by
  have hlookup := @lookup_category ι κ _ key k 0 n is
  rw [Nat.zero_add] at hlookup
  rw [lookup_of_mapM h, hlookup, hi]
  show (if key i = k then some i else none).bind f = _
  split <;> rfl

theorem lookup_flatten {rss : List (List (Nat × ρ))} {n : Nat} {r : Option ρ}
    (hall : ∀ rs ∈ rss, rs.lookup n = r ∨ rs.lookup n = none)
    (hone : ∃ rs ∈ rss, rs.lookup n = r) : rss.flatten.lookup n = r := by
  induction rss with
  | nil =>
    obtain ⟨_, hmem, -⟩ := hone
    cases hmem
  | cons rs rss ih =>
    rw [List.flatten_cons, List.lookup_append]
    obtain ⟨hrs, hrest⟩ := List.forall_mem_cons.mp hall
    by_cases hnone : rs.lookup n = none
    · rw [hnone, Option.none_or]
      rcases List.exists_mem_cons_iff .. |>.mp hone with hhead | hlater
      · -- nothing is found at all
        have hr : r = none := hhead.symm.trans hnone
        have hlookup : ∀ rs' ∈ rss, rs'.lookup n = none := fun rs' hrs' =>
          (hrest rs' hrs').elim (·.trans hr) id
        rw [hr, List.lookup_eq_none_iff]
        intro p hp
        obtain ⟨rs', hrs', hp⟩ := List.mem_flatten.mp hp
        exact List.lookup_eq_none_iff.mp (hlookup rs' hrs') p hp
      · exact ih hrest hlater
    · have hr := hrs.resolve_right hnone
      obtain ⟨x, hx⟩ := Option.ne_none_iff_exists'.mp hnone
      rw [hx] at hr ⊢
      rw [← hr]
      rfl

/-- What is computed category by category and looked up by the index is what is computed item by
item. -/
theorem mapM_lookup_categories {key : ι → κ} {f : ι → Option ρ} {ks : List κ} {is : List ι}
    (hcover : ∀ i ∈ is, key i ∈ ks) :
    ((ks.mapM fun k => categoryResults key f k is).bind fun rss =>
      (List.range is.length).mapM fun n => rss.flatten.lookup n) = is.mapM f := by
  cases hks : ks.mapM fun k => categoryResults key f k is with
  | none =>
    obtain ⟨k, -, hk⟩ := mapM_eq_none_iff.mp hks
    obtain ⟨p, hp, hnone⟩ := mapM_eq_none_iff.mp hk
    obtain ⟨q, hq, rfl⟩ := List.mem_map.mp hp
    have hmem := List.fst_mem_of_mem_zipIdx (List.mem_filter.mp hq).1
    exact (mapM_eq_none_iff.mpr ⟨_, hmem, Option.map_eq_none_iff.mp hnone⟩).symm
  | some rss =>
    show ((List.range is.length).mapM fun n => rss.flatten.lookup n) = _
    rw [← mapM_range_bind f is]
    apply mapM_congr
    intro n hn
    have hlt := List.mem_range.mp hn
    have hi := List.getElem?_eq_getElem hlt
    obtain ⟨hfrom, hto⟩ := mem_of_mapM hks
    rw [hi]
    apply lookup_flatten
    · intro rs hrs
      obtain ⟨k, -, hk⟩ := hfrom rs hrs
      rw [lookup_categoryResults hk hi]
      split
      · exact .inl rfl
      · exact .inr rfl
    · obtain ⟨rs, hrs, hk⟩ := hto _ (hcover _ (List.getElem_mem hlt))
      refine ⟨rs, hrs, ?_⟩
      rw [lookup_categoryResults hk hi, if_pos rfl]
      rfl

end Mil.Lib
