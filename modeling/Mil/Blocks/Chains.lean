import Mathlib.Data.Finset.Card
import Mathlib.Data.List.GetD
import Mathlib.Data.List.Sort
import Mil.Blocks.Reorganize
import Mil.Blocks.Run
import Mil.Lib.Moves

/-!
# Moving the blocks in place

`get_dependent_blk_moving_chains` of `vllm/core/block_manager.py` and `reorganize_blocks_kernel` of
`csrc/cache_kernels.cu`. The key and value caches of all layers are planes of one tensor; block `k`
of plane `l` is at `k + ori_tot_gpu_blk_num * l` before and at `k + curr_tot_gpu_blk_num * l` after
the reorganization. The chains say in which order the contents may be copied.

A thread of the kernel copies the same offset of every block of its chain, one move after the
other, and the chains run concurrently; `Interleaved` is what one offset sees.
-/

set_option autoImplicit false

namespace Mil.Blocks

open Mil.Lib Mil.Lib.Moves

/-! ## The chains -/

/-- The moves of one plane. -/
def plane (ori curr : Int) (mapping : List (Int × Int)) (layer : Nat) : List (Int × Int) :=
  mapping.map fun p => (p.1 + ori * layer, p.2 + curr * layer)

/-- `mapping_dict` after the loop over `range(1, 2*layer_num)`. -/
def mappingDict (layerNum : Nat) (ori curr : Int) (mapping : List (Int × Int)) :
    List (Int × Int) :=
  (List.range' 1 (2 * layerNum - 1)).foldl
    (fun d layer => Dict.update d (plane ori curr mapping layer)) mapping

structure ChainState where
  visited : List Int
  chains : List Int
  chainLens : List Nat
deriving DecidableEq, Repr

/-- `while(src_gid in mapping_dict)`. It can run at most once for each key when it ends at all;
without fuel it is given up. -/
def walkChain (dict : List (Int × Int)) :
    (fuel : Nat) → (srcGid : Int) → (visited chains : List Int) → Option (List Int × List Int)
  | 0, _, _, _ => none
  | fuel + 1, srcGid, visited, chains =>
    match dict.lookup srcGid with
    | none => some (visited, chains)
    | some dst => walkChain dict fuel dst (srcGid :: visited) (chains ++ [dst])

/-- One iteration of the loop over the sorted keys. -/
def chainStep (dict : List (Int × Int)) (st : ChainState) (srcGid : Int) : Option ChainState :=
  if srcGid ∈ st.visited then some st
  else if dict.lookup srcGid = some srcGid then
    some { st with visited := srcGid :: st.visited }
  else
    (walkChain dict (dict.length + 1) srcGid st.visited (st.chains ++ [srcGid])).map
      fun (visited, chains) => ⟨visited, chains, st.chainLens ++ [chains.length]⟩

def getDependentBlkMovingChains (cfg : Config) (m : BlockManager) (layerNum : Nat)
    (fromblknumToBlknum : List (Int × Int)) : Option (List Int × List Nat) :=
  let currTotGpuBlkNum := m.actualGpuBlkRngEnd
  let oriTotGpuBlkNum := currTotGpuBlkNum + (m.loadMoreLayerOnCardNum * cfg.blkNumPerLayer : Nat)
  let dict := mappingDict layerNum oriTotGpuBlkNum currTotGpuBlkNum fromblknumToBlknum
  let fromBlkGids := (Dict.keys dict).insertionSort (· ≤ ·)
  (fromBlkGids.reverse.foldlM (chainStep dict) ⟨[], [], [0]⟩).map
    fun st => (st.chains, st.chainLens)

/-! ## The kernel -/

/-- The loop of one thread block: `iter_i` from `hi - 1` down to `lo + 1`. -/
def kernelMoves (chains : List Int) (lo hi : Nat) : List (Int × Int) :=
  (List.range' (lo + 1) (hi - 1 - lo)).reverse.map fun iter =>
    (chains.getD (iter - 1) 0, chains.getD iter 0)

/-- The moves of all thread blocks; there is one for each two neighbours in `chain_lens`. -/
def kernelChains (chains : List Int) (chainLens : List Nat) : List (List (Int × Int)) :=
  (chainLens.zip chainLens.tail).map fun p => kernelMoves chains p.1 p.2

/-! ## What is asked of them -/

/-- Running the chains, in any interleaving, puts the content of every block of the mapping into
its place in the new layout, in every plane. No two chains touch one position, and every position
that is not its own target is the source of one move. -/
structure Sequentialised (layerNum : Nat) (ori curr : Int) (mapping : List (Int × Int))
    (chains : List Int) (chainLens : List Nat) : Prop where
  content : ∀ {β : Type} (mem : Int → β) (out : List (Int × Int)),
    Interleaved (kernelChains chains chainLens) out → ∀ l < max 1 (2 * layerNum), ∀ p ∈ mapping,
      run out mem (p.2 + curr * l) = mem (p.1 + ori * l)
  disjoint : Moves.Disjoint (kernelChains chains chainLens)
  once : ∀ l < max 1 (2 * layerNum), ∀ p ∈ mapping, p.2 + curr * l ≠ p.1 + ori * l →
    ((kernelChains chains chainLens).flatten.map Prod.fst).count (p.1 + ori * l) = 1

/-! ## The dictionary of all planes -/

section Planes

variable {layerNum : Nat} {ori curr : Int} {mapping : List (Int × Int)}

theorem plane_zero : plane ori curr mapping 0 = mapping := by
  simp [plane]

theorem mem_keys_plane {l : Nat} {x : Int} :
    x ∈ Dict.keys (plane ori curr mapping l) ↔ ∃ p ∈ mapping, x = p.1 + ori * l := by
  rw [plane, Dict.keys, List.map_map, List.mem_map]
  exact exists_congr fun p => and_congr_right fun _ => eq_comm

/-- Positions of different planes are different. -/
theorem eq_of_add_mul_eq {n a b : Int} {l k : Nat} (ha : 0 ≤ a ∧ a < n) (hb : 0 ≤ b ∧ b < n)
    (h : a + n * l = b + n * k) : l = k ∧ a = b := by
  have hn : 0 < n := lt_of_le_of_lt ha.1 ha.2
  have hdiv : ∀ (c : Int) (j : Nat), 0 ≤ c ∧ c < n → (c + n * j) / n = j := fun c j hc => by
    rw [Int.add_mul_ediv_left c j (ne_of_gt hn), Int.ediv_eq_zero_of_lt hc.1 hc.2, Int.zero_add]
  have hl : l = k := Int.ofNat_inj.mp <| by rw [← hdiv a l ha, ← hdiv b k hb, h]
  refine ⟨hl, ?_⟩
  rw [hl] at h
  omega

/-- The dictionary is the list of the moves of all planes. -/
theorem mappingDict_eq (h : BlockManager.Shrinks mapping ori curr) :
    mappingDict layerNum ori curr mapping =
      (List.range (max 1 (2 * layerNum))).flatMap (plane ori curr mapping) := by
  have hplanes : ∀ k : Nat, (List.range' 1 k).foldl
      (fun d layer => Dict.update d (plane ori curr mapping layer)) mapping =
      (List.range (k + 1)).flatMap (plane ori curr mapping) := by
    intro k
    induction k with
    | zero =>
      rw [List.range'_zero, List.foldl_nil, List.range_one, List.flatMap_singleton, plane_zero]
    | succ k ih =>
      have hnew : (Dict.keys (plane ori curr mapping (k + 1))).Nodup := by
        have hkeys : Dict.keys (plane ori curr mapping (k + 1)) =
            (Dict.keys mapping).map fun i => i + ori * (k + 1 : Nat) := by
          rw [plane, Dict.keys, Dict.keys, List.map_map, List.map_map]
          rfl
        rw [hkeys]
        exact h.keys_nodup.map fun a b (heq : a + _ = b + _) => by omega
      rw [List.range'_1_concat, List.foldl_append, ih, List.foldl_cons, List.foldl_nil,
        Nat.add_comm 1 k, Dict.update_eq_append hnew, List.range_succ (n := k + 1),
        List.flatMap_append, List.flatMap_singleton]
      intro x hx hx'
      rw [Dict.keys, List.map_flatMap, List.mem_flatMap] at hx
      obtain ⟨l, hl, hx⟩ := hx
      obtain ⟨p, hp, rfl⟩ := mem_keys_plane.mp hx
      obtain ⟨q, hq, heq⟩ := mem_keys_plane.mp hx'
      have hlt := List.mem_range.mp hl
      exact absurd (eq_of_add_mul_eq (h.key_mem p hp) (h.key_mem q hq) heq).1 (by omega)
  have hmax : 2 * layerNum - 1 + 1 = max 1 (2 * layerNum) := by omega
  rw [mappingDict, hplanes, hmax]

/-- What the dictionary maps a position to. -/
theorem lookup_mappingDict (h : BlockManager.Shrinks mapping ori curr) {x y : Int} :
    (mappingDict layerNum ori curr mapping).lookup x = some y ↔
      ∃ l < max 1 (2 * layerNum), ∃ p ∈ mapping, x = p.1 + ori * l ∧ y = p.2 + curr * l := by
  have hmem : ∀ q : Int × Int, q ∈ mappingDict layerNum ori curr mapping ↔
      ∃ l < max 1 (2 * layerNum), ∃ p ∈ mapping, q.1 = p.1 + ori * l ∧ q.2 = p.2 + curr * l := by
    intro q
    rw [mappingDict_eq h, List.mem_flatMap]
    simp only [List.mem_range, plane, List.mem_map, Prod.ext_iff]
    exact exists_congr fun l => and_congr_right fun _ => exists_congr fun p =>
      and_congr_right fun _ => and_congr eq_comm eq_comm
  constructor
  · exact fun hlook => (hmem (x, y)).mp (Dict.mem_of_lookup hlook)
  · rintro ⟨l, hl, p, hp, rfl, rfl⟩
    cases hlook : (mappingDict layerNum ori curr mapping).lookup (p.1 + ori * l) with
    | none =>
      exact absurd (Dict.mem_keys_of_mem ((hmem (_, _)).mpr ⟨l, hl, p, hp, rfl, rfl⟩))
        (Dict.lookup_eq_none.mp hlook)
    | some z =>
      obtain ⟨k, -, q, hq, hx, rfl⟩ := (hmem (_, z)).mp (Dict.mem_of_lookup hlook)
      obtain ⟨rfl, hkey⟩ := eq_of_add_mul_eq (h.key_mem p hp) (h.key_mem q hq) hx
      have hpq : q.2 = p.2 := by
        have hp' := Dict.lookup_of_mem h.keys_nodup (show (p.1, p.2) ∈ mapping from hp)
        have hq' := Dict.lookup_of_mem h.keys_nodup (show (q.1, q.2) ∈ mapping from hq)
        rw [← hkey, hp'] at hq'
        exact (Option.some.inj hq').symm
      rw [hpq]

/-- A move goes down, and never to a position that stays. -/
theorem lookup_le (h : BlockManager.Shrinks mapping ori curr) {x y : Int}
    (hlook : (mappingDict layerNum ori curr mapping).lookup x = some y) :
    y ≤ x ∧ (y ≠ x → (mappingDict layerNum ori curr mapping).lookup y ≠ some y) := by
  obtain ⟨l, -, p, hp, rfl, rfl⟩ := (lookup_mappingDict h).mp hlook
  have hplane : ∀ k : Nat, curr * (k : Int) ≤ ori * k := fun k =>
    Int.mul_le_mul_of_nonneg_right h.new_le (Int.natCast_nonneg k)
  refine ⟨Int.add_le_add (h.value_le p hp) (hplane l), fun hne hfix => hne ?_⟩
  obtain ⟨k, -, q, hq, hkey, hvalue⟩ := (lookup_mappingDict h).mp hfix
  obtain ⟨rfl, hpq⟩ := eq_of_add_mul_eq (h.value_mem p hp) (h.value_mem q hq) hvalue
  have hle := h.value_le q hq
  have hle' := hplane l
  have hqq : q.2 = q.1 := by omega
  obtain rfl := h.fixed p hp q hq hqq hpq
  omega

end Planes

/-! ## The kernel runs each chain from its end -/

theorem kernelMoves_append {pre post : List Int} {lo hi : Nat} (hhi : hi ≤ pre.length) :
    kernelMoves (pre ++ post) lo hi = kernelMoves pre lo hi := by
  rw [kernelMoves, kernelMoves]
  refine List.map_congr_left fun iter hiter => ?_
  have hlt := List.mem_range'_1.mp (List.mem_reverse.mp hiter)
  rw [List.getD_append _ _ _ _ (by omega), List.getD_append _ _ _ _ (by omega)]

theorem kernelMoves_segment (pre chain : List Int) :
    kernelMoves (pre ++ chain) pre.length (pre.length + chain.length) = chainMoves chain := by
  induction chain generalizing pre with
  | nil =>
    have hnone : pre.length + ([] : List Int).length - 1 - pre.length = 0 := by
      rw [List.length_nil]
      omega
    rw [kernelMoves, hnone]
    rfl
  | cons a chain ih =>
    cases chain with
    | nil =>
      rw [kernelMoves, List.length_singleton, Nat.add_sub_cancel, Nat.sub_self]
      rfl
    | cons b rest =>
      have hih := ih (pre ++ [a])
      rw [List.length_append, List.length_singleton, List.append_assoc, List.singleton_append]
        at hih
      have hcount : pre.length + (a :: b :: rest).length - 1 - pre.length =
          (pre.length + 1 + (b :: rest).length - 1 - (pre.length + 1)) + 1 := by
        rw [List.length_cons, List.length_cons]
        omega
      rw [kernelMoves, hcount, List.range'_succ, List.reverse_cons, List.map_append, chainMoves,
        ← hih, kernelMoves, List.map_singleton, Nat.add_sub_cancel,
        List.getD_append_right _ _ _ _ (Nat.le_refl _),
        List.getD_append_right _ _ _ _ (Nat.le_succ _), Nat.sub_self,
        Nat.succ_sub (Nat.le_refl _), Nat.sub_self]
      rfl

theorem zip_tail_concat {lens : List Nat} {lo hi : Nat} (hlast : lens.getLast? = some lo) :
    (lens ++ [hi]).zip (lens ++ [hi]).tail = lens.zip lens.tail ++ [(lo, hi)] := by
  induction lens with
  | nil => cases hlast
  | cons a lens ih =>
    cases lens with
    | nil =>
      obtain rfl := Option.some.inj hlast
      rfl
    | cons b lens =>
      have := ih (by rwa [List.getLast?_cons_cons] at hlast)
      simp only [List.cons_append, List.tail_cons, List.zip_cons_cons] at this ⊢
      rw [this]

/-- A further segment is a further chain. -/
theorem kernelChains_concat {chains chain : List Int} {lens : List Nat}
    (hlast : lens.getLast? = some chains.length) (hle : ∀ k ∈ lens, k ≤ chains.length) :
    kernelChains (chains ++ chain) (lens ++ [chains.length + chain.length]) =
      kernelChains chains lens ++ [chainMoves chain] := by
  rw [kernelChains, zip_tail_concat hlast, List.map_append, List.map_singleton,
    kernelMoves_segment, kernelChains]
  refine congrArg (· ++ _) (List.map_congr_left fun p hp => kernelMoves_append (hle _ ?_))
  exact List.mem_of_mem_tail (List.of_mem_zip hp).2

/-! ## What the search finds -/

section Search

variable {dict : List (Int × Int)}

/-- The dictionary as a partial map. -/
abbrev next (dict : List (Int × Int)) (x : Int) : Option Int := dict.lookup x

/-- No move goes up, and none ends at a position that stays. -/
def Down (dict : List (Int × Int)) : Prop :=
  ∀ x y, dict.lookup x = some y → y ≤ x ∧ (y ≠ x → dict.lookup y ≠ some y)

/-- The keys up to a position; a walk down takes one away with each step. -/
def keysUpTo (dict : List (Int × Int)) (x : Int) : Finset Int :=
  (Dict.keys dict).toFinset.filter (· ≤ x)

theorem card_keysUpTo_lt {x y : Int} (hlook : dict.lookup x = some y) (hlt : y < x) :
    (keysUpTo dict y).card < (keysUpTo dict x).card := by
  refine Finset.card_lt_card (Finset.ssubset_iff_of_subset ?_ |>.mpr ⟨x, ?_, ?_⟩)
  · exact Finset.monotone_filter_right _ fun z _ hz => le_trans hz hlt.le
  · exact Finset.mem_filter.mpr
      ⟨List.mem_toFinset.mpr (Dict.mem_keys_of_lookup hlook), le_refl x⟩
  · exact fun hmem => absurd (Finset.mem_filter.mp hmem).2 (not_le.mpr hlt)

theorem card_keysUpTo_le (x : Int) : (keysUpTo dict x).card ≤ dict.length :=
  calc (keysUpTo dict x).card ≤ (Dict.keys dict).toFinset.card := Finset.card_filter_le _ _
    _ ≤ (Dict.keys dict).length := List.toFinset_card_le _
    _ = dict.length := List.length_map _

/-- The inner loop ends and appends the walk from its start. -/
theorem walkChain_spec (hdown : Down dict) {fuel : Nat} {x : Int} (visited chains : List Int)
    (hfuel : (keysUpTo dict x).card < fuel) (hx : dict.lookup x ≠ some x) :
    ∃ visited' rest, walkChain dict fuel x visited chains = some (visited', chains ++ rest) ∧
      Walk (next dict) x rest ∧
      ∀ z, z ∈ visited' ↔ z ∈ visited ∨ (z ∈ x :: rest ∧ dict.lookup z ≠ none) := by
  induction fuel generalizing x visited chains with
  | zero => cases hfuel
  | succ fuel ih =>
    cases hlook : dict.lookup x with
    | none =>
      refine ⟨visited, [], ?_, .last hlook, fun z => ?_⟩
      · rw [walkChain, hlook, List.append_nil]
      · refine ⟨Or.inl, ?_⟩
        rintro (hz | ⟨hz, hne⟩)
        · exact hz
        · exact absurd (List.mem_singleton.mp hz ▸ hlook) hne
    | some y =>
      have hne : y ≠ x := fun heq => hx (heq ▸ hlook)
      obtain ⟨hle, hstay⟩ := hdown x y hlook
      have hcard := card_keysUpTo_lt hlook (lt_of_le_of_ne hle hne)
      obtain ⟨visited', rest, hwalk, hw, hmem⟩ :=
        ih (x :: visited) (chains ++ [y]) (by omega) (hstay hne)
      refine ⟨visited', y :: rest, ?_, .step hlook hne hw, fun z => ?_⟩
      · rw [walkChain, hlook]
        exact hwalk.trans (by rw [List.append_assoc]; rfl)
      · rw [hmem z, List.mem_cons, List.mem_cons (a := z) (b := x)]
        constructor
        · rintro ((rfl | hz) | ⟨hz, hne⟩)
          · exact .inr ⟨.inl rfl, fun hnone => Option.some_ne_none _ (hlook.symm.trans hnone)⟩
          · exact .inl hz
          · exact .inr ⟨.inr hz, hne⟩
        · rintro (hz | ⟨rfl | hz, hne⟩)
          · exact .inl (.inr hz)
          · exact .inl (.inl rfl)
          · exact .inr ⟨hz, hne⟩

/-- What the search has found: chains `cs`, each a start and the way from there. -/
structure Found (dict : List (Int × Int)) (st : ChainState) (cs : List (Int × List Int)) :
    Prop where
  kernel : kernelChains st.chains st.chainLens = cs.map fun c => chainMoves (c.1 :: c.2)
  last : st.chainLens.getLast? = some st.chains.length
  lens_le : ∀ k ∈ st.chainLens, k ≤ st.chains.length
  walk : ∀ c ∈ cs, Walk (next dict) c.1 c.2
  start : ∀ c ∈ cs, ∀ a, ¬ Step (next dict) a c.1
  starts : cs.Pairwise fun c c' => c.1 ≠ c'.1
  mem_visited : ∀ c ∈ cs, ∀ z ∈ c.1 :: c.2, dict.lookup z ≠ none → z ∈ st.visited
  visited : ∀ z ∈ st.visited, dict.lookup z = some z ∨ ∃ c ∈ cs, z ∈ c.1 :: c.2

/-- A step of the search: afterwards the key is visited, whatever was before still is. -/
theorem Found.step {st : ChainState} {cs : List (Int × List Int)} (h : Found dict st cs)
    (hdown : Down dict) {x : Int} (hkey : dict.lookup x ≠ none)
    (hvisited : ∀ z, x < z → dict.lookup z ≠ none → z ∈ st.visited) :
    ∃ st' cs', chainStep dict st x = some st' ∧ Found dict st' cs' ∧ x ∈ st'.visited ∧
      ∀ z ∈ st.visited, z ∈ st'.visited := by
  by_cases hx : x ∈ st.visited
  · exact ⟨st, cs, if_pos hx, h, hx, fun _ hz => hz⟩
  by_cases hfix : dict.lookup x = some x
  · refine ⟨{ st with visited := x :: st.visited }, cs, ?_, { h with
      mem_visited := fun c hc z hz hne => List.mem_cons_of_mem _ (h.mem_visited c hc z hz hne)
      visited := fun z hz => ?_ }, List.mem_cons_self, fun z hz => List.mem_cons_of_mem _ hz⟩
    · rw [chainStep, if_neg hx, if_pos hfix]
    · rcases List.mem_cons.mp hz with rfl | hz
      · exact .inl hfix
      · exact h.visited z hz
  obtain ⟨visited', rest, hwalk, hw, hmem⟩ := walkChain_spec hdown st.visited
    (st.chains ++ [x]) (Nat.lt_succ_of_le (card_keysUpTo_le x)) hfix
  have hchains : st.chains ++ [x] ++ rest = st.chains ++ (x :: rest) := by
    rw [List.append_assoc, List.singleton_append]
  rw [hchains] at hwalk
  refine ⟨⟨visited', st.chains ++ (x :: rest), st.chainLens ++ [(st.chains ++ (x :: rest)).length]⟩,
    cs ++ [(x, rest)], ?_, ⟨?_, ?_, ?_, ?_, ?_, ?_, ?_, ?_⟩, ?_, ?_⟩
  · rw [chainStep, if_neg hx, if_neg hfix, hwalk]
    rfl
  · rw [List.length_append, kernelChains_concat h.last h.lens_le, h.kernel, List.map_append]
    rfl
  · exact List.getLast?_concat
  · intro k hk
    rw [List.length_append]
    rcases List.mem_append.mp hk with hk | hk
    · exact (h.lens_le k hk).trans (Nat.le_add_right _ _)
    · rw [List.mem_singleton.mp hk, List.length_append]
  · intro c hc
    rcases List.mem_append.mp hc with hc | hc
    · exact h.walk c hc
    · obtain rfl := List.mem_singleton.mp hc
      exact hw
  · -- what is mapped to `x` is above it, so it was visited, and then `x` was
    intro c hc
    rcases List.mem_append.mp hc with hc | hc
    · exact h.start c hc
    · obtain rfl := List.mem_singleton.mp hc
      rintro a ⟨hlook, hne⟩
      have hlt : x < a := lt_of_le_of_ne (hdown a x hlook).1 hne
      rcases h.visited a (hvisited a hlt fun hnone => Option.some_ne_none _ (hlook.symm.trans hnone)) with
        hself | ⟨c, hc, hmem⟩
      · exact hne (Option.some.inj (hlook.symm.trans hself))
      · have hin := mem_chainMoves ((h.walk c hc).mem_moves hmem hlook)
        exact hx (h.mem_visited c hc x (List.mem_of_mem_tail hin.2) hkey)
  · refine List.pairwise_append.mpr ⟨h.starts, List.pairwise_singleton _ _, fun c hc c' hc' heq => ?_⟩
    obtain rfl := List.mem_singleton.mp hc'
    exact hx (h.mem_visited c hc x (heq ▸ List.mem_cons_self) hkey)
  · intro c hc z hz hne
    rcases List.mem_append.mp hc with hc | hc
    · exact (hmem z).mpr (.inl (h.mem_visited c hc z hz hne))
    · obtain rfl := List.mem_singleton.mp hc
      exact (hmem z).mpr (.inr ⟨hz, hne⟩)
  · intro z hz
    rcases (hmem z).mp hz with hz | ⟨hz, -⟩
    · refine (h.visited z hz).imp id ?_
      rintro ⟨c, hc, hz⟩
      exact ⟨c, List.mem_append_left _ hc, hz⟩
    · exact .inr ⟨(x, rest), List.mem_append_right _ List.mem_cons_self, hz⟩
  · exact (hmem x).mpr (.inr ⟨List.mem_cons_self, hkey⟩)
  · exact fun z hz => (hmem z).mpr (.inl hz)

/-- The search over keys in descending order, when the keys that are not among them are visited. -/
theorem Found.run (hdown : Down dict) {ks : List Int} {st : ChainState}
    (cs : List (Int × List Int)) (h : Found dict st cs) (hks : ks.Pairwise fun a b => b ≤ a)
    (hkey : ∀ x ∈ ks, dict.lookup x ≠ none)
    (hvisited : ∀ z, dict.lookup z ≠ none → z ∉ ks → z ∈ st.visited) :
    ∃ st' cs', ks.foldlM (chainStep dict) st = some st' ∧ Found dict st' cs' ∧
      ∀ z, dict.lookup z ≠ none → z ∈ st'.visited := by
  induction ks generalizing st cs with
  | nil => exact ⟨st, cs, rfl, h, fun z hz => hvisited z hz List.not_mem_nil⟩
  | cons x ks ih =>
    obtain ⟨hfirst, hks⟩ := List.pairwise_cons.mp hks
    have habove : ∀ z, x < z → dict.lookup z ≠ none → z ∈ st.visited := by
      intro z hlt hz
      refine hvisited z hz fun hmem => ?_
      rcases List.mem_cons.mp hmem with rfl | hmem
      · exact lt_irrefl _ hlt
      · exact absurd (hfirst z hmem) (not_le.mpr hlt)
    obtain ⟨st', cs', hstep, h', hx, hkeep⟩ := h.step hdown (hkey x List.mem_cons_self) habove
    obtain ⟨st'', cs'', hrun, h'', hall⟩ := ih _ h' hks
      (fun z hz => hkey z (List.mem_cons_of_mem _ hz)) fun z hz hnot => by
        by_cases hzx : z = x
        · exact hzx ▸ hx
        · exact hkeep z (hvisited z hz fun hmem => (List.mem_cons.mp hmem).elim hzx hnot)
    refine ⟨st'', cs'', ?_, h'', hall⟩
    rw [List.foldlM_cons, hstep]
    exact hrun

/-- The search over all keys finds chains that cover every position that is moved. -/
theorem search_spec (hdown : Down dict) :
    ∃ st cs, ((Dict.keys dict).insertionSort (· ≤ ·)).reverse.foldlM (chainStep dict) ⟨[], [], [0]⟩ =
      some st ∧ Found dict st cs ∧ ∀ z, dict.lookup z ≠ none → z ∈ st.visited := by
  have hmem : ∀ z, z ∈ ((Dict.keys dict).insertionSort (· ≤ ·)).reverse ↔ dict.lookup z ≠ none := by
    intro z
    rw [List.mem_reverse, List.mem_insertionSort, Ne, Dict.lookup_eq_none, not_not]
  refine Found.run hdown [] ⟨rfl, rfl, ?_, ?_, ?_, .nil, ?_, ?_⟩ ?_
    (fun x hx => (hmem x).mp hx) fun z hz hnot => absurd ((hmem z).mpr hz) hnot
  · intro k hk
    rw [List.mem_singleton.mp hk]
    exact Nat.zero_le _
  · exact fun _ hc => (List.not_mem_nil hc).elim
  · exact fun _ hc => (List.not_mem_nil hc).elim
  · exact fun _ hc => (List.not_mem_nil hc).elim
  · exact fun _ hz => (List.not_mem_nil hz).elim
  · exact List.pairwise_reverse.mpr (List.pairwise_insertionSort (· ≤ ·) _)

end Search

/-! ## The chains of a reorganization -/

variable {cfg : Config} {m m' : BlockManager} {n : Nat} {mapping : List (Int × Int)}

/-- The search on the planes of a mapping that shrinks: it ends, and what it found covers the
planes. -/
theorem chains_spec (layerNum : Nat) {ori curr : Int}
    (hm : BlockManager.Shrinks mapping ori curr) :
    ∃ st cs, ((Dict.keys (mappingDict layerNum ori curr mapping)).insertionSort
        (· ≤ ·)).reverse.foldlM (chainStep (mappingDict layerNum ori curr mapping)) ⟨[], [], [0]⟩ =
          some st ∧
      Found (mappingDict layerNum ori curr mapping) st cs ∧
      ∀ z, (mappingDict layerNum ori curr mapping).lookup z ≠ none → z ∈ st.visited :=
  search_spec fun _ _ hlook => lookup_le hm hlook

/-- When no two blocks go to one number, what was found is as asked. -/
theorem Found.sequentialised {layerNum : Nat} {ori curr : Int}
    (hm : BlockManager.Shrinks mapping ori curr) {st : ChainState} {cs : List (Int × List Int)}
    (h : Found (mappingDict layerNum ori curr mapping) st cs)
    (hall : ∀ z, (mappingDict layerNum ori curr mapping).lookup z ≠ none → z ∈ st.visited)
    (hinj : ∀ p ∈ mapping, ∀ q ∈ mapping, p.2 = q.2 → p = q) :
    Sequentialised layerNum ori curr mapping st.chains st.chainLens := by
  set dict := mappingDict layerNum ori curr mapping with hdict
  have hstepInj : ∀ a b c, Step (next dict) a c → Step (next dict) b c → a = b := by
    rintro a b c ⟨ha, -⟩ ⟨hb, -⟩
    obtain ⟨l, -, p, hp, rfl, rfl⟩ := (lookup_mappingDict hm).mp ha
    obtain ⟨k, -, q, hq, rfl, heq⟩ := (lookup_mappingDict hm).mp hb
    obtain ⟨rfl, hvalue⟩ := eq_of_add_mul_eq (hm.value_mem p hp) (hm.value_mem q hq) heq
    rw [hinj p hp q hq hvalue]
  have hnodup : ∀ c ∈ cs, (c.1 :: c.2).Nodup := fun c hc =>
    ((h.walk c hc).lt_and_nodup fun a b hlook => (lookup_le hm hlook).1).2
  have hdisjoint : cs.Pairwise fun c c' => List.Disjoint (c.1 :: c.2) (c'.1 :: c'.2) :=
    h.starts.imp_of_mem fun hc hc' hne =>
      (h.walk _ hc).disjoint (h.walk _ hc') hstepInj (h.start _ hc) (h.start _ hc') hne
  have hchains : Moves.Disjoint (kernelChains st.chains st.chainLens) := by
    rw [h.kernel, Moves.Disjoint, List.pairwise_map]
    exact hdisjoint.imp fun hd z hz hz' => hd (touched_chainMoves hz) (touched_chainMoves hz')
  -- a position that is moved lies on one chain, and its move is there
  have hmove : ∀ x y, dict.lookup x = some y → y ≠ x →
      ∃ c ∈ cs, (x, y) ∈ chainMoves (c.1 :: c.2) := by
    intro x y hlook hne
    rcases h.visited x (hall x fun hnone => Option.some_ne_none _ (hlook.symm.trans hnone)) with
      hself | ⟨c, hc, hx⟩
    · exact absurd (Option.some.inj (hlook.symm.trans hself)) hne
    · exact ⟨c, hc, (h.walk c hc).mem_moves hx hlook⟩
  refine ⟨fun mem out hout l hl p hp => ?_, hchains, fun l hl p hp hne => ?_⟩
  · have hlook := (lookup_mappingDict hm).mpr ⟨l, hl, p, hp, rfl, rfl⟩
    by_cases hne : p.2 + curr * l = p.1 + ori * l
    · rw [hne] at hlook ⊢
      refine hout.run_of_not_mem fun ms hms hmem => ?_
      rw [h.kernel] at hms
      obtain ⟨c, hc, rfl⟩ := List.mem_map.mp hms
      exact (h.walk c hc).not_fixed _ (touched_chainMoves hmem) hlook
    · obtain ⟨c, hc, hmem⟩ := hmove _ _ hlook hne
      have hms : chainMoves (c.1 :: c.2) ∈ kernelChains st.chains st.chainLens := by
        rw [h.kernel]
        exact List.mem_map_of_mem hc
      have htouched : p.2 + curr * l ∈ touched (chainMoves (c.1 :: c.2)) :=
        List.mem_flatMap.mpr ⟨_, hmem, List.mem_cons_of_mem _ List.mem_cons_self⟩
      rw [hout.run_of_mem hchains hms htouched]
      exact run_chainMoves (hnodup c hc) hmem
  · obtain ⟨c, hc, hmem⟩ := hmove _ _ ((lookup_mappingDict hm).mpr ⟨l, hl, p, hp, rfl, rfl⟩) hne
    have hsources : ((kernelChains st.chains st.chainLens).flatten.map Prod.fst).Nodup := by
      rw [List.map_flatten, List.nodup_flatten, h.kernel, List.map_map]
      refine ⟨fun l hl => ?_, ?_⟩
      · obtain ⟨c, hc, rfl⟩ := List.mem_map.mp hl
        refine List.nodup_reverse.mp ?_
        change ((chainMoves (c.1 :: c.2)).map Prod.fst).reverse.Nodup
        rw [chainMoves_sources]
        exact (hnodup c hc).sublist (List.dropLast_sublist _)
      · rw [List.pairwise_map]
        refine hdisjoint.imp fun hd z hz hz' => ?_
        obtain ⟨m₁, hm₁, rfl⟩ := List.mem_map.mp hz
        obtain ⟨m₂, hm₂, heq⟩ := List.mem_map.mp hz'
        exact hd (mem_chainMoves hm₁).1 (heq ▸ (mem_chainMoves hm₂).1)
    refine List.count_eq_one_of_mem hsources
      (List.mem_map.mpr ⟨(p.1 + ori * l, p.2 + curr * l), ?_, rfl⟩)
    rw [h.kernel]
    exact List.mem_flatten.mpr ⟨_, List.mem_map_of_mem hc, hmem⟩

/-- The blocks of a mapping go to different numbers when its targets are different blocks. -/
theorem BlockManager.Reorganized.injective (h : BlockManager.Reorganized cfg m n mapping m')
    (htargets : ((m.targets cfg n).map Block.number).Nodup) :
    ∀ p ∈ mapping, ∀ q ∈ mapping, p.2 = q.2 → p = q := by
  have hs := h.shrinks
  -- the targets are free, what stays is not
  have hmixed : ∀ p ∈ mapping, ∀ q ∈ mapping, q.1 ∈ m.staying cfg n ∧ q.2 = q.1 → p.2 = q.2 →
      p = q := fun p hp q hq hstay heq => hs.fixed p hp q hq hstay.2 heq
  intro p hp q hq heq
  rcases h.mem_mapping.mp hq with ⟨b, hb, hqb⟩ | hstay
  · rcases h.mem_mapping.mp hp with ⟨a, ha, hpa⟩ | hstay
    · obtain ⟨i, hi, hai⟩ := List.mem_iff_getElem.mp ha
      obtain ⟨j, hj, hbj⟩ := List.mem_iff_getElem.mp hb
      simp only [BlockManager.removeMapping, List.getElem_zip, Prod.mk.injEq] at hai hbj
      have hnumber : a.number = b.number := by omega
      rw [← hai.2, ← hbj.2] at hnumber
      have hlen : ∀ k, k < (m.removeMapping cfg n).length →
          k < ((m.targets cfg n).map Block.number).length := fun k hk => by
        rw [BlockManager.removeMapping, List.length_zip, h.length_targets, Nat.min_self] at hk
        rwa [List.length_map, h.length_targets]
      have hget : ((m.targets cfg n).map Block.number).get ⟨i, hlen i hi⟩ =
          ((m.targets cfg n).map Block.number).get ⟨j, hlen j hj⟩ := by
        rw [List.get_eq_getElem, List.get_eq_getElem, List.getElem_map, List.getElem_map]
        exact hnumber
      have hij : i = j := Fin.mk.inj (List.nodup_iff_injective_get.mp htargets hget)
      refine Prod.ext ?_ heq
      rw [← hai.1, ← hbj.1]
      exact getElem_congr_idx hij
    · exact (hmixed q hq p hp hstay heq.symm).symm
  · exact hmixed p hp q hq hstay heq

/-- Chains that are as asked move no two blocks to one number: their contents could differ. -/
theorem Sequentialised.key_eq {layerNum : Nat} {ori curr : Int} {chains : List Int}
    {chainLens : List Nat} (h : Sequentialised layerNum ori curr mapping chains chainLens)
    {p q : Int × Int} (hp : p ∈ mapping) (hq : q ∈ mapping) (heq : p.2 = q.2) : p.1 = q.1 := by
  have hrun : ∀ p ∈ mapping, run (kernelChains chains chainLens).flatten (fun i : Int => i)
      (p.2 + curr * (0 : Nat)) = p.1 + ori * (0 : Nat) :=
    fun p hp => h.content _ _ (interleaved_flatten _) 0 (by omega) p hp
  have hp' := hrun p hp
  rw [heq, hrun q hq] at hp'
  exact (Int.add_left_inj _).mp hp'.symm

/-- The chains end, and are as asked exactly when the free blocks that take the place of the
retired ones are different blocks: a free list that holds one block twice makes two retired blocks
go to one number. -/
theorem chains_sequentialised_iff (layerNum : Nat)
    (h : m.reorganizeGpuBlocks cfg n = some (mapping, m')) :
    (∃ chains chainLens,
      getDependentBlkMovingChains cfg m' layerNum mapping = some (chains, chainLens) ∧
        Sequentialised layerNum m.actualGpuBlkRngEnd m'.actualGpuBlkRngEnd mapping chains
          chainLens) ↔
      ((m.targets cfg n).map Block.number).Nodup := by
  have hr := BlockManager.reorganized_of_eq_some h
  have hs := hr.shrinks
  rw [← hr.actualGpuBlkRngEnd_eq] at hs
  obtain ⟨st, cs, hsearch, hfound, hall⟩ := chains_spec layerNum hs
  have hend : m'.actualGpuBlkRngEnd +
      ((m'.loadMoreLayerOnCardNum * cfg.blkNumPerLayer : Nat) : Int) = m.actualGpuBlkRngEnd := by
    rw [hr.actualGpuBlkRngEnd_eq, hr.loadMoreLayerOnCardNum_eq, BlockManager.releaseRngStart,
      Nat.mul_comm]
    omega
  have hres : getDependentBlkMovingChains cfg m' layerNum mapping =
      some (st.chains, st.chainLens) := by
    simp only [getDependentBlkMovingChains]
    rw [hend, hsearch]
    rfl
  constructor
  · rintro ⟨chains, chainLens, -, hseq⟩
    have hmem : ∀ (k : Nat) (a : Int) (b : Block), (m.toRemove cfg n)[k]? = some a →
        (m.targets cfg n)[k]? = some b → (a, (b.number : Int)) ∈ mapping := by
      intro k a b ha hb
      refine hr.mem_mapping.mpr (.inl ⟨b, ?_, rfl⟩)
      exact List.mem_of_getElem? (List.getElem?_zip_eq_some.mpr ⟨ha, hb⟩)
    refine List.pairwise_iff_getElem.mpr fun i j hi hj hij heq => ?_
    rw [List.getElem_map, List.getElem_map] at heq
    rw [List.length_map] at hi hj
    have hkeys := hseq.key_eq
      (hmem i _ _ (List.getElem?_eq_getElem (hr.length_targets ▸ hi)) (List.getElem?_eq_getElem hi))
      (hmem j _ _ (List.getElem?_eq_getElem (hr.length_targets ▸ hj)) (List.getElem?_eq_getElem hj))
      (congrArg Nat.cast heq)
    exact absurd ((BlockManager.nodup_usedIn _ _).getElem_inj_iff.mp hkeys) hij.ne
  · exact fun htargets => ⟨_, _, hres, hfound.sequentialised hs hall (hr.injective htargets)⟩

section Shared

/-- Blocks of 16 tokens, 8 of them on the GPU; a layer takes the room of two. -/
def sharedConfig : Config := ⟨16, 8, 4, 0, none, 2⟩

def promptGroup (seqId len : Nat) : SequenceGroup :=
  ⟨seqId, [⟨seqId, .waiting, len⟩], 1, false, none⟩

/-- Sequences 1 and 2 share block 6, which is retired for block 0; then 1 is freed, 2 is forked, and
the fork is freed. -/
def sharedCalls : List Op :=
  [.allocate (promptGroup 0 96), .allocate (promptGroup 1 16), .free 0, .fork 1 2,
    .reorganizeGpuBlocks 1, .allocate (promptGroup 3 48), .allocate (promptGroup 4 32), .free 1,
    .fork 2 5, .free 5]

/-- The state after these calls, in which block 0 is twice in the free list. -/
def sharedState : BlockManager :=
  (Op.calls sharedConfig (BlockManager.init sharedConfig 5) sharedCalls).get (by decide +kernel)

/-- The reorganization moves two blocks to block 0. -/
theorem not_sequentialised_shared :
    ¬ ∀ (cfg : Config) (cachedLayerNum : Int) (ops : List Op) (m m' : BlockManager)
      (n layerNum : Nat) (mapping : List (Int × Int)),
      Op.calls cfg (BlockManager.init cfg cachedLayerNum) ops = some m →
      m.reorganizeGpuBlocks cfg n = some (mapping, m') →
      ∃ chains chainLens,
        getDependentBlkMovingChains cfg m' layerNum mapping = some (chains, chainLens) ∧
          Sequentialised layerNum m.actualGpuBlkRngEnd m'.actualGpuBlkRngEnd mapping chains
            chainLens := by
  intro hall
  have hsome : (sharedState.reorganizeGpuBlocks sharedConfig 1).isSome := by decide
  obtain ⟨chains, chainLens, -, hseq⟩ := hall sharedConfig 5 sharedCalls sharedState _ 1 1 _
    (Option.some_get _).symm (Option.some_get hsome).symm
  have hkeys := hseq.key_eq (p := (4, 0)) (q := (5, 0)) (by decide) (by decide) rfl
  exact absurd hkeys (by decide)

/-- The state before the fork, in which block 6 is not shared yet. -/
def movedState : BlockManager :=
  (Op.calls sharedConfig (BlockManager.init sharedConfig 5) (sharedCalls.take 3)).get
    (by decide)

theorem chains_sequentialised_moved :
    ∃ m', movedState.reorganizeGpuBlocks sharedConfig 1 = some ([(6, 0)], m') ∧
      ∃ chains chainLens,
        getDependentBlkMovingChains sharedConfig m' 2 [(6, 0)] = some (chains, chainLens) ∧
          Sequentialised 2 movedState.actualGpuBlkRngEnd m'.actualGpuBlkRngEnd [(6, 0)] chains
            chainLens := by
  have hmapping : (movedState.reorganizeGpuBlocks sharedConfig 1).map Prod.fst = some [(6, 0)] := by
    decide
  obtain ⟨⟨mapping, m'⟩, hreorganize, rfl⟩ := Option.map_eq_some_iff.mp hmapping
  exact ⟨m', hreorganize, (chains_sequentialised_iff 2 hreorganize).mpr (by decide)⟩

end Shared

end Mil.Blocks
