import Mathlib.Data.List.Nodup
import Mil.Fusion.Chains
import Mil.Lib.FoldM

/-!
# The edges of the new system

The base models of a fused model are mapped to it, the others to themselves, and the edges between
the base models become edges between what they are mapped to: once each, and without those that lead
back to where they start (`Rewired`).
-/

set_option autoImplicit false

namespace Mil.Fusion

open Mil.Lib

/-! ## Node mappings -/

/-- The pairs of a node mapping: the base models of every model, with its id. -/
def basePairs (models : List ModelInfor) : List (Nat × Nat) :=
  models.flatMap fun f => f.baseModelIds.map fun b => (b, f.modelId)

section

variable {models fused : List ModelInfor}

theorem keys_basePairs (fused : List ModelInfor) :
    Dict.keys (basePairs fused) = fused.flatMap (·.baseModelIds) := by
  rw [Dict.keys, basePairs, List.map_flatMap]
  refine List.flatMap_congr fun f _ => ?_
  rw [List.map_map]
  exact List.map_id _

theorem mem_basePairs {p : Nat × Nat} :
    p ∈ basePairs fused ↔ ∃ f ∈ fused, p.1 ∈ f.baseModelIds ∧ f.modelId = p.2 := by
  obtain ⟨b, k⟩ := p
  simp only [basePairs, List.mem_flatMap, List.mem_map, Prod.mk.injEq]
  constructor
  · rintro ⟨f, hf, c, hc, rfl, rfl⟩
    exact ⟨f, hf, hc, rfl⟩
  · rintro ⟨f, hf, hb, rfl⟩
    exact ⟨f, hf, b, hb, rfl, rfl⟩

/-- With every base model in one model, the mapping gives the model it is in. -/
theorem lookup_basePairs (hnodup : (fused.flatMap (·.baseModelIds)).Nodup) {b k : Nat} :
    (basePairs fused).lookup b = some k ↔ ∃ f ∈ fused, b ∈ f.baseModelIds ∧ f.modelId = k := by
  rw [← keys_basePairs] at hnodup
  constructor
  · exact fun h => mem_basePairs.mp (Dict.mem_of_lookup h)
  · exact fun h => Dict.lookup_of_mem hnodup (mem_basePairs.mpr h)

theorem update_basePairs (hnodup : (fused.flatMap (·.baseModelIds)).Nodup) :
    Dict.update [] (basePairs fused) = basePairs fused :=
  Dict.update_eq_append (keys_basePairs fused ▸ hnodup) (List.disjoint_nil_left _)

/-- In a system of base models the second loop changes nothing. -/
theorem fusedNodeMapping_eq (hbase : ∀ m ∈ models, m.baseModelIds = [m.modelId])
    (hnodup : (fused.flatMap (·.baseModelIds)).Nodup) :
    fusedNodeMapping models fused = some (basePairs fused) := by
  rw [fusedNodeMapping]
  change models.foldlM _ (Dict.update [] (basePairs fused)) = _
  rw [update_basePairs hnodup]
  induction models with
  | nil => rfl
  | cons m models ih =>
    obtain ⟨hm, hbase⟩ := List.forall_mem_cons.mp hbase
    have hrest := ih hbase
    rw [List.foldlM_cons]
    refine Eq.trans ?_ hrest
    rw [hm, List.head?_cons]
    cases hlook : (basePairs fused).lookup m.modelId with
    | none => simp [hlook]
    | some target => simp [hlook, Dict.set_of_lookup hlook]

theorem lookup_completeNodeMapping (models : List ModelInfor) (mapping : List (Nat × Nat))
    (b : Nat) : (completeNodeMapping models mapping).lookup b =
      if b ∈ models.map (·.modelId) then some ((mapping.lookup b).getD b) else mapping.lookup b := by
  induction models generalizing mapping with
  | nil => rfl
  | cons m models ih =>
    rw [completeNodeMapping, List.foldl_cons, ← completeNodeMapping, ih]
    by_cases hmem : m.modelId ∈ Dict.keys mapping
    · rw [if_pos hmem]
      by_cases hb : b = m.modelId
      · subst hb
        obtain ⟨k, hk⟩ := Option.ne_none_iff_exists'.mp (mt Dict.lookup_eq_none.mp (not_not.mpr hmem))
        simp [hk]
      · simp [hb]
    · rw [if_neg hmem, Dict.lookup_set]
      by_cases hb : b = m.modelId
      · subst hb
        simp [Dict.lookup_eq_none.mpr hmem]
      · simp [hb]

end

/-! ## Edges -/

/-- The edges under a mapping of the nodes, each once. -/
structure Collected (outEdges new : EdgeDict) (target : Nat → Nat) : Prop where
  keys_nodup : (Dict.keys new).Nodup
  nodup : ∀ e ∈ new, e.2.Nodup
  edge_iff : ∀ k j, Edge new k j ↔ ∃ a b, Edge outEdges a b ∧ target a = k ∧ target b = j

section

variable {outEdges new : EdgeDict} {target : Nat → Nat}

theorem edge_iff_lookup (hkeys : (Dict.keys new).Nodup) {k j : Nat} :
    Edge new k j ↔ j ∈ (new.lookup k).getD [] := by
  constructor
  · rintro ⟨e, he, rfl, hj⟩
    rw [Dict.lookup_of_mem hkeys (k := e.1) (a := e.2) he]
    exact hj
  · intro hj
    cases hlook : new.lookup k with
    | none =>
      rw [hlook] at hj
      exact absurd hj List.not_mem_nil
    | some tgts =>
      rw [hlook] at hj
      exact ⟨(k, tgts), Dict.mem_of_lookup hlook, rfl, hj⟩

theorem edge_append {l l' : EdgeDict} {a b : Nat} :
    Edge (l ++ l') a b ↔ Edge l a b ∨ Edge l' a b := by
  simp only [Edge, List.mem_append, or_and_right, exists_or]

theorem edge_singleton {e : Nat × List Nat} {a b : Nat} : Edge [e] a b ↔ e.1 = a ∧ b ∈ e.2 := by
  simp only [Edge, List.mem_singleton, exists_eq_left]

theorem Collected.nil : Collected [] [] target :=
  ⟨List.nodup_nil, fun _ h => absurd h List.not_mem_nil,
    fun k j => by simp [Edge]⟩

/-- One entry of `out_edge_dict`. -/
theorem Collected.concat (h : Collected outEdges new target) (src : Nat) (tgts : List Nat) :
    Collected (outEdges ++ [(src, tgts)])
      (Dict.set (target src) (((new.lookup (target src)).getD [] ++ tgts.map target).dedup) new)
      target := by
  have hkeys := Dict.nodup_keys_set h.keys_nodup (target src)
    (((new.lookup (target src)).getD [] ++ tgts.map target).dedup)
  refine ⟨hkeys, fun e he => ?_, fun k j => ?_⟩
  · have hlook := Dict.lookup_of_mem hkeys (k := e.1) (a := e.2) he
    rw [Dict.lookup_set] at hlook
    by_cases heq : e.1 = target src
    · rw [if_pos heq] at hlook
      exact Option.some.inj hlook ▸ List.nodup_dedup _
    · rw [if_neg heq] at hlook
      exact h.nodup e (Dict.mem_of_lookup hlook)
  · rw [edge_iff_lookup hkeys, Dict.lookup_set]
    have hnew : (∃ a b, Edge (outEdges ++ [(src, tgts)]) a b ∧ target a = k ∧ target b = j) ↔
        Edge new k j ∨ target src = k ∧ j ∈ tgts.map target := by
      rw [h.edge_iff]
      simp only [edge_append, edge_singleton, List.mem_map]
      constructor
      · rintro ⟨a, b, hedge | ⟨rfl, hb⟩, ha, rfl⟩
        · exact .inl ⟨a, b, hedge, ha, rfl⟩
        · exact .inr ⟨ha, b, hb, rfl⟩
      · rintro (⟨a, b, hedge, ha, hb⟩ | ⟨ha, b, hb, hj⟩)
        · exact ⟨a, b, .inl hedge, ha, hb⟩
        · exact ⟨src, b, .inr ⟨rfl, hb⟩, ha, hj⟩
    rw [hnew, edge_iff_lookup h.keys_nodup]
    by_cases heq : k = target src
    · rw [if_pos heq, Option.getD_some, List.mem_dedup, List.mem_append, ← heq]
      simp
    · rw [if_neg heq]
      simp [Ne.symm heq]

theorem exists_mapM {α β : Type} {f : α → Option β} {l : List α}
    (hf : ∀ a ∈ l, ∃ b, f a = some b) : ∃ l', l.mapM f = some l' := by
  induction l with
  | nil => exact ⟨[], rfl⟩
  | cons a l ih =>
    obtain ⟨⟨b, hb⟩, hl⟩ := List.forall_mem_cons.mp hf
    obtain ⟨l', hl'⟩ := ih hl
    refine ⟨b :: l', ?_⟩
    rw [List.mapM_cons, hb, hl']
    rfl

theorem collectEdges_ok (target : Nat → Nat) {mapping : List (Nat × Nat)}
    (hmapping : ∀ a b, Edge outEdges a b → mapping.lookup b = some (target b))
    (hsources : ∀ e ∈ outEdges, mapping.lookup e.1 = some (target e.1)) :
    ∃ new, collectEdges mapping outEdges = some new ∧ Collected outEdges new target := by
  have hrun : ∀ rest done new, done ++ rest = outEdges → Collected done new target →
      ∃ new', rest.foldlM (fun (new : EdgeDict) (e : Nat × List Nat) => do
        let src ← mapping.lookup e.1
        let tgts ← e.2.mapM fun tgt => mapping.lookup tgt
        pure (Dict.set src (((new.lookup src).getD [] ++ tgts).dedup) new)) new = some new' ∧
        Collected outEdges new' target := by
    intro rest
    induction rest with
    | nil =>
      rintro done new heq h
      rw [List.append_nil] at heq
      exact ⟨new, rfl, heq ▸ h⟩
    | cons e rest ih =>
      rintro done new heq h
      have he : e ∈ outEdges := heq ▸ List.mem_append_right _ (.head _)
      have htgts : e.2.mapM (fun tgt => mapping.lookup tgt) = some (e.2.map target) :=
        mapM_of_forall fun b hb => hmapping e.1 b ⟨e, he, rfl, hb⟩
      obtain ⟨new', hnew', hcollected⟩ := ih (done ++ [e]) _
        (by rw [List.append_assoc, List.singleton_append, heq]) (h.concat e.1 e.2)
      refine ⟨new', ?_, hcollected⟩
      rw [List.foldlM_cons, hsources e he, htgts]
      exact hnew'
  exact hrun outEdges [] [] rfl .nil

/-- What becomes of the edges. -/
structure Rewired (outEdges new : EdgeDict) (target : Nat → Nat) : Prop where
  nodup : ∀ j, (inputsOf new j).Nodup
  edge_iff : ∀ k j, Edge new k j ↔
    k ≠ j ∧ ∃ a b, Edge outEdges a b ∧ target a = k ∧ target b = j

theorem inputsOf_nodup (hkeys : (Dict.keys new).Nodup) (hnodup : ∀ e ∈ new, e.2.Nodup) (j : Nat) :
    (inputsOf new j).Nodup := by
  induction new with
  | nil => exact List.nodup_nil
  | cons e new ih =>
    obtain ⟨hkey, hkeys⟩ := List.nodup_cons.mp hkeys
    obtain ⟨he, hnodup⟩ := List.forall_mem_cons.mp hnodup
    rw [inputsOf, List.flatMap_cons]
    refine List.nodup_append.mpr ⟨?_, ih hkeys hnodup, fun a ha b hb heq => ?_⟩
    · refine (he.filter _).map_on fun x hx y hy _ => ?_
      rw [List.mem_filter, decide_eq_true_eq] at hx hy
      exact hx.2.trans hy.2.symm
    · obtain ⟨_, _, rfl⟩ := List.mem_map.mp ha
      obtain ⟨e', he', heq', -⟩ := mem_inputsOf.mp hb
      exact hkey (heq ▸ heq' ▸ List.mem_map_of_mem he')

theorem Collected.rewired (h : Collected outEdges new target) :
    Rewired outEdges (new.map fun e => (e.1, e.2.filter (· ≠ e.1))) target := by
  refine ⟨fun j => inputsOf_nodup ?_ ?_ j, fun k j => ?_⟩
  · rw [Dict.keys, List.map_map]
    exact h.keys_nodup
  · intro e he
    obtain ⟨q, hq, rfl⟩ := List.mem_map.mp he
    exact (h.nodup q hq).filter _
  · rw [← h.edge_iff]
    simp only [Edge, List.mem_map]
    constructor
    · rintro ⟨-, ⟨e, he, rfl⟩, rfl, hj⟩
      rw [List.mem_filter, decide_eq_true_eq] at hj
      exact ⟨hj.2.symm, e, he, rfl, hj.1⟩
    · rintro ⟨hne, e, he, rfl, hj⟩
      exact ⟨_, ⟨e, he, rfl⟩, rfl, List.mem_filter.mpr ⟨hj, decide_eq_true hne.symm⟩⟩

end

end Mil.Fusion
