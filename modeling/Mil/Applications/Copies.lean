import Mathlib.Data.Set.Lattice
import Mathlib.Order.CompletePartialOrder
import Mathlib.Algebra.GroupWithZero.Nat
import Mathlib.Data.Set.Image
import Mathlib.Tactic.Ring
import Mil.Applications.Graph

/-!
# Copies of an application

What `addCopy` is meant to do: the second application under a shift of its nodes and a shift of its
requests (`Application.shift`), put next to the first (`Application.append`). For well formed
applications this is what it does, since the shifted nodes are new and every one of its
comprehensions shifts as `shiftNode` does. By induction the replicated application is the row of the
copies, every one of them the original under one shift of the nodes and one of the requests.
-/

set_option autoImplicit false

namespace Mil.Applications

open Mil.Lib

variable {α : Type}

/-! ## Renaming and placing side by side -/

/-- The application with other names for the nodes and the requests. -/
def Application.rename (node : Int → Int) (req : Nat → Nat) (a : Application α) :
    Application α where
  modelPaths := a.modelPaths
  inEdgeDict := a.inEdgeDict.map fun e => (node e.1, e.2.map node)
  reqNum := a.reqNum
  inpSeqIdsDict := a.inpSeqIdsDict.map fun e => (node e.1, e.2.map req)
  promptTemplatesLens := a.promptTemplatesLens.map fun e => (node e.1, e.2)
  nodeDatasetChunkMapping := a.nodeDatasetChunkMapping.map fun e => (node e.1, e.2)
  inpReqFrom := a.inpReqFrom.map fun e =>
    (node e.1, e.2.map fun src => (node src.1, src.2.map fun r => (req r.1, req r.2)))
  independentSrcs := a.independentSrcs.map fun e => (node e.1, e.2)
  promptTemplateArgs := a.promptTemplateArgs.map fun e =>
    (node e.1, { e.2 with sources := e.2.sources.map (·.map node) })

/-- All models moved by `n`, with their inputs from outside, and all requests by `r`. -/
def Application.shift (n r : Nat) (a : Application α) : Application α :=
  a.rename (shiftNode n) (· + r)

def Application.append (a b : Application α) : Application α where
  modelPaths := a.modelPaths ++ b.modelPaths
  inEdgeDict := a.inEdgeDict ++ b.inEdgeDict
  reqNum := a.reqNum + b.reqNum
  inpSeqIdsDict := a.inpSeqIdsDict ++ b.inpSeqIdsDict
  promptTemplatesLens := a.promptTemplatesLens ++ b.promptTemplatesLens
  nodeDatasetChunkMapping := a.nodeDatasetChunkMapping ++ b.nodeDatasetChunkMapping
  inpReqFrom := a.inpReqFrom ++ b.inpReqFrom
  independentSrcs := a.independentSrcs ++ b.independentSrcs
  promptTemplateArgs := a.promptTemplateArgs ++ b.promptTemplateArgs

def Application.empty : Application α where
  modelPaths := []
  inEdgeDict := []
  reqNum := 0
  inpSeqIdsDict := []
  promptTemplatesLens := []
  nodeDatasetChunkMapping := []
  inpReqFrom := []
  independentSrcs := []
  promptTemplateArgs := []

/-- The row of copies `0` to `n - 1`. -/
def Application.copies (a : Application α) (n : Nat) : Application α :=
  ((List.range n).map fun c => a.shift (c * a.modelPaths.length) (c * a.reqNum)).foldr
    Application.append Application.empty

theorem Application.append_empty (a : Application α) : a.append .empty = a := by
  simp only [append, empty, List.append_nil, Nat.add_zero]

theorem shiftNode_zero (i : Int) : shiftNode 0 i = i := by
  simp [shiftNode]

theorem shiftNode_shiftNode (n n' : Nat) (i : Int) :
    shiftNode n (shiftNode n' i) = shiftNode (n' + n) i := by
  unfold shiftNode
  split_ifs <;> push_cast <;> omega

theorem shiftNode_injective (n : Nat) : Function.Injective (shiftNode n) := by
  intro i j heq
  unfold shiftNode at heq
  split_ifs at heq <;> omega

theorem Application.shift_zero (a : Application α) : a.shift 0 0 = a := by
  have hid : shiftNode 0 = id := funext shiftNode_zero
  simp [shift, rename, hid]

theorem Application.shift_shift (a : Application α) (n r n' r' : Nat) :
    (a.shift n' r').shift n r = a.shift (n' + n) (r' + r) := by
  simp only [shift, rename, List.map_map, Function.comp_def, shiftNode_shiftNode, Nat.add_assoc,
    Option.map_map]

theorem Application.shift_append (a b : Application α) (n r : Nat) :
    (a.append b).shift n r = (a.shift n r).append (b.shift n r) := by
  simp only [shift, rename, append, List.map_append]

theorem Application.shift_foldr (l : List (Application α)) (n r : Nat) :
    (l.foldr append empty).shift n r = (l.map (·.shift n r)).foldr append empty := by
  induction l with
  | nil => rfl
  | cons a l ih => rw [List.foldr_cons, shift_append, ih, List.map_cons, List.foldr_cons]

/-- The first copy is the application, and the others are one place further on. -/
theorem Application.copies_succ (a : Application α) (n : Nat) :
    a.copies (n + 1) = a.append ((a.copies n).shift a.modelPaths.length a.reqNum) := by
  rw [copies, copies, shift_foldr, List.range_succ_eq_map, List.map_cons, List.foldr_cons,
    Nat.zero_mul, Nat.zero_mul, shift_zero, List.map_map, List.map_map]
  congr 3
  funext c
  rw [Function.comp_apply, Function.comp_apply, shift_shift, Nat.succ_mul, Nat.succ_mul]

/-! ## Well formed applications -/

/-- The nodes of `n` models and of their inputs from outside. -/
def IsNode (n : Nat) (i : Int) : Prop := -n ≤ i ∧ i < n

/-- Every key is a model or, where they may be, an input from outside, and is there once; every node
that is spoken of is a node; the only input from outside a model has is its own. -/
structure Application.WellFormed (a : Application α) : Prop where
  inEdge_nodup : (Dict.keys a.inEdgeDict).Nodup
  inEdge : ∀ e ∈ a.inEdgeDict, (0 ≤ e.1 ∧ IsNode a.modelPaths.length e.1) ∧
    ∀ i ∈ e.2, IsNode a.modelPaths.length i ∧ (i < 0 → i = -(e.1 + 1))
  seqIds_nodup : (Dict.keys a.inpSeqIdsDict).Nodup
  seqIds : ∀ e ∈ a.inpSeqIdsDict, IsNode a.modelPaths.length e.1
  lens_nodup : (Dict.keys a.promptTemplatesLens).Nodup
  lens : ∀ e ∈ a.promptTemplatesLens, 0 ≤ e.1 ∧ IsNode a.modelPaths.length e.1
  chunks_nodup : (Dict.keys a.nodeDatasetChunkMapping).Nodup
  chunks : ∀ e ∈ a.nodeDatasetChunkMapping, e.1 < 0 ∧ IsNode a.modelPaths.length e.1
  reqFrom_nodup : (Dict.keys a.inpReqFrom).Nodup
  reqFrom : ∀ e ∈ a.inpReqFrom, (0 ≤ e.1 ∧ IsNode a.modelPaths.length e.1) ∧
    ∀ src ∈ e.2, 0 ≤ src.1 ∧ IsNode a.modelPaths.length src.1
  srcs_nodup : (Dict.keys a.independentSrcs).Nodup
  srcs : ∀ e ∈ a.independentSrcs, 0 ≤ e.1 ∧ IsNode a.modelPaths.length e.1
  templates_nodup : (Dict.keys a.promptTemplateArgs).Nodup
  templates : ∀ e ∈ a.promptTemplateArgs, (0 ≤ e.1 ∧ IsNode a.modelPaths.length e.1) ∧
    ∀ sources, e.2.sources = some sources → ∀ i ∈ sources, IsNode a.modelPaths.length i

/-- All that is spoken of is in `s`. -/
structure Application.Within (s : Set Int) (a : Application α) : Prop where
  inEdge : ∀ e ∈ a.inEdgeDict, e.1 ∈ s ∧ ∀ i ∈ e.2, i ∈ s
  seqIds : ∀ e ∈ a.inpSeqIdsDict, e.1 ∈ s
  lens : ∀ e ∈ a.promptTemplatesLens, e.1 ∈ s
  chunks : ∀ e ∈ a.nodeDatasetChunkMapping, e.1 ∈ s
  reqFrom : ∀ e ∈ a.inpReqFrom, e.1 ∈ s ∧ ∀ src ∈ e.2, src.1 ∈ s
  srcs : ∀ e ∈ a.independentSrcs, e.1 ∈ s
  templates : ∀ e ∈ a.promptTemplateArgs, e.1 ∈ s ∧
    ∀ sources, e.2.sources = some sources → ∀ i ∈ sources, i ∈ s

theorem Application.WellFormed.within {a : Application α} (h : a.WellFormed) :
    a.Within {i | IsNode a.modelPaths.length i} where
  inEdge e he := ⟨(h.inEdge e he).1.2, fun i hi => ((h.inEdge e he).2 i hi).1⟩
  seqIds := h.seqIds
  lens e he := (h.lens e he).2
  chunks e he := (h.chunks e he).2
  reqFrom e he := ⟨(h.reqFrom e he).1.2, fun src hsrc => ((h.reqFrom e he).2 src hsrc).2⟩
  srcs e he := (h.srcs e he).2
  templates e he := ⟨(h.templates e he).1.2, (h.templates e he).2⟩

theorem Application.Within.rename {a : Application α} {s : Set Int} (h : a.Within s)
    (node : Int → Int) (req : Nat → Nat) : (a.rename node req).Within (node '' s) where
  inEdge := by
    intro e he
    obtain ⟨e', he', rfl⟩ := List.mem_map.mp he
    refine ⟨Set.mem_image_of_mem _ (h.inEdge e' he').1, fun i hi => ?_⟩
    obtain ⟨i', hi', rfl⟩ := List.mem_map.mp hi
    exact Set.mem_image_of_mem _ ((h.inEdge e' he').2 i' hi')
  seqIds := List.forall_mem_map.mpr fun e he => Set.mem_image_of_mem _ (h.seqIds e he)
  lens := List.forall_mem_map.mpr fun e he => Set.mem_image_of_mem _ (h.lens e he)
  chunks := List.forall_mem_map.mpr fun e he => Set.mem_image_of_mem _ (h.chunks e he)
  reqFrom := by
    intro e he
    obtain ⟨e', he', rfl⟩ := List.mem_map.mp he
    refine ⟨Set.mem_image_of_mem _ (h.reqFrom e' he').1, fun src hsrc => ?_⟩
    obtain ⟨src', hsrc', rfl⟩ := List.mem_map.mp hsrc
    exact Set.mem_image_of_mem _ ((h.reqFrom e' he').2 src' hsrc')
  srcs := List.forall_mem_map.mpr fun e he => Set.mem_image_of_mem _ (h.srcs e he)
  templates := by
    intro e he
    obtain ⟨e', he', rfl⟩ := List.mem_map.mp he
    refine ⟨Set.mem_image_of_mem _ (h.templates e' he').1, fun sources hsources i hi => ?_⟩
    obtain ⟨l, hl, rfl⟩ := Option.map_eq_some_iff.mp hsources
    obtain ⟨i', hi', rfl⟩ := List.mem_map.mp hi
    exact Set.mem_image_of_mem _ ((h.templates e' he').2 l hl i' hi')

/-! ## Putting one behind the other -/

theorem not_isNode_shiftNode (n : Nat) (i : Int) : ¬ IsNode n (shiftNode n i) := by
  unfold IsNode shiftNode
  split_ifs <;> omega

theorem isNode_shiftNode {n n' : Nat} {i : Int} (h : IsNode n' i) :
    IsNode (n + n') (shiftNode n i) := by
  unfold IsNode shiftNode at *
  split_ifs <;> push_cast <;> omega

theorem IsNode.mono {n : Nat} {i : Int} (h : IsNode n i) (n' : Nat) : IsNode (n + n') i := by
  unfold IsNode at *
  push_cast
  omega

theorem shiftNode_of_nonneg {i : Int} (h : 0 ≤ i) (n : Nat) : shiftNode n i = i + n := if_pos h

theorem shiftNode_of_neg {i : Int} (h : i < 0) (n : Nat) : shiftNode n i = i - n :=
  if_neg (Int.not_le.mpr h)

section

variable {β γ : Type} {d : List (Int × γ)} {d' : List (Int × β)} {n : Nat}

theorem nodup_keys_shift (hnd : (Dict.keys d').Nodup) (value : Int × β → γ) :
    (Dict.keys (d'.map fun e => (shiftNode n e.1, value e))).Nodup := by
  have hkeys : Dict.keys (d'.map fun e => (shiftNode n e.1, value e)) =
      (Dict.keys d').map (shiftNode n) := by
    rw [Dict.keys, Dict.keys, List.map_map, List.map_map]
    rfl
  rw [hkeys]
  exact hnd.map (shiftNode_injective n)

theorem disjoint_keys_shift (hd : ∀ e ∈ d, IsNode n e.1) (value : Int × β → γ) :
    List.Disjoint (Dict.keys d) (Dict.keys (d'.map fun e => (shiftNode n e.1, value e))) := by
  intro i hi hi'
  obtain ⟨e, he, rfl⟩ := List.mem_map.mp hi
  obtain ⟨e', he', heq⟩ := List.mem_map.mp hi'
  obtain ⟨e'', -, rfl⟩ := List.mem_map.mp he'
  exact not_isNode_shiftNode n e''.1 ((show shiftNode n e''.1 = e.1 from heq) ▸ hd e he)

/-- The items under shifted nodes are new. -/
theorem update_shift (hd : ∀ e ∈ d, IsNode n e.1) (hnd : (Dict.keys d').Nodup)
    (value : Int × β → γ) :
    Dict.update d (d'.map fun e => (shiftNode n e.1, value e)) =
      d ++ d'.map fun e => (shiftNode n e.1, value e) :=
  Dict.update_eq_append (nodup_keys_shift hnd value) (disjoint_keys_shift hd value)

theorem nodup_keys_append_shift (hd : ∀ e ∈ d, IsNode n e.1) (hndd : (Dict.keys d).Nodup)
    (hnd : (Dict.keys d').Nodup) (value : Int × β → γ) :
    (Dict.keys (d ++ d'.map fun e => (shiftNode n e.1, value e))).Nodup := by
  rw [Dict.keys_append, List.nodup_append']
  exact ⟨hndd, nodup_keys_shift hnd value, disjoint_keys_shift hd value⟩

/-- Adding to the models is shifting them. -/
theorem map_add_eq_shift (hd : ∀ e ∈ d', 0 ≤ e.1) (value value' : Int × β → γ)
    (hvalue : ∀ e ∈ d', value e = value' e) :
    (d'.map fun e => (e.1 + (n : Int), value e)) = d'.map fun e => (shiftNode n e.1, value' e) :=
  List.map_congr_left fun e he => by rw [shiftNode_of_nonneg (hd e he), hvalue e he]

end

/-- `addCopy` puts the second application, shifted, next to the first. -/
theorem addCopy_eq {a b : Application α} (ha : a.WellFormed) (hb : b.WellFormed) :
    addCopy a b = a.append (b.shift a.modelPaths.length a.reqNum) := by
  have hedges : Dict.update a.inEdgeDict (b.inEdgeDict.map fun e =>
      (e.1 + (a.modelPaths.length : Int), e.2.map fun inModelId =>
        if inModelId < 0 then -(e.1 + (a.modelPaths.length : Int) + 1)
        else inModelId + (a.modelPaths.length : Int))) =
      a.inEdgeDict ++ b.inEdgeDict.map fun e =>
        (shiftNode a.modelPaths.length e.1, e.2.map (shiftNode a.modelPaths.length)) := by
    rw [map_add_eq_shift (fun e he => (hb.inEdge e he).1.1) _
      (fun e => e.2.map (shiftNode a.modelPaths.length)) fun e he => ?_,
      update_shift (fun e he => (ha.inEdge e he).1.2) hb.inEdge_nodup]
    -- The input from outside is the one of the model, so it may be written from the key.
    refine List.map_congr_left fun i hi => ?_
    by_cases hneg : i < 0
    · rw [if_pos hneg, shiftNode_of_neg hneg, ((hb.inEdge e he).2 i hi).2 hneg]
      ring
    · rw [if_neg hneg, shiftNode_of_nonneg (Int.not_lt.mp hneg)]
  have hseqIds := update_shift (n := a.modelPaths.length) ha.seqIds hb.seqIds_nodup
    fun e => e.2.map (· + a.reqNum)
  have hlens : Dict.update a.promptTemplatesLens (b.promptTemplatesLens.map fun e =>
      (e.1 + (a.modelPaths.length : Int), e.2)) =
      a.promptTemplatesLens ++ b.promptTemplatesLens.map fun e =>
        (shiftNode a.modelPaths.length e.1, e.2) := by
    rw [map_add_eq_shift (fun e he => (hb.lens e he).1) _ _ fun _ _ => rfl,
      update_shift (fun e he => (ha.lens e he).2) hb.lens_nodup]
  have hchunks : Dict.update a.nodeDatasetChunkMapping (b.nodeDatasetChunkMapping.map fun e =>
      (e.1 - (a.modelPaths.length : Int), e.2)) =
      a.nodeDatasetChunkMapping ++ b.nodeDatasetChunkMapping.map fun e =>
        (shiftNode a.modelPaths.length e.1, e.2) := by
    rw [← update_shift (fun e he => (ha.chunks e he).2) hb.chunks_nodup]
    congr 1
    exact List.map_congr_left fun e he => by rw [shiftNode_of_neg (hb.chunks e he).1]
  have hreqFrom : Dict.update a.inpReqFrom (b.inpReqFrom.map fun e =>
      (e.1 + (a.modelPaths.length : Int), e.2.map fun src =>
        (src.1 + (a.modelPaths.length : Int),
          src.2.map fun r => (r.1 + a.reqNum, r.2 + a.reqNum)))) =
      a.inpReqFrom ++ b.inpReqFrom.map fun e =>
        (shiftNode a.modelPaths.length e.1, e.2.map fun src =>
          (shiftNode a.modelPaths.length src.1,
            src.2.map fun r => (r.1 + a.reqNum, r.2 + a.reqNum))) := by
    rw [map_add_eq_shift (fun e he => (hb.reqFrom e he).1.1) _
      (fun e => e.2.map fun src => (shiftNode a.modelPaths.length src.1,
        src.2.map fun r => (r.1 + a.reqNum, r.2 + a.reqNum))) fun e he => ?_,
      update_shift (fun e he => (ha.reqFrom e he).1.2) hb.reqFrom_nodup]
    exact List.map_congr_left fun src hsrc => by
      rw [shiftNode_of_nonneg ((hb.reqFrom e he).2 src hsrc).1]
  have hsrcs : Dict.update a.independentSrcs (b.independentSrcs.map fun e =>
      (e.1 + (a.modelPaths.length : Int), e.2)) =
      a.independentSrcs ++ b.independentSrcs.map fun e =>
        (shiftNode a.modelPaths.length e.1, e.2) := by
    rw [map_add_eq_shift (fun e he => (hb.srcs e he).1) _ _ fun _ _ => rfl,
      update_shift (fun e he => (ha.srcs e he).2) hb.srcs_nodup]
  have htemplates : Dict.update (Dict.update a.promptTemplateArgs
      (b.promptTemplateArgs.map fun e => (e.1 + (a.modelPaths.length : Int), e.2)))
      (b.promptTemplateArgs.map fun e => (e.1 + (a.modelPaths.length : Int),
        { e.2 with sources := e.2.sources.map (·.map (shiftNode a.modelPaths.length)) })) =
      a.promptTemplateArgs ++ b.promptTemplateArgs.map fun e =>
        (shiftNode a.modelPaths.length e.1,
          { e.2 with sources := e.2.sources.map (·.map (shiftNode a.modelPaths.length)) }) := by
    have hnonneg := fun e he => (hb.templates e he).1.1
    have hnode := fun e he => (ha.templates e he).1.2
    rw [map_add_eq_shift hnonneg _ _ fun _ _ => rfl, map_add_eq_shift hnonneg _ _ fun _ _ => rfl,
      update_shift hnode hb.templates_nodup,
      Dict.update_append_of_disjoint (disjoint_keys_shift hnode _),
      Dict.update_of_keys_eq (nodup_keys_shift hb.templates_nodup _)]
    rw [Dict.keys, Dict.keys, List.map_map, List.map_map]
    rfl
  simp only [addCopy, Application.append, Application.shift, Application.rename, hedges, hseqIds,
    hlens, hchunks, hreqFrom, hsrcs, htemplates]

theorem Application.WellFormed.append_shift {a b : Application α} (ha : a.WellFormed)
    (hb : b.WellFormed) : (a.append (b.shift a.modelPaths.length a.reqNum)).WellFormed := by
  have hlen : (a.append (b.shift a.modelPaths.length a.reqNum)).modelPaths.length =
      a.modelPaths.length + b.modelPaths.length := List.length_append
  have hmodel : ∀ {i : Int}, 0 ≤ i ∧ IsNode b.modelPaths.length i →
      0 ≤ shiftNode a.modelPaths.length i ∧
        IsNode (a.modelPaths.length + b.modelPaths.length) (shiftNode a.modelPaths.length i) := by
    rintro i ⟨hnonneg, hi⟩
    refine ⟨?_, isNode_shiftNode hi⟩
    rw [shiftNode_of_nonneg hnonneg]
    omega
  constructor
  case inEdge_nodup =>
    exact nodup_keys_append_shift (fun e he => (ha.inEdge e he).1.2) ha.inEdge_nodup
      hb.inEdge_nodup _
  case seqIds_nodup =>
    exact nodup_keys_append_shift ha.seqIds ha.seqIds_nodup hb.seqIds_nodup _
  case lens_nodup =>
    exact nodup_keys_append_shift (fun e he => (ha.lens e he).2) ha.lens_nodup hb.lens_nodup _
  case chunks_nodup =>
    exact nodup_keys_append_shift (fun e he => (ha.chunks e he).2) ha.chunks_nodup
      hb.chunks_nodup _
  case reqFrom_nodup =>
    exact nodup_keys_append_shift (fun e he => (ha.reqFrom e he).1.2) ha.reqFrom_nodup
      hb.reqFrom_nodup _
  case srcs_nodup =>
    exact nodup_keys_append_shift (fun e he => (ha.srcs e he).2) ha.srcs_nodup hb.srcs_nodup _
  case templates_nodup =>
    exact nodup_keys_append_shift (fun e he => (ha.templates e he).1.2) ha.templates_nodup
      hb.templates_nodup _
  -- an entry is one of `a`, or one of `b` under a shifted id
  all_goals
    intro e he
    rw [hlen]
    rcases List.mem_append.mp he with he | he
  case inEdge.inl =>
    obtain ⟨⟨hnonneg, hnode⟩, hin⟩ := ha.inEdge e he
    exact ⟨⟨hnonneg, hnode.mono _⟩, fun i hi => ⟨(hin i hi).1.mono _, (hin i hi).2⟩⟩
  case inEdge.inr =>
    obtain ⟨e', he', rfl⟩ := List.mem_map.mp he
    obtain ⟨hmod, hin⟩ := hb.inEdge e' he'
    refine ⟨hmodel hmod, fun i hi => ?_⟩
    obtain ⟨i', hi', rfl⟩ := List.mem_map.mp hi
    refine ⟨isNode_shiftNode (hin i' hi').1, fun hneg => ?_⟩
    have hneg' : i' < 0 := by
      unfold shiftNode at hneg
      split_ifs at hneg <;> omega
    show shiftNode _ i' = -(shiftNode _ e'.1 + 1)
    rw [shiftNode_of_neg hneg', shiftNode_of_nonneg hmod.1, (hin i' hi').2 hneg']
    ring
  case seqIds.inl => exact (ha.seqIds e he).mono _
  case seqIds.inr =>
    obtain ⟨e', he', rfl⟩ := List.mem_map.mp he
    exact isNode_shiftNode (hb.seqIds e' he')
  case lens.inl => exact ⟨(ha.lens e he).1, (ha.lens e he).2.mono _⟩
  case lens.inr =>
    obtain ⟨e', he', rfl⟩ := List.mem_map.mp he
    exact hmodel (hb.lens e' he')
  case chunks.inl => exact ⟨(ha.chunks e he).1, (ha.chunks e he).2.mono _⟩
  case chunks.inr =>
    obtain ⟨e', he', rfl⟩ := List.mem_map.mp he
    obtain ⟨hneg, hnode⟩ := hb.chunks e' he'
    refine ⟨?_, isNode_shiftNode hnode⟩
    rw [shiftNode_of_neg hneg]
    omega
  case reqFrom.inl =>
    obtain ⟨⟨hnonneg, hnode⟩, hsrc⟩ := ha.reqFrom e he
    exact ⟨⟨hnonneg, hnode.mono _⟩, fun src hs => ⟨(hsrc src hs).1, (hsrc src hs).2.mono _⟩⟩
  case reqFrom.inr =>
    obtain ⟨e', he', rfl⟩ := List.mem_map.mp he
    refine ⟨hmodel (hb.reqFrom e' he').1, fun src hs => ?_⟩
    obtain ⟨src', hs', rfl⟩ := List.mem_map.mp hs
    exact hmodel ((hb.reqFrom e' he').2 src' hs')
  case srcs.inl => exact ⟨(ha.srcs e he).1, (ha.srcs e he).2.mono _⟩
  case srcs.inr =>
    obtain ⟨e', he', rfl⟩ := List.mem_map.mp he
    exact hmodel (hb.srcs e' he')
  case templates.inl =>
    obtain ⟨⟨hnonneg, hnode⟩, hsrc⟩ := ha.templates e he
    exact ⟨⟨hnonneg, hnode.mono _⟩, fun l hl i hi => (hsrc l hl i hi).mono _⟩
  case templates.inr =>
    obtain ⟨e', he', rfl⟩ := List.mem_map.mp he
    refine ⟨hmodel (hb.templates e' he').1, fun l hl i hi => ?_⟩
    obtain ⟨l, hl', rfl⟩ := Option.map_eq_some_iff.mp hl
    obtain ⟨i', hi', rfl⟩ := List.mem_map.mp hi
    exact isNode_shiftNode ((hb.templates e' he').2 l hl' i' hi')

/-! ## All copies -/

/-- The replicated application is the row of the copies. -/
theorem replicatedVer_eq_copies {mixed : Application α} (h : mixed.WellFormed) (n : Nat) :
    (replicatedVer mixed n).WellFormed ∧ replicatedVer mixed n = mixed.copies (n + 1) := by
  induction n with
  | zero =>
    refine ⟨h, ?_⟩
    rw [Application.copies_succ]
    exact (Application.append_empty mixed).symm
  | succ n ih =>
    rw [replicatedVer, addCopy_eq h ih.1]
    refine ⟨h.append_shift ih.1, ?_⟩
    rw [Application.copies_succ, ih.2]

/-- The nodes of copy `c` of an application of `n` models. -/
def copyNodes (n c : Nat) : Set Int := shiftNode (c * n) '' {i | IsNode n i}

theorem mem_copyNodes {n c : Nat} {i : Int} (h : i ∈ copyNodes n c) :
    ((c * n : Nat) : Int) ≤ i ∧ i < ((c * n + n : Nat) : Int) ∨
      -((c * n + n : Nat) : Int) ≤ i ∧ i < -((c * n : Nat) : Int) := by
  obtain ⟨i, ⟨hlo, hhi⟩, rfl⟩ := h
  unfold shiftNode
  split_ifs with hnonneg
  · left; push_cast; omega
  · right; push_cast; omega

theorem disjoint_copyNodes (n : Nat) {c c' : Nat} (hne : c ≠ c') :
    Disjoint (copyNodes n c) (copyNodes n c') := by
  -- Of two copies one ends before the other begins.
  have hlt : ∀ {c c' : Nat}, c < c' → c * n + n ≤ c' * n := fun {c c'} hlt =>
    (Nat.succ_mul c n).symm.le.trans (Nat.mul_le_mul_right n hlt)
  refine Set.disjoint_left.mpr fun i hi hi' => ?_
  have hi := mem_copyNodes hi
  have hi' := mem_copyNodes hi'
  rcases Nat.lt_or_gt_of_ne hne with h | h
  · have := hlt h
    omega
  · have := hlt h
    omega

theorem Application.WellFormed.within_copy {a : Application α} (h : a.WellFormed) (c r : Nat) :
    (a.shift (c * a.modelPaths.length) r).Within (copyNodes a.modelPaths.length c) :=
  h.within.rename _ _

end Mil.Applications
