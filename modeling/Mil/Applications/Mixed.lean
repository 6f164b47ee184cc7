import Mathlib.Order.Bounds.Basic
import Mil.Applications.ChainSummary

/-!
# The mixed application and its copies

The chain summary next to the blender, and the row of copies of the two. The blender's graph is so
simple that what `mixedApplication` writes for it is what `addCopy` writes.
-/

set_option autoImplicit false

namespace Mil.Applications

open Mil.Lib

section

variable {α : Type}

/-! ## The blender next to another application -/

theorem wellFormed_llmBlender (inferenceArgs : String → α) (modelPaths : List String)
    (reqnum promptNum : Nat) :
    (llmBlender inferenceArgs modelPaths reqnum promptNum).WellFormed := by
  obtain ⟨hupdate, hnd⟩ := update_models_inputs (fun _ => List.range (min reqnum promptNum))
    (fun _ => List.range (min reqnum promptNum)) modelPaths.length
  have hids : (llmBlender inferenceArgs modelPaths reqnum promptNum).inpSeqIdsDict = _ := hupdate
  have hmodel : ∀ {i : Nat}, i ∈ List.range modelPaths.length →
      0 ≤ (i : Int) ∧ IsNode modelPaths.length i := fun hi => isNode_model (List.mem_range.mp hi)
  constructor
  case inEdge_nodup => exact nodup_keys_models _ _
  case inEdge =>
    intro e he
    obtain ⟨i, hi, rfl⟩ := List.mem_map.mp he
    refine ⟨hmodel hi, fun j hj => ?_⟩
    obtain rfl := List.mem_singleton.mp hj
    exact ⟨(isNode_input (List.mem_range.mp hi)).2, fun _ => rfl⟩
  case seqIds_nodup => rw [hids]; exact hnd
  case seqIds =>
    rw [hids]
    intro e he
    rcases List.mem_append.mp he with he | he
    · obtain ⟨i, hi, rfl⟩ := List.mem_map.mp he
      exact (hmodel hi).2
    · obtain ⟨i, hi, rfl⟩ := List.mem_map.mp he
      exact (isNode_input (List.mem_range.mp hi)).2
  case lens_nodup => exact List.nodup_nil
  case lens => exact fun e he => absurd he List.not_mem_nil
  case chunks_nodup => exact nodup_keys_inputs _ _
  case chunks =>
    intro e he
    obtain ⟨i, hi, rfl⟩ := List.mem_map.mp he
    exact isNode_input (List.mem_range.mp hi)
  case reqFrom_nodup => exact List.nodup_nil
  case reqFrom => exact fun e he => absurd he List.not_mem_nil
  case srcs_nodup => exact nodup_keys_models _ _
  case srcs =>
    intro e he
    obtain ⟨i, hi, rfl⟩ := List.mem_map.mp he
    exact hmodel hi
  case templates_nodup => exact nodup_keys_zipIdx _ _
  case templates =>
    intro e he
    obtain ⟨l, hl, rfl⟩ := List.mem_map.mp he
    refine ⟨isNode_model ?_, fun sources hsources => absurd hsources (by simp)⟩
    exact List.snd_lt_of_mem_zipIdx hl

theorem TemplateArgs.map_sources_of_none {t : TemplateArgs α} (h : t.sources = none)
    (f : List Int → List Int) : { t with sources := t.sources.map f } = t := by
  obtain ⟨args, template, sources⟩ := t
  obtain rfl : sources = none := h
  rfl

theorem mixedApplication_eq_addCopy {first : Application α} (hfirst : first.WellFormed)
    (inferenceArgs : String → α) (modelPaths : List String) (reqnum promptNum : Nat) :
    mixedApplication first (llmBlender inferenceArgs modelPaths reqnum promptNum) =
      addCopy first (llmBlender inferenceArgs modelPaths reqnum promptNum) := by
  have hblender := wellFormed_llmBlender inferenceArgs modelPaths reqnum promptNum
  generalize hb : llmBlender inferenceArgs modelPaths reqnum promptNum = second at hblender ⊢
  have hedges : ∀ e ∈ second.inEdgeDict, e.2 = [-(e.1 + 1)] := by
    rw [← hb]
    intro e he
    obtain ⟨i, -, rfl⟩ := List.mem_map.mp he
    rfl
  have hnone : ∀ e ∈ second.promptTemplateArgs, e.2.sources = none := by
    rw [← hb]
    intro e he
    obtain ⟨l, -, rfl⟩ := List.mem_map.mp he
    rfl
  have hfrom : second.inpReqFrom = [] := by rw [← hb]; rfl
  have hwriteEdges : (second.inEdgeDict.map fun e =>
      (e.1 + (first.modelPaths.length : Int), [-(e.1 + (first.modelPaths.length : Int) + 1)])) =
      second.inEdgeDict.map fun e => (e.1 + (first.modelPaths.length : Int), e.2.map fun i =>
        if i < 0 then -(e.1 + (first.modelPaths.length : Int) + 1)
        else i + (first.modelPaths.length : Int)) := by
    refine List.map_congr_left fun e he => ?_
    have hneg : -(e.1 + 1) < 0 := by
      have := (hblender.inEdge e he).1.1
      omega
    rw [hedges e he, List.map_singleton, if_pos hneg]
  -- Writing the template arguments again changes nothing, as there is no node in them.
  have hwriteTemplates : ∀ d : List (Int × TemplateArgs α),
      (∀ e ∈ d, IsNode first.modelPaths.length e.1) →
      Dict.update d (second.promptTemplateArgs.map fun e =>
        (e.1 + (first.modelPaths.length : Int), e.2)) =
      Dict.update (Dict.update d (second.promptTemplateArgs.map fun e =>
        (e.1 + (first.modelPaths.length : Int), e.2))) (second.promptTemplateArgs.map fun e =>
        (e.1 + (first.modelPaths.length : Int), { e.2 with
          sources := e.2.sources.map (·.map (shiftNode first.modelPaths.length)) })) := by
    intro d hd
    have hnonneg := fun e he => (hblender.templates e he).1.1
    rw [map_add_eq_shift hnonneg _ _ fun _ _ => rfl,
      map_add_eq_shift hnonneg _ (fun e => e.2) fun e he =>
        TemplateArgs.map_sources_of_none (hnone e he) _,
      update_shift hd hblender.templates_nodup,
      Dict.update_append_of_disjoint (disjoint_keys_shift hd _),
      Dict.update_of_keys_eq (nodup_keys_shift hblender.templates_nodup _) rfl]
  simp only [mixedApplication, addCopy, hwriteEdges, hfrom, List.map_nil,
    ← hwriteTemplates _ fun e he => (hfirst.templates e he).1.2]
  rfl

/-- Of the two applications neither speaks of the other's nodes. -/
theorem mixedApplication_eq {first : Application α} (hfirst : first.WellFormed)
    (inferenceArgs : String → α) (modelPaths : List String) (reqnum promptNum : Nat) :
    mixedApplication first (llmBlender inferenceArgs modelPaths reqnum promptNum) =
        first.append ((llmBlender inferenceArgs modelPaths reqnum promptNum).shift
          first.modelPaths.length first.reqNum) ∧
      (mixedApplication first
        (llmBlender inferenceArgs modelPaths reqnum promptNum)).WellFormed := by
  have hblender := wellFormed_llmBlender inferenceArgs modelPaths reqnum promptNum
  rw [mixedApplication_eq_addCopy hfirst, addCopy_eq hfirst hblender]
  exact ⟨rfl, hfirst.append_shift hblender⟩

/-! ## The requests of the chain summary -/

/-- Request `req` of `model` is made from output `out` of `src`. -/
def Application.IsSource (a : Application α) (model : Int) (req : Nat) (src : Int)
    (out : Nat) : Prop :=
  ∃ info, a.inpReqFrom.lookup model = some info ∧
    ∃ requests, info.lookup src = some requests ∧ requests.lookup req = some out

/-- A summary of books with these chunk numbers, the largest of which is `maxChunkNum`; the models
`0` to `maxChunkNum - 1` take a chunk each, and `maxChunkNum` is the evaluator. -/
structure SummarizesChunks (chunkNums : List Nat) (evaluateItemNum maxChunkNum : Nat)
    (a : Application α) : Prop where
  /-- Every request to the evaluator is made from the output of the book's last chunk. -/
  evaluatorSource : ∀ (j c : Nat), chunkNums[j]? = some c → ∀ k < evaluateItemNum,
    ∀ (src : Int) (out : Nat), a.IsSource maxChunkNum (j * evaluateItemNum + k) src out ↔
      0 < c ∧ src = (c : Int) - 1 ∧ out = j
  evaluatorIds : a.inpSeqIdsDict.lookup (maxChunkNum : Int) =
    some (List.range (chunkNums.length * evaluateItemNum))
  evaluatorEdges : a.inEdgeDict.lookup (maxChunkNum : Int) =
    some ((List.range maxChunkNum).map fun i : Nat => (i : Int))
  /-- A chunk model and its input have the books with that chunk, every one once. -/
  chunkIds : ∀ i < maxChunkNum, ∃ ids, a.inpSeqIdsDict.lookup (i : Int) = some ids ∧
    a.inpSeqIdsDict.lookup (-((i : Int) + 1)) = some ids ∧ ids.Nodup ∧
    ∀ j, j ∈ ids ↔ ∃ c, chunkNums[j]? = some c ∧ i < c
  chunkEdges : ∀ i < maxChunkNum, a.inEdgeDict.lookup (i : Int) =
    some (if i = 0 then [-1] else [-((i : Int) + 1), (i : Int) - 1])

variable (prompts : Prompts α) (summModel evaluateModel : String) (evaluateItemNum : Nat)

theorem isSource_chainSummaryGraph {chunkNums : List Nat} {maxChunkNum : Nat}
    (hdesc : chunkNums.Pairwise (· ≥ ·)) (hmax : ∀ c ∈ chunkNums, c ≤ maxChunkNum)
    (hpos : 0 < maxChunkNum) (req : Nat) (src : Int) (out : Nat) :
    (chainSummaryGraph prompts summModel evaluateModel evaluateItemNum chunkNums
      maxChunkNum).IsSource maxChunkNum req src out ↔
      ∃ i < maxChunkNum, src = (i : Int) ∧ chunkNums[out]? = some (i + 1) ∧
        ∃ k < evaluateItemNum, req = out * evaluateItemNum + k := by
  have hfrom := inpReqFrom_chainSummaryGraph prompts summModel evaluateModel evaluateItemNum
    chunkNums hmax hpos
  have hnd := nodup_keys_models (fun i => requestMap evaluateItemNum (lastChunkIds chunkNums i))
    maxChunkNum
  unfold Application.IsSource
  rw [hfrom]
  constructor
  · rintro ⟨info, hinfo, requests, hrequests, hreq⟩
    rw [Dict.lookup_cons_self] at hinfo
    cases hinfo
    obtain ⟨i, hi, heq⟩ := List.mem_map.mp (Dict.mem_of_lookup hrequests)
    cases heq
    obtain ⟨hout, k, hk, rfl⟩ := (lookup_requestMap (nodup_lastChunkIds _ _) _ _).mp hreq
    exact ⟨i, List.mem_range.mp hi, rfl, (mem_lastChunkIds hdesc _ _).mp hout, k, hk, rfl⟩
  · rintro ⟨i, hi, rfl, hout, hreq⟩
    refine ⟨_, Dict.lookup_cons_self, requestMap evaluateItemNum (lastChunkIds chunkNums i),
      Dict.lookup_of_mem hnd ?_, (lookup_requestMap (nodup_lastChunkIds _ _) _ _).mpr ⟨?_, hreq⟩⟩
    · exact List.mem_map.mpr ⟨i, List.mem_range.mpr hi, rfl⟩
    · exact (mem_lastChunkIds hdesc _ _).mpr hout

theorem summarizesChunks_chainSummaryGraph {chunkNums : List Nat} {maxChunkNum : Nat}
    (hdesc : chunkNums.Pairwise (· ≥ ·)) (hmax : ∀ c ∈ chunkNums, c ≤ maxChunkNum)
    (hpos : 0 < maxChunkNum) :
    SummarizesChunks chunkNums evaluateItemNum maxChunkNum
      (chainSummaryGraph prompts summModel evaluateModel evaluateItemNum chunkNums
        maxChunkNum) := by
  have hwell := wellFormed_chainSummaryGraph prompts summModel evaluateModel evaluateItemNum
    chunkNums hmax hpos
  have hedges := inEdgeDict_chainSummaryGraph prompts summModel evaluateModel evaluateItemNum
    chunkNums hpos
  have hids := (inpSeqIdsDict_chainSummaryGraph prompts summModel evaluateModel
    evaluateItemNum chunkNums maxChunkNum).1
  constructor
  case evaluatorSource =>
    intro j c hj k hk src out
    rw [isSource_chainSummaryGraph prompts summModel evaluateModel evaluateItemNum hdesc hmax hpos]
    constructor
    · rintro ⟨i, hi, rfl, hout, k', hk', heq⟩
      -- The book of a request is its quotient.
      have hquot := congrArg (· / evaluateItemNum) heq
      simp only [Nat.mul_comm _ evaluateItemNum, Nat.mul_add_div (Nat.zero_lt_of_lt hk),
        Nat.div_eq_of_lt hk, Nat.div_eq_of_lt hk', Nat.add_zero] at hquot
      subst hquot
      cases hj.symm.trans hout
      exact ⟨Nat.succ_pos i, by omega, rfl⟩
    · rintro ⟨hc, rfl, rfl⟩
      have hle := hmax c (List.mem_of_getElem? hj)
      refine ⟨c - 1, by omega, by omega, ?_, k, hk, rfl⟩
      rw [hj, Nat.sub_add_cancel hc]
  case evaluatorIds =>
    refine Dict.lookup_of_mem hwell.seqIds_nodup ?_
    rw [hids]
    exact List.mem_append_right _ (List.mem_singleton_self _)
  case evaluatorEdges =>
    refine Dict.lookup_of_mem hwell.inEdge_nodup ?_
    rw [hedges]
    exact List.mem_append_right _ (List.mem_singleton_self _)
  case chunkIds =>
    intro i hi
    refine ⟨seqIds chunkNums i, Dict.lookup_of_mem hwell.seqIds_nodup ?_,
      Dict.lookup_of_mem hwell.seqIds_nodup ?_, List.nodup_range, mem_seqIds hdesc i⟩
    · rw [hids, List.append_assoc]
      exact List.mem_append_left _ (List.mem_map.mpr ⟨i, List.mem_range.mpr hi, rfl⟩)
    · rw [hids]
      refine List.mem_append_left _ (List.mem_append_right _ ?_)
      exact List.mem_map.mpr ⟨i, List.mem_range.mpr hi, rfl⟩
  case chunkEdges =>
    intro i hi
    refine Dict.lookup_of_mem hwell.inEdge_nodup ?_
    rw [hedges]
    exact List.mem_append_left _ (List.mem_map.mpr ⟨i, List.mem_range.mpr hi, rfl⟩)

/-- There is a graph as soon as some book has a chunk. -/
theorem chainSummary_eq_some_iff {chunkNums : List Nat} (hdesc : chunkNums.Pairwise (· ≥ ·))
    (a : Application α) :
    chainSummary prompts summModel evaluateModel evaluateItemNum chunkNums = some a ↔
      ∃ maxChunkNum, 0 < maxChunkNum ∧ IsGreatest {c | c ∈ chunkNums} maxChunkNum ∧
        a = chainSummaryGraph prompts summModel evaluateModel evaluateItemNum chunkNums
          maxChunkNum := by
  cases chunkNums with
  | nil =>
    refine ⟨fun h => absurd h (by simp [chainSummary]), ?_⟩
    rintro ⟨m, -, hm, -⟩
    exact absurd hm.1 List.not_mem_nil
  | cons c chunkNums =>
    have hgreatest : IsGreatest {c' | c' ∈ c :: chunkNums} c := by
      refine ⟨List.mem_cons_self, fun c' hc' => ?_⟩
      rcases List.mem_cons.mp hc' with rfl | hc'
      · exact le_refl c'
      · exact (List.pairwise_cons.mp hdesc).1 c' hc'
    cases c with
    | zero =>
      refine ⟨fun h => absurd h (by simp [chainSummary]), ?_⟩
      rintro ⟨m, hpos, hm, -⟩
      exact absurd (hm.unique hgreatest) hpos.ne'
    | succ n =>
      constructor
      · intro h
        exact ⟨n + 1, Nat.succ_pos n, hgreatest, (Option.some.inj h).symm⟩
      · rintro ⟨m, hpos, hm, rfl⟩
        rw [hm.unique hgreatest]
        rfl

/-- The graphs are well formed. With the books in descending order the summary exists if there is a
chunk at all, and then every chunk model and every evaluator request has what it is to have. Next to
it the blender's nodes and requests are shifted, and so are those of every copy of the two; the
copies have no node in common and speak of their own nodes only. -/
theorem applicationGraphs_wellFormed (inferenceArgs : String → α) (modelPaths : List String)
    (reqnum promptNum : Nat) {chunkNums : List Nat} (hdesc : chunkNums.Pairwise (· ≥ ·)) :
    ((∃ a, chainSummary prompts summModel evaluateModel evaluateItemNum chunkNums = some a) ↔
      ∃ c ∈ chunkNums, 0 < c) ∧
    ∀ a, chainSummary prompts summModel evaluateModel evaluateItemNum chunkNums = some a →
      (∃ maxChunkNum, IsGreatest {c | c ∈ chunkNums} maxChunkNum ∧
        SummarizesChunks chunkNums evaluateItemNum maxChunkNum a) ∧
      ∀ blender mixed, blender = llmBlender inferenceArgs modelPaths reqnum promptNum →
        mixed = mixedApplication a blender →
        (mixed = a.append (blender.shift a.modelPaths.length a.reqNum) ∧
          Disjoint {i | IsNode a.modelPaths.length i}
            (shiftNode a.modelPaths.length '' {i | IsNode blender.modelPaths.length i}) ∧
          a.Within {i | IsNode a.modelPaths.length i} ∧
          (blender.shift a.modelPaths.length a.reqNum).Within
            (shiftNode a.modelPaths.length '' {i | IsNode blender.modelPaths.length i})) ∧
        (∀ r, replicatedVer mixed r = mixed.copies (r + 1)) ∧
        (∀ c c', c ≠ c' → Disjoint (copyNodes mixed.modelPaths.length c)
          (copyNodes mixed.modelPaths.length c')) ∧
        ∀ c, (mixed.shift (c * mixed.modelPaths.length) (c * mixed.reqNum)).Within
          (copyNodes mixed.modelPaths.length c) := by
  have hiff := chainSummary_eq_some_iff prompts summModel evaluateModel evaluateItemNum hdesc
  constructor
  · constructor
    · rintro ⟨a, ha⟩
      obtain ⟨m, hpos, hm, -⟩ := (hiff a).mp ha
      exact ⟨m, hm.1, hpos⟩
    · rintro ⟨c, hc, hpos⟩
      cases hsummary : chunkNums with
      | nil => exact absurd (hsummary ▸ hc) List.not_mem_nil
      | cons c' l =>
        have hgreatest : ∀ x ∈ c' :: l, x ≤ c' := fun x hx => by
          rcases List.mem_cons.mp hx with rfl | hx
          · exact le_refl x
          · exact (List.pairwise_cons.mp (hsummary ▸ hdesc)).1 x hx
        have hle : c ≤ c' := hgreatest c (hsummary ▸ hc)
        subst hsummary
        exact ⟨_, (hiff _).mpr ⟨c', hpos.trans_le hle, ⟨List.mem_cons_self, hgreatest⟩, rfl⟩⟩
  · intro a ha
    obtain ⟨m, hpos, hm, rfl⟩ := (hiff a).mp ha
    have hwell := wellFormed_chainSummaryGraph prompts summModel evaluateModel evaluateItemNum
      chunkNums (fun c hc => hm.2 hc) hpos
    refine ⟨⟨m, hm, summarizesChunks_chainSummaryGraph prompts summModel evaluateModel
      evaluateItemNum hdesc (fun c hc => hm.2 hc) hpos⟩, ?_⟩
    rintro blender mixed rfl rfl
    have hblender := wellFormed_llmBlender inferenceArgs modelPaths reqnum promptNum
    obtain ⟨heq, hmixed⟩ := mixedApplication_eq hwell inferenceArgs modelPaths reqnum promptNum
    refine ⟨⟨heq, ?_, hwell.within, hblender.within.rename _ _⟩, fun r => ?_, ?_, fun c => ?_⟩
    · refine Set.disjoint_left.mpr fun i hi hi' => ?_
      obtain ⟨i', -, rfl⟩ := hi'
      exact not_isNode_shiftNode _ _ hi
    · exact (replicatedVer_eq_copies hmixed r).2
    · exact fun c c' hne => disjoint_copyNodes _ hne
    · exact hmixed.within_copy c _

end

/-- Two evaluator requests for each of three books, then three copies. -/
theorem applicationGraphs_wellFormed_three :
    [3, 1, 1].Pairwise (· ≥ ·) ∧
      ∃ a, chainSummary (α := Unit) ⟨fun _ _ => 0, fun _ => (), "", "", ""⟩ "" "" 2 [3, 1, 1] =
          some a ∧
        a.IsSource 3 (1 * 2 + 1) 0 1 ∧
        ∀ r, replicatedVer (mixedApplication a (llmBlender (fun _ => ()) ["", ""] 4 4)) r =
          (mixedApplication a (llmBlender (fun _ => ()) ["", ""] 4 4)).copies (r + 1) := by
  have hdesc : [3, 1, 1].Pairwise (· ≥ ·) := by decide
  have h := applicationGraphs_wellFormed (α := Unit) ⟨fun _ _ => 0, fun _ => (), "", "", ""⟩ "" ""
    2 (fun _ => ()) ["", ""] 4 4 hdesc
  obtain ⟨a, ha⟩ := h.1.mpr ⟨3, by decide, by decide⟩
  obtain ⟨⟨m, hm, hright⟩, hcopies⟩ := h.2 a ha
  obtain rfl : m = 3 := hm.unique
    ⟨by decide, show ∀ c ∈ [3, 1, 1], c ≤ 3 by decide⟩
  refine ⟨hdesc, a, ha, ?_, (hcopies _ _ rfl rfl).2.1⟩
  exact (hright.evaluatorSource 1 1 rfl 1 (by decide) 0 1).mpr ⟨by decide, by decide, rfl⟩

/-- A book without a chunk gets its evaluator requests all the same, and they are made from
nothing. -/
theorem evaluatorRequest_without_source :
    [1, 0].Pairwise (· ≥ ·) ∧
      ∃ a, chainSummary (α := Unit) ⟨fun _ _ => 0, fun _ => (), "", "", ""⟩ "" "" 1 [1, 0] =
          some a ∧
        (∃ ids, a.inpSeqIdsDict.lookup 1 = some ids ∧ 1 * 1 + 0 ∈ ids) ∧
        ¬ ∃ src out, a.IsSource 1 (1 * 1 + 0) src out := by
  refine ⟨by decide, _, rfl, ⟨_, rfl, by decide⟩, ?_⟩
  rintro ⟨src, out, h⟩
  have hsource : (chainSummaryGraph (α := Unit) ⟨fun _ _ => 0, fun _ => (), "", "", ""⟩ "" "" 1
      [1, 0] 1).IsSource (1 : Nat) (1 * 1 + 0) src out := h
  rw [isSource_chainSummaryGraph _ _ _ _ (by decide) (by decide) (by decide)] at hsource
  obtain ⟨i, hi, -, hout, k, hk, heq⟩ := hsource
  obtain rfl : i = 0 := by omega
  obtain rfl : out = 1 := by omega
  exact absurd hout (by decide)

end Mil.Applications
