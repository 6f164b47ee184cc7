import Mathlib.Data.List.Range
import Mathlib.Data.List.Pairwise
import Mil.Applications.Copies

/-!
# The graph of the chain summary

With the books in descending order of their chunk numbers, chunk model `i` gets the books that have
more than `i` chunks, which are the first ones. The books whose last chunk is chunk `i` are those
that get no further; the evaluator reads their outputs of chunk model `i`, every one in as many
requests as there are evaluator items.
-/

set_option autoImplicit false

namespace Mil.Applications

open Mil.Lib

/-! ## Which books a model gets -/

theorem lt_countP_iff {chunkNums : List Nat} (hdesc : chunkNums.Pairwise (· ≥ ·)) (i j : Nat) :
    j < chunkNums.countP (i < ·) ↔ ∃ c, chunkNums[j]? = some c ∧ i < c := by
  induction hdesc generalizing j with
  | nil => simp
  | @cons a l hall _ ih =>
    by_cases hia : i < a
    · have hcount : (a :: l).countP (i < ·) = l.countP (i < ·) + 1 :=
        List.countP_cons_of_pos (decide_eq_true hia)
      rw [hcount]
      cases j with
      | zero => exact ⟨fun _ => ⟨a, rfl, hia⟩, fun _ => Nat.succ_pos _⟩
      | succ j => rw [Nat.add_lt_add_iff_right, ih, List.getElem?_cons_succ]
    · -- No later book has more chunks than this one.
      have hcount : (a :: l).countP (i < ·) = 0 := List.countP_eq_zero.mpr fun c hc => by
        rw [decide_eq_true_eq]
        rcases List.mem_cons.mp hc with rfl | hc
        · exact hia
        · exact fun hlt => hia (hlt.trans_le (hall c hc))
      rw [hcount]
      refine ⟨fun h => absurd h (Nat.not_lt_zero j), ?_⟩
      rintro ⟨c, hc, hic⟩
      have hzero := List.countP_eq_zero.mp hcount c (List.mem_of_getElem? hc)
      exact absurd (decide_eq_true hic) hzero

theorem mem_seqIds {chunkNums : List Nat} (hdesc : chunkNums.Pairwise (· ≥ ·)) (i j : Nat) :
    j ∈ seqIds chunkNums i ↔ ∃ c, chunkNums[j]? = some c ∧ i < c := by
  rw [seqIds, List.mem_range, lt_countP_iff hdesc]

theorem mem_lastChunkIds {chunkNums : List Nat} (hdesc : chunkNums.Pairwise (· ≥ ·)) (i j : Nat) :
    j ∈ lastChunkIds chunkNums i ↔ chunkNums[j]? = some (i + 1) := by
  rw [lastChunkIds, List.mem_filter, decide_eq_true_eq, mem_seqIds hdesc, mem_seqIds hdesc]
  constructor
  · rintro ⟨⟨c, hc, hlt⟩, hnot⟩
    have hle : c ≤ i + 1 := Nat.not_lt.mp fun hlt => hnot ⟨c, hc, hlt⟩
    rw [hc, Nat.le_antisymm hle hlt]
  · intro hc
    refine ⟨⟨i + 1, hc, Nat.lt_succ_self i⟩, ?_⟩
    rintro ⟨c, hc', hlt⟩
    cases hc.symm.trans hc'
    exact lt_irrefl _ hlt

/-- Past the longest book there is nothing, so what gets to the last model gets no further. -/
theorem lastChunkIds_last {chunkNums : List Nat} {maxChunkNum : Nat}
    (hmax : ∀ c ∈ chunkNums, c ≤ maxChunkNum) (hpos : 0 < maxChunkNum) :
    lastChunkIds chunkNums (maxChunkNum - 1) = seqIds chunkNums (maxChunkNum - 1) := by
  have hnone : seqIds chunkNums (maxChunkNum - 1 + 1) = [] := by
    have hcount : chunkNums.countP (maxChunkNum - 1 + 1 < ·) = 0 :=
      List.countP_eq_zero.mpr fun c hc => by
        have hle := hmax c hc
        rw [decide_eq_true_eq]
        omega
    rw [seqIds, hcount]
    rfl
  rw [lastChunkIds, hnone]
  exact List.filter_eq_self.mpr fun j _ => by simp

theorem nodup_lastChunkIds (chunkNums : List Nat) (i : Nat) : (lastChunkIds chunkNums i).Nodup :=
  List.nodup_range.filter _

theorem nodup_keys_requests {evaluateItemNum : Nat} {outs : List Nat} (hnd : outs.Nodup) :
    (Dict.keys ((List.range evaluateItemNum).flatMap fun inpI =>
      outs.map fun outI => (outI * evaluateItemNum + inpI, outI))).Nodup := by
  have hitem : ∀ {k o k' o' : Nat}, k < evaluateItemNum → k' < evaluateItemNum →
      o * evaluateItemNum + k = o' * evaluateItemNum + k' → o = o' ∧ k = k' := by
    intro k o k' o' hk hk' heq
    have ho := congrArg (· / evaluateItemNum) heq
    simp only [Nat.mul_comm _ evaluateItemNum, Nat.mul_add_div (Nat.zero_lt_of_lt hk),
      Nat.div_eq_of_lt hk, Nat.div_eq_of_lt hk', Nat.add_zero] at ho
    subst ho
    exact ⟨rfl, Nat.add_left_cancel heq⟩
  rw [Dict.keys, List.map_flatMap, List.nodup_flatMap]
  constructor
  · intro k hk
    rw [List.map_map]
    have hk := List.mem_range.mp hk
    exact List.Nodup.map_on (fun o _ o' _ heq => (hitem hk hk heq).1) hnd
  · refine List.nodup_range.imp_of_mem fun {k k'} hk hk' hne q hq hq' => hne ?_
    simp only [List.map_map] at hq hq'
    obtain ⟨o, -, rfl⟩ := List.mem_map.mp hq
    obtain ⟨o', -, heq⟩ := List.mem_map.mp hq'
    exact (hitem (List.mem_range.mp hk') (List.mem_range.mp hk) heq).2.symm

theorem lookup_requestMap {evaluateItemNum : Nat} {outs : List Nat} (hnd : outs.Nodup)
    (req out : Nat) : (requestMap evaluateItemNum outs).lookup req = some out ↔
      out ∈ outs ∧ ∃ k < evaluateItemNum, req = out * evaluateItemNum + k := by
  have hkeys : (Dict.keys ((List.range evaluateItemNum).flatMap fun inpI =>
      outs.map fun outI => (outI * evaluateItemNum + inpI, outI))).Nodup := nodup_keys_requests hnd
  have hitems : requestMap evaluateItemNum outs = (List.range evaluateItemNum).flatMap fun inpI =>
      outs.map fun outI => (outI * evaluateItemNum + inpI, outI) :=
    Dict.update_eq_append hkeys (List.disjoint_nil_left _)
  have hmem : (requestMap evaluateItemNum outs).lookup req = some out ↔
      (req, out) ∈ requestMap evaluateItemNum outs :=
    ⟨Dict.mem_of_lookup, fun h => Dict.lookup_of_mem (hitems ▸ hkeys) h⟩
  rw [hmem, hitems, List.mem_flatMap]
  constructor
  · rintro ⟨k, hk, h⟩
    obtain ⟨o, ho, heq⟩ := List.mem_map.mp h
    cases heq
    exact ⟨ho, k, List.mem_range.mp hk, rfl⟩
  · rintro ⟨ho, k, hk, rfl⟩
    exact ⟨k, List.mem_range.mpr hk, List.mem_map.mpr ⟨out, ho, rfl⟩⟩

/-! ## The dictionaries -/

section

variable {β : Type}

/-- A dictionary over the first `n` models. -/
theorem keys_models (value : Nat → β) (n : Nat) :
    Dict.keys ((List.range n).map fun i : Nat => ((i : Int), value i)) =
      (List.range n).map fun i : Nat => (i : Int) := by
  rw [Dict.keys, List.map_map]
  rfl

/-- A dictionary over the inputs of the first `n` models. -/
theorem keys_inputs (value : Nat → β) (n : Nat) :
    Dict.keys ((List.range n).map fun i : Nat => (-((i : Int) + 1), value i)) =
      (List.range n).map fun i : Nat => -((i : Int) + 1) := by
  rw [Dict.keys, List.map_map]
  rfl

theorem nodup_keys_models (value : Nat → β) (n : Nat) :
    (Dict.keys ((List.range n).map fun i : Nat => ((i : Int), value i))).Nodup := by
  rw [keys_models]
  exact List.nodup_range.map Int.ofNat_injective

theorem nodup_keys_inputs (value : Nat → β) (n : Nat) :
    (Dict.keys ((List.range n).map fun i : Nat => (-((i : Int) + 1), value i))).Nodup := by
  rw [keys_inputs]
  refine List.nodup_range.map fun i j heq => ?_
  have heq : -((i : Int) + 1) = -((j : Int) + 1) := heq
  omega

theorem notMem_keys_models (value : Nat → β) {n m : Nat} (hle : n ≤ m) :
    (m : Int) ∉ Dict.keys ((List.range n).map fun i : Nat => ((i : Int), value i)) := by
  rw [keys_models]
  intro hmem
  obtain ⟨i, hi, heq⟩ := List.mem_map.mp hmem
  have hi := List.mem_range.mp hi
  omega

/-- The models, then one more. -/
theorem set_models (value : Nat → β) (b : β) (n : Nat) :
    Dict.set (n : Int) b ((List.range n).map fun i : Nat => ((i : Int), value i)) =
      ((List.range n).map fun i : Nat => ((i : Int), value i)) ++ [((n : Int), b)] :=
  Dict.set_of_not_mem (notMem_keys_models value (Nat.le_refl n))

/-- The models, then their inputs. -/
theorem update_models_inputs (value value' : Nat → β) (n : Nat) :
    Dict.update ((List.range n).map fun i : Nat => ((i : Int), value i))
        ((List.range n).map fun i : Nat => (-((i : Int) + 1), value' i)) =
      ((List.range n).map fun i : Nat => ((i : Int), value i)) ++
        ((List.range n).map fun i : Nat => (-((i : Int) + 1), value' i)) ∧
    (Dict.keys (((List.range n).map fun i : Nat => ((i : Int), value i)) ++
      ((List.range n).map fun i : Nat => (-((i : Int) + 1), value' i)))).Nodup := by
  have hdisjoint : List.Disjoint
      (Dict.keys ((List.range n).map fun i : Nat => ((i : Int), value i)))
      (Dict.keys ((List.range n).map fun i : Nat => (-((i : Int) + 1), value' i))) := by
    rw [keys_models, keys_inputs]
    intro k hk hk'
    obtain ⟨i, -, rfl⟩ := List.mem_map.mp hk
    obtain ⟨j, -, heq⟩ := List.mem_map.mp hk'
    omega
  refine ⟨Dict.update_eq_append (nodup_keys_inputs value' n) hdisjoint, ?_⟩
  rw [Dict.keys_append, List.nodup_append']
  exact ⟨nodup_keys_models value n, nodup_keys_inputs value' n, hdisjoint⟩

/-- A dictionary over the positions of a list. -/
theorem nodup_keys_zipIdx {γ : Type} (l : List γ) (value : γ × Nat → β) :
    (Dict.keys (l.zipIdx.map fun e => ((e.2 : Int), value e))).Nodup := by
  have hkeys : Dict.keys (l.zipIdx.map fun e => ((e.2 : Int), value e)) =
      (l.zipIdx.map Prod.snd).map fun i : Nat => (i : Int) := by
    rw [Dict.keys, List.map_map, List.map_map]
    rfl
  rw [hkeys, List.zipIdx_map_snd]
  exact (List.nodup_range' ..).map Int.ofNat_injective

end

theorem isNode_model {i n : Nat} (h : i < n) : 0 ≤ (i : Int) ∧ IsNode n i := by
  unfold IsNode
  omega

theorem isNode_input {i n : Nat} (h : i < n) :
    -((i : Int) + 1) < 0 ∧ IsNode n (-((i : Int) + 1)) := by
  unfold IsNode
  omega

section

variable {α : Type} (prompts : Prompts α) (summModel evaluateModel : String)
  (evaluateItemNum : Nat) (chunkNums : List Nat) {maxChunkNum : Nat}

theorem inEdgeDict_chainSummaryGraph (hpos : 0 < maxChunkNum) :
    (chainSummaryGraph prompts summModel evaluateModel evaluateItemNum chunkNums
      maxChunkNum).inEdgeDict = ((List.range maxChunkNum).map fun i : Nat =>
        ((i : Int), if i = 0 then [-1] else [-((i : Int) + 1), (i : Int) - 1])) ++
      [((maxChunkNum : Int), (List.range maxChunkNum).map fun i : Nat => (i : Int))] := by
  obtain ⟨n, rfl⟩ := Nat.exists_eq_succ_of_ne_zero hpos.ne'
  have hitems : ((List.range n.succ).map fun i : Nat =>
      ((i : Int), if i = 0 then [-1] else [-((i : Int) + 1), (i : Int) - 1])) =
      [((0 : Int), [(-1 : Int)])] ++ ((List.range' 1 n).map fun i : Nat =>
        ((i : Int), [-((i : Int) + 1), (i : Int) - 1])) := by
    rw [List.range_eq_range', List.range'_succ, List.map_cons, List.singleton_append]
    refine congrArg _ (List.map_congr_left fun i hi => ?_)
    have hi := (List.mem_range'_1.mp hi).1
    rw [if_neg (by omega)]
  have hkeys : Dict.keys ((List.range' 1 n).map fun i : Nat =>
      ((i : Int), [-((i : Int) + 1), (i : Int) - 1])) =
      (List.range' 1 n).map fun i : Nat => (i : Int) := by
    rw [Dict.keys, List.map_map]
    rfl
  have hupdate : Dict.update [((0 : Int), [(-1 : Int)])] ((List.range' 1 n).map fun i : Nat =>
      ((i : Int), [-((i : Int) + 1), (i : Int) - 1])) = ((List.range n.succ).map fun i : Nat =>
      ((i : Int), if i = 0 then [-1] else [-((i : Int) + 1), (i : Int) - 1])) := by
    rw [hitems]
    refine Dict.update_eq_append ?_ ?_
    · rw [hkeys]
      exact (List.nodup_range' ..).map Int.ofNat_injective
    · rw [hkeys]
      intro k hk hk'
      obtain ⟨i, hi, heq⟩ := List.mem_map.mp hk'
      have hi := (List.mem_range'_1.mp hi).1
      have hk : k = 0 := List.mem_singleton.mp hk
      omega
  calc Dict.set ((n.succ : Nat) : Int) ((List.range n.succ).map fun i : Nat => (i : Int))
        (Dict.update [((0 : Int), [(-1 : Int)])] ((List.range' 1 (n.succ - 1)).map fun i : Nat =>
          ((i : Int), [-((i : Int) + 1), (i : Int) - 1])))
      = Dict.set ((n.succ : Nat) : Int) ((List.range n.succ).map fun i : Nat => (i : Int))
        ((List.range n.succ).map fun i : Nat =>
          ((i : Int), if i = 0 then [-1] else [-((i : Int) + 1), (i : Int) - 1])) := by
        rw [Nat.succ_sub_one, hupdate]
    _ = _ := set_models (fun i : Nat => if i = 0 then [-1] else [-((i : Int) + 1), (i : Int) - 1])
        ((List.range n.succ).map fun i : Nat => (i : Int)) n.succ

theorem inpSeqIdsDict_chainSummaryGraph (maxChunkNum : Nat) :
    (chainSummaryGraph prompts summModel evaluateModel evaluateItemNum chunkNums
      maxChunkNum).inpSeqIdsDict =
      (((List.range maxChunkNum).map fun i : Nat => ((i : Int), seqIds chunkNums i)) ++
        ((List.range maxChunkNum).map fun i : Nat => (-((i : Int) + 1), seqIds chunkNums i))) ++
        [((maxChunkNum : Int), List.range (chunkNums.length * evaluateItemNum))] ∧
    (Dict.keys (chainSummaryGraph prompts summModel evaluateModel evaluateItemNum chunkNums
      maxChunkNum).inpSeqIdsDict).Nodup := by
  obtain ⟨hupdate, hnd⟩ :=
    update_models_inputs (seqIds chunkNums) (seqIds chunkNums) maxChunkNum
  have hset : (chainSummaryGraph prompts summModel evaluateModel evaluateItemNum chunkNums
      maxChunkNum).inpSeqIdsDict = Dict.set (maxChunkNum : Int)
        (List.range (chunkNums.length * evaluateItemNum))
        (((List.range maxChunkNum).map fun i : Nat => ((i : Int), seqIds chunkNums i)) ++
          ((List.range maxChunkNum).map fun i : Nat =>
            (-((i : Int) + 1), seqIds chunkNums i))) := by
    rw [← hupdate]
    rfl
  rw [hset]
  refine ⟨Dict.set_of_not_mem ?_, Dict.nodup_keys_set hnd _ _⟩
  rw [Dict.keys_append, List.mem_append, not_or]
  refine ⟨notMem_keys_models _ (Nat.le_refl _), fun hmem => ?_⟩
  rw [keys_inputs] at hmem
  obtain ⟨i, -, heq⟩ := List.mem_map.mp hmem
  omega

theorem inpReqFrom_chainSummaryGraph (hmax : ∀ c ∈ chunkNums, c ≤ maxChunkNum)
    (hpos : 0 < maxChunkNum) :
    (chainSummaryGraph prompts summModel evaluateModel evaluateItemNum chunkNums
      maxChunkNum).inpReqFrom = [((maxChunkNum : Int), (List.range maxChunkNum).map fun i : Nat =>
        ((i : Int), requestMap evaluateItemNum (lastChunkIds chunkNums i)))] := by
  obtain ⟨n, rfl⟩ := Nat.exists_eq_succ_of_ne_zero hpos.ne'
  have hlast := lastChunkIds_last hmax hpos
  rw [Nat.succ_sub_one] at hlast
  have hcast : ((n.succ : Nat) : Int) - 1 = (n : Int) := by omega
  have hset := set_models (fun i => requestMap evaluateItemNum (lastChunkIds chunkNums i))
    (requestMap evaluateItemNum (lastChunkIds chunkNums n)) n
  rw [List.range_succ, List.map_append, List.map_singleton, ← hset, hlast, ← hcast]
  rfl

theorem wellFormed_chainSummaryGraph (hmax : ∀ c ∈ chunkNums, c ≤ maxChunkNum)
    (hpos : 0 < maxChunkNum) :
    (chainSummaryGraph prompts summModel evaluateModel evaluateItemNum chunkNums
      maxChunkNum).WellFormed := by
  have hlen : (chainSummaryGraph prompts summModel evaluateModel evaluateItemNum chunkNums
      maxChunkNum).modelPaths.length = maxChunkNum + 1 := by
    simp [chainSummaryGraph]
  have hedges := inEdgeDict_chainSummaryGraph prompts summModel evaluateModel evaluateItemNum
    chunkNums hpos
  obtain ⟨hids, hidsnd⟩ := inpSeqIdsDict_chainSummaryGraph prompts summModel evaluateModel
    evaluateItemNum chunkNums maxChunkNum
  have hfrom := inpReqFrom_chainSummaryGraph prompts summModel evaluateModel evaluateItemNum
    chunkNums hmax hpos
  have hchunk : ∀ {i : Nat}, i < maxChunkNum → 0 ≤ (i : Int) ∧ IsNode (maxChunkNum + 1) i :=
    fun hi => isNode_model (Nat.lt_succ_of_lt hi)
  have hinput : ∀ {i : Nat}, i < maxChunkNum →
      -((i : Int) + 1) < 0 ∧ IsNode (maxChunkNum + 1) (-((i : Int) + 1)) :=
    fun hi => isNode_input (Nat.lt_succ_of_lt hi)
  have heval := isNode_model (Nat.lt_succ_self maxChunkNum)
  constructor
  case inEdge_nodup =>
    rw [hedges, ← set_models]
    exact Dict.nodup_keys_set (nodup_keys_models _ _) _ _
  case inEdge =>
    rw [hedges, hlen]
    intro e he
    -- a chunk reads from its input and from the chunk before it, the evaluation from all chunks
    rcases List.mem_append.mp he with he | he
    · obtain ⟨i, hi, rfl⟩ := List.mem_map.mp he
      have hi := List.mem_range.mp hi
      refine ⟨hchunk hi, fun j hj => ?_⟩
      unfold IsNode
      split at hj
      · have hj := List.mem_singleton.mp hj
        omega
      · rcases List.mem_pair.mp hj with rfl | rfl <;> omega
    · obtain rfl := List.mem_singleton.mp he
      refine ⟨heval, fun j hj => ?_⟩
      obtain ⟨i, hi, rfl⟩ := List.mem_map.mp hj
      exact ⟨(hchunk (List.mem_range.mp hi)).2, fun hneg => by omega⟩
  case seqIds_nodup => exact hidsnd
  case seqIds =>
    rw [hids, hlen]
    intro e he
    rcases List.mem_append.mp he with he | he
    · rcases List.mem_append.mp he with he | he
      · obtain ⟨i, hi, rfl⟩ := List.mem_map.mp he
        exact (hchunk (List.mem_range.mp hi)).2
      · obtain ⟨i, hi, rfl⟩ := List.mem_map.mp he
        exact (hinput (List.mem_range.mp hi)).2
    · obtain rfl := List.mem_singleton.mp he
      exact heval.2
  case lens_nodup => exact nodup_keys_zipIdx _ _
  case lens =>
    rw [hlen]
    intro e he
    obtain ⟨l, hl, rfl⟩ := List.mem_map.mp he
    refine isNode_model ((List.snd_lt_of_mem_zipIdx hl).trans_le ?_)
    simp [promptTemplates]
    omega
  case chunks_nodup => exact nodup_keys_inputs _ _
  case chunks =>
    rw [hlen]
    intro e he
    obtain ⟨i, hi, rfl⟩ := List.mem_map.mp he
    exact hinput (List.mem_range.mp hi)
  case reqFrom_nodup => rw [hfrom]; exact List.nodup_singleton _
  case reqFrom =>
    rw [hfrom, hlen]
    intro e he
    obtain rfl := List.mem_singleton.mp he
    refine ⟨heval, fun src hsrc => ?_⟩
    obtain ⟨i, hi, rfl⟩ := List.mem_map.mp hsrc
    exact hchunk (List.mem_range.mp hi)
  case srcs_nodup => exact Dict.nodup_keys_set (nodup_keys_models _ _) _ _
  case srcs =>
    rw [hlen]
    intro e he
    rcases Dict.eq_or_mem_of_mem_set he with rfl | he
    · exact heval
    · obtain ⟨i, hi, rfl⟩ := List.mem_map.mp he
      exact hchunk (List.mem_range.mp hi)
  case templates_nodup => exact Dict.nodup_keys_set (nodup_keys_models _ _) _ _
  case templates =>
    rw [hlen]
    intro e he
    rcases Dict.eq_or_mem_of_mem_set he with rfl | he
    · exact ⟨heval, fun l hl => absurd hl (by simp)⟩
    · obtain ⟨i, hi, rfl⟩ := List.mem_map.mp he
      have hi := List.mem_range.mp hi
      refine ⟨hchunk hi, fun l hl j hj => ?_⟩
      unfold IsNode
      simp only at hl
      split at hl
      · exact absurd hl (by simp)
      · cases hl
        rcases List.mem_pair.mp hj with rfl | rfl <;> omega

end

end Mil.Applications
