import Mathlib.Data.List.Induction
import Mil.Lib.Decoder
import Mil.Lib.FoldM

/-!
# The forward pass over the paged cache

`ModelRunner.execute_model` of `vllm/worker/model_runner.py`: the input rows of `_prepare_prompt` and
`_prepare_decode`, the layers of `LlamaModel.forward_ori`, each with the `PagedAttention` of
`vllm/model_executor/layers/attention.py`, which stores the keys and values of the step with
`reshape_and_cache` and then reads those of the rows themselves (a prompt) or the cache through the
block tables (the next token), and the hidden states that the sampler picks.

A decode step computes for one position what needs the entries of all positions before it. That it
computes what a pass over all tokens would is here a matter of the tables: no slot that is written
belongs to another position (`Separate`), and the entries of earlier steps are where the tables say
(`Cached`).

The weights are a parameter, and so is the computation with them (`Decoder`): both attention kernels
are taken to compute one function of the query and the entries, without rounding. `Hidden` stands for
the hidden states with the residual, and one entry for the keys and values of all heads. Left out:
the sliding window, prefixes, LoRA, and the rows that only fill a captured graph.
-/

set_option autoImplicit false

namespace Mil.KvCache

open Mil.Lib

variable {Hidden Entry : Type}

/-! ## The rows of the input -/

/-- What the metadata says of a sequence. -/
structure SeqInput where
  tokens : List Nat
  blockTable : List Nat
deriving DecidableEq, Repr

/-- A row of the input: the tokens and positions with their padding, the slots (`none` is
`_PAD_SLOT_ID`), the block table and the context length, and the index that the sampler picks. -/
structure Row (Hidden : Type) where
  positions : List Nat
  slots : List (Option Nat)
  blockTable : List Nat
  contextLen : Nat
  selected : Nat
  hidden : List Hidden

/-- `_pad_to_max` -/
def padToMax {α : Type} (x : List α) (maxLen : Nat) (pad : α) : List α :=
  x ++ List.replicate (maxLen - x.length) pad

/-- The slot of a position: `block_number * block_size + block_offset`. -/
def slot (blockSize : Nat) (q : SeqInput) (position : Nat) : Option Nat :=
  q.blockTable[position / blockSize]?.map fun blockNumber =>
    blockNumber * blockSize + position % blockSize

/-- A row of `_prepare_prompt`. -/
def preparePrompt (M : Decoder Hidden Entry) (blockSize maxPromptLen : Nat) (q : SeqInput) :
    Option (Row Hidden) :=
  ((List.range q.tokens.length).mapM (slot blockSize q)).map fun slots =>
    { positions := padToMax (List.range q.tokens.length) maxPromptLen 0
      slots := padToMax (slots.map some) maxPromptLen none
      blockTable := []
      contextLen := 0
      selected := q.tokens.length - 1
      hidden := (padToMax q.tokens maxPromptLen 0).map M.embed }

/-- A row of `_prepare_decode`. -/
def prepareDecode (M : Decoder Hidden Entry) (blockSize : Nat) (q : SeqInput) :
    Option (Row Hidden) := do
  let token ← q.tokens.getLast?
  let position := q.tokens.length - 1
  let s ← slot blockSize q position
  return { positions := [position]
           slots := [some s]
           blockTable := q.blockTable
           contextLen := q.tokens.length
           selected := 0
           hidden := [M.embed token] }

def prepareInputs (M : Decoder Hidden Entry) (blockSize : Nat) (isPrompt : Bool)
    (inputs : List SeqInput) : Option (List (Row Hidden)) :=
  if isPrompt then
    inputs.mapM (preparePrompt M blockSize ((inputs.map fun q => q.tokens.length).foldl max 0))
  else inputs.mapM (prepareDecode M blockSize)

/-! ## The layers -/

/-- `gpu_cache`: the entry of a block, a layer and an offset. -/
abbrev Cache (Entry : Type) := Nat → Nat → Nat → Entry

def setEntry (cache : Cache Entry) (block layer offset : Nat) (e : Entry) : Cache Entry :=
  fun b l o => if b = block ∧ l = layer ∧ o = offset then e else cache b l o

/-- `reshape_and_cache`: the entries of all tokens of the batch with their slots. -/
def reshapeAndCache (blockSize layer : Nat) (writes : List (Option Nat × Entry))
    (cache : Cache Entry) : Cache Entry :=
  writes.foldl (fun cache w =>
    match w.1 with
    | none => cache
    | some s => setEntry cache (s / blockSize) layer (s % blockSize) w.2) cache

/-- What paged attention reads: the entries of the context through the block table. -/
def pagedEntries (blockSize layer : Nat) (cache : Cache Entry) (blockTable : List Nat)
    (contextLen : Nat) : Option (List Entry) :=
  (List.range contextLen).mapM fun i =>
    blockTable[i / blockSize]?.map fun b => cache b layer (i % blockSize)

/-- The keys and values of a row. -/
def Row.entries (M : Decoder Hidden Entry) (layer : Nat) (row : Row Hidden) : List Entry :=
  List.zipWith (M.keyValue layer) row.positions row.hidden

/-- A layer for a row: a prompt attends to its own keys with a causal mask. -/
def Row.attend (M : Decoder Hidden Entry) (blockSize : Nat) (isPrompt : Bool) (layer : Nat)
    (cache : Cache Entry) (row : Row Hidden) : Option (Row Hidden) :=
  if isPrompt then
    let entries := row.entries M layer
    some { row with
      hidden := (row.positions.zip row.hidden).mapIdx fun i p =>
        M.layer layer p.1 p.2 (entries.take (i + 1)) }
  else
    (pagedEntries blockSize layer cache row.blockTable row.contextLen).map fun entries =>
      { row with
        hidden := (row.positions.zip row.hidden).map fun p => M.layer layer p.1 p.2 entries }

/-- One turn of the loop over the layers. -/
def forwardLayer (M : Decoder Hidden Entry) (blockSize : Nat) (isPrompt : Bool)
    (st : List (Row Hidden) × Cache Entry) (layer : Nat) :
    Option (List (Row Hidden) × Cache Entry) :=
  let writes := st.1.flatMap fun row => row.slots.zip (row.entries M layer)
  let cache := reshapeAndCache blockSize layer writes st.2
  (st.1.mapM (Row.attend M blockSize isPrompt layer cache)).map fun rows => (rows, cache)

def forward (M : Decoder Hidden Entry) (blockSize : Nat) (isPrompt : Bool)
    (rows : List (Row Hidden)) (cache : Cache Entry) : Option (List (Row Hidden) × Cache Entry) :=
  (List.range M.numLayers).foldlM (forwardLayer M blockSize isPrompt) (rows, cache)

/-- `execute_model`: the hidden states that are sampled from, and the cache. A step without
sequences only moves blocks. -/
def executeModel (M : Decoder Hidden Entry) (blockSize : Nat) (isPrompt : Bool)
    (inputs : List SeqInput) (cache : Cache Entry) : Option (List Hidden × Cache Entry) :=
  if inputs.isEmpty then some ([], cache)
  else do
    let rows ← prepareInputs M blockSize isPrompt inputs
    let (rows, cache) ← forward M blockSize isPrompt rows cache
    let outputs ← rows.mapM fun row => row.hidden[row.selected]?.map M.norm
    return (outputs, cache)

/-! ## What is cached where -/

/-- The entries of the first positions of a sequence are where its table says. -/
def Cached (M : Decoder Hidden Entry) (blockSize : Nat) (cache : Cache Entry) (q : SeqInput)
    (count : Nat) : Prop :=
  ∀ p < count, ∃ b, q.blockTable[p / blockSize]? = some b ∧
    ∀ layer < M.numLayers, cache b layer (p % blockSize) = M.entry q.tokens layer p

/-- The first position that a step computes. -/
def firstPosition (isPrompt : Bool) (q : SeqInput) : Nat :=
  if isPrompt then 0 else q.tokens.length - 1

/-- The slot of a position that a step computes belongs to no other position. -/
def Separate (blockSize : Nat) (isPrompt : Bool) (inputs : List SeqInput) : Prop :=
  ∀ q ∈ inputs, ∀ p < q.tokens.length, firstPosition isPrompt q ≤ p →
    ∀ q' ∈ inputs, ∀ p' < q'.tokens.length, ∀ s, slot blockSize q p = some s →
      slot blockSize q' p' = some s → q = q' ∧ p = p'

/-! ## The entries that a layer writes -/

section Writes

variable {blockSize layer : Nat} {writes : List (Option Nat × Entry)} {cache : Cache Entry}

theorem setEntry_self (cache : Cache Entry) (b l o : Nat) (e : Entry) :
    setEntry cache b l o e b l o = e := if_pos ⟨rfl, rfl, rfl⟩

/-- A slot that all writes to it give one entry has it afterwards. -/
theorem reshapeAndCache_of_mem {s : Nat} {e : Entry} (hmem : (some s, e) ∈ writes)
    (hsame : ∀ e', (some s, e') ∈ writes → e' = e) :
    reshapeAndCache blockSize layer writes cache (s / blockSize) layer (s % blockSize) = e := by
  induction writes using List.reverseRecOn with
  | nil => cases hmem
  | append_singleton writes w ih =>
    have hlast := fun e' (heq : w = (some s, e')) =>
      hsame e' (List.mem_append_right _ (List.mem_singleton.mpr heq.symm))
    have ih := fun hmem => ih hmem fun e' he' => hsame e' (List.mem_append_left _ he')
    have hinit : w ≠ (some s, e) → (some s, e) ∈ writes := by
      intro hne
      exact (List.mem_append.mp hmem).resolve_right fun hin => hne (List.mem_singleton.mp hin).symm
    rw [reshapeAndCache, List.foldl_append]
    obtain ⟨target, e'⟩ := w
    cases target with
    | none => exact ih (hinit fun heq => by cases heq)
    | some s' =>
      show setEntry (reshapeAndCache blockSize layer writes cache) (s' / blockSize) layer
        (s' % blockSize) e' _ _ _ = e
      by_cases hs : s' = s
      · subst hs
        rw [setEntry_self]
        exact hlast e' rfl
      · refine (if_neg fun heq => hs ?_).trans (ih (hinit fun heq => ?_))
        · rw [← Nat.div_add_mod s' blockSize, ← Nat.div_add_mod s blockSize, heq.1, heq.2.2]
        · exact hs (Option.some.inj (congrArg Prod.fst heq))

/-- What is not written stays. -/
theorem reshapeAndCache_of_not_mem {b l o : Nat}
    (h : ∀ s e, (some s, e) ∈ writes → l = layer → b = s / blockSize → o ≠ s % blockSize) :
    reshapeAndCache blockSize layer writes cache b l o = cache b l o := by
  induction writes using List.reverseRecOn with
  | nil => rfl
  | append_singleton writes w ih =>
    have ih := ih fun s e he => h s e (List.mem_append_left _ he)
    rw [reshapeAndCache, List.foldl_append]
    obtain ⟨target, e⟩ := w
    cases target with
    | none => exact ih
    | some s =>
      refine (if_neg fun heq => ?_).trans ih
      exact h s e (List.mem_append_right _ (.head _)) heq.2.1 heq.1 heq.2.2

theorem pagedEntries_eq {blockTable : List Nat} {contextLen : Nat} {f : Nat → Entry}
    (h : ∀ i < contextLen, ∃ b, blockTable[i / blockSize]? = some b ∧
      cache b layer (i % blockSize) = f i) :
    pagedEntries blockSize layer cache blockTable contextLen =
      some ((List.range contextLen).map f) := by
  apply mapM_of_forall
  intro i hi
  obtain ⟨b, hb, heq⟩ := h i (List.mem_range.mp hi)
  rw [hb, ← heq]
  rfl

end Writes

/-! ## Rows that compute the positions of a sequence -/

section Rows

variable {M : Decoder Hidden Entry} {blockSize layer : Nat} {isPrompt : Bool} {q : SeqInput}
  {row : Row Hidden} {cache : Cache Entry}

/-- The row computes the positions of the sequence from the first one on, and has the hidden values
that come into the layer; the rest is padding. -/
structure Row.Computes (M : Decoder Hidden Entry) (blockSize : Nat) (isPrompt : Bool) (q : SeqInput)
    (layer : Nat) (row : Row Hidden) : Prop where
  positions : ∀ i, firstPosition isPrompt q + i < q.tokens.length →
    row.positions[i]? = some (firstPosition isPrompt q + i)
  slots : ∀ i, firstPosition isPrompt q + i < q.tokens.length → ∃ s,
    slot blockSize q (firstPosition isPrompt q + i) = some s ∧ row.slots[i]? = some (some s)
  padding : ∀ i s, row.slots[i]? = some (some s) →
    firstPosition isPrompt q + i < q.tokens.length
  hidden : ∀ i, firstPosition isPrompt q + i < q.tokens.length →
    row.hidden[i]? = some (M.hidden q.tokens layer (firstPosition isPrompt q + i))
  selected : firstPosition isPrompt q + row.selected = q.tokens.length - 1
  context : isPrompt = false → row.blockTable = q.blockTable ∧ row.contextLen = q.tokens.length

theorem Row.Computes.entries_getElem? (h : row.Computes M blockSize isPrompt q layer) {i : Nat}
    (hi : firstPosition isPrompt q + i < q.tokens.length) :
    (row.entries M layer)[i]? = some (M.entry q.tokens layer (firstPosition isPrompt q + i)) := by
  rw [Row.entries, List.getElem?_zipWith, h.positions i hi, h.hidden i hi]
  rfl

/-- What a row writes: the entries of the positions it computes, into their slots. -/
theorem Row.Computes.mem_writes (h : row.Computes M blockSize isPrompt q layer) {s : Nat}
    {e : Entry} : (some s, e) ∈ row.slots.zip (row.entries M layer) ↔
      ∃ p < q.tokens.length, firstPosition isPrompt q ≤ p ∧ slot blockSize q p = some s ∧
        e = M.entry q.tokens layer p := by
  rw [List.mem_iff_getElem?]
  constructor
  · rintro ⟨i, hi⟩
    obtain ⟨hs, he⟩ := List.getElem?_zip_eq_some.mp hi
    have hlt := h.padding i s hs
    obtain ⟨s', hslot, hs'⟩ := h.slots i hlt
    obtain rfl := Option.some.inj (Option.some.inj (hs'.symm.trans hs))
    refine ⟨firstPosition isPrompt q + i, hlt, Nat.le_add_right _ _, hslot, ?_⟩
    exact Option.some.inj (he.symm.trans (h.entries_getElem? hlt))
  · rintro ⟨p, hp, hle, hslot, rfl⟩
    obtain ⟨i, rfl⟩ := Nat.exists_eq_add_of_le hle
    obtain ⟨s', hslot', hs'⟩ := h.slots i hp
    obtain rfl := Option.some.inj (hslot'.symm.trans hslot)
    exact ⟨i, List.getElem?_zip_eq_some.mpr ⟨hs', h.entries_getElem? hp⟩⟩

/-- A layer brings the row to the next one when the entries of the whole sequence are cached. -/
theorem Row.Computes.attend (h : row.Computes M blockSize isPrompt q layer)
    (hcached : ∀ p < q.tokens.length, ∃ b, q.blockTable[p / blockSize]? = some b ∧
      cache b layer (p % blockSize) = M.entry q.tokens layer p) :
    ∃ row', row.attend M blockSize isPrompt layer cache = some row' ∧
      row'.Computes M blockSize isPrompt q (layer + 1) := by
  have hzip : ∀ i, firstPosition isPrompt q + i < q.tokens.length →
      (row.positions.zip row.hidden)[i]? = some (firstPosition isPrompt q + i,
        M.hidden q.tokens layer (firstPosition isPrompt q + i)) := fun i hi =>
    List.getElem?_zip_eq_some.mpr ⟨h.positions i hi, h.hidden i hi⟩
  cases isPrompt with
  | true =>
    refine ⟨_, rfl, h.positions, h.slots, h.padding, fun i hi => ?_, h.selected, h.context⟩
    have hfirst : firstPosition true q = 0 := rfl
    rw [hfirst, Nat.zero_add] at hi ⊢
    -- the entries up to the position are those of the row itself
    have htake : (row.entries M layer).take (i + 1) =
        (List.range (i + 1)).map (M.entry q.tokens layer) := by
      apply List.ext_getElem?
      intro j
      rw [List.getElem?_take, List.getElem?_map]
      by_cases hj : j < i + 1
      · have hentry := h.entries_getElem? (i := j) (by rw [hfirst]; omega)
        rw [hfirst, Nat.zero_add] at hentry
        rw [if_pos hj, hentry, List.getElem?_range hj]
        rfl
      · rw [if_neg hj, List.getElem?_eq_none (by rw [List.length_range]; omega)]
        rfl
    have hzip := hzip i (by rw [hfirst]; omega)
    rw [hfirst, Nat.zero_add] at hzip
    show ((row.positions.zip row.hidden).mapIdx _)[i]? = _
    rw [List.getElem?_mapIdx, hzip, M.hidden_succ, ← htake]
    rfl
  | false =>
    obtain ⟨htable, hcontext⟩ := h.context rfl
    have hread : pagedEntries blockSize layer cache row.blockTable row.contextLen =
        some ((List.range q.tokens.length).map (M.entry q.tokens layer)) := by
      rw [htable, hcontext]
      exact pagedEntries_eq hcached
    rw [Row.attend, if_neg Bool.false_ne_true, hread, Option.map_some]
    refine ⟨_, rfl, h.positions, h.slots, h.padding, fun i hi => ?_, h.selected, h.context⟩
    have hfirst : firstPosition false q = q.tokens.length - 1 := rfl
    have hlast : firstPosition false q + i + 1 = q.tokens.length := by
      rw [hfirst] at hi ⊢
      omega
    show ((row.positions.zip row.hidden).map _)[i]? = _
    rw [List.getElem?_map, hzip i hi, M.hidden_succ, hlast]
    rfl

end Rows

/-! ## The rows as they are prepared -/

section Prepare

variable {M : Decoder Hidden Entry} {blockSize : Nat} {isPrompt : Bool} {q : SeqInput}

theorem padToMax_getElem? {α : Type} {x : List α} {maxLen : Nat} {pad : α} {i : Nat}
    (h : i < x.length) : (padToMax x maxLen pad)[i]? = x[i]? :=
  List.getElem?_append_left h

/-- Behind the list there is only padding. -/
theorem eq_of_padToMax {α : Type} {x : List α} {maxLen : Nat} {pad a : α} {i : Nat}
    (h : (padToMax x maxLen pad)[i]? = some a) : i < x.length ∨ a = pad := by
  refine (Nat.lt_or_ge i x.length).imp_right fun hle => ?_
  rw [padToMax, List.getElem?_append_right hle] at h
  exact List.eq_of_mem_replicate (List.mem_of_getElem? h)

theorem exists_slot (htable : ∀ p < q.tokens.length, ∃ b, q.blockTable[p / blockSize]? = some b)
    {p : Nat} (hp : p < q.tokens.length) : ∃ s, slot blockSize q p = some s := by
  obtain ⟨b, hb⟩ := htable p hp
  exact ⟨_, congrArg (Option.map _) hb⟩

theorem preparePrompt_computes (maxPromptLen : Nat)
    (htable : ∀ p < q.tokens.length, ∃ b, q.blockTable[p / blockSize]? = some b) :
    ∃ row, preparePrompt M blockSize maxPromptLen q = some row ∧
      row.Computes M blockSize true q 0 := by
  have hslots : (List.range q.tokens.length).mapM (slot blockSize q) =
      some ((List.range q.tokens.length).map fun p => (slot blockSize q p).getD 0) := by
    apply mapM_of_forall
    intro p hp
    obtain ⟨s, hs⟩ := exists_slot htable (List.mem_range.mp hp)
    rw [hs]
    rfl
  have hfirst : firstPosition true q = 0 := rfl
  rw [preparePrompt, hslots, Option.map_some]
  refine ⟨_, rfl, fun i hi => ?_, fun i hi => ?_, fun i s hs => ?_, fun i hi => ?_, ?_, nofun⟩
  · rw [hfirst, Nat.zero_add] at hi ⊢
    show (padToMax _ _ _)[i]? = _
    rw [padToMax_getElem? (by rw [List.length_range]; exact hi), List.getElem?_range hi]
  · rw [hfirst, Nat.zero_add] at hi ⊢
    obtain ⟨s, hs⟩ := exists_slot htable hi
    refine ⟨s, hs, ?_⟩
    show (padToMax _ _ _)[i]? = _
    rw [padToMax_getElem? (by simpa using hi), List.getElem?_map, List.getElem?_map,
      List.getElem?_range hi, Option.map_some, Option.map_some, hs]
    rfl
  · rw [hfirst, Nat.zero_add]
    rcases eq_of_padToMax hs with hlt | hpad
    · simpa using hlt
    · cases hpad
  · rw [hfirst, Nat.zero_add] at hi ⊢
    show ((padToMax _ _ _).map M.embed)[i]? = _
    rw [List.getElem?_map, padToMax_getElem? hi, List.getElem?_eq_getElem hi, Option.map_some,
      Decoder.hidden, List.getD_eq_getElem q.tokens 0 hi]
  · exact Nat.zero_add _

theorem prepareDecode_computes (hpos : 0 < q.tokens.length)
    (htable : ∀ p < q.tokens.length, ∃ b, q.blockTable[p / blockSize]? = some b) :
    ∃ row, prepareDecode M blockSize q = some row ∧ row.Computes M blockSize false q 0 := by
  have hlast : q.tokens.length - 1 < q.tokens.length := Nat.sub_one_lt_of_lt hpos
  obtain ⟨s, hs⟩ := exists_slot htable hlast
  have htoken : q.tokens.getLast? = some (q.tokens.getD (q.tokens.length - 1) 0) := by
    rw [List.getLast?_eq_getElem?, List.getElem?_eq_getElem hlast,
      List.getD_eq_getElem q.tokens 0 hlast]
  -- the row has one position, the last one
  have hone : ∀ i, firstPosition false q + i < q.tokens.length → i = 0 := by
    intro i hi
    have hfirst : firstPosition false q = q.tokens.length - 1 := rfl
    omega
  rw [prepareDecode, htoken]
  simp only [Option.bind_eq_bind, Option.bind_some, hs, Option.pure_def]
  refine ⟨_, rfl, fun i hi => ?_, fun i hi => ?_, fun i s' hs' => ?_, fun i hi => ?_, rfl,
    fun _ => ⟨rfl, rfl⟩⟩
  · rw [hone i hi]
    rfl
  · rw [hone i hi]
    exact ⟨s, hs, rfl⟩
  · have hi : i < 1 := (List.getElem?_eq_some_iff.mp hs').1
    obtain rfl := Nat.lt_one_iff.mp hi
    exact hlast
  · rw [hone i hi]
    rfl

theorem prepareInputs_computes {inputs : List SeqInput}
    (hpos : ∀ q ∈ inputs, 0 < q.tokens.length)
    (htable : ∀ q ∈ inputs, ∀ p < q.tokens.length, ∃ b, q.blockTable[p / blockSize]? = some b) :
    ∃ rows, prepareInputs M blockSize isPrompt inputs = some rows ∧
      List.Forall₂ (fun q row => row.Computes M blockSize isPrompt q 0) inputs rows := by
  have hsame : List.Forall₂ (fun q q' : SeqInput => q' = q) inputs inputs :=
    List.forall₂_same.mpr fun _ _ => rfl
  cases isPrompt with
  | true =>
    refine exists_mapM_forall₂ hsame ?_
    rintro _ hq q rfl
    exact preparePrompt_computes _ (htable q hq)
  | false =>
    refine exists_mapM_forall₂ hsame ?_
    rintro _ hq q rfl
    exact prepareDecode_computes (hpos q hq) (htable q hq)

end Prepare

/-! ## A pass -/

section Pass

variable {M : Decoder Hidden Entry} {blockSize layer : Nat} {isPrompt : Bool}
  {inputs : List SeqInput} {cache : Cache Entry} {st : List (Row Hidden) × Cache Entry}

/-- A slot tells the block and the offset. -/
theorem slot_eq_some {q : SeqInput} {p s : Nat} (hsize : 0 < blockSize)
    (h : slot blockSize q p = some s) :
    q.blockTable[p / blockSize]? = some (s / blockSize) ∧ s % blockSize = p % blockSize := by
  obtain ⟨b, hb, rfl⟩ := Option.map_eq_some_iff.mp h
  have hlt := Nat.mod_lt p hsize
  have hdiv : (b * blockSize + p % blockSize) / blockSize = b := by
    rw [Nat.mul_comm, Nat.mul_add_div hsize, Nat.div_eq_of_lt hlt, Nat.add_zero]
  rw [hdiv, Nat.mul_comm, Nat.mul_add_mod, Nat.mod_mod]
  exact ⟨hb, rfl⟩

theorem mem_writes {rows : List (Row Hidden)}
    (h : List.Forall₂ (fun q row => Row.Computes M blockSize isPrompt q layer row) inputs rows)
    {s : Nat} {e : Entry} :
    (some s, e) ∈ rows.flatMap (fun row => row.slots.zip (row.entries M layer)) ↔
      ∃ q ∈ inputs, ∃ p < q.tokens.length, firstPosition isPrompt q ≤ p ∧
        slot blockSize q p = some s ∧ e = M.entry q.tokens layer p := by
  induction h with
  | nil => simp
  | cons hrow _ ih =>
    rw [List.flatMap_cons, List.mem_append, hrow.mem_writes, ih, List.exists_mem_cons_iff]

/-- Before a layer: the rows have come to it, the entries of the layers before it are cached for all
positions, and only blocks that are written to have changed. -/
structure Reached (M : Decoder Hidden Entry) (blockSize : Nat) (isPrompt : Bool)
    (inputs : List SeqInput) (cache : Cache Entry) (layer : Nat)
    (st : List (Row Hidden) × Cache Entry) : Prop where
  rows : List.Forall₂ (fun q row => Row.Computes M blockSize isPrompt q layer row) inputs st.1
  cached : ∀ q ∈ inputs, ∀ p < q.tokens.length, ∃ b, q.blockTable[p / blockSize]? = some b ∧
    ∀ l < M.numLayers, p < firstPosition isPrompt q ∨ l < layer →
      st.2 b l (p % blockSize) = M.entry q.tokens l p
  others : ∀ b, (∀ q ∈ inputs, ∀ p < q.tokens.length, firstPosition isPrompt q ≤ p →
    q.blockTable[p / blockSize]? ≠ some b) → st.2 b = cache b

theorem Reached.forwardLayer (hsize : 0 < blockSize) (hseparate : Separate blockSize isPrompt inputs)
    (h : Reached M blockSize isPrompt inputs cache layer st) (hlayer : layer < M.numLayers) :
    ∃ st', KvCache.forwardLayer M blockSize isPrompt st layer = some st' ∧
      Reached M blockSize isPrompt inputs cache (layer + 1) st' := by
  have hwrites : ∀ {s : Nat} {e : Entry}, _ ↔ _ := @mem_writes _ _ M blockSize layer isPrompt inputs
    st.1 h.rows
  generalize hgen : st.1.flatMap (fun row => row.slots.zip (row.entries M layer)) = writes
  rw [hgen] at hwrites
  generalize hnew : reshapeAndCache blockSize layer writes st.2 = new
  have hcached : ∀ q ∈ inputs, ∀ p < q.tokens.length, ∃ b,
      q.blockTable[p / blockSize]? = some b ∧
      ∀ l < M.numLayers, p < firstPosition isPrompt q ∨ l < layer + 1 →
        new b l (p % blockSize) = M.entry q.tokens l p := by
    intro q hq p hp
    obtain ⟨b, hb, hold⟩ := h.cached q hq p hp
    refine ⟨b, hb, fun l hl hor => ?_⟩
    obtain ⟨s, hs⟩ : ∃ s, slot blockSize q p = some s := ⟨_, congrArg (Option.map _) hb⟩
    obtain ⟨hb', hmod⟩ := slot_eq_some hsize hs
    obtain rfl := Option.some.inj (hb'.symm.trans hb)
    rw [← hmod, ← hnew]
    by_cases hwritten : l = layer ∧ firstPosition isPrompt q ≤ p
    · obtain ⟨rfl, hle⟩ := hwritten
      refine reshapeAndCache_of_mem (hwrites.mpr ⟨q, hq, p, hp, hle, hs, rfl⟩) fun e' he' => ?_
      obtain ⟨q', hq', p', hp', hle', hs', rfl⟩ := hwrites.mp he'
      obtain ⟨rfl, rfl⟩ := hseparate q' hq' p' hp' hle' q hq p hp s hs' hs
      rfl
    · -- no slot that the layer writes is that of the position
      rw [reshapeAndCache_of_not_mem, hmod]
      · refine hold l hl ?_
        omega
      · intro s' e' he' hlayer hdiv hmod'
        obtain ⟨q', hq', p', hp', hle', hs', -⟩ := hwrites.mp he'
        have heq : s' = s := by
          rw [← Nat.div_add_mod s' blockSize, ← Nat.div_add_mod s blockSize, hdiv, hmod']
        obtain ⟨rfl, rfl⟩ := hseparate q' hq' p' hp' hle' q hq p hp s (heq ▸ hs') hs
        exact hwritten ⟨hlayer, hle'⟩
  have hattend : ∀ q ∈ inputs, ∀ row : Row Hidden, row.Computes M blockSize isPrompt q layer →
      ∃ row', row.attend M blockSize isPrompt layer new = some row' ∧
        row'.Computes M blockSize isPrompt q (layer + 1) := by
    intro q hq row hrow
    refine hrow.attend fun p hp => ?_
    obtain ⟨b, hb, hentry⟩ := hcached q hq p hp
    exact ⟨b, hb, hentry layer hlayer (.inr (Nat.lt_succ_self layer))⟩
  obtain ⟨rows, hrows, hcomputes⟩ := exists_mapM_forall₂ h.rows hattend
  refine ⟨(rows, new), ?_, hcomputes, hcached, fun b hb => ?_⟩
  · rw [KvCache.forwardLayer, hgen, hnew, hrows]
    rfl
  · rw [← h.others b hb, ← hnew]
    funext l o
    refine reshapeAndCache_of_not_mem fun s e he _ hdiv => ?_
    obtain ⟨q, hq, p, hp, hle, hs, -⟩ := hwrites.mp he
    exact absurd ((slot_eq_some hsize hs).1.trans (congrArg some hdiv.symm)) (hb q hq p hp hle)

/-- A pass over the batch gives for each sequence what a pass over all its tokens gives, and caches
the entries of all its positions. -/
theorem executeModel_computes (hsize : 0 < blockSize) (hpos : ∀ q ∈ inputs, 0 < q.tokens.length)
    (htable : ∀ q ∈ inputs, ∀ p < q.tokens.length, ∃ b, q.blockTable[p / blockSize]? = some b)
    (hseparate : Separate blockSize isPrompt inputs)
    (hcached : ∀ q ∈ inputs, Cached M blockSize cache q (firstPosition isPrompt q)) :
    ∃ cache', executeModel M blockSize isPrompt inputs cache =
        some (inputs.map fun q => M.output q.tokens, cache') ∧
      (∀ q ∈ inputs, Cached M blockSize cache' q q.tokens.length) ∧
      ∀ b, (∀ q ∈ inputs, ∀ p < q.tokens.length, firstPosition isPrompt q ≤ p →
        q.blockTable[p / blockSize]? ≠ some b) → cache' b = cache b := by
  cases hinputs : inputs with
  | nil => exact ⟨cache, rfl, fun q hq => absurd hq List.not_mem_nil, fun _ _ => rfl⟩
  | cons q₀ rest =>
    rw [← hinputs]
    obtain ⟨rows, hprepare, hrows⟩ : ∃ rows,
        prepareInputs M blockSize isPrompt inputs = some rows ∧
        List.Forall₂ (fun q row => Row.Computes M blockSize isPrompt q 0 row) inputs rows :=
      prepareInputs_computes hpos htable
    have hstart : Reached M blockSize isPrompt inputs cache 0 (rows, cache) := by
      refine ⟨hrows, fun q hq p hp => ?_, fun _ _ => rfl⟩
      obtain ⟨b, hb⟩ := htable q hq p hp
      refine ⟨b, hb, fun l hl hor => ?_⟩
      obtain ⟨b', hb', hentry⟩ := hcached q hq p (hor.resolve_right (Nat.not_lt_zero l))
      obtain rfl := Option.some.inj (hb'.symm.trans hb)
      exact hentry l hl
    obtain ⟨⟨rows', cache'⟩, hforward, hreached⟩ := foldlM_range_total
      (fun layer hlayer st hst => hst.forwardLayer hsize hseparate hlayer) hstart
    have houtputs : rows'.mapM (fun row => row.hidden[row.selected]?.map M.norm) =
        some (inputs.map fun q => M.output q.tokens) := by
      refine mapM_forall₂ hreached.rows fun q hq row hrow => ?_
      have hlast : firstPosition isPrompt q + row.selected < q.tokens.length := by
        rw [hrow.selected]
        exact Nat.sub_one_lt_of_lt (hpos q hq)
      rw [hrow.hidden row.selected hlast, hrow.selected]
      rfl
    refine ⟨cache', ?_, fun q hq p hp => ?_, hreached.others⟩
    · rw [executeModel, if_neg (by rw [hinputs]; exact Bool.false_ne_true), hprepare]
      show (forward M blockSize isPrompt rows cache).bind _ = _
      rw [forward, hforward]
      show (rows'.mapM fun row => row.hidden[row.selected]?.map M.norm).bind _ = _
      rw [houtputs]
      rfl
    · obtain ⟨b, hb, hentry⟩ := hreached.cached q hq p hp
      exact ⟨b, hb, fun l hl => hentry l hl (.inr hl)⟩

end Pass

end Mil.KvCache
