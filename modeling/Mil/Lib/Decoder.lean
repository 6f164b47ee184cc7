import Mathlib.Data.List.GetD

/-!
# Causal decoders

A decoder computes, layer by layer, a hidden value for each position of a list of tokens. A layer
turns the hidden value of a position into an entry, and reads the entries of the positions up to its
own (`hidden`, `entry`). So what it computes for a position depends on the tokens up to that position
only (`hidden_congr`), and what it computed for a list of tokens stays right for longer ones.
-/

set_option autoImplicit false

namespace Mil.Lib

/-- What a decoder computes with: `layer` gets the layer, the position, its hidden value and the
entries of the positions up to it, and `norm` comes after the last layer. -/
structure Decoder (Hidden Entry : Type) where
  numLayers : Nat
  embed : Nat → Hidden
  keyValue : Nat → Nat → Hidden → Entry
  layer : Nat → Nat → Hidden → List Entry → Hidden
  norm : Hidden → Hidden

namespace Decoder

variable {Hidden Entry : Type} (M : Decoder Hidden Entry) {tokens tokens' : List Nat}

/-- The hidden value that comes into a layer at a position. -/
def hidden (tokens : List Nat) : Nat → Nat → Hidden
  | 0, position => M.embed (tokens.getD position 0)
  | layer + 1, position =>
    M.layer layer position (hidden tokens layer position)
      ((List.range (position + 1)).map fun i => M.keyValue layer i (hidden tokens layer i))

/-- The entry of a position in a layer. -/
def entry (tokens : List Nat) (layer position : Nat) : Entry :=
  M.keyValue layer position (M.hidden tokens layer position)

/-- What comes out at the last position. -/
def output (tokens : List Nat) : Hidden :=
  M.norm (M.hidden tokens M.numLayers (tokens.length - 1))

theorem hidden_succ (tokens : List Nat) (layer position : Nat) :
    M.hidden tokens (layer + 1) position = M.layer layer position
      (M.hidden tokens layer position) ((List.range (position + 1)).map (M.entry tokens layer)) :=
  rfl

/-- Later tokens do not matter. -/
theorem hidden_congr {layer position : Nat}
    (h : ∀ i ≤ position, tokens.getD i 0 = tokens'.getD i 0) :
    M.hidden tokens layer position = M.hidden tokens' layer position := by
  induction layer generalizing position with
  | zero => exact congrArg M.embed (h position (Nat.le_refl position))
  | succ layer ih =>
    have hentries : (List.range (position + 1)).map (M.entry tokens layer) =
        (List.range (position + 1)).map (M.entry tokens' layer) := by
      apply List.map_congr_left
      intro i hi
      have hle : i ≤ position := Nat.lt_succ_iff.mp (List.mem_range.mp hi)
      exact congrArg (M.keyValue layer i) (ih fun j hj => h j (Nat.le_trans hj hle))
    rw [hidden_succ, hidden_succ, ih h, hentries]

theorem entry_congr {layer position : Nat}
    (h : ∀ i ≤ position, tokens.getD i 0 = tokens'.getD i 0) :
    M.entry tokens layer position = M.entry tokens' layer position :=
  congrArg (M.keyValue layer position) (M.hidden_congr h)

/-- Tokens that come later leave the entries as they are. -/
theorem entry_append {layer position : Nat} (more : List Nat) (h : position < tokens.length) :
    M.entry (tokens ++ more) layer position = M.entry tokens layer position := by
  apply M.entry_congr
  intro i hi
  exact List.getD_append tokens more 0 i (Nat.lt_of_le_of_lt hi h)

end Decoder

end Mil.Lib
