import CssHints.Text.Basic

/-!
# `CssHints.Stylesheet.Basic`: the tree of a stylesheet

A stylesheet is a list of nodes: rules, at-rules with a block, and at-rules that end with a
semicolon. The block of an at-rule holds further nodes or declarations.

- `walk`: the rules at any depth, in document order, each with the heads of the at-rules around
  it; at-rules are entered through their nodes, so declarations of an at-rule are no rule;
- `mapRules`: the same tree with each rule changed;
- `updateRule?`: the same tree with one rule changed, rules being counted as `walk` lists them.
-/

set_option autoImplicit false

namespace CssHints

/-- A property with its value. -/
structure Declaration where
  property : Text
  value : Text
  important : Bool := false
  deriving DecidableEq, Repr

/-- Selectors that share a block of declarations. -/
structure Rule where
  selectors : List Text
  decls : List Declaration := []
  deriving DecidableEq, Repr

/-- The name of an at-rule and what stands between the name and its block or semicolon. -/
structure AtHead where
  name : Text
  prelude : Text := []
  deriving DecidableEq, Repr

/-- A part of a stylesheet. -/
inductive Node
  | rule (r : Rule)
  /-- An at-rule with a block. -/
  | block (head : AtHead) (children : List Node) (decls : List Declaration)
  /-- An at-rule that ends with a semicolon. -/
  | statement (head : AtHead)
  /-- A bare text in the place of a node. Only trees built by hand hold one; it cannot be
  written. -/
  | stray (text : Text)
  deriving Repr

/-- A stylesheet: its nodes in document order. -/
abbrev Stylesheet := List Node

namespace Rule

/-- The property names in order, repetitions included. -/
def properties (r : Rule) : List Text := r.decls.map Declaration.property

/-- The rule with further declarations behind its own. -/
def append (r : Rule) (ds : List Declaration) : Rule := { r with decls := r.decls ++ ds }

/-- The words for a rule that cannot be made because it has no selectors. -/
def emptyMessage : Text := "RuleBlock must have at least one selector"

/-- A rule made by hand has at least one selector. -/
def make? (r : Rule) : Option Rule := if r.selectors = [] then none else some r

end Rule

/-! ### Equality of trees -/

mutual

/-- Whether two nodes are equal. -/
def Node.decEq : (a b : Node) → Decidable (a = b)
  | .rule r, .rule r' =>
    if h : r = r' then isTrue (by rw [h]) else isFalse (by simpa using h)
  | .block hd cs ds, .block hd' cs' ds' =>
    if hh : hd = hd' ∧ ds = ds' then
      match Node.decEqList cs cs' with
      | isTrue hc => isTrue (by rw [hh.1, hc, hh.2])
      | isFalse hc => isFalse (by simp [hc])
    else isFalse (by
      intro e
      cases e
      exact hh ⟨rfl, rfl⟩)
  | .statement hd, .statement hd' =>
    if h : hd = hd' then isTrue (by rw [h]) else isFalse (by simpa using h)
  | .stray s, .stray s' =>
    if h : s = s' then isTrue (by rw [h]) else isFalse (by simpa using h)
  | .rule _, .block _ _ _ => isFalse (by simp)
  | .rule _, .statement _ => isFalse (by simp)
  | .rule _, .stray _ => isFalse (by simp)
  | .block _ _ _, .rule _ => isFalse (by simp)
  | .block _ _ _, .statement _ => isFalse (by simp)
  | .block _ _ _, .stray _ => isFalse (by simp)
  | .statement _, .rule _ => isFalse (by simp)
  | .statement _, .block _ _ _ => isFalse (by simp)
  | .statement _, .stray _ => isFalse (by simp)
  | .stray _, .rule _ => isFalse (by simp)
  | .stray _, .block _ _ _ => isFalse (by simp)
  | .stray _, .statement _ => isFalse (by simp)

/-- Whether two lists of nodes are equal. -/
def Node.decEqList : (as bs : List Node) → Decidable (as = bs)
  | [], [] => isTrue rfl
  | a :: as, b :: bs =>
    match Node.decEq a b with
    | isFalse h => isFalse (by simp [h])
    | isTrue h =>
      match Node.decEqList as bs with
      | isTrue hs => isTrue (by rw [h, hs])
      | isFalse hs => isFalse (by simp [hs])
  | [], _ :: _ => isFalse (by simp)
  | _ :: _, [] => isFalse (by simp)

end

instance : DecidableEq Node := Node.decEq

/-! ### The rules of a tree -/

mutual

/-- The rules of a node, below the at-rules `parents`. -/
def Node.walk (parents : List AtHead) : Node → List (List AtHead × Rule)
  | .rule r => [(parents, r)]
  | .block head children _ => Stylesheet.walkBelow (parents ++ [head]) children
  | .statement _ => []
  | .stray _ => []

/-- The rules of a list of nodes, below the at-rules `parents`. -/
def Stylesheet.walkBelow (parents : List AtHead) : List Node → List (List AtHead × Rule)
  | [] => []
  | n :: ns => n.walk parents ++ Stylesheet.walkBelow parents ns

end

mutual

/-- The node with each rule in it changed by `f`. -/
def Node.mapRules (f : Rule → Rule) : Node → Node
  | .rule r => .rule (f r)
  | .block head children decls => .block head (Stylesheet.mapRules f children) decls
  | .statement head => .statement head
  | .stray text => .stray text

/-- The nodes with each rule in them changed by `f`. -/
def Stylesheet.mapRules (f : Rule → Rule) : List Node → List Node
  | [] => []
  | n :: ns => n.mapRules f :: Stylesheet.mapRules f ns

end

mutual

/-- The node with its rule number `i` changed by `f`, if it has that many. -/
def Node.updateRule (f : Rule → Rule) (i : Nat) : Node → Node
  | .rule r => if i = 0 then .rule (f r) else .rule r
  | .block head children decls => .block head (Stylesheet.updateRuleIn f i children) decls
  | .statement head => .statement head
  | .stray text => .stray text

/-- The nodes with their rule number `i` changed by `f`, if they have that many. -/
def Stylesheet.updateRuleIn (f : Rule → Rule) (i : Nat) : List Node → List Node
  | [] => []
  | n :: ns =>
    let own := (n.walk []).length
    if i < own then n.updateRule f i :: ns
    else n :: Stylesheet.updateRuleIn f (i - own) ns

end

namespace Stylesheet

/-- The rules at any depth in document order, with the at-rules around them, outermost first. -/
def walk (sheet : Stylesheet) : List (List AtHead × Rule) := walkBelow [] sheet

/-- The rules at any depth in document order. -/
def rules (sheet : Stylesheet) : List Rule := (walk sheet).map Prod.snd

/-- A stylesheet made by hand, if each of its rules can be made. -/
def make? (nodes : List Node) : Option Stylesheet :=
  if (rules nodes).all (·.make?.isSome) then some nodes else none

/-- The stylesheet with rule number `i` changed by `f`; there is none without such a rule. -/
def updateRule? (sheet : Stylesheet) (i : Nat) (f : Rule → Rule) : Option Stylesheet :=
  if i < (rules sheet).length then some (updateRuleIn f i sheet) else none

end Stylesheet

end CssHints
