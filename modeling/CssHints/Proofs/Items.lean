import CssHints.Proofs.Parsed

/-!
# `CssHints.Proofs.Items`: a tree as a row of items

A tree, its written text and the tokens that are read as the tree have one thing in common: the
row of items that is met from left to right. An item is a declaration or an `Edge`, that is the
start of a block, an at-rule without a block, or the end of a block.

* `Written L items s`: the text `s` is the items one after the other, each with its signs, in the
  spelling of the layout `L`. Blanks before an item are free, so nothing here depends on lines and
  their indentation.
* `Reads ts items`: the tokens `ts` give the items, as the grammar reads them. Gaps before an item
  are free, and declarations without a value are met and dropped.

`written_render` and `reads_of_ruleList` say that both hold of the items of a tree. They forget how
blocks are nested, so an argument that compares the two goes along a list and not along a tree.
-/

set_option autoImplicit false

namespace CssHints

open Token (text concat isBlank splitSelectors weight weight_append Genuine)
open Grammar (ClosedRun Decls RuleList IsGap)

/-! ### Items -/

/-- The start of a block, an at-rule without a block, or the end of a block. -/
inductive Edge
  | rule (selectors : List Text)
  | block (head : AtHead)
  | statement (head : AtHead)
  | close

/-- What is met on the way through a tree. -/
inductive Item
  | declaration (d : Declaration)
  | edge (e : Edge)

mutual

/-- The items of a node. -/
def Node.items : Node → List Item
  | .rule r => .edge (.rule r.selectors) :: (r.decls.map .declaration ++ [.edge .close])
  | .block head children decls =>
    .edge (.block head) ::
      (decls.map .declaration ++ (Stylesheet.items children ++ [.edge .close]))
  | .statement head => [.edge (.statement head)]
  | .stray _ => []

/-- The items of a list of nodes. -/
def Stylesheet.items : List Node → List Item
  | [] => []
  | n :: ns => n.items ++ Stylesheet.items ns

end

/-- The property holds of the texts of the item. -/
def Item.Holds (p : Parts) : Item → Prop
  | .declaration d => p.declaration d
  | .edge (.rule ss) => p.selectors ss
  | .edge (.block head) => p.block head
  | .edge (.statement head) => p.statement head
  | .edge .close => True

mutual

/-- What holds of the texts of each item of a node holds at any depth of the node, because each text
of the node is in one of its items. -/
theorem Node.each_of_items {p : Parts} : (n : Node) → (∀ i ∈ n.items, i.Holds p) → n.Each p
  | .rule r, h => by
      refine ⟨h _ List.mem_cons_self, ?_⟩
      intro d hd
      exact h (.declaration d) (by simp [Node.items, hd])
  | .block head children decls, h => by
      refine ⟨h _ List.mem_cons_self, ?_, ?_⟩
      · intro d hd
        exact h (.declaration d) (by simp [Node.items, hd])
      · refine Stylesheet.each_of_items children ?_
        intro i hi
        exact h i (by simp [Node.items, hi])
  | .statement head, h => h _ List.mem_cons_self
  | .stray _, _ => trivial

/-- What holds of the texts of each item of a tree holds at any depth of the tree. -/
theorem Stylesheet.each_of_items {p : Parts} :
    (ns : List Node) → (∀ i ∈ Stylesheet.items ns, i.Holds p) → Stylesheet.Each p ns
  | [], _ => trivial
  | n :: ns, h => by
      refine ⟨Node.each_of_items n ?_, Stylesheet.each_of_items ns ?_⟩
      · intro i hi
        exact h i (List.mem_append_left _ hi)
      · intro i hi
        exact h i (List.mem_append_right _ hi)

end

/-! ### Written items -/

/-- What is written up to the sign at an edge. -/
def Edge.text (layout : Layout) : Edge → Text
  | .rule ss => layout.selectorText ss
  | .block head => head.render ++ layout.gap
  | .statement head => head.render
  | .close => []

/-- The sign at an edge. -/
def Edge.sign : Edge → Char
  | .rule _ => '\x7b'
  | .block _ => '\x7b'
  | .statement _ => ';'
  | .close => '\x7d'

/-- What is written for an item, with its signs. -/
def Item.text (layout : Layout) : Item → Text
  | .declaration d => d.property ++ ':' :: (layout.gap ++ (d.valueText layout ++ [';']))
  | .edge e => e.text layout ++ [e.sign]

/-- The text is the items one after the other, in the spelling of the layout. -/
inductive Written (layout : Layout) : List Item → Text → Prop
  | nil {w : Text} : (∀ c ∈ w, isBlank c = true) → Written layout [] w
  | cons {i : Item} {w s : Text} {items : List Item} :
      (∀ c ∈ w, isBlank c = true) → Written layout items s →
      Written layout (i :: items) (w ++ (i.text layout ++ s))

/-- Declarations that are written one after the other, each behind the same blanks, are items in
front of what follows. -/
theorem Written.declarations {layout : Layout} {w : Text} (hw : ∀ c ∈ w, isBlank c = true)
    (ds : List Declaration) {items : List Item} {s : Text} (h : Written layout items s) :
    Written layout (ds.map .declaration ++ items)
      ((ds.flatMap fun d => w ++ (d.render layout ++ [';'])) ++ s) := by
  induction ds with
  | nil => exact h
  | cons d ds ih =>
      have hd := Written.cons (i := .declaration d) hw ih
      rw [List.flatMap_cons, Declaration.render_eq]
      simpa [Item.text] using hd

/-- A written rule is its items: its selectors with the opening brace, its declarations, and the
closing brace. -/
theorem Written.rule {layout : Layout} {w : Text} (hw : ∀ c ∈ w, isBlank c = true) (r : Rule)
    {items : List Item} {s : Text} (h : Written layout items s) :
    Written layout ((Node.rule r).items ++ items) (w ++ (r.render layout ++ s)) := by
  have hclose := Written.cons (i := .edge .close) (isBlank_of_mem_closing layout r.decls) h
  have hdecls := hclose.declarations (Token.isBlank_of_mem_gap layout) r.decls
  have hrule := Written.cons (i := .edge (.rule r.selectors)) hw hdecls
  rw [Rule.render_eq]
  simpa [Node.items, Item.text, Edge.text, Edge.sign] using hrule

mutual

/-- A written node is its items, whatever blanks stand before it. The first line is taken apart from
the others, because the blanks before the first one come from outside. -/
theorem written_node (layout : Layout) (depth : Nat) {d : Nat} :
    (n : Node) → n.Fits d → ∀ w : Text, (∀ c ∈ w, isBlank c = true) →
    ∃ l ls, n.lines layout depth = l :: ls ∧ ∀ items s, Written layout items s →
      Written layout (n.items ++ items) (w ++ (l ++ (ls.flatMap (layout.lead ++ ·) ++ s)))
  | .rule r, _, w, hw => by
      refine ⟨_, [], rfl, ?_⟩
      intro items s h
      have hblank := isBlank_of_mem_append hw (isBlank_of_mem_indent layout depth)
      simpa using h.rule hblank r
  | .statement head, _, w, hw => by
      refine ⟨_, [], rfl, ?_⟩
      intro items s h
      have hblank := isBlank_of_mem_append hw (isBlank_of_mem_indent layout depth)
      have hedge := Written.cons (i := .edge (.statement head)) hblank h
      simpa [Node.items, Item.text, Edge.text, Edge.sign] using hedge
  | .block head children decls, hfit, w, hw => by
      refine ⟨_, _, rfl, ?_⟩
      intro items s h
      have hblank := isBlank_of_mem_append hw (isBlank_of_mem_indent layout depth)
      have hinner := isBlank_of_mem_append (isBlank_of_mem_lead layout)
        (isBlank_of_mem_indent layout (depth + 1))
      have houter := isBlank_of_mem_append (isBlank_of_mem_lead layout)
        (isBlank_of_mem_indent layout depth)
      have hclose := Written.cons (i := .edge .close) houter h
      have hchildren : Written layout (Stylesheet.items children ++ .edge .close :: items)
          ((Stylesheet.lines layout (depth + 1) children).flatMap (layout.lead ++ ·) ++
            (layout.lead ++ layout.indent depth ++ '\x7d' :: s)) := by
        -- a block holds rules or declarations, and in the second case there are no children
        rcases hfit with ⟨-, -, -, hfit⟩ | ⟨-, rfl⟩
        · exact written_nodes layout (depth + 1) children hfit _ _ hclose
        · exact hclose
      have hdecls := hchildren.declarations hinner decls
      have hblock := Written.cons (i := .edge (.block head)) hblank hdecls
      simpa [Node.items, Item.text, Edge.text, Edge.sign, Layout.blockStart_eq, List.flatMap_map]
        using hblock
  | .stray _, hfit, _, _ => False.elim hfit

/-- Written nodes are their items, each line behind what ends the line before it. The blanks between
the lines are those that `Written` allows between items. -/
theorem written_nodes (layout : Layout) (depth : Nat) {d : Nat} :
    (ns : List Node) → Stylesheet.Fits d ns → ∀ items s, Written layout items s →
    Written layout (Stylesheet.items ns ++ items)
      ((Stylesheet.lines layout depth ns).flatMap (layout.lead ++ ·) ++ s)
  | [], _, _, _, h => h
  | n :: ns, hfit, items, s, h => by
      obtain ⟨l, ls, hlines, hnode⟩ :=
        written_node layout depth n hfit.1 layout.lead (isBlank_of_mem_lead layout)
      have hrest := hnode _ _ (written_nodes layout depth ns hfit.2 items s h)
      simpa [Stylesheet.items, Stylesheet.lines, hlines] using hrest

end

/-- A written stylesheet is its items. Its first line has nothing before it, and behind its last
line stands what ends that line. -/
theorem written_render {sheet : Stylesheet} (hfit : Stylesheet.Fits 0 sheet) (layout : Layout) :
    Written layout (Stylesheet.items sheet) (sheet.render layout) := by
  rw [Stylesheet.render_eq]
  cases sheet with
  | nil => exact .nil (by simp [Stylesheet.lines])
  | cons n ns =>
      obtain ⟨l, ls, hlines, hnode⟩ := written_node layout 0 n hfit.1 [] (by simp)
      have hrest := written_nodes layout 0 ns hfit.2 [] _ (.nil (isBlank_of_mem_lead layout))
      have hall := hnode _ _ hrest
      rw [Stylesheet.lines, hlines, List.cons_append, flatMap_append_lead]
      simpa [Stylesheet.items] using hall

/-- A written text weighs as much as its items, since the blanks between them weigh nothing. -/
theorem Written.weight_eq {layout : Layout} {items : List Item} {s : Text}
    (h : Written layout items s) : weight s = weight (items.flatMap (Item.text layout)) := by
  induction h with
  | nil hw => exact Token.weight_eq_zero hw
  | cons hw _ ih =>
      rw [List.flatMap_cons, weight_append, weight_append, weight_append,
        Token.weight_eq_zero hw, ih]
      omega

/-! ### Items that are read -/

/-- The tokens `run` with the token `mark` behind them are read as the edge. -/
inductive Edge.ReadFrom : Edge → List Token → Token → Prop
  | rule {run : List Token} {mark : Token} :
      ClosedRun run → (∀ t ∈ run.head?, t.kind ≠ .whitespace ∧ t.kind ≠ .atKeyword) →
      splitSelectors run ≠ [] → mark.kind = .lbrace →
      ReadFrom (.rule (splitSelectors run)) run mark
  | block {keyword mark : Token} {pre : List Token} :
      keyword.kind = .atKeyword → ClosedRun pre → mark.kind = .lbrace →
      ReadFrom (.block (Grammar.atHead keyword pre)) (keyword :: pre) mark
  | statement {keyword mark : Token} {pre : List Token} :
      keyword.kind = .atKeyword → ClosedRun pre → mark.kind = .semicolon →
      ReadFrom (.statement (Grammar.atHead keyword pre)) (keyword :: pre) mark
  | close {mark : Token} : mark.kind = .rbrace → ReadFrom .close [] mark

/-- The tokens give the items. A declaration extends to a semicolon, which is left as a gap, or to
the end of its block. -/
inductive Reads : List Token → List Item → Prop
  | nil {g : List Token} : (∀ t ∈ g, IsGap t) → Reads g []
  | declaration {g spaces value ts : List Token} {property colon stop : Token} {d : Declaration}
      {items : List Item} :
      (∀ t ∈ g, IsGap t) → property.kind = .ident → (∀ t ∈ spaces, t.kind = .whitespace) →
      colon.kind = .colon → ClosedRun value → Grammar.declared property.value value = [d] →
      (stop.kind = .semicolon ∨ stop.kind = .rbrace) → Reads (stop :: ts) items →
      Reads (g ++ property :: (spaces ++ colon :: (value ++ stop :: ts))) (.declaration d :: items)
  | dropped {g spaces value ts : List Token} {property colon stop : Token} {items : List Item} :
      (∀ t ∈ g, IsGap t) → property.kind = .ident → (∀ t ∈ spaces, t.kind = .whitespace) →
      colon.kind = .colon → Grammar.declared property.value value = [] →
      Reads (stop :: ts) items →
      Reads (g ++ property :: (spaces ++ colon :: (value ++ stop :: ts))) items
  | edge {g run ts : List Token} {mark : Token} {e : Edge} {items : List Item} :
      (∀ t ∈ g, IsGap t) → e.ReadFrom run mark → Reads ts items →
      Reads (g ++ (run ++ mark :: ts)) (.edge e :: items)

/-- A gap in front of the tokens changes nothing in the items that they give. It is one more of the
gaps in front of the first item. -/
theorem Reads.gap {t : Token} {ts : List Token} {items : List Item} (ht : IsGap t)
    (h : Reads ts items) : Reads (t :: ts) items := by
  have hcons : ∀ {g : List Token}, (∀ u ∈ g, IsGap u) → ∀ u ∈ t :: g, IsGap u := by
    intro g hg u hu
    rcases List.mem_cons.1 hu with rfl | hu
    · exact ht
    · exact hg u hu
  cases h with
  | nil hg => exact .nil (hcons hg)
  | declaration hg hp hs hc hv hd hstop hrest =>
      exact .declaration (hcons hg) hp hs hc hv hd hstop hrest
  | dropped hg hp hs hc hd hrest => exact .dropped (hcons hg) hp hs hc hd hrest
  | edge hg he hrest => exact .edge (hcons hg) he hrest

/-- What is read as an edge starts with no gap, so the gaps in front of an edge are determined by
the tokens. -/
theorem Edge.ReadFrom.not_isGap_head {e : Edge} {run : List Token} {mark : Token}
    (h : e.ReadFrom run mark) (ts : List Token) :
    ∀ t ∈ (run ++ mark :: ts).head?, ¬IsGap t := by
  intro t ht
  cases h with
  | rule hclosed hhead _ hmark =>
      -- an empty prelude leaves the brace as the first token
      cases run with
      | nil =>
          obtain rfl : mark = t := by simpa using ht
          simp [IsGap, hmark]
      | cons u run =>
          obtain rfl : u = t := by simpa using ht
          rintro (hspace | hsemi)
          · exact (hhead u rfl).1 hspace
          · exact hclosed.2.2.2.1 hsemi rfl
  | block hk _ _ =>
      obtain rfl : _ = t := by simpa using ht
      simp [IsGap, hk]
  | statement hk _ _ =>
      obtain rfl : _ = t := by simpa using ht
      simp [IsGap, hk]
  | close hmark =>
      obtain rfl : mark = t := by simpa using ht
      simp [IsGap, hmark]

/-- A semicolon in front of an item is one of the gaps before it, because no item starts with
one. -/
theorem exists_gaps_of_semicolon {t : Token} {g ts us : List Token} (ht : t.kind = .semicolon)
    (hg : ∀ u ∈ g, IsGap u) (hus : ∀ u ∈ us.head?, ¬IsGap u)
    (h : t :: ts = g ++ us) : ∃ g', (∀ u ∈ g', IsGap u) ∧ ts = g' ++ us := by
  cases g with
  | nil =>
      rw [List.nil_append] at h
      exact absurd (.inr ht) (hus t (by rw [← h]; rfl))
  | cons u g =>
      obtain ⟨-, rfl⟩ : t = u ∧ ts = g ++ us := by simpa using h
      exact ⟨g, fun v hv => hg v (List.mem_cons_of_mem _ hv), rfl⟩

/-- A semicolon at the start can be taken off without a change in the items: it belongs to the gaps
before the first of them. -/
theorem Reads.of_semicolon {t : Token} {ts : List Token} {items : List Item}
    (h : Reads (t :: ts) items) (ht : t.kind = .semicolon) : Reads ts items := by
  generalize hus : t :: ts = us at h
  cases h with
  | nil hg =>
      refine .nil fun u hu => hg u ?_
      rw [← hus]
      exact List.mem_cons_of_mem _ hu
  -- in these three cases the semicolon is the first of the gaps, as what follows them starts
  -- otherwise
  | declaration hg hp hs hc hv hd hstop hrest =>
      obtain ⟨g', hg', rfl⟩ := exists_gaps_of_semicolon ht hg (by simp [IsGap, hp]) hus
      exact .declaration hg' hp hs hc hv hd hstop hrest
  | dropped hg hp hs hc hd hrest =>
      obtain ⟨g', hg', rfl⟩ := exists_gaps_of_semicolon ht hg (by simp [IsGap, hp]) hus
      exact .dropped hg' hp hs hc hd hrest
  | edge hg he hrest =>
      obtain ⟨g', hg', rfl⟩ := exists_gaps_of_semicolon ht hg (he.not_isGap_head _) hus
      exact .edge hg' he hrest

/-- The content of a block gives its declarations, in front of what the closing brace gives. The
token behind a value is needed to know where the value ends, which is why the brace is part of the
statement. -/
theorem reads_of_decls {ts : List Token} {ds : List Declaration} (h : Decls ts ds) {rb : Token}
    {rest : List Token} {items : List Item} (hrb : rb.kind = .rbrace)
    (hrest : Reads (rb :: rest) items) :
    Reads (ts ++ rb :: rest) (ds.map .declaration ++ items) := by
  induction h with
  | nil => exact hrest
  | gap hgap _ ih => exact .gap hgap ih
  | @declaration property colon spaces value ts ds hp hspaces hcolon hvalue hhead _ ih =>
      obtain ⟨stop, us, hus, hstop⟩ : ∃ stop us, ts ++ rb :: rest = stop :: us ∧
          (stop.kind = .semicolon ∨ stop.kind = .rbrace) := by
        cases ts with
        | nil => exact ⟨rb, rest, rfl, .inr hrb⟩
        | cons t ts => exact ⟨t, ts ++ rb :: rest, rfl, .inl (hhead t rfl)⟩
      rw [hus] at ih
      have htokens : property :: (spaces ++ colon :: (value ++ ts)) ++ rb :: rest
          = [] ++ property :: (spaces ++ colon :: (value ++ stop :: us)) := by
        rw [← hus]
        simp
      rw [htokens]
      -- a declaration without a value is met here and leaves no item
      by_cases hempty : (Parser.splitImportant value).1 = []
      · have hd : Grammar.declared property.value value = [] := if_pos hempty
        rw [hd]
        exact .dropped (by simp) hp hspaces hcolon hd ih
      · have hd : Grammar.declared property.value value = [_] := if_neg hempty
        rw [hd]
        exact .declaration (by simp) hp hspaces hcolon hvalue hd hstop ih

/-- Tokens that derive nodes give the items of the nodes. Each constructor of the grammar adds the
edges of one node, and what the nodes behind it give comes by induction. -/
theorem reads_of_ruleList {d : Nat} {ts : List Token} {ns : List Node} (h : RuleList d ts ns)
    {rest : List Token} {items : List Item} (hrest : Reads rest items) :
    Reads (ts ++ rest) (Stylesheet.items ns ++ items) := by
  induction h generalizing rest items with
  | nil => exact hrest
  | gap hgap _ ih => exact .gap hgap (ih hrest)
  -- items are put together from the back: the closing edge, what it closes, and the opening edge
  | @rule d pre body ts lb rb ds ns hpre hhead hne hlb hbody hrb _ ih =>
      have hclose := Reads.edge (g := []) (by simp) (.close hrb) (ih hrest)
      have hdecls := reads_of_decls hbody hrb hclose
      have hrule := Reads.edge (g := []) (by simp) (.rule hpre hhead hne hlb) hdecls
      simpa [Stylesheet.items, Node.items] using hrule
  | @statement d keyword semi pre ts ns hk _ hpre hsemi _ ih =>
      have hedge := Reads.edge (g := []) (by simp) (.statement hk hpre hsemi) (ih hrest)
      simpa [Stylesheet.items, Node.items] using hedge
  | @ruleBlock d keyword lb rb pre body ts children ns hk _ _ hpre hlb _ hrb _ ihbody ih =>
      have hclose := Reads.edge (g := []) (by simp) (.close hrb) (ih hrest)
      have hblock := Reads.edge (g := []) (by simp) (.block hk hpre hlb) (ihbody hclose)
      simpa [Stylesheet.items, Node.items] using hblock
  | @declBlock d keyword lb rb pre body ts ds ns hk _ hpre hlb hbody hrb _ ih =>
      have hclose := Reads.edge (g := []) (by simp) (.close hrb) (ih hrest)
      have hdecls := reads_of_decls hbody hrb hclose
      have hblock := Reads.edge (g := []) (by simp) (.block hk hpre hlb) hdecls
      simpa [Stylesheet.items, Node.items] using hblock

/-! ### The weight of what is read

No item weighs more than the tokens it is read from. Selectors may weigh less, since empty ones
are left out together with their commas, and a dropped declaration leaves nothing at all. -/

/-- The token behind an edge is its sign. -/
theorem Edge.ReadFrom.value_mark {e : Edge} {run : List Token} {mark : Token}
    (h : e.ReadFrom run mark) (hm : Genuine mark) : mark.value = [e.sign] := by
  cases h with
  | rule _ _ _ hk => exact hm.value_eq (d := '\x7b') hk (by decide)
  | block _ _ hk => exact hm.value_eq (d := '\x7b') hk (by decide)
  | statement _ _ hk => exact hm.value_eq (d := ';') hk (by decide)
  | close hk => exact hm.value_eq (d := '\x7d') hk (by decide)

/-- What is written behind the name of an at-rule. -/
def AtHead.behindName (head : AtHead) : Text :=
  if head.prelude = [] then [] else ' ' :: head.prelude

/-- The written head of an at-rule is its name with the sign, and the prelude behind a space if
there is one. -/
theorem AtHead.render_eq (head : AtHead) :
    head.render = '@' :: head.name ++ head.behindName := by
  by_cases hp : head.prelude = [] <;> simp [AtHead.render, AtHead.behindName, hp]

/-- The space in front of a prelude weighs nothing. -/
theorem AtHead.weight_behindName (head : AtHead) :
    weight head.behindName = weight head.prelude := by
  unfold AtHead.behindName
  split
  · rename_i hp
    rw [hp]
  · have hspace : Token.weighs ' ' = false := by decide
    simp [Token.weight_cons, hspace]

/-- The head of an at-rule weighs as much as its tokens. -/
theorem weight_render_atHead {keyword : Token} {pre : List Token} (hk : keyword.kind = .atKeyword)
    (hgenuine : Genuine keyword) :
    weight (Grammar.atHead keyword pre).render = weight (concat (keyword :: pre)) := by
  have hname : '@' :: (Grammar.atHead keyword pre).name = keyword.value :=
    Token.cons_atName hgenuine hk
  rw [AtHead.render_eq, hname, weight_append, AtHead.weight_behindName, Token.concat_cons,
    weight_append]
  show _ + weight (text pre) = _
  rw [Token.weight_text]

/-- An edge weighs no more than its tokens. Only for selectors it may be less: empty ones leave
nothing. -/
theorem Edge.ReadFrom.weight_le {e : Edge} {run : List Token} {mark : Token}
    (h : e.ReadFrom run mark) (hrun : ∀ t ∈ run, Genuine t) (layout : Layout) :
    weight (e.text layout) ≤ weight (concat run) := by
  cases h with
  | rule _ _ hne _ =>
      have hsep : weight (',' :: layout.gap) = 1 := by cases layout <;> decide
      rw [Edge.text, Layout.selectorText, weight_append, Token.weight_gap]
      exact Token.weight_join_splitSelectors hrun hsep hne
  | block hk _ _ =>
      refine Nat.le_of_eq ?_
      rw [Edge.text, weight_append, Token.weight_gap,
        weight_render_atHead hk (hrun _ List.mem_cons_self), Nat.add_zero]
  | statement hk _ _ =>
      refine Nat.le_of_eq ?_
      rw [Edge.text, weight_render_atHead hk (hrun _ List.mem_cons_self)]
  | close _ => exact Nat.zero_le _

/-- A declaration that is kept has the property and the value that were read, and the value is not
empty. -/
theorem declared_eq_singleton {property : Text} {value : List Token} {d : Declaration}
    (h : Grammar.declared property value = [d]) :
    d.property = property ∧ d.value ≠ [] ∧
      Parser.splitImportant value = (d.value, d.important) := by
  rw [Grammar.declared] at h
  split at h
  · cases h
  · rename_i hne
    cases h
    exact ⟨rfl, hne, rfl⟩

/-- A value with its mark weighs as much as its tokens. -/
theorem weight_valueText {value : List Token} {d : Declaration} (hvalue : ∀ t ∈ value, Genuine t)
    (h : Parser.splitImportant value = (d.value, d.important)) (layout : Layout) :
    weight (d.valueText layout) = weight (concat value) := by
  have hmark : weight "!important".toList = 10 := by decide
  rw [← Token.weight_splitImportant hvalue, h, Declaration.valueText, weight_append]
  split
  · rw [weight_append, Token.weight_gap, hmark]
  · rfl

/-- Tokens weigh no less than the items they give. The induction goes along the items; signs weigh
the same on both sides, and what is dropped only adds to the side of the tokens. -/
theorem Reads.weight_le {ts : List Token} {items : List Item} (h : Reads ts items)
    (hts : ∀ t ∈ ts, Genuine t) (layout : Layout) :
    weight (items.flatMap (Item.text layout)) ≤ weight (concat ts) := by
  induction h with
  | nil _ => exact Nat.zero_le _
  | @declaration g spaces value ts property colon stop d items _ _ _ hc _ hd _ _ ih =>
      obtain ⟨hproperty, -, hsplit⟩ := declared_eq_singleton hd
      have ih := ih fun t ht => hts t
        (List.mem_append_right _ (by simp [List.mem_cons.1 ht]))
      have hv := weight_valueText (fun t ht => hts t (by simp [ht])) hsplit layout
      have hcolon : colon.value = [':'] :=
        (hts colon (by simp)).value_eq (d := ':') hc (by decide)
      -- the colon is in the source; the semicolon need not be, which is why it weighs nothing
      have hsign : weight [':'] = 1 ∧ weight [';'] = 0 := by decide
      have htext : (Item.declaration d).text layout
          = property.value ++ ([':'] ++ (layout.gap ++ (d.valueText layout ++ [';']))) := by
        rw [Item.text, hproperty]
        rfl
      rw [List.flatMap_cons, htext]
      simp only [Token.concat_append, Token.concat_cons, weight_append, Token.weight_gap, hcolon,
        hsign, hv] at ih ⊢
      omega
  -- nothing is written for a dropped declaration, so the source is heavier
  | @dropped g spaces value ts property colon stop items _ _ _ _ _ _ ih =>
      have ih := ih fun t ht => hts t
        (List.mem_append_right _ (by simp [List.mem_cons.1 ht]))
      simp only [Token.concat_append, Token.concat_cons, weight_append] at ih ⊢
      omega
  | @edge g run ts mark e items _ he _ ih =>
      have ih := ih fun t ht => hts t (by simp [ht])
      have hrun := he.weight_le (fun t ht => hts t (by simp [ht])) layout
      have hmark := he.value_mark (hts mark (by simp))
      rw [List.flatMap_cons, Item.text]
      simp only [Token.concat_append, Token.concat_cons, weight_append, hmark]
      omega

end CssHints
