import StyleModules.Text.Basic

/-!
The tree of a style sheet.

* A node is a rule, an at-rule with a block, an at-rule that is a statement, a declaration or
  a comment. Between them the nodes keep every character of the sheet, so a tree that nobody
  edited prints as the text it was read from.
* `Layout` is what surrounds a node's own words; `Span` is where the node stood in the text.
* A node made by the library (`Node.ofRule`, `Node.ofDecl`, `Node.ofComment`) has no span.
-/

namespace StyleModules

/-- Byte range of a node in the text of its sheet, `stop` exclusive. -/
structure Span where
  start : Nat
  stop : Nat
  deriving DecidableEq, Repr

/-- What is kept around the words of a node.
    * `before`: blanks and stray `;` in front of it.
    * `between`: in a declaration the `:` with its blanks; else the blanks before `{` or `;`.
    * `after`: in a block the blanks before `}`; in a declaration those before `;`. -/
structure Layout where
  before : Text
  between : Text
  after : Text
  span : Option Span
  deriving DecidableEq, Repr

/-- The words of an at-rule: `@name`, the blanks after it, the rest. -/
structure AtHead where
  name : Text
  gap : Text
  params : Text
  deriving DecidableEq, Repr

/-- A declaration; `important` keeps the suffix from the blanks before `!` on. -/
structure Decl where
  prop : Text
  value : Text
  important : Option Text
  deriving DecidableEq, Repr

/-- A node of the tree. In a block, `semicolon` says whether its last node, when that is a
    statement, is terminated. -/
inductive Node where
  | rule (selector : Text) (layout : Layout) (semicolon : Bool) (nodes : List Node)
  | atBlock (head : AtHead) (layout : Layout) (semicolon : Bool) (nodes : List Node)
  | atStatement (head : AtHead) (layout : Layout)
  | decl (decl : Decl) (layout : Layout)
  | comment (text : Text) (layout : Layout)
  deriving Repr

/-- A style sheet: the top block and the text that spans refer to. -/
structure Stylesheet where
  nodes : List Node
  after : Text
  semicolon : Bool
  input : Text
  deriving Repr

namespace Node

/-- The layout, whatever the kind. -/
def layout : Node → Layout
  | rule _ l _ _ => l
  | atBlock _ l _ _ => l
  | atStatement _ l => l
  | decl _ l => l
  | comment _ l => l

/-- Exchanges the layout. -/
def withLayout (l : Layout) : Node → Node
  | rule s _ b ns => rule s l b ns
  | atBlock h _ b ns => atBlock h l b ns
  | atStatement h _ => atStatement h l
  | decl d _ => decl d l
  | comment t _ => comment t l

/-- The blanks in front of a node. -/
def before (n : Node) : Text :=
  n.layout.before

/-- Exchanges the blanks in front of a node. -/
def withBefore (before : Text) (n : Node) : Node :=
  n.withLayout { n.layout with before := before }

/-- Where the node stood in the text it was read from. -/
def span (n : Node) : Option Span :=
  n.layout.span

/-- The nodes of the block; none for a node without one. -/
def children : Node → List Node
  | rule _ _ _ ns => ns
  | atBlock _ _ _ ns => ns
  | _ => []

/-- Statements end with `;`: declarations and at-rules without a block. -/
def isStatement : Node → Bool
  | atStatement _ _ => true
  | decl _ _ => true
  | _ => false

/-- The declaration that a node is, if it is one. -/
def decl? : Node → Option Decl
  | decl d _ => some d
  | _ => none

/-- A rule of the library's own making, its block written over several lines. -/
def ofRule (selector : Text) (nodes : List Node) : Node :=
  rule selector ⟨"\n".toList, " ".toList, "\n".toList, none⟩ true nodes

/-- A declaration of the library's own making, on a line of its own. -/
def ofDecl (prop value : Text) : Node :=
  decl ⟨prop, value, none⟩ ⟨"\n  ".toList, ": ".toList, [], none⟩

/-- A comment of the library's own making, on a line of its own. -/
def ofComment (text : Text) : Node :=
  comment text ⟨"\n".toList, [], [], none⟩

@[simp] theorem layout_withLayout (l : Layout) (n : Node) : (n.withLayout l).layout = l := by
  cases n <;> rfl

@[simp] theorem before_withBefore (t : Text) (n : Node) : (n.withBefore t).before = t := by
  simp [before, withBefore]

end Node

/-- The text of a node as it was read, if the node has a span within the text. -/
def Stylesheet.sourceOf? (sheet : Stylesheet) (n : Node) : Option Text :=
  n.span.bind fun s => Text.slice? sheet.input s.start s.stop

end StyleModules
