import StyleModules.Sheet.Basic

/-!
Edits of a style sheet that keep its layout in order.

* `prepend`, `append` and `retain` change the top block and hand the blanks on, so that a node
  that was put in front and taken away again leaves no trace.
* `mapNodes`, `mapSelectors` and `mapDecls` edit the whole tree; the shape stays.
* `preorder`, `selectors` and `decls` list what those edits visit, in the order of the text.
-/

namespace StyleModules

namespace Stylesheet

/-! ## 1. The top block -/

/-- Put a node in front. It gets no blanks; the old first node gets those of the node after it,
    or a line break when it stands alone. -/
def prepend (node : Node) (sheet : Stylesheet) : Stylesheet :=
  let nodes :=
    match sheet.nodes with
    | [] => []
    | [only] => [only.withBefore "\n".toList]
    | first :: second :: rest => first.withBefore second.before :: second :: rest
  { sheet with nodes := node.withBefore [] :: nodes }

/-- Put nodes in front, the first of them foremost. -/
def prependAll (nodes : List Node) (sheet : Stylesheet) : Stylesheet :=
  nodes.foldr prepend sheet

/-- Put a node at the end. It gets the blanks of the last node, unless that is also the first. -/
def append (node : Node) (sheet : Stylesheet) : Stylesheet :=
  let node :=
    match sheet.nodes with
    | _ :: second :: rest => node.withBefore (rest.getLastD second).before
    | _ => node
  { sheet with nodes := sheet.nodes ++ [node] }

/-- Filter a list whose first node takes over the given blanks. -/
def retainFrom (keep : Node → Bool) (before : Text) : List Node → List Node
  | [] => []
  | n :: ns =>
    if keep (n.withBefore before) then n.withBefore before :: ns.filter keep
    else retainFrom keep before ns

/-- Keep the nodes that a predicate accepts. The first of them takes over the blanks in front of the
    sheet. -/
def retain (keep : Node → Bool) (sheet : Stylesheet) : Stylesheet :=
  match sheet.nodes with
  | [] => sheet
  | first :: rest => { sheet with nodes := retainFrom keep first.before (first :: rest) }

end Stylesheet

/-! ## 2. The whole tree -/

mutual

/-- Edit a node and all below it. The edit sees a node with its block already edited. -/
def Node.mapNodes (f : Node → Node) : Node → Node
  | .rule s l b ns => f (.rule s l b (mapAllNodes f ns))
  | .atBlock h l b ns => f (.atBlock h l b (mapAllNodes f ns))
  | .atStatement h l => f (.atStatement h l)
  | .decl d l => f (.decl d l)
  | .comment t l => f (.comment t l)

/-- Edit the nodes of a block and all below them. -/
def mapAllNodes (f : Node → Node) : List Node → List Node
  | [] => []
  | n :: ns => n.mapNodes f :: mapAllNodes f ns

end

mutual

/-- Edit the selectors of a node and below. The edit also sees the names of the at-rules around
    the rule, outermost first. -/
def Node.mapSelectors (f : List Text → Text → Text) (around : List Text) : Node → Node
  | .rule s l b ns => .rule (f around s) l b (mapAllSelectors f around ns)
  | .atBlock h l b ns => .atBlock h l b (mapAllSelectors f (around ++ [h.name]) ns)
  | n => n

/-- Edit the selectors of a block. -/
def mapAllSelectors (f : List Text → Text → Text) (around : List Text) : List Node → List Node
  | [] => []
  | n :: ns => n.mapSelectors f around :: mapAllSelectors f around ns

end

mutual

/-- A node and all below it, parents first. -/
def Node.preorder : Node → List Node
  | .rule s l b ns => .rule s l b ns :: preorderAll ns
  | .atBlock h l b ns => .atBlock h l b ns :: preorderAll ns
  | n => [n]

/-- The nodes of a block and all below them, parents first. -/
def preorderAll : List Node → List Node
  | [] => []
  | n :: ns => n.preorder ++ preorderAll ns

end

mutual

/-- The selectors of a node and below, each with the names of the at-rules around its rule. -/
def Node.selectors (around : List Text) : Node → List (Text × List Text)
  | .rule s _ _ ns => (s, around) :: selectorsAll around ns
  | .atBlock h _ _ ns => selectorsAll (around ++ [h.name]) ns
  | _ => []

/-- The selectors of a block. -/
def selectorsAll (around : List Text) : List Node → List (Text × List Text)
  | [] => []
  | n :: ns => n.selectors around ++ selectorsAll around ns

end

/-- Apply an edit of declarations to a node. -/
def Node.editDecl (f : Decl → Decl) : Node → Node
  | .decl d l => .decl (f d) l
  | n => n

namespace Stylesheet

/-- Edit every node. -/
def mapNodes (f : Node → Node) (sheet : Stylesheet) : Stylesheet :=
  { sheet with nodes := mapAllNodes f sheet.nodes }

/-- Edit every selector, knowing the names of the at-rules around its rule. -/
def mapSelectors (f : List Text → Text → Text) (sheet : Stylesheet) : Stylesheet :=
  { sheet with nodes := mapAllSelectors f [] sheet.nodes }

/-- Edit every declaration. -/
def mapDecls (f : Decl → Decl) (sheet : Stylesheet) : Stylesheet :=
  sheet.mapNodes (Node.editDecl f)

/-- Every node, parents first. -/
def preorder (sheet : Stylesheet) : List Node :=
  preorderAll sheet.nodes

/-- Every selector with the names of the at-rules around its rule. -/
def selectors (sheet : Stylesheet) : List (Text × List Text) :=
  selectorsAll [] sheet.nodes

/-- Every declaration. -/
def decls (sheet : Stylesheet) : List Decl :=
  sheet.preorder.filterMap Node.decl?

end Stylesheet

end StyleModules
