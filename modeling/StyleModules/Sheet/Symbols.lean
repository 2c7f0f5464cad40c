import StyleModules.Symbol
import StyleModules.Interface

/-!
Replacement of symbols throughout a style sheet.

Import blocks are left alone, at any depth and with all they hold. Export blocks keep their
selector, but what they export is replaced like any other value. The names of animations and the
definitions of values stay as they are.
-/

namespace StyleModules

/-- The parts of a sheet in which symbols are replaced. -/
structure Targets where
  values : Bool
  selectors : Bool
  params : Bool
  deriving DecidableEq, Repr

/-- All parts. -/
def Targets.all : Targets :=
  ⟨true, true, true⟩

/-- Replace symbols in a text if it is targeted. -/
def replaceIf (targeted : Bool) (lookup : Text → Option Text) (t : Text) : Text :=
  if targeted then Symbol.replace lookup t else t

/-- Replace symbols in the words of an at-rule. -/
def AtHead.replaceSymbols (targets : Targets) (lookup : Text → Option Text) (h : AtHead) : AtHead :=
  let targeted := targets.params && !isKeyframes h.name && !isValue h.name
  { h with params := replaceIf targeted lookup h.params }

mutual

/-- Replace symbols in a node and below. -/
def Node.replaceSymbols (targets : Targets) (lookup : Text → Option Text) : Node → Node
  | .rule s l b ns =>
    if Interface.isImport s then .rule s l b ns
    else
      .rule (replaceIf (targets.selectors && !Interface.isExport s) lookup s) l b
        (replaceAllSymbols targets lookup ns)
  | .atBlock h l b ns =>
    .atBlock (h.replaceSymbols targets lookup) l b (replaceAllSymbols targets lookup ns)
  | .atStatement h l => .atStatement (h.replaceSymbols targets lookup) l
  | .decl d l => .decl { d with value := replaceIf targets.values lookup d.value } l
  | .comment t l => .comment t l

/-- Replace symbols in the nodes of a block. -/
def replaceAllSymbols (targets : Targets) (lookup : Text → Option Text) : List Node → List Node
  | [] => []
  | n :: ns => n.replaceSymbols targets lookup :: replaceAllSymbols targets lookup ns

end

/-- Replace symbols in a sheet. -/
def Stylesheet.replaceSymbols (targets : Targets) (lookup : Text → Option Text)
    (sheet : Stylesheet) : Stylesheet :=
  { sheet with nodes := replaceAllSymbols targets lookup sheet.nodes }

end StyleModules
