import StyleModules.Sheet.Symbols
import StyleModules.Symbol.Splice

/-!
Replacement of symbols throughout a style sheet, with a lookup that has a state.

The texts are spliced in the order in which they stand in the sheet, and the lookup goes from one to
the next. What is left alone is the same as without a state.
-/

namespace StyleModules

section Splice

variable {σ : Type} (targets : Targets) (lookup : Text → StateM σ (Option Text))

/-- Splice a text if it is targeted. -/
def spliceIf (targeted : Bool) (t : Text) (s : σ) : Option (Text × σ) :=
  if targeted then Symbol.splice lookup t s else some (t, s)

/-- Splice the words of an at-rule. -/
def AtHead.spliceSymbols (h : AtHead) (s : σ) : Option (AtHead × σ) := do
  let targeted := targets.params && !isKeyframes h.name && !isValue h.name
  let (params, s) ← spliceIf lookup targeted h.params s
  return ({ h with params := params }, s)

mutual

/-- Splice the texts of a node and below. -/
def Node.spliceSymbols (n : Node) (s : σ) : Option (Node × σ) :=
  match n with
  | .rule selector l b ns =>
    if Interface.isImport selector then some (.rule selector l b ns, s)
    else do
      let targeted := targets.selectors && !Interface.isExport selector
      let (selector, s) ← spliceIf lookup targeted selector s
      let (ns, s) ← spliceAllSymbols ns s
      return (.rule selector l b ns, s)
  | .atBlock h l b ns => do
    let (h, s) ← h.spliceSymbols targets lookup s
    let (ns, s) ← spliceAllSymbols ns s
    return (.atBlock h l b ns, s)
  | .atStatement h l => do
    let (h, s) ← h.spliceSymbols targets lookup s
    return (.atStatement h l, s)
  | .decl d l => do
    let (value, s) ← spliceIf lookup targets.values d.value s
    return (.decl { d with value := value } l, s)
  | .comment t l => some (.comment t l, s)

/-- Splice the texts of the nodes of a block. -/
def spliceAllSymbols (ns : List Node) (s : σ) : Option (List Node × σ) :=
  match ns with
  | [] => some ([], s)
  | n :: ns => do
    let (n, s) ← n.spliceSymbols s
    let (ns, s) ← spliceAllSymbols ns s
    return (n :: ns, s)

end

/-- Splice the texts of a sheet. -/
def Stylesheet.spliceSymbols (sheet : Stylesheet) (s : σ) : Option (Stylesheet × σ) := do
  let (ns, s) ← spliceAllSymbols targets lookup sheet.nodes s
  return ({ sheet with nodes := ns }, s)

end Splice

end StyleModules
