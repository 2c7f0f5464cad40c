import StyleModules.Interface
import StyleModules.Sheet.Edit
import StyleModules.Sheet.Printer
import StyleModules.Pass.Error
import StyleModules.Pass.LocalMark

/-!
Giving local names their scoped names.

The sheet is gone through once, from top to bottom. Every name that a selector, an animation or a
value marks as local is replaced by what the generator makes of it, and is entered in the table of
exports. A composition adds to the list of the one class that its rule declares: the lists of the
classes composed, the aliases imported and the global names. At the end the table becomes an export
block.

Import and export blocks are not entered, at any depth.
-/

namespace StyleModules

/-- What has been exported so far, each local name with its list, and the calls of the generator
    with name and rule, in order. -/
structure ScopedNames where
  exports : Table (List Text)
  calls : List (Text × Text)
  deriving DecidableEq, Repr

namespace ScopedNames

/-- What stays the same while a sheet is gone through: the generator, which sees a name and the text
    of the rule it stands in; the text of the sheet; the aliases of its import blocks. -/
structure Context where
  generate : Text → Text → Text
  input : Text
  imported : List Text

/-- Steps that may fail and keep what was exported before. -/
abbrev Action := EStateM PassError ScopedNames

/-- The text of a node as read, or as it would be written if it was not read. -/
def Context.textOf (ctx : Context) (n : Node) : Text :=
  (n.span.bind fun s => Text.slice? ctx.input s.start s.stop).getD (n.print true)

/-! ## 1. Names -/

/-- Enter a scoped name in the list of a local one, unless it is there. -/
def addName (full : Text) (list : Option (List Text)) : List Text :=
  let list := list.getD []
  if list.contains full then list else list ++ [full]

/-- The scoped name of a local one that stands in a rule. -/
def exportName (ctx : Context) (rule name : Text) : Action Text := do
  let full := ctx.generate name rule
  modify fun s => ⟨s.exports.upsert name (addName full), s.calls ++ [(name, rule)]⟩
  return full

/-- Write parts of a text with the scoped names for the local ones. -/
def writeParts (ctx : Context) (rule : Text) : List LocalMark.Part → Action Text
  | [] => return []
  | .copied t :: ps => return t ++ (← writeParts ctx rule ps)
  | .name n :: ps => do
    let full ← exportName ctx rule n
    return full ++ (← writeParts ctx rule ps)

/-- Write a text with the scoped names for the names that it marks. -/
def scopeText (ctx : Context) (rule t : Text) : Action Text :=
  writeParts ctx rule (LocalMark.parts t)

/-- Scope the name of an animation. -/
def scopeKeyframes (ctx : Context) (rule : Text) (h : AtHead) : Action AtHead := do
  if AtHead.isKeyframes h.name then
    match argument? (Text.trim h.params) with
    | some name => return { h with params := ← exportName ctx rule name }
    | none => return h
  else return h
where
  /-- The name in a mark that is all of a text. -/
  argument? (t : Text) : Option Text :=
    match (":local(".toList.isPrefixOf? t).bind (")".toList.isSuffixOf? ·) with
    | some inside => if (Text.trim inside).isEmpty then none else some (Text.trim inside)
    | none => none

/-! ## 2. Compositions -/

/-- The class of a selector that is one local class. -/
def composer? (selector : Text) : Option Text :=
  match (":local(.".toList.isPrefixOf? selector).bind (")".toList.isSuffixOf? ·) with
  | some name => if Selector.isIdentifier name then some name else none
  | none => none

/-- What a composed name stands for. -/
def composed (ctx : Context) (name : Text) : Action (List Text) := do
  match ("global(".toList.isPrefixOf? name).bind (")".toList.isSuffixOf? ·) with
  | some global => return [global]
  | none =>
    if ctx.imported.contains name then return [name]
    else
      match (← get).exports.get? name with
      | some list => return list
      | none => throw (.classNotFound name)

/-- Compose names into a class, one after the other. -/
def composeNames (ctx : Context) (composer : Text) : List Text → Action Unit
  | [] => return
  | name :: names => do
    let list ← composed ctx name
    modify fun s => { s with exports := s.exports.upsert composer fun old => old.getD [] ++ list }
    composeNames ctx composer names

/-- Carry out the compositions of a rule. -/
def compose (ctx : Context) (selector : Text) : List Decl → Action Unit
  | [] => return
  | d :: ds =>
    match composer? selector with
    | none => throw (.complexComposition selector)
    | some composer => do
      composeNames ctx composer (Text.words d.value)
      compose ctx selector ds

/-- Whether a node is a composition. -/
def isCompositionNode (n : Node) : Bool :=
  n.decl?.any fun d => Interface.isComposition d.prop

/-- The compositions among the nodes of a rule. -/
def compositions (ns : List Node) : List Decl :=
  (ns.filter isCompositionNode).filterMap Node.decl?

/-! ## 3. The sheet -/

mutual

/-- Scope a node that stands in a rule with the given text. -/
def scopeNode (ctx : Context) (rule : Text) : Node → Action Node
  | .rule s l b ns =>
    if Interface.isImport s || Interface.isExport s then return .rule s l b ns
    else do
      let text := ctx.textOf (.rule s l b ns)
      let full ← scopeText ctx text s
      compose ctx s (compositions ns)
      return .rule full l b (← scopeNodes ctx text true ns)
  | .atBlock h l b ns => do
    let text := ctx.textOf (.atBlock h l b ns)
    let full ← scopeKeyframes ctx text h
    return .atBlock full l b (← scopeNodes ctx text false ns)
  | .atStatement h l => do
    let text := ctx.textOf (.atStatement h l)
    return .atStatement (← scopeKeyframes ctx text h) l
  | .decl d l => return .decl { d with value := ← scopeText ctx rule d.value } l
  | .comment t l => return .comment t l

/-- Scope the nodes of a block. In a rule the compositions, which have been carried out, are taken
    out. -/
def scopeNodes (ctx : Context) (rule : Text) (inRule : Bool) : List Node → Action (List Node)
  | [] => return []
  | n :: ns =>
    if inRule && isCompositionNode n then scopeNodes ctx rule inRule ns
    else return (← scopeNode ctx rule n) :: (← scopeNodes ctx rule inRule ns)

end

/-- The aliases that the import blocks of a sheet bind. -/
def importedNames (sheet : Stylesheet) : List Text :=
  sheet.nodes.flatMap fun n => ((Interface.ofImport? n).map fun b => b.2.map Prod.fst).getD []

/-- The export block of a table. -/
def exportBlock (exports : Table (List Text)) : Node :=
  Interface.exportBlock (exports.entries.map fun e => (e.1, Text.join " ".toList e.2))

/-- Give the local names of a sheet their scoped names, from a given state on. -/
def scopeSheet (generate : Text → Text → Text) (sheet : Stylesheet) : Action Stylesheet := do
  let ctx : Context := ⟨generate, sheet.input, importedNames sheet⟩
  let nodes ← scopeNodes ctx sheet.input false sheet.nodes
  let exports := (← get).exports
  let full := { sheet with nodes }
  return if exports.isEmpty then full else full.append (exportBlock exports)

/-- Give the local names of a sheet their scoped names. Also returns the calls of the generator. -/
def runLogged (generate : Text → Text → Text) (sheet : Stylesheet) :
    Except PassError Stylesheet × List (Text × Text) :=
  match scopeSheet generate sheet ⟨.empty, []⟩ with
  | .ok full s => (.ok full, s.calls)
  | .error e s => (.error e, s.calls)

/-- Give the local names of a sheet their scoped names. -/
def run (generate : Text → Text → Text) (sheet : Stylesheet) : Except PassError Stylesheet :=
  (runLogged generate sheet).1

end ScopedNames

end StyleModules
