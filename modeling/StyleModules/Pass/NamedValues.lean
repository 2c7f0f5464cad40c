import StyleModules.Text.Quoted
import StyleModules.Sheet.Edit
import StyleModules.Sheet.Symbols
import StyleModules.Pass.Error
import StyleModules.Pass.FromClause

/-!
Named values.

* `@value name: text;` defines a name. Names defined above it are replaced in its text.
* `@value names from source;` imports names, each as it is or `as` another. An imported name
  stands for an alias, and an import block binds the alias to the name in the other sheet.

The value rules at the top of the sheet are collected from top to bottom (`NamedValues.collect`) and
taken out. Then every defined name is replaced throughout the sheet, an export block makes the
names known to other sheets, and the import blocks go in front of it.
-/

namespace StyleModules

/-- What the value rules say so far.
    * `definitions`: each name with its text.
    * `imports`: for each path the aliases with the names that they stand for.
    * `aliases`: the number of aliases made. -/
structure NamedValues where
  definitions : Table Text
  imports : Table (List (Text × Text))
  aliases : Nat
  deriving DecidableEq, Repr

namespace NamedValues

/-- No value rules. -/
def empty : NamedValues :=
  ⟨.empty, .empty, 0⟩

/-- The path of a source: what the quoted text stands for, or, for a bare name, the text defined
    for it, quoted or not, or else the name itself. -/
def path (v : NamedValues) (source : Text) : Text :=
  match Text.unquote? source with
  | some path => path
  | none =>
    match v.definitions.get? source with
    | some text => (Text.unquote? text).getD text
    | none => source

/-- The names of an import: separated by commas, in brackets or not. -/
def importNames (names : Text) : List Text :=
  let inner := Text.trimEndBy (· == ')') (Text.trimStartBy (· == '(') (Text.trim names))
  ((Text.splitBy (· == ',') inner).map Text.trim).filter fun n => !n.isEmpty

/-- The name in the other sheet and the name in this one. -/
def remoteAndLocal (name : Text) : Text × Text :=
  match Text.cutOn " as ".toList name with
  | some (remote, here) => (Text.trim remote, Text.trim here)
  | none => (name, name)

/-- Import one name from a path. -/
def importName (path : Text) (v : NamedValues) (name : Text) : NamedValues :=
  let (remote, here) := remoteAndLocal name
  let aliasName := Interface.makeAlias "value".toList remote v.aliases
  { definitions := v.definitions.insert here aliasName
    imports := v.imports.upsert path fun bound => bound.getD [] ++ [(aliasName, remote)]
    aliases := v.aliases + 1 }

/-- The name and the text of a definition; the `:` between them may be missing. -/
def definition? (params : Text) : Option (Text × Text) :=
  match params.takeWhile Text.isIdentChar with
  | [] => none
  | name =>
    let rest := Text.trimStart (params.dropWhile Text.isIdentChar)
    some (name, Text.trim ((":".toList.isPrefixOf? rest).getD rest))

/-- Replace the names defined so far in a text. -/
def replace (v : NamedValues) (t : Text) : Text :=
  Symbol.replace v.definitions.get? t

/-- What the value rules say with one more. -/
def add (v : NamedValues) (params : Text) : Except PassError NamedValues :=
  match FromClause.ofText? params with
  | some clause =>
    .ok ((importNames clause.names).foldl (importName (v.path clause.source)) v)
  | none =>
    match definition? params with
    | some (name, text) =>
      .ok { v with definitions := v.definitions.insert name (v.replace text) }
    | none => .error (.invalidValue params)

/-- The words of a value rule. -/
def params? : Node → Option Text
  | .atBlock h _ _ _ => if AtHead.isValue h.name then some h.params else none
  | .atStatement h _ => if AtHead.isValue h.name then some h.params else none
  | _ => none

/-- What the value rules among nodes say. -/
def collect (nodes : List Node) : Except PassError NamedValues :=
  (nodes.filterMap params?).foldlM add empty

/-- Put definitions in place of their names, and make them known. -/
def apply (v : NamedValues) (sheet : Stylesheet) : Stylesheet :=
  ((sheet.replaceSymbols .all v.definitions.get?).prepend
    (Interface.exportBlock v.definitions.entries)).prependAll
      (v.imports.entries.map fun e => Interface.importBlock e.1 e.2)

/-- Carry out the value rules of a sheet. -/
def run (sheet : Stylesheet) : Except PassError Stylesheet :=
  (collect sheet.nodes).map fun v =>
    let rest := sheet.retain fun n => (params? n).isNone
    if v.definitions.isEmpty then rest else v.apply rest

end NamedValues

end StyleModules
