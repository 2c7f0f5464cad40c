import StyleModules.Text.Quoted
import StyleModules.Sheet.Edit
import StyleModules.Interface
import StyleModules.Pass.FromClause

/-!
Compositions of classes from other sheets.

A declaration `composes: names from "path"` is turned into aliases, and an import block in front
of the sheet binds the aliases to the names at that path. A name that is composed twice from the
same path has one alias. Names `from global` become `global(name)`; a declaration whose source is
neither stays as it is.
-/

namespace StyleModules

/-- The aliases made so far: for each path the names with their aliases. -/
structure ImportedNames where
  paths : Table (Table Text)
  aliases : Nat
  deriving DecidableEq, Repr

namespace ImportedNames

/-- No aliases. -/
def empty : ImportedNames :=
  ⟨.empty, 0⟩

/-- The alias of a name at a path, made if there is none yet. -/
def aliasFor (s : ImportedNames) (path name : Text) : Text × ImportedNames :=
  let known := (s.paths.get? path).getD .empty
  match known.get? name with
  | some aliasName => (aliasName, s)
  | none =>
    let aliasName := Interface.makeAlias "imported".toList name s.aliases
    (aliasName, ⟨s.paths.insert path (known.insert name aliasName), s.aliases + 1⟩)

/-- The aliases of several names at a path. -/
def aliasesFor (s : ImportedNames) (path : Text) : List Text → List Text × ImportedNames
  | [] => ([], s)
  | name :: names =>
    let (aliasName, s) := s.aliasFor path name
    let (aliases, s) := s.aliasesFor path names
    (aliasName :: aliases, s)

/-- A name that is composed as it stands. -/
def globalName (name : Text) : Text :=
  "global(".toList ++ name ++ ")".toList

/-- The value of a composition with aliases for what it composes from elsewhere. -/
def value (s : ImportedNames) (value : Text) : Text × ImportedNames :=
  match FromClause.ofText? value with
  | none => (value, s)
  | some clause =>
    let names := Text.words clause.names
    if clause.source = "global".toList then (Text.join " ".toList (names.map globalName), s)
    else
      match Text.unquote? clause.source with
      | none => (value, s)
      | some path =>
        let (aliases, s) := s.aliasesFor path names
        (Text.join " ".toList aliases, s)

/-- A declaration with aliases, if it is a composition. -/
def decl (s : ImportedNames) (d : Decl) : Decl × ImportedNames :=
  if Interface.isComposition d.prop then
    let (value, s) := s.value d.value
    ({ d with value }, s)
  else (d, s)

mutual

/-- A node with aliases in its compositions and in those below, in the order of the text. -/
def node (s : ImportedNames) : Node → Node × ImportedNames
  | .rule sel l b ns =>
    let (ns, s) := nodes s ns
    (.rule sel l b ns, s)
  | .atBlock h l b ns =>
    let (ns, s) := nodes s ns
    (.atBlock h l b ns, s)
  | .decl d l =>
    let (d, s) := s.decl d
    (.decl d l, s)
  | .atStatement h l => (.atStatement h l, s)
  | .comment t l => (.comment t l, s)

/-- The nodes of a block with aliases in their compositions. -/
def nodes (s : ImportedNames) : List Node → List Node × ImportedNames
  | [] => ([], s)
  | n :: ns =>
    let (n, s) := node s n
    let (ns, s) := nodes s ns
    (n :: ns, s)

end

/-- The import blocks that bind the aliases. -/
def blocks (s : ImportedNames) : List Node :=
  s.paths.entries.map fun (path, names) =>
    Interface.importBlock path (names.entries.map fun (name, aliasName) => (aliasName, name))

/-- Carry out the imports of a sheet's compositions. -/
def run (sheet : Stylesheet) : Stylesheet :=
  let (ns, s) := nodes empty sheet.nodes
  { sheet with nodes := ns }.prependAll s.blocks

end ImportedNames

end StyleModules
