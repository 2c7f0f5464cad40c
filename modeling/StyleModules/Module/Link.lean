import StyleModules.Sheet.Edit
import StyleModules.Sheet.Symbols
import StyleModules.Module.Ref
import StyleModules.Module.Error

/-!
Linking a sheet to the modules that it imports.

Every import block binds aliases to symbols of another module. With the exports of all those
modules at hand, `link` enters each alias with its value in a table, takes the import blocks out,
replaces the aliases throughout the sheet, and takes the export blocks out as the exports of the
sheet. Nothing of the sheet changes if it fails.

* A module that could not be loaded makes linking fail, unless such failures are tolerated: then
  its block binds nothing.
* A symbol that a module does not export has the value `undefined`, unless missing symbols are
  tolerated: then its alias is not bound.
-/

namespace StyleModules

/-- Which failures are reported and passed over. -/
structure Tolerance where
  modules : Bool
  symbols : Bool
  deriving DecidableEq, Repr

/-- A failure that was passed over. -/
inductive Notice where
  | moduleFailed (failure : LoadError) (path importer : Text)
  | symbolMissing (symbol path importer : Text)
  deriving DecidableEq, Repr

/-- An import block: where it imports from, and the aliases with the symbols that they stand
    for. -/
structure ImportBlock where
  path : Text
  bindings : List (Text × Text)
  deriving DecidableEq, Repr

namespace Link

/-- The import blocks of a sheet, in order. -/
def importBlocks (sheet : Stylesheet) : List ImportBlock :=
  sheet.nodes.filterMap fun n => (Interface.ofImport? n).map fun b => ⟨b.1, b.2⟩

/-- The value of a symbol that nobody exports. -/
def undefined : Text :=
  "undefined".toList

/-- Bind the aliases of a block to what its module exports. -/
def bindBlock (tolerance : Tolerance) (importer path : Text) (exports : Exports) :
    List (Text × Text) → Table Text → Table Text × List Notice
  | [], t => (t, [])
  | (aliasName, symbol) :: bindings, t =>
    match exports.get? symbol with
    | some value => bindBlock tolerance importer path exports bindings (t.insert aliasName value)
    | none =>
      if tolerance.symbols then
        let (t, notices) := bindBlock tolerance importer path exports bindings t
        (t, .symbolMissing symbol path importer :: notices)
      else bindBlock tolerance importer path exports bindings (t.insert aliasName undefined)

/-- Bind the aliases of all blocks, each block given with what its module exports. Also returns the
    failures passed over, those before the failure that ends it included. -/
def bindAll (tolerance : Tolerance) (importer : Text) :
    List (ImportBlock × Except LoadError Exports) → Table Text →
      Except LoadError (Table Text) × List Notice
  | [], t => (.ok t, [])
  | (block, .error failure) :: rest, t =>
    if tolerance.modules then
      let (result, notices) := bindAll tolerance importer rest t
      (result, .moduleFailed failure block.path importer :: notices)
    else (.error failure, [])
  | (block, .ok exports) :: rest, t =>
    let (t, notices) := bindBlock tolerance importer block.path exports block.bindings t
    let (result, more) := bindAll tolerance importer rest t
    (result, notices ++ more)

/-- Replace the aliases of a sheet without its import blocks. -/
def replaceAliases (t : Table Text) (sheet : Stylesheet) : Stylesheet :=
  (sheet.retain fun n => !Interface.isImportBlock n).replaceSymbols .all t.get?

/-- The exports of a sheet: what its export blocks declare. -/
def exportsOf (sheet : Stylesheet) : Exports :=
  .ofList (sheet.nodes.flatMap fun n =>
    if Interface.isExportBlock n then Interface.pairs n.children else [])

/-- Link a sheet, each import block given with what its module exports. -/
def linkFetched (tolerance : Tolerance) (importer : Text)
    (fetched : List (ImportBlock × Except LoadError Exports)) (sheet : Stylesheet) :
    Except LoadError (Stylesheet × Exports) × List Notice :=
  let (result, notices) := bindAll tolerance importer fetched .empty
  (result.map fun t =>
    let sheet := replaceAliases t sheet
    (sheet.retain fun n => !Interface.isExportBlock n, exportsOf sheet), notices)

/-- Link a sheet, the exports of a module being found by the path of its import. -/
def link (tolerance : Tolerance) (importer : Text) (fetch : Text → Except LoadError Exports)
    (sheet : Stylesheet) : Except LoadError (Stylesheet × Exports) × List Notice :=
  linkFetched tolerance importer ((importBlocks sheet).map fun b => (b, fetch b.path)) sheet

end Link

end StyleModules
