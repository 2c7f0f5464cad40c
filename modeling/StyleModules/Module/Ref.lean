import StyleModules.Path
import StyleModules.Table

/-!
References to modules, and what an import path refers to.

* A reference is a file, a virtual module of the table of them, or a handle that only a resolver
  understands. Its `key` is what it is known by: references with equal keys are the same module.
* `locate` looks an import path up: the virtual modules come first, then the resolver.
-/

namespace StyleModules

/-- A table of exported symbols, in order. -/
abbrev Exports := Table Text

/-- A reference to a module. The path of a file is in normal form. -/
inductive ModuleRef where
  | file (path : Text)
  | virtual (name : Text)
  | handle (key : Text)
  deriving DecidableEq, Repr

namespace ModuleRef

/-- The file at a path. -/
def ofPath (path : Text) : ModuleRef :=
  file (Path.normalize path)

/-- What a module is known by. -/
def key : ModuleRef → Text
  | file path => path
  | virtual name => name
  | handle key => key

/-- Where the text of a module is read; virtual modules have none. -/
def loadPath? : ModuleRef → Option Text
  | file path => some path
  | virtual _ => none
  | handle key => some (Path.normalize key)

/-- Whether two references are known by the same key. -/
def same (a b : ModuleRef) : Bool :=
  a.key == b.key

/-- How a module is named to people. -/
def description : ModuleRef → Text
  | virtual name => "virtual module ".toList ++ name
  | m => m.key

end ModuleRef

/-- How an import path that stands in a module becomes a reference. -/
abbrev Resolver := Text → ModuleRef → ModuleRef

/-- Import paths are read from the directory of the importing module. -/
def Resolver.relative : Resolver := fun path importer =>
  .ofPath (Path.join ((importer.loadPath?.bind Path.parent?).getD []) path)

/-- What an import path refers to. -/
inductive Located where
  | exports (symbols : Exports)
  | module (ref : ModuleRef)
  | missing (name : Text)
  deriving DecidableEq, Repr

/-- Find what an import path in a module refers to. -/
def locate (virtuals : Table Exports) (resolver : Resolver) (path : Text) (importer : ModuleRef) :
    Located :=
  let path := Path.toPosix path
  match virtuals.get? path with
  | some symbols => .exports symbols
  | none =>
    match resolver path importer with
    | .virtual name =>
      match virtuals.get? name with
      | some symbols => .exports symbols
      | none => .missing name
    | ref => .module ref

end StyleModules
