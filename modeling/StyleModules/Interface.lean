import StyleModules.Table
import StyleModules.Sheet.Basic

/-!
The blocks by which style sheets talk to each other, and the other words with a meaning of their
own.

* A rule `:import("path")` binds local names to symbols of another sheet, one per declaration.
* A rule `:export` gives the symbols of this sheet, one per declaration.
* A declaration of `composes` or `compose-with` adds the names of other classes to a class.
* An at-rule whose name ends in `keyframes` names an animation; one named `value` a value.
-/

namespace StyleModules

namespace Interface

/-- The path in the selector of an import block, its quotation marks removed. -/
def importPath? (selector : Text) : Option Text :=
  ((":import(".toList.isPrefixOf? selector).bind (")".toList.isSuffixOf? ·)).map fun inside =>
    Text.trimEndBy Text.isQuote (Text.trimStartBy Text.isQuote (Text.trim inside))

/-- Whether a selector is that of an import block. -/
def isImport (selector : Text) : Bool :=
  (importPath? selector).isSome

/-- Whether a selector is that of an export block. -/
def isExport (selector : Text) : Bool :=
  selector == ":export".toList

/-- Whether a property adds the names of other classes. -/
def isComposition (prop : Text) : Bool :=
  prop == "composes".toList || prop == "compose-with".toList

/-- Declarations in a rule of the library's own making. -/
def declarations (pairs : List (Text × Text)) : List Node :=
  pairs.map fun p => Node.ofDecl p.1 p.2

/-- An import block that binds aliases to symbols. -/
def importBlock (path : Text) (bindings : List (Text × Text)) : Node :=
  .ofRule (":import(\"".toList ++ path ++ "\")".toList) (declarations bindings)

/-- An export block. -/
def exportBlock (symbols : List (Text × Text)) : Node :=
  .ofRule ":export".toList (declarations symbols)

/-- A name in the letters, digits and `_` that an alias is made of. -/
def aliasWord (name : Text) : Text :=
  name.map fun c => if Text.isAsciiAlnum c || c == '_' then c else '_'

/-- The alias with a number for an imported name. -/
def makeAlias (kind : Text) (name : Text) (number : Nat) : Text :=
  "i__".toList ++ kind ++ '_' :: (aliasWord name ++ '_' :: Text.ofNat number)

/-- The properties and values of declarations among nodes. -/
def pairs (nodes : List Node) : List (Text × Text) :=
  nodes.filterMap fun n => n.decl?.map fun d => (d.prop, d.value)

/-- The path and the bindings of an import block. -/
def ofImport? : Node → Option (Text × List (Text × Text))
  | .rule s _ _ ns => (importPath? s).map fun path => (path, pairs ns)
  | _ => none

/-- Whether a node is an import block. -/
def isImportBlock (n : Node) : Bool :=
  (ofImport? n).isSome

/-- Whether a node is an export block. -/
def isExportBlock : Node → Bool
  | .rule s _ _ _ => isExport s
  | _ => false

end Interface

namespace AtHead

/-- Whether an at-rule names an animation, under whatever vendor's name. -/
def isKeyframes (name : Text) : Bool :=
  "keyframes".toList.isSuffixOf (Text.lower name)

/-- Whether an at-rule names a value. -/
def isValue (name : Text) : Bool :=
  name == "value".toList

end AtHead

end StyleModules
