import StyleModules.Json.Basic
import StyleModules.QualifiedName
import StyleModules.Text.Encoding
import StyleModules.Module.Event

/-!
What can be chosen about a build, and what is chosen if nobody does.
-/

namespace StyleModules

/-- What a pass knows about the module whose sheet it changes: the module, the key that it is known
    by, and its path relative to the input. -/
structure PassContext where
  module : ModuleRef
  importer : Text
  relative : Text
  deriving DecidableEq, Repr

/-- A pass of the user's own: it changes a sheet or fails, and may report what it did. -/
abbrev Plugin := PassContext → Stylesheet → Except PassError Stylesheet × List Event

/-- Source maps name their sources relative to a directory, or else to the input. -/
structure SourceMaps where
  baseDir : Option Text
  deriving DecidableEq, Repr

namespace Output

/-- A style sheet under a line that says where it comes from. -/
def banner (css path : Text) : Text :=
  "/* styles for ".toList ++ path ++ " */\n".toList ++ css

/-- The script that gives the exports of a module. -/
def script (exports : Exports) : Text :=
  "export default ".toList ++ Json.prettyStrings exports.entries ++ ";".toList

/-- A path without an extension and the dot in front of it, if it has it. -/
def stripExtension? (path extension : Text) : Option Text :=
  (extension.isSuffixOf? path).bind (".".toList.isSuffixOf? ·)

/-- The path of the script for a style sheet: `.js` takes the place of the extension. -/
def scriptPath (path extension : Text) : Text :=
  (stripExtension? path extension).getD path ++ ".js".toList

end Output

/-- All that can be chosen.
    * `extension`: files whose name ends in it, behind a dot, are compiled.
    * `before`, `after`: plugins in front of and behind the built-in passes.
    * `scopedName`: from a local name, the path of its module, the text of its rule, its module.
    * `cssFormat`: what is written for a style sheet, from the sheet and its path; by default a
      banner, or nothing but the sheet with source maps.
    * `scriptFormat`, `scriptPath`: what is written for the exports, and where. -/
structure Options where
  extension : Text
  encoding : Encoding
  before : List Plugin
  after : List Plugin
  scopedName : Text → Text → Text → ModuleRef → Text
  resolver : Resolver
  scriptFormat : Exports → Text → Text
  cssFormat : Option (Text → Text → Text)
  scriptPath : Option (Text → Text)
  tolerance : Tolerance
  virtuals : Table Exports
  sourceMaps : Option SourceMaps

/-- What is chosen if nobody does. -/
def Options.default : Options where
  extension := "css".toList
  encoding := .utf8
  before := []
  after := []
  scopedName name path _ _ := QualifiedName.generate name path
  resolver := .relative
  scriptFormat exports _ := Output.script exports
  cssFormat := none
  scriptPath := none
  tolerance := ⟨false, false⟩
  virtuals := .empty
  sourceMaps := none

end StyleModules
