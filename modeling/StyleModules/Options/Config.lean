import StyleModules.Json.Parser
import StyleModules.Options.Basic

/-!
The configuration file: JSON that sets some of the options.

The fields are `extension`, `encoding`, `virtualModules`, `sourceMaps` and `sourceMapBaseDir`. None
has to be there, none may be there twice, and no other may. A configuration may also be the array of
all its fields in this order. An encoding is its name, or an object with the name and `null`.
-/

namespace StyleModules

/-- What a configuration says. -/
structure Config where
  extension : Option Text
  encoding : Option Encoding
  virtuals : Table Exports
  sourceMaps : Bool
  baseDir : Option Text
  deriving DecidableEq, Repr

namespace Config

/-! ## 1. Fields -/

/-- A string that may be left out by `null`. -/
def optionalText? : Json → Option (Option Text)
  | .null => some none
  | .str t => some (some t)
  | _ => none

/-- An encoding that may be left out by `null`. -/
def optionalEncoding? : Json → Option (Option Encoding)
  | .null => some none
  | .str name => (Encoding.ofName? name).map some
  | .obj [(name, .null)] => (Encoding.ofName? name).map some
  | _ => none

/-- A truth value. -/
def bool? : Json → Option Bool
  | .bool b => some b
  | _ => none

/-- A string. -/
def text? : Json → Option Text
  | .str t => some t
  | _ => none

/-- The table of an object, given how its members are read. A repeated name keeps its place and
    takes the last value. -/
def table? {β : Type} (read : Json → Option β) : Json → Option (Table β)
  | .obj members => (members.mapM fun m => (read m.2).map fun v => (m.1, v)).map Table.ofList
  | _ => none

/-- The virtual modules with their exports. -/
def virtuals? (j : Json) : Option (Table Exports) :=
  table? (table? text?) j

/-! ## 2. Configurations -/

/-- Nothing said. -/
def empty : Config :=
  ⟨none, none, .empty, false, none⟩

/-- Say what a field says. -/
def setField? (c : Config) (name : Text) (j : Json) : Option Config :=
  if name = "extension".toList then
    (optionalText? j).map fun v => { c with extension := v }
  else if name = "encoding".toList then
    (optionalEncoding? j).map fun v => { c with encoding := v }
  else if name = "virtualModules".toList then
    (virtuals? j).map fun v => { c with virtuals := v }
  else if name = "sourceMaps".toList then
    (bool? j).map fun v => { c with sourceMaps := v }
  else if name = "sourceMapBaseDir".toList then
    (optionalText? j).map fun v => { c with baseDir := v }
  else none

/-- Say what several fields say. -/
def setFields? : Config → List (Text × Json) → Option Config
  | c, [] => some c
  | c, (name, j) :: fields => (c.setField? name j).bind fun c => setFields? c fields

/-- The fields in their order. -/
def fieldNames : List Text :=
  ["extension", "encoding", "virtualModules", "sourceMaps", "sourceMapBaseDir"].map String.toList

/-- The configuration that a value says. -/
def ofJson? : Json → Option Config
  | .obj members =>
    if (members.map Prod.fst).Nodup then setFields? empty members else none
  | .arr items =>
    if items.length = fieldNames.length then setFields? empty (fieldNames.zip items) else none
  | _ => none

/-- The configuration that a text says. -/
def ofText? (t : Text) : Option Config :=
  (Json.parse t).bind ofJson?

end Config

/-- Options with what a configuration says. -/
def Options.withConfig (o : Options) (c : Config) : Options :=
  { o with
    extension := c.extension.getD o.extension
    encoding := c.encoding.getD o.encoding
    virtuals := o.virtuals.insertAll c.virtuals.entries
    sourceMaps :=
      if c.sourceMaps || c.baseDir.isSome then some ⟨c.baseDir⟩ else o.sourceMaps }

/-- Why a configuration cannot be used. -/
inductive ConfigError where
  | io (path : Text) (cause : IoError)
  | json (path : Text)
  deriving DecidableEq, Repr

/-- The words in which a failure is reported; of a text that is no configuration, the path. -/
def ConfigError.message : ConfigError → Text
  | io path cause => "When reading config ".toList ++ path ++ ": ".toList ++ cause.message
  | json path => "Invalid config ".toList ++ path

/-- The options that a configuration file sets; a file that is not there sets none. -/
def Options.ofConfigFile (d : Disk) (path : Text) : Except ConfigError Options × List Event :=
  match d.read path with
  | .error .notFound => (.ok .default, [.noConfig path])
  | .error e => (.error (.io path e), [])
  | .ok bytes =>
    match Text.ofUtf8? bytes with
    | none => (.error (.io path .notUtf8), [])
    | some t =>
      match Config.ofText? t with
      | none => (.error (.json path), [])
      | some c => (.ok (Options.default.withConfig c), [])

end StyleModules
