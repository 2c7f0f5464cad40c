import StyleModules.Text.Basic

/-!
The name that a local name gets by default: `_`, the words of the sheet's path with `_` between
them, `__`, and the local name. The path loses its extension; a word is a run of ASCII letters
and digits.

* `generate` says this as it stands.
* `write` reads the path once and puts one `_` for whatever stands between two words.
-/

namespace StyleModules.QualifiedName

/-! ## 1. The words of a path -/

/-- A path without its extension. A dot at the end begins none, and neither does one in the name
    of a directory. -/
def stem (path : Text) : Text :=
  match Text.cutAtLast (· == '.') path with
  | some (front, extension) =>
    if extension.isEmpty || extension.any (fun c => c == '/' || c == '\\') then path else front
  | none => path

/-- The words of a path. -/
def pathWords (path : Text) : List Text :=
  (Text.splitBy (fun c => !Text.isAsciiAlnum c) (stem path)).filter fun w => !w.isEmpty

/-- The name that a local name gets in the sheet at a path. -/
def generate (name path : Text) : Text :=
  '_' :: (Text.join ['_'] (pathWords path) ++ "__".toList ++ name)

/-! ## 2. In one pass -/

/-- A text with one `_` for every run of other characters than ASCII letters and digits. Within
    such a run, its `_` has been written already. -/
def collapse (within : Bool) : Text → Text
  | [] => []
  | c :: t =>
    if Text.isAsciiAlnum c then c :: collapse false t
    else if within then collapse true t
    else '_' :: collapse true t

/-- The name that a local name gets in the sheet at a path, in one pass over the path. -/
def write (name path : Text) : Text :=
  let middle := Text.trimEndBy (· == '_') (collapse false (stem path))
  '_' :: (Text.trimStartBy (· == '_') middle ++ "__".toList ++ name)

end StyleModules.QualifiedName
