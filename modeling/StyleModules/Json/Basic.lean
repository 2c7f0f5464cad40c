import StyleModules.Text.Basic

/-!
JSON values and how they are written.

* An object is the list of its members in the order of the text, repeated names included; what a
  repeated name means is decided by whoever reads the object.
* A number is kept as it was spelled.
* `quote` escapes what the format demands and nothing else: quotation marks, backslashes and
  control characters, the usual ones by their short form.
-/

namespace StyleModules

/-- A JSON value. -/
inductive Json where
  | null
  | bool (b : Bool)
  | num (spelling : Text)
  | str (t : Text)
  | arr (items : List Json)
  | obj (members : List (Text × Json))
  deriving Repr

namespace Json

/-- A lower-case hexadecimal digit. -/
def hexDigit (n : Nat) : Char :=
  if n < 10 then Char.ofNat (0x30 + n) else Char.ofNat (0x61 + n - 10)

/-- A character inside a quoted string. -/
def escape (c : Char) : Text :=
  if c == '"' then ['\\', '"']
  else if c == '\\' then ['\\', '\\']
  else if c == '\x08' then ['\\', 'b']
  else if c == '\x0c' then ['\\', 'f']
  else if c == '\n' then ['\\', 'n']
  else if c == '\r' then ['\\', 'r']
  else if c == '\t' then ['\\', 't']
  else if c.toNat < 0x20 then
    "\\u00".toList ++ [hexDigit (c.toNat / 16), hexDigit (c.toNat % 16)]
  else [c]

/-- A quoted string. -/
def quote (t : Text) : Text :=
  '"' :: (t.flatMap escape ++ ['"'])

mutual

/-- A value without any blanks. -/
def compact : Json → Text
  | null => "null".toList
  | bool true => "true".toList
  | bool false => "false".toList
  | num spelling => spelling
  | str t => quote t
  | arr items => '[' :: (compactItems items ++ [']'])
  | obj members => '\x7b' :: (compactMembers members ++ ['\x7d'])

/-- The items of an array, a comma between them. -/
def compactItems : List Json → Text
  | [] => []
  | [v] => compact v
  | v :: vs => compact v ++ ',' :: compactItems vs

/-- The members of an object, a comma between them. -/
def compactMembers : List (Text × Json) → Text
  | [] => []
  | [(name, v)] => quote name ++ ':' :: compact v
  | (name, v) :: ms => quote name ++ ':' :: (compact v ++ ',' :: compactMembers ms)

end

/-- An object of strings over several lines, each member indented by two blanks. -/
def prettyStrings (members : List (Text × Text)) : Text :=
  match members with
  | [] => "\x7b\x7d".toList
  | _ =>
    let line := fun (m : Text × Text) => "  ".toList ++ quote m.1 ++ ": ".toList ++ quote m.2
    "\x7b\n".toList ++ Text.join ",\n".toList (members.map line) ++ "\n\x7d".toList

/-- A number. -/
def ofNat (n : Nat) : Json :=
  num (Text.ofNat n)

end Json

end StyleModules
