import StyleModules.Json.Basic

/-!
Reading JSON by the letter of the format: no comments, no trailing commas, no text after the
value, no lone halves of a surrogate pair.

Reading a value consumes at least one character of the text, so a text is read within as many
nested calls as it has characters; the readers of values take that number as their bound.
-/

namespace StyleModules.Json

/-- Blanks of the format. -/
def isJsonBlank (c : Char) : Bool :=
  c == ' ' || c == '\t' || c == '\n' || c == '\r'

/-- Without leading blanks. -/
def skipBlanks (t : Text) : Text :=
  t.dropWhile isJsonBlank

/-! ## 1. Strings -/

/-- The value of a hexadecimal digit. -/
def hexValue? (c : Char) : Option Nat :=
  let n := c.toNat
  if 0x30 ≤ n && n ≤ 0x39 then some (n - 0x30)
  else if 0x61 ≤ n && n ≤ 0x66 then some (n - 0x61 + 10)
  else if 0x41 ≤ n && n ≤ 0x46 then some (n - 0x41 + 10)
  else none

/-- The number that four hexadecimal digits spell. -/
def hex4? (a b c d : Char) : Option Nat := do
  let a ← hexValue? a
  let b ← hexValue? b
  let c ← hexValue? c
  let d ← hexValue? d
  return ((a * 16 + b) * 16 + c) * 16 + d

/-- The character of a short escape. -/
def shortEscape? (c : Char) : Option Char :=
  if c == '"' || c == '\\' || c == '/' then some c
  else if c == 'b' then some '\x08'
  else if c == 'f' then some '\x0c'
  else if c == 'n' then some '\n'
  else if c == 'r' then some '\r'
  else if c == 't' then some '\t'
  else none

/-- A character in front of the string read. -/
def pushChar (n : Nat) (r : Option (Text × Text)) : Option (Text × Text) :=
  r.map fun (s, rest) => (Char.ofNat n :: s, rest)

/-- Whether a code unit is the first half of a pair. -/
def isHigh (n : Nat) : Bool :=
  0xD800 ≤ n && n ≤ 0xDBFF

/-- Whether a code unit is the second half of a pair. -/
def isLow (n : Nat) : Bool :=
  0xDC00 ≤ n && n ≤ 0xDFFF

/-- The code point of a pair of halves. -/
def pairValue (high low : Nat) : Nat :=
  0x10000 + (high - 0xD800) * 0x400 + (low - 0xDC00)

/-- The rest of a string after its opening mark, and what follows its closing one. -/
def stringTail : Text → Option (Text × Text)
  | [] => none
  | '"' :: t => some ([], t)
  | '\\' :: 'u' :: a :: b :: c :: d :: '\\' :: 'u' :: e :: f :: g :: h :: t =>
    match hex4? a b c d, hex4? e f g h with
    | some m, some n =>
      if isHigh m then (if isLow n then pushChar (pairValue m n) (stringTail t) else none)
      else if isLow m then none
      else pushChar m (stringTail ('\\' :: 'u' :: e :: f :: g :: h :: t))
    | _, _ => none
  | '\\' :: 'u' :: a :: b :: c :: d :: t =>
    match hex4? a b c d with
    | some m => if isHigh m || isLow m then none else pushChar m (stringTail t)
    | none => none
  | '\\' :: c :: t =>
    match shortEscape? c with
    | some e => pushChar e.toNat (stringTail t)
    | none => none
  | c :: t => if c.toNat < 0x20 || c == '\\' then none else pushChar c.toNat (stringTail t)

/-! ## 2. Numbers -/

/-- A run of at least one digit, and what follows. -/
def digits? (t : Text) : Option (Text × Text) :=
  match t.takeWhile Char.isDigit with
  | [] => none
  | ds => some (ds, t.dropWhile Char.isDigit)

/-- The whole part: a single `0`, or digits that do not start with it. -/
def whole? : Text → Option (Text × Text)
  | '0' :: t => if (t.headD ' ').isDigit then none else some (['0'], t)
  | t => digits? t

/-- An optional fraction. -/
def fraction? : Text → Option (Text × Text)
  | '.' :: t => (digits? t).map fun (ds, rest) => ('.' :: ds, rest)
  | t => some ([], t)

/-- An optional exponent. -/
def exponent? : Text → Option (Text × Text)
  | c :: t =>
    if c == 'e' || c == 'E' then
      match t with
      | '+' :: u => (digits? u).map fun (ds, rest) => (c :: '+' :: ds, rest)
      | '-' :: u => (digits? u).map fun (ds, rest) => (c :: '-' :: ds, rest)
      | u => (digits? u).map fun (ds, rest) => (c :: ds, rest)
    else some ([], c :: t)
  | [] => some ([], [])

/-- A number without its sign. -/
def magnitude? (t : Text) : Option (Text × Text) := do
  let (w, t) ← whole? t
  let (f, t) ← fraction? t
  let (e, t) ← exponent? t
  return (w ++ f ++ e, t)

/-- A number as spelled, and what follows. -/
def number? : Text → Option (Text × Text)
  | '-' :: t => (magnitude? t).map fun (s, rest) => ('-' :: s, rest)
  | t => magnitude? t

/-! ## 3. Values -/

mutual

/-- A value, blanks in front of it allowed, and what follows. -/
def value? : Nat → Text → Option (Json × Text)
  | 0, _ => none
  | bound + 1, t =>
    match skipBlanks t with
    | 'n' :: 'u' :: 'l' :: 'l' :: rest => some (null, rest)
    | 't' :: 'r' :: 'u' :: 'e' :: rest => some (bool true, rest)
    | 'f' :: 'a' :: 'l' :: 's' :: 'e' :: rest => some (bool false, rest)
    | '"' :: rest => (stringTail rest).map fun (s, rest) => (str s, rest)
    | '[' :: rest =>
      match skipBlanks rest with
      | ']' :: rest => some (arr [], rest)
      | rest => (items? bound rest).map fun (vs, rest) => (arr vs, rest)
    | '\x7b' :: rest =>
      match skipBlanks rest with
      | '\x7d' :: rest => some (obj [], rest)
      | rest => (members? bound rest).map fun (ms, rest) => (obj ms, rest)
    | rest => (number? rest).map fun (s, rest) => (num s, rest)

/-- One or more items up to `]`. -/
def items? : Nat → Text → Option (List Json × Text)
  | 0, _ => none
  | bound + 1, t =>
    match value? bound t with
    | none => none
    | some (v, rest) =>
      match skipBlanks rest with
      | ',' :: rest => (items? bound rest).map fun (vs, rest) => (v :: vs, rest)
      | ']' :: rest => some ([v], rest)
      | _ => none

/-- One or more members up to the closing brace. -/
def members? : Nat → Text → Option (List (Text × Json) × Text)
  | 0, _ => none
  | bound + 1, t =>
    match skipBlanks t with
    | '"' :: rest =>
      match stringTail rest with
      | none => none
      | some (name, rest) =>
        match skipBlanks rest with
        | ':' :: rest =>
          match value? bound rest with
          | none => none
          | some (v, rest) =>
            match skipBlanks rest with
            | ',' :: rest => (members? bound rest).map fun (ms, rest) => ((name, v) :: ms, rest)
            | '\x7d' :: rest => some ([(name, v)], rest)
            | _ => none
        | _ => none
    | _ => none

end

/-- The value that a text spells, if it spells one. -/
def parse (t : Text) : Option Json :=
  match value? (t.length + 1) t with
  | some (v, rest) => if (skipBlanks rest).isEmpty then some v else none
  | none => none

end StyleModules.Json
