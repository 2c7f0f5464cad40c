/-!
Text as a list of characters, with the measures and character classes that every later
rule is stated in.

* `size` counts UTF-8 bytes: every offset and span of the library is in this unit.
* `isBlank` is the Unicode property White_Space and decides what trimming removes;
  `isAsciiBlank` is the smaller set that separates statements.
* `isIdentChar` are the characters of names; a character outside ASCII always belongs.
* Cutting functions return the parts, so that joining them gives the text back.
-/

namespace StyleModules

/-- A text is the list of its characters. -/
abbrev Text := List Char

namespace Text

/-! ## 1. Measures -/

/-- Number of bytes of the UTF-8 form. -/
def size : Text → Nat
  | [] => 0
  | c :: t => c.utf8Size + size t

/-- Number of UTF-16 units: a character beyond the basic plane counts twice. -/
def units : Text → Nat
  | [] => 0
  | c :: t => (if c.toNat < 0x10000 then 1 else 2) + units t

@[simp] theorem size_nil : size [] = 0 := rfl

@[simp] theorem size_cons (c : Char) (t : Text) : size (c :: t) = c.utf8Size + size t := rfl

/-- Sizes add up over concatenation. -/
@[simp] theorem size_append (s t : Text) : size (s ++ t) = size s + size t := by
  induction s with
  | nil => simp
  | cons c s ih => simp only [List.cons_append, size_cons, ih]; omega

/-- Units add up over concatenation. -/
@[simp] theorem units_append (s t : Text) : units (s ++ t) = units s + units t := by
  induction s with
  | nil => simp [units]
  | cons c s ih => simp only [List.cons_append, units, ih]; omega

/-- The text starting `n` bytes in, if `n` is a boundary between characters. -/
def dropBytes : Text → Nat → Option Text
  | t, 0 => some t
  | [], _ + 1 => none
  | c :: t, n + 1 => if c.utf8Size ≤ n + 1 then dropBytes t (n + 1 - c.utf8Size) else none

/-- The first `n` bytes, if `n` is a boundary between characters. -/
def takeBytes : Text → Nat → Option Text
  | _, 0 => some []
  | [], _ + 1 => none
  | c :: t, n + 1 =>
    if c.utf8Size ≤ n + 1 then (takeBytes t (n + 1 - c.utf8Size)).map (c :: ·) else none

/-- The bytes from `start` up to `stop`, if both are boundaries in this order. -/
def slice? (t : Text) (start stop : Nat) : Option Text :=
  if start ≤ stop then (dropBytes t start).bind fun rest => takeBytes rest (stop - start) else none

/-! ## 2. Character classes -/

/-- Unicode White_Space. -/
def isBlank (c : Char) : Bool :=
  let n := c.toNat
  (0x09 ≤ n && n ≤ 0x0D) || n == 0x20 || n == 0x85 || n == 0xA0 || n == 0x1680 ||
    (0x2000 ≤ n && n ≤ 0x200A) || n == 0x2028 || n == 0x2029 || n == 0x202F ||
    n == 0x205F || n == 0x3000

/-- Blanks of the style sheet grammar: space, tab, line feed, form feed, carriage return. -/
def isAsciiBlank (c : Char) : Bool :=
  c == ' ' || c == '\t' || c == '\n' || c == '\x0c' || c == '\r'

/-- ASCII letters and digits. -/
def isAsciiAlnum (c : Char) : Bool :=
  c.isAlphanum

/-- Characters of a name: ASCII letters and digits, `-`, `_`, and all beyond ASCII. -/
def isIdentChar (c : Char) : Bool :=
  isAsciiAlnum c || c == '-' || c == '_' || 0x80 ≤ c.toNat

/-- The two quotation marks that delimit strings in a style sheet. -/
def isQuote (c : Char) : Bool :=
  c == '"' || c == '\''

/-- Upper-case ASCII letters become lower case; nothing else changes. -/
def lower (t : Text) : Text :=
  t.map Char.toLower

/-! ## 3. Trimming and cutting -/

/-- Without the leading characters of a class. -/
def trimStartBy (p : Char → Bool) (t : Text) : Text :=
  t.dropWhile p

/-- Without the trailing characters of a class. -/
def trimEndBy (p : Char → Bool) : Text → Text
  | [] => []
  | c :: t =>
    match trimEndBy p t with
    | [] => if p c then [] else [c]
    | r => c :: r

/-- Without leading blanks. -/
def trimStart (t : Text) : Text :=
  trimStartBy isBlank t

/-- Without trailing blanks. -/
def trimEnd (t : Text) : Text :=
  trimEndBy isBlank t

/-- Without blanks at either end. -/
def trim (t : Text) : Text :=
  trimStart (trimEnd t)

/-- The trailing characters of a class: what `trimEndBy` removes. -/
def endRunBy (p : Char → Bool) (t : Text) : Text :=
  t.drop (trimEndBy p t).length

/-- The trailing blanks: what `trimEnd` removes. -/
def endBlanks (t : Text) : Text :=
  endRunBy isBlank t

/-- Cutting at the trailing run loses nothing. -/
theorem trimEndBy_append_endRunBy (p : Char → Bool) (t : Text) :
    trimEndBy p t ++ endRunBy p t = t := by
  unfold endRunBy
  induction t with
  | nil => simp [trimEndBy]
  | cons c t ih =>
    unfold trimEndBy
    split
    · next h =>
      rw [h] at ih
      split
      · simp
      · simp at ih ⊢
    · next h => simpa using ih

/-- A pattern is stripped character by character. -/
theorem isPrefixOf?_cons (c d : Char) (p t : Text) :
    List.isPrefixOf? (c :: p) (d :: t) = if c == d then p.isPrefixOf? t else none :=
  rfl

/-- What is left behind a pattern at the start makes the text with it. -/
theorem append_of_isPrefixOf? {pattern t rest : Text} (h : pattern.isPrefixOf? t = some rest) :
    pattern ++ rest = t := by
  induction pattern generalizing t with
  | nil => exact (Option.some.inj h).symm
  | cons c p ih =>
    cases t with
    | nil => cases h
    | cons d t =>
      rw [isPrefixOf?_cons] at h
      by_cases hc : c = d
      · subst hc
        rw [beq_self_eq_true, if_pos rfl] at h
        rw [List.cons_append, ih h]
      · rw [if_neg (by simpa using hc)] at h
        cases h

/-- Split at the first character of a class; the character itself is dropped. -/
def cutAt (p : Char → Bool) : Text → Option (Text × Text)
  | [] => none
  | c :: t => if p c then some ([], t) else (cutAt p t).map fun (a, b) => (c :: a, b)

/-- Split at the last character of a class; the character itself is dropped. -/
def cutAtLast (p : Char → Bool) : Text → Option (Text × Text)
  | [] => none
  | c :: t =>
    match cutAtLast p t with
    | some (a, b) => some (c :: a, b)
    | none => if p c then some ([], t) else none

/-- Split at the first occurrence of a pattern; the pattern itself is dropped. -/
def cutOn (pattern : Text) : Text → Option (Text × Text)
  | [] => if pattern.isEmpty then some ([], []) else none
  | c :: t =>
    match pattern.isPrefixOf? (c :: t) with
    | some rest => some ([], rest)
    | none => (cutOn pattern t).map fun (a, b) => (c :: a, b)

/-- Whether the pattern occurs. -/
def contains (pattern t : Text) : Bool :=
  (cutOn pattern t).isSome

/-- The pieces between the characters of a class, empty ones included. -/
def splitBy (p : Char → Bool) : Text → List Text
  | [] => [[]]
  | c :: t =>
    if p c then [] :: splitBy p t
    else
      match splitBy p t with
      | [] => [[c]]
      | w :: ws => (c :: w) :: ws

/-- The words between blanks. -/
def words (t : Text) : List Text :=
  (splitBy isBlank t).filter fun w => !w.isEmpty

/-- Texts one after the other with a separator between them. -/
def join (separator : Text) (parts : List Text) : Text :=
  separator.intercalate parts

/-- Decimal digits of a number. -/
def ofNat (n : Nat) : Text :=
  Nat.toDigits 10 n

end Text

end StyleModules
