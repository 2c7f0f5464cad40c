import StyleModules.Text.Basic

/-!
Texts in quotation marks: what a quoted text stands for.

The marks are double, single or backward, the same at both ends, and stand inside only behind a
backslash. A backslash also introduces the control characters by letter, a character by three
octal digits, and one by two, four or eight hexadecimal digits. A sign `+` may take the place of
the first hexadecimal digit.
-/

namespace StyleModules.Text

/-- The value of a digit in a base of at most 16. -/
def digitValue? (base : Nat) (c : Char) : Option Nat :=
  let n := c.toNat
  let v :=
    if 0x30 ≤ n && n ≤ 0x39 then n - 0x30
    else if 0x61 ≤ n && n ≤ 0x66 then n - 0x61 + 10
    else if 0x41 ≤ n && n ≤ 0x46 then n - 0x41 + 10
    else 16
  if v < base then some v else none

/-- The number that digits spell, the value of what precedes them given. -/
def readDigits? (base : Nat) (acc : Nat) : Text → Option Nat
  | [] => some acc
  | c :: t => (digitValue? base c).bind fun v => readDigits? base (acc * base + v) t

/-- The number that a text spells: digits, at least one, behind an optional `+`. -/
def readNumber? (base : Nat) : Text → Option Nat
  | [] => none
  | ['+'] => none
  | '+' :: t => readDigits? base 0 t
  | t => readDigits? base 0 t

/-- The character with a code below 256. -/
def byteChar? (code : Option Nat) : Option Char :=
  code.bind fun n => if n < 256 then some (Char.ofNat n) else none

/-- The character with a code point, halves of surrogate pairs excluded. -/
def codeChar? (code : Option Nat) : Option Char :=
  code.bind fun n => if n.isValidChar then some (Char.ofNat n) else none

/-- The character that a backslash and a single other character stand for. -/
def singleEscape? (c : Char) : Option Char :=
  if c == '\\' || c == '"' || c == '\'' || c == '\x60' then some c
  else if c == 'a' then some '\x07'
  else if c == 'b' then some '\x08'
  else if c == 'f' then some '\x0c'
  else if c == 'n' then some '\n'
  else if c == 'r' then some '\r'
  else if c == 't' then some '\t'
  else if c == 'v' then some '\x0b'
  else none

/-- The character that the first digits of a text spell, and what stands behind them. -/
def numberEscape? (base digits : Nat) (char? : Option Nat → Option Char) (t : Text) :
    Option (Char × Text) :=
  if t.length < digits then none
  else (char? (readNumber? base (t.take digits))).map fun c => (c, t.drop digits)

/-- The character of an escape, and what stands behind it. The text begins behind the backslash. -/
def escape? : Text → Option (Char × Text)
  | [] => none
  | c :: t =>
    if c = 'x' then numberEscape? 16 2 byteChar? t
    else if c = 'u' then numberEscape? 16 4 codeChar? t
    else if c = 'U' then numberEscape? 16 8 codeChar? t
    else if c.isDigit then numberEscape? 8 3 byteChar? (c :: t)
    else (singleEscape? c).map fun d => (d, t)

theorem numberEscape?_length {base digits : Nat} {char? : Option Nat → Option Char}
    {t rest : Text} {c : Char} (h : numberEscape? base digits char? t = some (c, rest)) :
    rest.length ≤ t.length := by
  rw [numberEscape?, Option.ite_none_left_eq_some] at h
  obtain ⟨d, _, heq⟩ := Option.map_eq_some_iff.mp h.2
  rw [← (Prod.mk.inj heq).2, List.length_drop]
  exact Nat.sub_le _ _

theorem escape?_length {t rest : Text} {c : Char} (h : escape? t = some (c, rest)) :
    rest.length ≤ t.length := by
  cases t with
  | nil => cases h
  | cons d t =>
    rw [escape?] at h
    repeat' split at h
    · exact Nat.le_succ_of_le (numberEscape?_length h)
    · exact Nat.le_succ_of_le (numberEscape?_length h)
    · exact Nat.le_succ_of_le (numberEscape?_length h)
    · exact numberEscape?_length h
    · obtain ⟨e, _, heq⟩ := Option.map_eq_some_iff.mp h
      rw [← (Prod.mk.inj heq).2]
      exact Nat.le_succ _

/-- What the inside of a quoted text stands for; the bare mark must not occur in it. -/
def unescape? (mark : Char) (t : Text) : Option Text :=
  match t with
  | [] => some []
  | c :: t =>
    if c = '\\' then
      match h : escape? t with
      | none => none
      | some (d, rest) =>
        have := escape?_length h
        (unescape? mark rest).map (d :: ·)
    else if c = mark then none
    else (unescape? mark t).map (c :: ·)
termination_by t.length

/-- What a quoted text stands for; none if it is not quoted as it should be. -/
def unquote? (t : Text) : Option Text :=
  match t with
  | mark :: rest =>
    if mark == '"' || mark == '\'' || mark == '\x60' then
      match rest.getLast? with
      | some last => if last = mark then unescape? mark rest.dropLast else none
      | none => none
    else none
  | [] => none

end StyleModules.Text
