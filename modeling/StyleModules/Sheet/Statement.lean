import StyleModules.Text.Alphanumeric
import StyleModules.Sheet.Basic

/-!
How far a statement reaches, and what its words are.

* `scan` finds the first `;`, `{` or `}` that stands outside strings, comments, escapes and
  brackets. It cuts the text there and reports what was left open at the end of the text.
* `cutComment` finds the end of a comment.
* `AtHead.ofText` and `Decl.ofText` take the words of a statement apart.
-/

namespace StyleModules

/-- What can be wrong with the text of a style sheet. -/
inductive Fault where
  | unclosedBlock
  | unclosedBracket
  | unclosedComment
  | unclosedString
  | unexpectedBrace
  | unknownWord (word : Text)
  | missingProperty
  deriving DecidableEq, Repr

/-- A fault and the byte offset it is reported at. -/
structure ParseError where
  fault : Fault
  offset : Nat
  deriving DecidableEq, Repr

/-- The words in which a fault is reported. -/
def Fault.message : Fault → Text
  | unclosedBlock => "Unclosed block".toList
  | unclosedBracket => "Unclosed bracket".toList
  | unclosedComment => "Unclosed comment".toList
  | unclosedString => "Unclosed string".toList
  | unexpectedBrace => "Unexpected \x7d".toList
  | unknownWord w => "Unknown word ".toList ++ w
  | missingProperty => "Declaration without a property".toList

/-- The words in which an error is reported. -/
def ParseError.message (e : ParseError) : Text :=
  e.fault.message

namespace Statement

/-! ## 1. Comments -/

/-- Cut after the first `*/`: the comment's text and what follows it. -/
def cutComment : Text → Option (Text × Text)
  | [] => none
  | '*' :: '/' :: t => some ([], t)
  | c :: t => (cutComment t).map fun (a, b) => (c :: a, b)

/-! ## 2. The extent of a statement -/

/-- Where the scanner stands: between words, or inside a string or comment that began at the
    given offset. -/
inductive Mode where
  | plain
  | quoted (mark : Char) (start : Nat)
  | comment (start : Nat)
  deriving DecidableEq, Repr

/-- The words of a statement and the text from its terminator on. -/
structure Cut where
  words : Text
  rest : Text
  deriving DecidableEq, Repr

/-- One more character in front of the words. -/
def Cut.push (c : Char) (cut : Cut) : Cut :=
  ⟨c :: cut.words, cut.rest⟩

/-- Whether a character ends a statement when no bracket is open. -/
def isTerminator (c : Char) : Bool :=
  c == ';' || c == '\x7b' || c == '\x7d'

/-- The brackets left open after a character between words, innermost first. A closing
    bracket closes the innermost open one, of whichever form. -/
def openAfter (brackets : List Nat) (pos : Nat) (c : Char) : List Nat :=
  if c == '(' || c == '[' then pos :: brackets
  else if c == ')' || c == ']' then brackets.tail
  else brackets

/-- Cut the text at the first terminator outside strings, comments, escapes and brackets, or
    at its end. `brackets` are the offsets of the open brackets, `pos` that of the text. -/
def scan : Mode → List Nat → Nat → Text → Except ParseError Cut
  | .plain, brackets, _, [] =>
    match brackets with
    | [] => .ok ⟨[], []⟩
    | start :: _ => .error ⟨.unclosedBracket, start⟩
  | .quoted _ start, _, _, [] => .error ⟨.unclosedString, start⟩
  | .comment start, _, _, [] => .error ⟨.unclosedComment, start⟩
  | .plain, brackets, pos, '\\' :: c :: t =>
    (scan .plain brackets (pos + 1 + c.utf8Size) t).map (Cut.push '\\' ∘ Cut.push c)
  | .plain, brackets, pos, '/' :: '*' :: t =>
    (scan (.comment pos) brackets (pos + 2) t).map (Cut.push '/' ∘ Cut.push '*')
  | .plain, brackets, pos, c :: t =>
    if Text.isQuote c then
      (scan (.quoted c pos) brackets (pos + 1) t).map (Cut.push c)
    else if isTerminator c && brackets.isEmpty then .ok ⟨[], c :: t⟩
    else (scan .plain (openAfter brackets pos c) (pos + c.utf8Size) t).map (Cut.push c)
  | .quoted mark start, brackets, pos, '\\' :: c :: t =>
    (scan (.quoted mark start) brackets (pos + 1 + c.utf8Size) t).map
      (Cut.push '\\' ∘ Cut.push c)
  | .quoted mark start, brackets, pos, c :: t =>
    (scan (if c == mark then .plain else .quoted mark start) brackets (pos + c.utf8Size) t).map
      (Cut.push c)
  | .comment _, brackets, pos, '*' :: '/' :: t =>
    (scan .plain brackets (pos + 2) t).map (Cut.push '*' ∘ Cut.push '/')
  | .comment start, brackets, pos, c :: t =>
    (scan (.comment start) brackets (pos + c.utf8Size) t).map (Cut.push c)

/-- A mapped result is a success exactly when it comes from one. -/
theorem map_eq_ok {ε α β : Type} {f : α → β} {x : Except ε α} {b : β}
    (h : x.map f = .ok b) : ∃ a, x = .ok a ∧ f a = b := by
  cases x with
  | error e => cases h
  | ok a => cases h; exact ⟨a, rfl, rfl⟩

/-- Cutting loses nothing: words and rest join to the text. -/
theorem words_append_rest {mode : Mode} {brackets : List Nat} {pos : Nat} {t : Text} {cut : Cut}
    (h : scan mode brackets pos t = .ok cut) : cut.words ++ cut.rest = t := by
  fun_induction scan mode brackets pos t generalizing cut with
  | case1 => cases h; rfl
  | case2 => cases h
  | case3 => cases h
  | case4 => cases h
  | case8 => cases h; rfl
  | _ =>
    rename_i ih
    obtain ⟨inner, hi, rfl⟩ := map_eq_ok h
    simpa [Cut.push] using ih hi

end Statement

/-! ## 3. The words of a statement -/

/-- Characters of the name of an at-rule. -/
def AtHead.isNameChar (c : Char) : Bool :=
  Text.isAlphanumeric c || c == '-' || c == '_'

/-- The words of an at-rule, taken apart after its `@`. -/
def AtHead.ofText (t : Text) : AtHead :=
  let rest := t.dropWhile isNameChar
  ⟨t.takeWhile isNameChar, rest.takeWhile Text.isBlank, rest.dropWhile Text.isBlank⟩

/-- A value taken apart into the value proper and an `!important` suffix. The last `!` counts,
    blanks around the word and its letter case do not. -/
def Decl.splitImportant (value : Text) : Text × Option Text :=
  match Text.cutAtLast (· == '!') value with
  | none => (value, none)
  | some (kept, mark) =>
    if Text.lower (Text.trim mark) = "important".toList then
      (Text.trimEnd kept, some (Text.endBlanks kept ++ '!' :: mark))
    else (value, none)

/-- A declaration from its words: the property, the `:` with the blanks around it, the value. -/
def Decl.ofText (t : Text) : Except Fault (Decl × Text) :=
  match Text.cutAt (· == ':') t with
  | none => .error (.unknownWord ((Text.words t).headD t))
  | some (front, back) =>
    if Text.trimEnd front = [] then .error .missingProperty
    else
      let (value, important) := splitImportant (Text.trimStart back)
      .ok (⟨Text.trimEnd front, value, important⟩,
        Text.endBlanks front ++ ':' :: back.takeWhile Text.isBlank)

end StyleModules
