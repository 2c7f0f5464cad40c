import StyleModules.Text.Basic

/-!
Symbols in a text and their replacement.

A text falls apart into tokens and the characters between them. A token is a run of name
characters, as long as possible, that may have one `$` in front; `$` never stands inside one, so
two tokens may touch (`flatMap_text_parts`: nothing is lost). `replace` exchanges whole tokens and
looks at no replacement again.
-/

namespace StyleModules.Symbol

/-- A token, or a character that belongs to none. -/
inductive Part where
  | token (t : Text)
  | gap (c : Char)
  deriving DecidableEq, Repr

/-- Whether a character can be the first of a token. -/
def startsToken (c : Char) : Bool :=
  Text.isIdentChar c || c == '$'

/-- Put a character in front of a text that has fallen apart already: it joins a token that goes
    on with a name character, and else is a part of its own. -/
def attach (c : Char) (parts : List Part) : List Part :=
  if startsToken c then
    match parts with
    | .token (d :: t) :: ps =>
      if Text.isIdentChar d then .token (c :: d :: t) :: ps else .token [c] :: parts
    | _ => .token [c] :: parts
  else .gap c :: parts

/-- The parts of a text, in order. -/
def parts (t : Text) : List Part :=
  t.foldr attach []

/-- The tokens of a text, in order. -/
def tokens (t : Text) : List Text :=
  (parts t).filterMap fun
    | .token w => some w
    | .gap _ => none

/-- A part as it stands in the text. -/
def Part.text : Part → Text
  | .token w => w
  | .gap c => [c]

/-- Attaching a character puts it in front of the text. -/
theorem flatMap_text_attach (c : Char) (ps : List Part) :
    (attach c ps).flatMap Part.text = c :: ps.flatMap Part.text := by
  unfold attach
  split
  · split
    · split <;> rfl
    · rfl
  · rfl

/-- The parts of a text are the text. -/
theorem flatMap_text_parts (t : Text) : (parts t).flatMap Part.text = t := by
  induction t with
  | nil => rfl
  | cons c t ih =>
    show (attach c (parts t)).flatMap Part.text = c :: t
    rw [flatMap_text_attach, ih]

/-- A part as it is written when some tokens have replacements. -/
def Part.write (lookup : Text → Option Text) : Part → Text
  | .token w => (lookup w).getD w
  | .gap c => [c]

/-- Exchange the tokens that have a replacement. -/
def replace (lookup : Text → Option Text) (t : Text) : Text :=
  (parts t).flatMap (Part.write lookup)

end StyleModules.Symbol
