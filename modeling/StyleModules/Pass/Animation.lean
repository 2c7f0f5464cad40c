import StyleModules.Text.Basic

/-!
Names of animations and where they are used.

An `animation-name` lists names; an `animation` has one name among the other words of each of its
parts. A name that could be a word of the language is none. `Animation.mark` writes the names as
`:local(name)` and leaves all else as it is.
-/

namespace StyleModules.Animation

/-! ## 1. Runs between separators -/

/-- A run of characters, or a separator between runs. -/
inductive Part where
  | run (t : Text)
  | separator (c : Char)
  deriving DecidableEq, Repr

/-- Put a character in front: it joins a run that follows. -/
def attach (c : Char) : List Part → List Part
  | .run t :: ps => .run (c :: t) :: ps
  | ps => .run [c] :: ps

/-- The runs between the separators that stand outside parentheses and strings. `mark` is that of
    the string the text begins in, `depth` the number of open parentheses. -/
def parts (isSeparator : Char → Bool) : Option Char → Nat → Text → List Part
  | _, _, [] => []
  | some mark, depth, c :: t =>
    attach c (parts isSeparator (if c = mark then none else some mark) depth t)
  | none, depth, c :: t =>
    if Text.isQuote c then attach c (parts isSeparator (some c) depth t)
    else if c = '(' then attach c (parts isSeparator none (depth + 1) t)
    else if c = ')' then attach c (parts isSeparator none (depth - 1) t)
    else if depth = 0 && isSeparator c then .separator c :: parts isSeparator none depth t
    else attach c (parts isSeparator none depth t)

/-! ## 2. Names -/

/-- Words that stand in place of a name wherever one may. -/
def reserved : List Text :=
  ["none", "initial", "inherit", "unset", "revert", "revert-layer"].map String.toList

/-- Words that have another meaning in an `animation`. -/
def keywords : List Text :=
  ["normal", "reverse", "alternate", "alternate-reverse", "forwards", "backwards", "both",
    "infinite", "paused", "running", "ease", "ease-in", "ease-out", "ease-in-out", "linear",
    "step-end", "step-start"].map String.toList

/-- Whether a word begins as numbers do. -/
def startsNumeric : Text → Bool
  | '-' :: c :: _ => c.isDigit || c == '.'
  | c :: _ => c.isDigit || c == '.'
  | [] => false

/-- Whether a word is the name of an animation; in the shorthand more words are not. -/
def isName (shorthand : Bool) (t : Text) : Bool :=
  !t.isEmpty && !startsNumeric t && t.all Text.isIdentChar &&
    !reserved.contains (Text.lower t) && !(shorthand && keywords.contains (Text.lower t))

/-! ## 3. Marking -/

/-- A name marked as local. -/
def marked (name : Text) : Text :=
  ":local(".toList ++ name ++ [')']

/-- A part as it stands. -/
def Part.text : Part → Text
  | .run t => t
  | .separator c => [c]

/-- Mark every name among parts. -/
def markAll (ps : List Part) : Text :=
  ps.flatMap fun
    | .run t => if isName false t then marked t else t
    | .separator c => [c]

/-- Mark the first name among parts. -/
def markFirst : List Part → Text
  | [] => []
  | .run t :: ps =>
    if isName true t then marked t ++ ps.flatMap Part.text else t ++ markFirst ps
  | .separator c :: ps => c :: markFirst ps

/-- Mark the names in a part of a value that has no comma. -/
def markPart (shorthand : Bool) (t : Text) : Text :=
  let ps := parts Text.isBlank none 0 t
  if shorthand then markFirst ps else markAll ps

/-- Mark the names in a value. -/
def mark (shorthand : Bool) (value : Text) : Text :=
  (parts (· == ',') none 0 value).flatMap fun
    | .run t => markPart shorthand t
    | .separator c => [c]

/-- Mark the name that an animation is given. A name in `:global(...)` loses it and stays. -/
def markKeyframes (params : Text) : Text :=
  let name := Text.trim params
  match (":global(".toList.isPrefixOf? name).bind (")".toList.isSuffixOf? ·) with
  | some inside => Text.trim inside
  | none =>
    if name.isEmpty || ":local(".toList.isPrefixOf name then params else marked name

end StyleModules.Animation
