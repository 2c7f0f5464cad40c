import StyleModules.Text.Basic

/-!
The stretches of a selector that are read as one: identifiers, strings and what stands in
brackets. Each function cuts a text into the stretch and the rest, and nothing is lost
(`identifier_append`, `string_append`, `bracketed_append`). A backslash always takes the next
character along.
-/

namespace StyleModules.Selector

/-- A character in front of the first part of a cut. -/
def push (c : Char) (cut : Text × Text) : Text × Text :=
  (c :: cut.1, cut.2)

@[simp] theorem push_fst (c : Char) (cut : Text × Text) : (push c cut).1 = c :: cut.1 := rfl

@[simp] theorem push_snd (c : Char) (cut : Text × Text) : (push c cut).2 = cut.2 := rfl

/-- The identifier at the start of a text, as long as possible, and the rest. -/
def identifier : Text → Text × Text
  | [] => ([], [])
  | ['\\'] => (['\\'], [])
  | '\\' :: c :: t => push '\\' (push c (identifier t))
  | c :: t => if Text.isIdentChar c then push c (identifier t) else ([], c :: t)

/-- The rest of a string behind its opening mark, the closing mark included. -/
def string (mark : Char) : Text → Text × Text
  | [] => ([], [])
  | ['\\'] => (['\\'], [])
  | '\\' :: c :: t => push '\\' (push c (string mark t))
  | c :: t => if c = mark then ([c], t) else push c (string mark t)

/-- What stands in brackets, `depth` of them being open, and the rest from the closing bracket of
    the outermost on. Only brackets of the same form count, and none inside a string; `mark` is
    that of the string the text begins in. -/
def bracketed (opening closing : Char) : Option Char → Nat → Text → Text × Text
  | _, _, [] => ([], [])
  | _, _, ['\\'] => (['\\'], [])
  | mark, depth, '\\' :: c :: t => push '\\' (push c (bracketed opening closing mark depth t))
  | some mark, depth, c :: t =>
    push c (bracketed opening closing (if c = mark then none else some mark) depth t)
  | none, depth, c :: t =>
    if Text.isQuote c then push c (bracketed opening closing (some c) depth t)
    else if c = opening then push c (bracketed opening closing none (depth + 1) t)
    else if c = closing then
      if depth ≤ 1 then ([], c :: t) else push c (bracketed opening closing none (depth - 1) t)
    else push c (bracketed opening closing none depth t)

theorem identifier_append (t : Text) : (identifier t).1 ++ (identifier t).2 = t := by
  fun_induction identifier t <;> simp_all

theorem string_append (mark : Char) (t : Text) : (string mark t).1 ++ (string mark t).2 = t := by
  fun_induction string mark t <;> simp_all

theorem bracketed_append (opening closing : Char) (mark : Option Char) (depth : Nat) (t : Text) :
    (bracketed opening closing mark depth t).1 ++
      (bracketed opening closing mark depth t).2 = t := by
  fun_induction bracketed opening closing mark depth t <;> simp_all

theorem identifier_length (t : Text) :
    (identifier t).1.length + (identifier t).2.length = t.length := by
  rw [← List.length_append, identifier_append]

theorem string_length (mark : Char) (t : Text) :
    (string mark t).1.length + (string mark t).2.length = t.length := by
  rw [← List.length_append, string_append]

theorem bracketed_length (opening closing : Char) (mark : Option Char) (depth : Nat) (t : Text) :
    (bracketed opening closing mark depth t).1.length +
      (bracketed opening closing mark depth t).2.length = t.length := by
  rw [← List.length_append, bracketed_append]

/-- The argument behind an opening parenthesis and the rest from its closing one on. -/
def argument (t : Text) : Text × Text :=
  bracketed '(' ')' none 1 t

/-- Whether a text is one identifier and nothing else. -/
def isIdentifier (t : Text) : Bool :=
  !t.isEmpty && (identifier t).2.isEmpty

end StyleModules.Selector
