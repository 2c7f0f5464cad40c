import StyleModules.Text.Basic

/-!
Clauses of the form `names from source`.

The last `from` counts that stands as a word of its own with names in front of it and a source
behind it. A source is quoted or a bare name.
-/

namespace StyleModules

/-- The two sides of a clause, without the blanks around them. -/
structure FromClause where
  names : Text
  source : Text
  deriving DecidableEq, Repr

namespace FromClause

/-- Whether a text can be a source: it opens with a quotation mark or is a bare name. -/
def isSource (t : Text) : Bool :=
  match t with
  | [] => false
  | c :: _ => Text.isQuote c || t.all Text.isIdentChar

/-- The clause around a `from`, if what stands in front of it and behind it makes one. -/
def ofSides? (front back : Text) : Option FromClause :=
  let isWord := front.getLast?.any Text.isBlank && back.head?.any Text.isBlank
  let names := Text.trim front
  let source := Text.trim back
  if isWord && isSource source && !names.isEmpty then some ⟨names, source⟩ else none

/-- The clause at the last suitable `from` of a text; `front` is what stands in front of the text,
    backwards. -/
def find? (front : Text) : Text → Option FromClause
  | [] => none
  | c :: t =>
    match find? (c :: front) t with
    | some clause => some clause
    | none => ("from".toList.isPrefixOf? (c :: t)).bind (ofSides? front.reverse)

/-- The clause that a text is, if it is one. -/
def ofText? (t : Text) : Option FromClause :=
  find? [] t

end FromClause

end StyleModules
