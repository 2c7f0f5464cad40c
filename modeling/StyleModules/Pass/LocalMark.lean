import StyleModules.Selector.Stretch

/-!
The names that a text marks as local.

A mark is `:local(...)` up to the parenthesis that closes it. If it holds an identifier, that is
the name; else the names are the identifiers behind each `.` and `#` in it. `LocalMark.parts` cuts
a text into these names and what is copied between them; the marks themselves are dropped.
-/

namespace StyleModules.LocalMark

/-- A stretch that is copied, or a name. -/
inductive Part where
  | copied (t : Text)
  | name (t : Text)
  deriving DecidableEq, Repr

/-- Cut at the parenthesis that closes one already open, `depth` more being open inside it. -/
def cutClose : Nat → Text → Option (Text × Text)
  | _, [] => none
  | 0, ')' :: t => some ([], t)
  | depth, c :: t =>
    let depth := if c = '(' then depth + 1 else if c = ')' then depth - 1 else depth
    (cutClose depth t).map fun (a, b) => (c :: a, b)

/-- The names behind `.` and `#`, and what is copied. -/
def namesIn : Text → List Part
  | [] => []
  | c :: t =>
    if c = '.' || c = '#' then
      have := Selector.identifier_length t
      let name := (Selector.identifier t).1
      if name.isEmpty then .copied [c] :: namesIn t
      else .copied [c] :: .name name :: namesIn (Selector.identifier t).2
    else .copied [c] :: namesIn t
termination_by t => t.length

/-- The names in a mark that holds a text. -/
def inside (t : Text) : List Part :=
  let name := Text.trim t
  if Selector.isIdentifier name then [.name name] else namesIn t

/-- What follows a closing parenthesis is shorter. -/
theorem cutClose_length {depth : Nat} {t a b : Text} (h : cutClose depth t = some (a, b)) :
    b.length < t.length := by
  fun_induction cutClose depth t generalizing a with
  | case1 => cases h
  | case2 t => cases h; simp
  | case3 =>
    rename_i ih
    obtain ⟨⟨a', b'⟩, h', he⟩ := Option.map_eq_some_iff.mp h
    cases he
    have := ih h'
    simp only [List.length_cons]; omega

/-- What follows a mark's opening is shorter. -/
theorem opening_length {t rest : Text} (h : ":local(".toList.isPrefixOf? t = some rest) :
    rest.length < t.length := by
  rw [← Text.append_of_isPrefixOf? h, List.length_append]
  exact Nat.lt_add_of_pos_left (by decide)

/-- The names that a text marks, and what is copied. A mark that is not closed is copied. -/
def parts : Text → List Part
  | [] => []
  | c :: t =>
    match h : ":local(".toList.isPrefixOf? (c :: t) with
    | none => .copied [c] :: parts t
    | some rest =>
      match h' : cutClose 0 rest with
      | none => [.copied (c :: t)]
      | some (a, b) =>
        have := opening_length h
        have := cutClose_length h'
        inside a ++ parts b
termination_by t => t.length
decreasing_by
  · simp
  · omega

/-- The names that a text marks, in order. -/
def names (t : Text) : List Text :=
  (parts t).filterMap fun
    | .name n => some n
    | .copied _ => none

end StyleModules.LocalMark
