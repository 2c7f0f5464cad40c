import StyleModules.Text.Basic

/-!
Positions in a text: lines are ended by line feeds, columns count UTF-16 units, both from 0.

* `Position.ofText` says where a text ends, read off the text as a whole.
* `Position.through` moves on character by character; `through_origin` is the agreement of the two.
-/

namespace StyleModules

/-- A line and a column, both counted from 0. -/
structure Position where
  line : Nat
  column : Nat
  deriving DecidableEq, Repr

namespace Position

/-- The start of a text. -/
def origin : Position :=
  ⟨0, 0⟩

/-- What follows the last line feed. -/
def lastLine (t : Text) : Text :=
  match Text.cutAtLast (· == '\n') t with
  | some (_, line) => line
  | none => t

/-- Where a text ends. -/
def ofText (t : Text) : Position :=
  ⟨t.count '\n', Text.units (lastLine t)⟩

/-- Where the first `offset` bytes of a text end; an offset past the text is its end. -/
def ofOffset (t : Text) (offset : Nat) : Position :=
  ofText ((Text.takeBytes t offset).getD t)

/-- The position after one more character. -/
def advance (p : Position) (c : Char) : Position :=
  if c = '\n' then ⟨p.line + 1, 0⟩ else ⟨p.line, p.column + Text.units [c]⟩

/-- The position after more text. -/
def through (p : Position) (t : Text) : Position :=
  t.foldl advance p

/-- A text that cannot be cut at a line feed has none. -/
theorem count_of_cutAtLast_eq_none {t : Text} (h : Text.cutAtLast (· == '\n') t = none) :
    t.count '\n' = 0 := by
  induction t with
  | nil => rfl
  | cons d t ih =>
    simp only [Text.cutAtLast] at h
    cases h' : Text.cutAtLast (· == '\n') t with
    | some ab => simp [h'] at h
    | none =>
      rw [h'] at h
      by_cases hd : d = '\n'
      · simp [hd] at h
      · simp [hd, ih h']

/-- Moving over a text adds its lines; the column starts anew if there is one. -/
theorem through_eq (p : Position) (t : Text) :
    p.through t =
      match Text.cutAtLast (· == '\n') t with
      | some (_, line) => ⟨p.line + t.count '\n', Text.units line⟩
      | none => ⟨p.line, p.column + Text.units t⟩ := by
  induction t generalizing p with
  | nil => rfl
  | cons c t ih =>
    show (p.advance c).through t = _
    rw [ih]
    cases h : Text.cutAtLast (· == '\n') t with
    | some ab =>
      obtain ⟨a, b⟩ := ab
      by_cases hc : c = '\n'
      · simp [Text.cutAtLast, h, advance, hc]; omega
      · simp [Text.cutAtLast, h, advance, hc]
    | none =>
      have hcount := count_of_cutAtLast_eq_none h
      by_cases hc : c = '\n'
      · simp [Text.cutAtLast, h, advance, hc, hcount]
      · simp [Text.cutAtLast, h, advance, hc, Text.units, Nat.add_assoc]

/-- Moving over a text from its start ends where the text ends. -/
theorem through_origin (t : Text) : origin.through t = ofText t := by
  rw [through_eq, ofText, lastLine]
  cases h : Text.cutAtLast (· == '\n') t with
  | some ab => simp [origin]
  | none => simp [origin, count_of_cutAtLast_eq_none h]

end Position

end StyleModules
