import StyleModules.Text.Basic

/-!
Words of a text that are marked where they stand.

A `Wrapping` cuts a text around some of its words: `t₀ k₁ t₁ … kₙ tₙ`. It says how the text reads
(`text`), how it reads with the words marked (`marked`: `t₀ :local(k₁) t₁ … :local(kₙ) tₙ`), and which
words these are and where they stand (`words`). Words of one wrapping never overlap.
-/

namespace StyleModules

/-- A word where it stands: what is in front of it, the word, what is behind it. -/
structure Occurrence where
  before : Text
  word : Text
  after : Text
  deriving DecidableEq, Repr

namespace Occurrence

/-- The whole text. -/
def text (p : Occurrence) : Text :=
  p.before ++ (p.word ++ p.after)

/-- The same with more text in front. -/
def shift (front : Text) (p : Occurrence) : Occurrence :=
  { p with before := front ++ p.before }

theorem text_shift (front : Text) (p : Occurrence) : (p.shift front).text = front ++ p.text :=
  List.append_assoc front p.before (p.word ++ p.after)

theorem shift_shift (front more : Text) (p : Occurrence) :
    (p.shift more).shift front = p.shift (front ++ more) := by
  simp only [shift, List.append_assoc]

/-- A word in a text that is put together begins in the first part or stands in the second. -/
theorem within_or_shift {p : Occurrence} {front rest : Text} (h : p.text = front ++ rest) :
    (∃ c more, front = p.before ++ c :: more ∧ p.word ++ p.after = c :: more ++ rest) ∨
      ∃ q : Occurrence, p = q.shift front ∧ q.text = rest := by
  rcases List.append_eq_append_iff.mp h with ⟨more, hfront, hword⟩ | ⟨more, hbefore, hrest⟩
  · cases more with
    | nil =>
      rw [List.append_nil] at hfront
      exact .inr ⟨⟨[], p.word, p.after⟩, by rw [shift, List.append_nil, hfront], hword⟩
    | cons c more => exact .inl ⟨c, more, hfront, hword⟩
  · exact .inr ⟨⟨more, p.word, p.after⟩, by rw [shift, ← hbefore], hrest.symm⟩

/-- A word begins with the first character of a text or stands behind it. -/
theorem first_or_shift {p : Occurrence} {c : Char} {rest : Text} (h : p.text = c :: rest) :
    (p.before = [] ∧ p.word ++ p.after = c :: rest) ∨
      ∃ q : Occurrence, p = q.shift [c] ∧ q.text = rest := by
  rcases @within_or_shift p [c] rest h with ⟨d, more, hfront, hword⟩ | hshift
  · cases hbefore : p.before with
    | nil =>
      rw [hbefore] at hfront
      obtain ⟨rfl, rfl⟩ := List.cons.inj hfront
      exact .inl ⟨rfl, hword⟩
    | cons e before => simp [hbefore] at hfront
  · exact .inr hshift

end Occurrence

/-- A text that is cut around words. -/
inductive Wrapping where
  /-- No word is left. -/
  | last (t : Text)
  /-- A word, the text in front of it, and the rest. -/
  | word (gap k : Text) (rest : Wrapping)
  deriving DecidableEq, Repr

namespace Wrapping

/-- The text as it is. -/
def text : Wrapping → Text
  | last t => t
  | word gap k rest => gap ++ (k ++ rest.text)

/-- The text with its words marked as local. -/
def marked : Wrapping → Text
  | last t => t
  | word gap k rest => gap ++ (":local(".toList ++ (k ++ ')' :: rest.marked))

/-- The words, where they stand in the text. -/
def words : Wrapping → List Occurrence
  | last _ => []
  | word gap k rest => ⟨gap, k, rest.text⟩ :: rest.words.map (Occurrence.shift (gap ++ k))

/-- More text in front. -/
def push (front : Text) : Wrapping → Wrapping
  | last t => last (front ++ t)
  | word gap k rest => word (front ++ gap) k rest

@[simp] theorem text_push (front : Text) (w : Wrapping) : (w.push front).text = front ++ w.text := by
  cases w with
  | last t => rfl
  | word gap k rest => exact List.append_assoc front gap _

@[simp] theorem marked_push (front : Text) (w : Wrapping) :
    (w.push front).marked = front ++ w.marked := by
  cases w with
  | last t => rfl
  | word gap k rest => exact List.append_assoc front gap _

theorem push_nil (w : Wrapping) : w.push [] = w := by
  cases w <;> rfl

theorem push_push (front more : Text) (w : Wrapping) :
    (w.push more).push front = w.push (front ++ more) := by
  cases w with
  | last t => exact congrArg last (List.append_assoc front more t).symm
  | word gap k rest => exact congrArg (word · k rest) (List.append_assoc front more gap).symm

theorem words_push (front : Text) (w : Wrapping) :
    (w.push front).words = w.words.map (Occurrence.shift front) := by
  cases w with
  | last t => rfl
  | word gap k rest =>
    have hshift : ∀ p : Occurrence, p.shift (front ++ gap ++ k) = (p.shift (gap ++ k)).shift front := by
      intro p
      rw [Occurrence.shift_shift, List.append_assoc]
    simp only [push, words, List.map_cons, List.map_map, Occurrence.shift]
    refine congrArg (_ :: ·) (List.map_congr_left fun p _ => hshift p)

end Wrapping

end StyleModules
