import StyleModules.Text.Basic

/-!
Texts as bytes: the UTF-8 form of a text, and the text that a UTF-8 form spells.
-/

namespace StyleModules.Text

/-- The UTF-8 form. -/
def utf8 (t : Text) : List UInt8 :=
  t.flatMap String.utf8EncodeChar

/-- The text with the given UTF-8 form; none if the bytes are not well formed. -/
def ofUtf8? (bytes : List UInt8) : Option Text :=
  (String.fromUTF8? ⟨bytes.toArray⟩).map String.toList

/-- The UTF-8 form has as many bytes as `size` says. -/
theorem length_utf8 (t : Text) : (utf8 t).length = size t := by
  induction t with
  | nil => rfl
  | cons c t ih => simp [utf8, size] at ih ⊢; omega

end StyleModules.Text
