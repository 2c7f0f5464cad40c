import StyleModules.Text.Utf8

/-!
How texts are kept in files.
-/

namespace StyleModules

/-- UTF-8, or one byte for each of the first 256 characters. -/
inductive Encoding where
  | utf8
  | latin1
  deriving DecidableEq, Repr

namespace Encoding

/-- The encoding that goes by a name. -/
def ofName? (name : Text) : Option Encoding :=
  if name = "utf-8".toList || name = "utf8".toList then some utf8
  else if name = "latin1".toList || name = "latin-1".toList then some latin1
  else none

/-- The text that bytes spell; none if they spell none. -/
def decode? : Encoding → List UInt8 → Option Text
  | utf8, bytes => Text.ofUtf8? bytes
  | latin1, bytes => some (bytes.map fun b => Char.ofNat b.toNat)

/-- A character in one byte; `?` for one that does not fit. -/
def latin1Byte (c : Char) : UInt8 :=
  if c.toNat < 256 then UInt8.ofNat c.toNat else UInt8.ofNat '?'.toNat

/-- The bytes of a text. -/
def encode : Encoding → Text → List UInt8
  | utf8, t => Text.utf8 t
  | latin1, t => t.map latin1Byte

end Encoding

end StyleModules
