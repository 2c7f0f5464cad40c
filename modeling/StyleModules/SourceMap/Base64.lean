import StyleModules.Text.Utf8

/-!
Numbers and bytes over an alphabet of 64 characters.

* `encode` writes bytes in groups of three as four characters, padded with `=`.
* `vlq` writes an integer in digits of five bits, the lowest first; a sixth bit says that more
  digits follow. The sign is the lowest bit of the number so written.
-/

namespace StyleModules.Base64

/-- The alphabet, in the order of the values. -/
def alphabet : Text :=
  "ABCDEFGHIJKLMNOPQRSTUVWXYZabcdefghijklmnopqrstuvwxyz0123456789+/".toList

/-- The character of a value below 64. -/
def digit (n : Nat) : Char :=
  alphabet.getD n 'A'

/-- Bytes in groups of three. -/
def encode : List UInt8 → Text
  | a :: b :: c :: rest =>
    let n := (a.toNat * 256 + b.toNat) * 256 + c.toNat
    digit (n / 262144) :: digit (n / 4096 % 64) :: digit (n / 64 % 64) :: digit (n % 64) ::
      encode rest
  | [a, b] =>
    let n := (a.toNat * 256 + b.toNat) * 4
    [digit (n / 4096), digit (n / 64 % 64), digit (n % 64), '=']
  | [a] =>
    let n := a.toNat * 16
    [digit (n / 64), digit (n % 64), '=', '=']
  | [] => []

/-- A number in digits of five bits, the lowest first. -/
def vlqDigits (n : Nat) : List Nat :=
  if n < 32 then [n] else (n % 32 + 32) :: vlqDigits (n / 32)
termination_by n
decreasing_by omega

/-- The number that stands for an integer: twice its size, plus one if it is negative. -/
def vlqNumber (i : Int) : Nat :=
  if i < 0 then 2 * i.natAbs + 1 else 2 * i.natAbs

/-- An integer in digits. -/
def vlq (i : Int) : Text :=
  (vlqDigits (vlqNumber i)).map digit

end StyleModules.Base64
