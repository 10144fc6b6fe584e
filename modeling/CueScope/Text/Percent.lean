import CueScope.Text.Bytes
import CueScope.Text.Digits

/-!
# Percent encoding

A byte that may not stand for itself is written as `%` and two hexadecimal digits.
-/

namespace CueScope.Text

/-- A byte as `%` and two hexadecimal digits. -/
def percentByte (b : UInt8) : List Char :=
  let digit (n : Nat) : Char := if n < 10 then Char.ofNat (48 + n) else Char.ofNat (55 + n)
  ['%', digit (b.toNat / 16), digit (b.toNat % 16)]

/-- Bytes as a text: those of control characters, of characters outside ASCII and of those in `set`
are written with `%`. -/
def percentBytes (set : List Char) (bytes : List UInt8) : String :=
  String.ofList (bytes.flatMap fun b =>
    if b < 0x20 ∨ 0x7F ≤ b ∨ Char.ofNat b.toNat ∈ set then percentByte b
    else [Char.ofNat b.toNat])

/-- A text in which control characters, characters outside ASCII and those in `set` are written
with `%`. -/
def percentEncode (set : List Char) (text : List Char) : String :=
  percentBytes set (toBytes (String.ofList text))

/-- The bytes of a text in which `%` and two hexadecimal digits stand for a byte. -/
def percentDecode : List Char → List UInt8
  | '%' :: a :: b :: cs =>
    match digit? a, digit? b with
    | some x, some y => UInt8.ofNat (16 * x + y) :: percentDecode cs
    | _, _ => String.utf8EncodeChar '%' ++ percentDecode (a :: b :: cs)
  | c :: cs => String.utf8EncodeChar c ++ percentDecode cs
  | [] => []

end CueScope.Text
