import CueScope.Text.Digits
import CueScope.Text.Split

/-!
# Addresses of four bytes

`ofText?` reads an address: up to four numbers with dots between them, and possibly a dot at the
end. A number is decimal, octal after `0`, or hexadecimal after `0x`. The last number fills all
bytes that are left, so that `1.2` is `1.0.0.2`. `text` writes four decimal numbers.
-/

namespace CueScope

/-- An address of four bytes, as one number. -/
structure Ipv4 where
  value : Nat
deriving DecidableEq, Repr

namespace Ipv4

/-- The value of a number in an address; `0x` alone is zero. -/
def number? (text : List Char) : Option Nat :=
  let (base, digits) : Nat × List Char :=
    match text with
    | '0' :: 'x' :: digits | '0' :: 'X' :: digits => (16, digits)
    | '0' :: d :: digits => (8, d :: digits)
    | digits => (10, digits)
  if text ≠ [] ∧ digits.all (Text.isDigitOf base) then some (Text.valueIn base digits) else none

/-- The parts between dots, without the empty one after a dot at the end. -/
def parts (text : List Char) : List (List Char) :=
  match Text.splitLast (· = '.') text with
  | (some front, []) => Text.pieces (· = '.') front
  | _ => Text.pieces (· = '.') text

/-- A text that can only be an address: its last part is a number. -/
def isMeant (text : List Char) : Bool :=
  (parts text).getLast?.any fun part =>
    (part ≠ [] && part.all Char.isDigit) || (number? part).isSome

/-- The address of which `bytes` are the first numbers and `last` is the last one; it is below
`bound`, and a byte in front is worth a 256th of it. -/
def assemble? (bound : Nat) : List Nat → Nat → Option Nat
  | [], last => if last < bound then some last else none
  | byte :: bytes, last =>
    if byte ≤ 255 then (assemble? (bound / 256) bytes last).map (byte * (bound / 256) + ·) else none

/-- The address that a text spells. -/
def ofText? (text : List Char) : Option Ipv4 :=
  ((parts text).mapM number?).bind fun numbers =>
    match numbers.getLast? with
    | some last =>
      if numbers.length ≤ 4 then (assemble? 4294967296 numbers.dropLast last).map Ipv4.mk else none
    | none => none

/-- The bytes of an address. -/
def bytes (a : Ipv4) : List Nat :=
  [a.value / 16777216, a.value / 65536 % 256, a.value / 256 % 256, a.value % 256]

/-- The text of an address. -/
def text (a : Ipv4) : String := ".".intercalate (a.bytes.map toString)

end Ipv4

end CueScope
