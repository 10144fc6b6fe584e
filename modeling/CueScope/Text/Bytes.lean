/-!
# Texts and bytes

`toBytes` is the UTF-8 form of a text. `ofBytes` reads any bytes: where they are not UTF-8, each
longest start of a character that does not go on, and each byte that starts no character, is read
as one replacement character. `ofBytes?` reads UTF-8 only.
-/

namespace CueScope.Text

/-- The bytes of the UTF-8 form. -/
def toBytes (text : String) : List UInt8 := text.toList.flatMap String.utf8EncodeChar

/-- What is read for bytes that are not UTF-8. -/
def replacement : Char := '\uFFFD'

/-- A character whose first bytes were read. -/
structure Pending where
  /-- The value of the bits read so far. -/
  value : Nat
  /-- Number of bytes that are missing. -/
  missing : Nat
  /-- The next byte is at least this. -/
  low : UInt8 := 0x80
  /-- The next byte is at most this. -/
  high : UInt8 := 0xBF

/-- A character of several bytes that starts with a byte. Of the values that would be too small
for their length, and of those that are no characters, the second byte is out of bounds. -/
def Pending.start? (b : UInt8) : Option Pending :=
  if 0xC2 ≤ b ∧ b ≤ 0xDF then some { value := b.toNat - 0xC0, missing := 1 }
  else if b = 0xE0 then some { value := 0, missing := 2, low := 0xA0 }
  else if b = 0xED then some { value := 0xD, missing := 2, high := 0x9F }
  else if 0xE1 ≤ b ∧ b ≤ 0xEF then some { value := b.toNat - 0xE0, missing := 2 }
  else if b = 0xF0 then some { value := 0, missing := 3, low := 0x90 }
  else if 0xF1 ≤ b ∧ b ≤ 0xF3 then some { value := b.toNat - 0xF0, missing := 3 }
  else if b = 0xF4 then some { value := 4, missing := 3, high := 0x8F }
  else none

/-- What is read at a byte that starts something new. -/
def readFirst (b : UInt8) : List Char × Option Pending :=
  if b < 0x80 then ([Char.ofNat b.toNat], none)
  else
    match Pending.start? b with
    | some p => ([], some p)
    | none => ([replacement], none)

/-- What is read at a byte after the start of a character. -/
def readNext (p : Pending) (b : UInt8) : List Char × Option Pending :=
  if p.low ≤ b ∧ b ≤ p.high then
    let value := 64 * p.value + (b.toNat - 0x80)
    if p.missing ≤ 1 then ([Char.ofNat value], none)
    else ([], some { value, missing := p.missing - 1 })
  else
    let (chars, next) := readFirst b
    (replacement :: chars, next)

/-- The characters that bytes stand for, after the start of one. -/
def readBytes : Option Pending → List UInt8 → List Char
  | none, [] => []
  | some _, [] => [replacement]
  | state, b :: bs =>
    let (chars, next) := state.elim (readFirst b) (readNext · b)
    chars ++ readBytes next bs

/-- The text of bytes; those that are not UTF-8 become replacement characters. -/
def ofBytes (bytes : List UInt8) : String := String.ofList (readBytes none bytes)

/-- The text of bytes, if they are UTF-8. -/
def ofBytes? (bytes : List UInt8) : Option String :=
  let text := ofBytes bytes
  if toBytes text = bytes then some text else none

end CueScope.Text
