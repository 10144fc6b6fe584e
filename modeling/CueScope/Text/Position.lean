import CueScope.Text.Rope

/-!
# Editor positions

An editor addresses a text by zero based line and UTF-16 column. Byte offsets are turned into such
positions and back by counting in the rope of the text.

* `ofOffset?` rounds an offset inside a character down to the start of the character.
* `toOffset?` rounds a column inside a surrogate pair down to the start of the pair. A column may
  address any character of its line, the terminator included, or the end of the text.
-/

namespace CueScope

/-- A zero based line and UTF-16 column. -/
structure Position where
  line : Nat
  column : Nat
deriving DecidableEq, Repr, Inhabited

/-- A range of editor positions. -/
structure Range where
  start : Position
  stop : Position
deriving DecidableEq, Repr, Inhabited

namespace Position

/-- Number of lines: one more than the line breaks. -/
def lineCount (text : String) : Nat := (Text.Rope.ofText text).lineCount

/-- The position of a byte offset, none past the end of the text. -/
def ofOffset? (text : String) (offset : Nat) : Option Position := do
  let rope := Text.Rope.ofText text
  let char ← rope.byteToChar? offset
  let line := rope.charToLine char
  let lineStart := rope.lineToChar line
  pure ⟨line, rope.charToUtf16 char - rope.charToUtf16 lineStart⟩

/-- The byte offset of a position, none if there is no such line or the column is past its end. -/
def toOffset? (text : String) (p : Position) : Option Nat :=
  let rope := Text.Rope.ofText text
  if rope.lineCount ≤ p.line then none
  else
    let lineStart := rope.lineToChar p.line
    let lineChars := (rope.line p.line).length
    let lastChar := if p.line + 1 < rope.lineCount then lineStart + (lineChars - 1)
      else lineStart + lineChars
    let target := rope.charToUtf16 lineStart + p.column
    if rope.charToUtf16 lastChar < target then none
    else some (rope.charToByte (rope.utf16ToChar target))

end Position

end CueScope
