import CueScope.Text.Utf8

/-!
# Ropes

A rope is a text in which bytes, UTF-16 units, characters and lines are counted, and one of these
counts can be turned into another. What lies inside a character or a line counts as the start of it.

A line ends with `\n`, `\r\n` or a lone `\r`; the terminator belongs to the line it ends.
-/

namespace CueScope.Text

/-- Number of UTF-16 units of a character: two for those outside the basic plane. -/
def utf16Width (c : Char) : Nat := if c.toNat < 0x10000 then 1 else 2

/-- Number of UTF-16 units. -/
def utf16Length : List Char → Nat
  | [] => 0
  | c :: cs => utf16Width c + utf16Length cs

@[simp] theorem utf16Length_nil : utf16Length [] = 0 := rfl

@[simp] theorem utf16Length_cons (c : Char) (cs : List Char) :
    utf16Length (c :: cs) = utf16Width c + utf16Length cs := rfl

theorem utf16Length_append (as bs : List Char) :
    utf16Length (as ++ bs) = utf16Length as + utf16Length bs := by
  induction as with
  | nil => simp
  | cons c cs ih => simp [ih, Nat.add_assoc]

/-- The lines of a text, each with its terminator. -/
def lines : List Char → List (List Char)
  | [] => [[]]
  | '\r' :: '\n' :: cs => ['\r', '\n'] :: lines cs
  | c :: cs =>
    if c = '\n' ∨ c = '\r' then [c] :: lines cs else (lines cs).modifyHead (c :: ·)

/-- How many elements of a list have room in `n` units, from the front on, where each takes as many
as `width` says. -/
def fitting {α : Type} (width : α → Nat) : List α → Nat → Nat
  | [], _ => 0
  | a :: as, n => if width a ≤ n then fitting width as (n - width a) + 1 else 0

/-- A text to count in. -/
structure Rope where
  chars : List Char

namespace Rope

/-- The rope of a text. -/
def ofText (text : String) : Rope := ⟨text.toList⟩

/-- Number of lines. What stands behind the last terminator is one, and may be empty. -/
def lineCount (r : Rope) : Nat := (lines r.chars).length

/-- A line with its terminator. -/
def line (r : Rope) (k : Nat) : List Char := (lines r.chars).getD k []

/-- The character that a byte belongs to, none past the end of the text. -/
def byteToChar? (r : Rope) (n : Nat) : Option Nat :=
  if n ≤ byteLength r.chars then some (fitting Char.utf8Size r.chars n) else none

/-- Number of bytes before a character. -/
def charToByte (r : Rope) (i : Nat) : Nat := byteLength (r.chars.take i)

/-- The character that a UTF-16 unit belongs to. -/
def utf16ToChar (r : Rope) (u : Nat) : Nat := fitting utf16Width r.chars u

/-- Number of UTF-16 units before a character. -/
def charToUtf16 (r : Rope) (i : Nat) : Nat := utf16Length (r.chars.take i)

/-- The line of a character: the number of terminators that end before it. -/
def charToLine (r : Rope) (i : Nat) : Nat := fitting List.length (lines r.chars).dropLast i

/-- Number of characters before a line. -/
def lineToChar (r : Rope) (k : Nat) : Nat := ((lines r.chars).take k).flatten.length

end Rope

end CueScope.Text
