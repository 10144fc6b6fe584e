import CueScope.Domain.Label
import CueScope.Text.Bytes

/-!
# Domains

`toAscii?` brings a domain into the form in which it is looked up: in small letters, and with
labels of other characters than those of ASCII in Punycode. Two spellings of one domain have one
such form.
-/

namespace CueScope.Domain

/-- The characters of ASCII that no domain contains. -/
def forbidden : List Char :=
  [' ', '#', '%', '/', ':', '<', '>', '?', '@', '[', '\\', ']', '^', '|', '\x7f']

/-- A character that no domain contains. -/
def isForbidden (c : Char) : Bool := c.toNat < 0x20 || c ∈ forbidden

/-- The labels that the characters of a domain, in composed form, stand for. If one of them has
characters written from right to left, all labels need a direction. -/
def labels? (chars : List Char) : Option (List Label) :=
  ((Text.pieces (· = '.') chars).mapM Label.ofChars?).bind fun labels =>
    if labels.any (·.chars.any Label.isRightToLeft) ∧ !labels.all (Label.hasDirection ·.chars) then
      none
    else some labels

/-- The form of a domain in ASCII; none if there is no such domain. -/
def toAscii? (domain : String) : Option String :=
  (mapText? domain.toList).bind fun mapped =>
    let chars := Unicode.compose mapped
    if chars.any isForbidden then none
    else (labels? chars).map fun labels => ".".intercalate (labels.map (String.ofList ·.ascii))

end CueScope.Domain
