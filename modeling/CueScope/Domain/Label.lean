import CueScope.Domain.Mapping
import CueScope.Domain.Punycode
import CueScope.Unicode.Direction
import CueScope.Unicode.Joining
import CueScope.Unicode.Mark
import CueScope.Unicode.Normal

/-!
# Labels of domains

A label is what stands between the dots of a domain. A label with characters outside ASCII is
written with `xn--` in front of its Punycode. Such a label is sound when it does not start with a
mark, its invisible joiners stand where they have an effect (`joinersFit`), and, in a domain that is
partly written from right to left, when it has one direction (`hasDirection`).
-/

namespace CueScope.Domain

/-- A label: how it is written in ASCII, and the characters it stands for. -/
structure Label where
  ascii : List Char
  chars : List Char
deriving DecidableEq, Repr

namespace Label

/-! ## Joiners -/

/-- The invisible character that keeps letters apart. -/
def nonJoiner : Char := '\u200C'

/-- The invisible character that joins letters. -/
def joiner : Char := '\u200D'

/-- The first letter that is not transparent joins in one of the given ways. -/
def joins (ways : List Unicode.Joining) (text : List Char) : Bool :=
  ((text.map Unicode.joining).find? (· ≠ .transparent)).any (· ∈ ways)

/-- A joiner or non-joiner after the characters `before`, the nearest first, and before `after`.
Both fit after a virama; a non-joiner fits also between letters that would join. -/
def joinerFits (before : List Char) (c : Char) (after : List Char) : Bool :=
  before.head?.any Unicode.isVirama ||
    (c = nonJoiner && joins [.left, .both] before && joins [.right, .both] after)

/-- All joiners fit, after the characters `before`. -/
def joinersFit (before : List Char) : List Char → Bool
  | [] => true
  | c :: after =>
    (if c = joiner ∨ c = nonJoiner then joinerFits before c after else true) &&
      joinersFit (c :: before) after

/-! ## Direction -/

/-- A character that makes a domain one that is partly written from right to left. -/
def isRightToLeft (c : Char) : Bool :=
  Unicode.direction c ∈ [.rightToLeft, .arabicLetter, .arabicNumber]

/-- Characters that fit into a label of either direction. -/
def neutral : List Unicode.Direction :=
  [.europeanNumber, .europeanSeparator, .europeanTerminator, .commonSeparator, .otherNeutral,
    .boundaryNeutral, .nonspacingMark]

/-- A label has one direction: that of its first character, which is a letter. Its last one is a
letter or number of that direction, and from right to left only one kind of numbers occurs. -/
def hasDirection (label : List Char) : Bool :=
  match label.map Unicode.direction with
  | [] => true
  | first :: rest =>
    let last := (rest.reverse.find? (· ≠ .nonspacingMark)).getD first
    match first with
    | .leftToRight =>
      rest.all (· ∈ .leftToRight :: neutral) && last ∈ [.leftToRight, .europeanNumber]
    | .rightToLeft | .arabicLetter =>
      rest.all (· ∈ [.rightToLeft, .arabicLetter, .arabicNumber] ++ neutral) &&
        last ∈ [.rightToLeft, .arabicLetter, .arabicNumber, .europeanNumber] &&
        !(.arabicNumber ∈ rest && .europeanNumber ∈ rest)
    | _ => false

/-! ## Reading -/

/-- The longest label that is encoded, and the longest Punycode that is decoded. -/
def maxLength : Nat := 1000

/-- The characters of a label, which is not all ASCII, can follow each other. -/
def isSound (chars : List Char) : Bool :=
  !chars.head?.any Unicode.isMark && joinersFit [] chars && chars.length ≤ maxLength

/-- What labels in Punycode start with. -/
def marker : List Char := ['x', 'n', '-', '-']

/-- The characters that a label in Punycode stands for. They are characters that a domain keeps,
in composed form. -/
def decoded? (code : List Char) : Option (List Char) :=
  if code.all Punycode.isBasic ∧ code ≠ [] ∧ code.getLast? ≠ some '-' ∧
      code.length ≤ 2 * maxLength then
    (Punycode.decode? code).bind fun chars =>
      if chars.all isKept ∧ Unicode.compose chars = chars then some chars else none
  else none

/-- The label that mapped characters, in composed form, stand for. -/
def ofChars? (chars : List Char) : Option Label :=
  if marker.isPrefixOf chars then
    (decoded? (chars.drop marker.length)).bind fun plain =>
      if isSound plain then some ⟨chars, plain⟩ else none
  else if chars.all Punycode.isBasic then some ⟨chars, chars⟩
  else if isSound chars then some ⟨marker ++ Punycode.encode chars, chars⟩
  else none

end Label

end CueScope.Domain
