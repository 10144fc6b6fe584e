import CueScope.Text.Digits
import CueScope.Text.Split

/-!
# Addresses of sixteen bytes

An address is eight groups of two bytes. `ofText?` reads hexadecimal groups with colons between
them, where `::` stands, once, for one or more groups that are zero, and the last two groups may be
written as four decimal bytes. `text` writes `::` for the first of the longest runs of zeros, unless
that is a single one.
-/

namespace CueScope

/-- An address of sixteen bytes: eight groups. -/
structure Ipv6 where
  groups : List Nat
deriving DecidableEq, Repr

namespace Ipv6

/-- The value of a byte in decimal digits, without needless zeros. -/
def byte? (digits : List Char) : Option Nat :=
  let n := Text.valueIn 10 digits
  if digits ≠ [] ∧ digits.all Char.isDigit ∧ (digits.head? ≠ some '0' ∨ digits.length = 1) ∧
      n ≤ 255 then
    some n
  else none

/-- The groups that a part between colons stands for: one, or two if `isLast` and the part is made
of four bytes. -/
def groups? (isLast : Bool) (part : List Char) : Option (List Nat) :=
  if part ≠ [] ∧ part.length ≤ 4 ∧ part.all (Text.isDigitOf 16) then some [Text.valueIn 16 part]
  else if isLast then
    match (Text.pieces (· = '.') part).mapM byte? with
    | some [a, b, c, d] => some [256 * a + b, 256 * c + d]
    | _ => none
  else none

/-- The groups of parts; only the last one of an address can be made of bytes. -/
def allGroups? (endsHere : Bool) : List (List Char) → Option (List Nat)
  | [] => some []
  | part :: parts =>
    (groups? (endsHere && parts.isEmpty) part).bind fun first =>
      (allGroups? endsHere parts).map (first ++ ·)

/-- The groups of a text without `::`; the empty text has none. -/
def readGroups? (endsHere : Bool) (text : List Char) : Option (List Nat) :=
  if text = [] then some [] else allGroups? endsHere (Text.pieces (· = ':') text)

/-- Splits a text at the first `::`. -/
def splitGap : List Char → List Char × Option (List Char)
  | ':' :: ':' :: rest => ([], some rest)
  | c :: cs =>
    let (front, back) := splitGap cs
    (c :: front, back)
  | [] => ([], none)

/-- The address that a text spells. -/
def ofText? (text : List Char) : Option Ipv6 :=
  match splitGap text with
  | (front, some back) =>
    (readGroups? false front).bind fun before =>
      (readGroups? true back).bind fun after =>
        let known := before.length + after.length
        if known ≤ 7 then some ⟨before ++ List.replicate (8 - known) 0 ++ after⟩ else none
  | (all, none) =>
    (readGroups? true all).bind fun groups => if groups.length = 8 then some ⟨groups⟩ else none

/-- Number of zeros at the start. -/
def zeros (groups : List Nat) : Nat := (groups.takeWhile (· = 0)).length

/-- The place and length of the first of the longest runs of zeros. -/
def longestZeros : List Nat → Nat × Nat
  | [] => (0, 0)
  | g :: gs =>
    let (place, length) := longestZeros gs
    let here := zeros (g :: gs)
    if length ≤ here then (0, here) else (place + 1, length)

/-- Groups with colons between them. -/
def groupsText (groups : List Nat) : String := ":".intercalate (groups.map Text.hexText)

/-- The text of an address. -/
def text (a : Ipv6) : String :=
  let (place, length) := longestZeros a.groups
  if 2 ≤ length then
    groupsText (a.groups.take place) ++ "::" ++ groupsText (a.groups.drop (place + length))
  else groupsText a.groups

end Ipv6

end CueScope
