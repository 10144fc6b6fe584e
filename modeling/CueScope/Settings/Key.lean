import CueScope.Text.Digits
import CueScope.Text.Split

/-!
# Keys of settings

A key leads to a value: to that of a setting, or to one inside of it. `hover` is a setting,
`list[2]` an item of a list and `table.name` an entry of a table. Capital letters count as small
ones. A key that is not written like this is the name of a setting as a whole.
-/

namespace CueScope

/-- A step into a value. -/
inductive KeyStep where
  | entry (name : String)
  /-- An item of a list; a negative place counts from the end. -/
  | item (place : Int)
deriving DecidableEq, Repr

/-- Where a value is: the setting, and the steps into its value. -/
structure SettingKey where
  name : String
  steps : List KeyStep := []
deriving DecidableEq, Repr

namespace SettingKey

/-- A character of a name. -/
def isNameChar (c : Char) : Bool := c.isAlphanum || c = ' ' || c = '_' || c = '-'

/-- Reads the place of an item up to the closing bracket, with blanks around it. -/
def place? (text : List Char) : Option Int :=
  if text.getLast? = some ']' then
    let isBlank (c : Char) : Bool := c = ' ' || c = '\t'
    let inner := ((text.dropLast.dropWhile isBlank).reverse.dropWhile isBlank).reverse
    let (sign, digits) : Int × List Char :=
      match inner with
      | '-' :: digits => (-1, digits)
      | digits => (1, digits)
    let n := Text.valueIn 10 digits
    if digits ≠ [] ∧ digits.all Char.isDigit ∧ n ≤ 9223372036854775807 then some (sign * n)
    else none
  else none

/-- Reads a name and the places of items after it. -/
def part? (text : List Char) : Option (String × List KeyStep) :=
  match Text.pieces (· = '[') text with
  | name :: places =>
    if name ≠ [] ∧ name.all isNameChar then
      (places.mapM place?).map fun places => (String.ofList name, places.map .item)
    else none
  | [] => none

/-- The key that a text spells. -/
def ofText (text : String) : SettingKey :=
  let chars := text.toList.map Char.toLower
  match (Text.pieces (· = '.') chars).mapM part? with
  | some ((name, steps) :: parts) =>
    ⟨name, steps ++ parts.flatMap fun (name, steps) => .entry name :: steps⟩
  | _ => ⟨String.ofList chars, []⟩

end SettingKey

end CueScope
