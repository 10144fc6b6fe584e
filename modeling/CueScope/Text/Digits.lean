/-!
# Digits

Numbers written in a base of at most sixteen. Letters count as digits from ten on, in either case.
-/

namespace CueScope.Text

/-- The value of a digit. -/
def digit? (c : Char) : Option Nat :=
  if c.isDigit then some (c.toNat - 48)
  else if 'a' ≤ c ∧ c ≤ 'f' then some (c.toNat - 87)
  else if 'A' ≤ c ∧ c ≤ 'F' then some (c.toNat - 55)
  else none

/-- A digit of a base. -/
def isDigitOf (base : Nat) (c : Char) : Bool := (digit? c).any (· < base)

/-- The value of digits in a base. -/
def valueIn (base : Nat) (digits : List Char) : Nat :=
  digits.foldl (fun n c => base * n + (digit? c).getD 0) 0

/-- A number in hexadecimal digits, the letters small. -/
def hexText (n : Nat) : String := String.ofList (Nat.toDigits 16 n)

end CueScope.Text
