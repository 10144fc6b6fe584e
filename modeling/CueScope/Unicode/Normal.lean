import CueScope.Unicode.Combining
import CueScope.Unicode.Composite

/-!
# Composed form

`compose` brings a text into the form in which everything is composed that can be (normalization
form C): composites are taken apart, the marks after each character are put in order of their
classes, and then characters are composed again. Characters that are no composites but have
another character in their place are not replaced here.
-/

namespace CueScope.Unicode

/-- How often the first part of a composite may be a composite again. -/
def compositeDepth : Nat := 4

/-- A character taken apart completely; only the first of two parts can be a composite. -/
def decomposeChar : Nat → Char → List Char
  | 0, c => [c]
  | depth + 1, c =>
    match parts? c with
    | some (a, b) => decomposeChar depth a ++ [b]
    | none => [c]

/-- A text taken apart. -/
def decompose (text : List Char) : List Char := text.flatMap (decomposeChar compositeDepth)

/-- Puts a character in front of ordered ones, behind the marks of lower classes. -/
def placeMark (c : Char) : List Char → List Char
  | [] => [c]
  | d :: ds =>
    if combiningClass d ≠ 0 ∧ combiningClass d < combiningClass c then d :: placeMark c ds
    else c :: d :: ds

/-- A text with the marks in order. Marks of one class keep their order. -/
def orderMarks (text : List Char) : List Char := text.foldr placeMark []

/-- Composes ordered characters. `base` is the last character that keeps its place and `marks` are
those after it that were not composed with it; a mark is composed with the base unless a mark
before it is of its class or a higher one. -/
def composeFrom (base : Option Char) (marks : List Char) : List Char → List Char
  | [] => base.toList ++ marks
  | c :: cs =>
    let free := marks.getLast?.all (combiningClass · < combiningClass c)
    match base.bind fun b => if free then compose? b c else none with
    | some whole => composeFrom (some whole) marks cs
    | none =>
      if combiningClass c = 0 then base.toList ++ marks ++ composeFrom (some c) [] cs
      else composeFrom base (marks ++ [c]) cs

/-- The composed form of a text. -/
def compose (text : List Char) : List Char := composeFrom none [] (orderMarks (decompose text))

end CueScope.Unicode
