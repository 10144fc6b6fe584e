import CueScope.Text.Span

/-!
# Syntax errors

* `Expectation`: what a rule was ready to read.
* `Failure`: what was found and what was expected at the furthest place reading came to.
* `Fault`: an error worth reporting, over items of any kind (characters or tokens).
* `SyntaxError`: a fault put into words.
-/

namespace CueScope

/-- A syntax error in words, with the range it covers. -/
structure SyntaxError where
  span : Span
  message : String
deriving DecidableEq, Repr

namespace Grammar

variable {τ : Type}

/-- What a rule was ready to read. -/
inductive Expectation (τ : Type) where
  | item (t : τ)
  | any
  | somethingElse
  | endOfInput
deriving DecidableEq, Repr

/-- Why reading could not go on. `left` counts the items not yet read there, so of two failures
the one with fewer items left is the further one. -/
structure Failure (τ : Type) where
  left : Nat
  span : Span
  found : Option τ
  expected : List (Expectation τ)
deriving DecidableEq, Repr

/-- Complaints about text that was read all the same. -/
inductive Complaint where
  /-- A quote without its partner on the line. -/
  | unterminatedString
  /-- A struct that runs into the end of what encloses it. -/
  | unclosedStruct
deriving DecidableEq, Repr

/-- An error to report. -/
inductive Fault (τ : Type) where
  | unexpected (span : Span) (found : Option τ) (expected : List (Expectation τ))
  | complaint (span : Span) (reason : Complaint)
deriving DecidableEq, Repr

/-- The items of `new` that `old` lacks are put after it, in order. -/
def addExpected [DecidableEq τ] (old new : List (Expectation τ)) : List (Expectation τ) :=
  new.foldl (fun acc e => if e ∈ acc then acc else acc ++ [e]) old

/-- The failure to remember of an older and a newer one: the further of the two; at the same
place the older one, with the newer one's expectations added. -/
def Failure.further [DecidableEq τ] (old new : Failure τ) : Failure τ :=
  if new.left < old.left then new
  else if old.left < new.left then old
  else { old with
    found := old.found.or new.found
    expected := addExpected old.expected new.expected }

/-- A failure as an error to report. -/
def Failure.toFault (f : Failure τ) : Fault τ := .unexpected f.span f.found f.expected

/-- The words of a complaint. -/
def Complaint.message : Complaint → String
  | .unterminatedString => "string literal not terminated"
  | .unclosedStruct => "expected '\x7d' to close the struct"

/-- The words of an expectation; `name` names an item. -/
def Expectation.words (name : τ → String) : Expectation τ → String
  | .item t => "'" ++ name t ++ "'"
  | .any => "any"
  | .somethingElse => "something else"
  | .endOfInput => "end of input"

/-- An enumeration: every item but the last is followed by a comma, the last is led in by "or". -/
def enumeration : List String → String
  | [] => "something else"
  | [w] => w
  | w :: ws => String.join ((w :: ws).dropLast.map (· ++ ", ")) ++ "or " ++ ws.getLastD ""

/-- The error in words; `name` names an item. -/
def Fault.toError (name : τ → String) : Fault τ → SyntaxError
  | .unexpected span found expected =>
    let f := found.elim "end of input" fun t => "'" ++ name t ++ "'"
    ⟨span, "found " ++ f ++ " expected " ++ enumeration (expected.map (·.words name))⟩
  | .complaint span reason => ⟨span, reason.message⟩

end Grammar

end CueScope
