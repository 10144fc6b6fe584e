/-!
# Splitting

`pieces` cuts a list at separators. The separators are dropped and nothing else is. `splitLast` cuts
at the last separator only.
-/

namespace CueScope.Text

variable {α : Type}

/-- The pieces between the separators of a list. -/
def pieces (isSeparator : α → Bool) : List α → List (List α)
  | [] => [[]]
  | a :: as =>
    if isSeparator a then [] :: pieces isSeparator as
    else
      match pieces isSeparator as with
      | p :: ps => (a :: p) :: ps
      | [] => [[a]]

theorem pieces_ne_nil (isSeparator : α → Bool) (as : List α) : pieces isSeparator as ≠ [] := by
  cases as with
  | nil => simp [pieces]
  | cons a as =>
    rw [pieces]
    split
    · simp
    · split <;> simp

/-- What stands before the last separator, if there is one, and what stands after it. -/
def splitLast (isSeparator : α → Bool) (as : List α) : Option (List α) × List α :=
  let (back, front) := as.reverse.span (!isSeparator ·)
  match front with
  | [] => (none, as)
  | _ :: rest => (some rest.reverse, back.reverse)

end CueScope.Text
