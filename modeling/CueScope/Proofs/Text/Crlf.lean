import CueScope.Text.Utf8
import Mathlib.Data.List.Basic

/-!
# Line breaks of two characters

* `Text.crlf`: the text with `\r\n` for each `\n`.
* `Text.crlfOffset`: where a byte of the text is found then.
* `crlfOffset_byteLength`: a place between two characters becomes the place between what became of them.
* `crlfOffset_add`: within a line nothing is moved against the rest.
-/

namespace CueScope.Text

/-- The text with `\r\n` for each `\n`. -/
def crlf (cs : List Char) : List Char := cs.flatMap fun c => if c = '\n' then ['\r', '\n'] else [c]

/-- Where the byte `o` of a text is found in the text with `\r\n` for each `\n`. -/
def crlfOffset : List Char → Nat → Nat
  | [], o => o
  | c :: cs, o =>
    if o < c.utf8Size then o
    else byteLength (crlf [c]) + crlfOffset cs (o - c.utf8Size)

variable {c : Char} {cs as bs : List Char}

theorem crlf_append (as bs : List Char) : crlf (as ++ bs) = crlf as ++ crlf bs := List.flatMap_append

theorem crlf_cons (c : Char) (cs : List Char) : crlf (c :: cs) = crlf [c] ++ crlf cs :=
  crlf_append [c] cs

theorem crlf_singleton (h : c ≠ '\n') : crlf [c] = [c] := by simp [crlf, h]

/-- A text of one line stays as it is. -/
theorem crlf_of_not_mem (h : '\n' ∉ cs) : crlf cs = cs := by
  induction cs with
  | nil => rfl
  | cons c cs ih =>
    rw [List.mem_cons, not_or] at h
    rw [crlf_cons, crlf_singleton (Ne.symm h.1), ih h.2]
    rfl

theorem length_le_length_crlf (cs : List Char) : cs.length ≤ (crlf cs).length := by
  induction cs with
  | nil => exact Nat.le_refl _
  | cons c cs ih =>
    have hc : 1 ≤ (crlf [c]).length := by
      by_cases h : c = '\n'
      · simp [h, crlf]
      · simp [crlf_singleton h]
    rw [crlf_cons c cs, List.length_append, List.length_cons]
    omega

theorem crlfOffset_zero (cs : List Char) : crlfOffset cs 0 = 0 := by
  cases cs with
  | nil => rfl
  | cons c cs => exact if_pos c.utf8Size_pos

/-- Behind the first character. -/
theorem crlfOffset_cons_add (c : Char) (cs : List Char) (i : Nat) :
    crlfOffset (c :: cs) (c.utf8Size + i) = byteLength (crlf [c]) + crlfOffset cs i := by
  rw [crlfOffset, if_neg (by omega), Nat.add_sub_cancel_left]

/-- Behind the first characters. -/
theorem crlfOffset_append_add (as bs : List Char) (i : Nat) :
    crlfOffset (as ++ bs) (byteLength as + i) = byteLength (crlf as) + crlfOffset bs i := by
  induction as with
  | nil => simp [crlf]
  | cons c as ih =>
    rw [List.cons_append, byteLength_cons, Nat.add_assoc, crlfOffset_cons_add, ih, crlf_cons c as,
      byteLength_append, Nat.add_assoc]

/-- A place between two characters. -/
theorem crlfOffset_byteLength (as bs : List Char) :
    crlfOffset (as ++ bs) (byteLength as) = byteLength (crlf as) := by
  have h := crlfOffset_append_add as bs 0
  rwa [Nat.add_zero, crlfOffset_zero, Nat.add_zero] at h

theorem le_byteLength_crlf (c : Char) : c.utf8Size ≤ byteLength (crlf [c]) := by
  by_cases hc : c = '\n'
  · subst hc
    decide
  · rw [crlf_singleton hc]
    simp

/-- Bytes keep their order when line breaks get longer. -/
theorem crlfOffset_lt {a b : Nat} (h : a < b) : crlfOffset cs a < crlfOffset cs b := by
  induction cs generalizing a b with
  | nil => exact h
  | cons c cs ih =>
    have hc := le_byteLength_crlf c
    unfold crlfOffset
    by_cases hb : b < c.utf8Size
    · rw [if_pos hb, if_pos (Nat.lt_trans h hb)]
      exact h
    · rw [if_neg hb]
      by_cases ha : a < c.utf8Size
      · rw [if_pos ha]
        omega
      · rw [if_neg ha]
        exact Nat.add_lt_add_left (ih (by omega)) _

theorem crlfOffset_le {a b : Nat} (h : a ≤ b) : crlfOffset cs a ≤ crlfOffset cs b :=
  (Nat.eq_or_lt_of_le h).elim (fun h => h ▸ Nat.le_refl _) fun h => Nat.le_of_lt (crlfOffset_lt h)

theorem crlfOffset_inj {a b : Nat} (h : crlfOffset cs a = crlfOffset cs b) : a = b := by
  rcases Nat.lt_trichotomy a b with hab | hab | hab
  · exact absurd h (Nat.ne_of_lt (crlfOffset_lt hab))
  · exact hab
  · exact absurd h.symm (Nat.ne_of_lt (crlfOffset_lt hab))

/-- The bytes of a line stay together, up to the place where it ends. -/
theorem crlfOffset_line {i : Nat} (h : '\n' ∉ cs) (hi : i ≤ byteLength cs) :
    crlfOffset (cs ++ bs) i = i := by
  induction cs generalizing i with
  | nil =>
    obtain rfl : i = 0 := Nat.le_zero.1 hi
    exact crlfOffset_zero _
  | cons c cs ih =>
    rw [List.mem_cons, not_or] at h
    rw [List.cons_append, crlfOffset, crlf_singleton (Ne.symm h.1)]
    rw [byteLength_cons] at hi
    split
    · rfl
    · rw [ih h.2 (by omega), byteLength_cons, byteLength_nil]
      omega

theorem crlfOffset_add {i : Nat} (h : '\n' ∉ cs) (hi : i ≤ byteLength cs) :
    crlfOffset (as ++ cs ++ bs) (byteLength as + i) =
      crlfOffset (as ++ cs ++ bs) (byteLength as) + i := by
  rw [List.append_assoc, crlfOffset_append_add, crlfOffset_byteLength, crlfOffset_line h hi]

/-- `é` takes two bytes, and the line break one more than before. -/
example : (List.range 6).map (crlfOffset ['a', 'é', '\n', 'b']) = [0, 1, 2, 3, 5, 6] := by decide

end CueScope.Text
