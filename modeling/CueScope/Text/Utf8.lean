/-!
# Byte offsets in texts

Offsets count the bytes of the UTF-8 form of a text. A cut is possible only between two
characters: `splitAtByte` refuses an offset inside a character and one past the end.
-/

namespace CueScope.Text

/-- Number of bytes of the UTF-8 form. -/
def byteLength : List Char → Nat
  | [] => 0
  | c :: cs => c.utf8Size + byteLength cs

@[simp] theorem byteLength_nil : byteLength [] = 0 := rfl

@[simp] theorem byteLength_cons (c : Char) (cs : List Char) :
    byteLength (c :: cs) = c.utf8Size + byteLength cs := rfl

theorem byteLength_append (as bs : List Char) :
    byteLength (as ++ bs) = byteLength as + byteLength bs := by
  induction as with
  | nil => simp
  | cons c cs ih => simp [ih, Nat.add_assoc]

/-- The characters before byte `n` and those from it on. -/
def splitAtByte : List Char → Nat → Option (List Char × List Char)
  | cs, 0 => some ([], cs)
  | [], _ + 1 => none
  | c :: cs, n + 1 =>
    if c.utf8Size ≤ n + 1 then
      (splitAtByte cs (n + 1 - c.utf8Size)).map fun (as, bs) => (c :: as, bs)
    else none

/-- A cut loses nothing and falls at the byte asked for. -/
theorem splitAtByte_eq_some {cs as bs : List Char} {n : Nat}
    (h : splitAtByte cs n = some (as, bs)) : cs = as ++ bs ∧ byteLength as = n := by
  induction cs generalizing n as bs with
  | nil =>
    cases n with
    | zero => simp only [splitAtByte, Option.some.injEq, Prod.mk.injEq] at h; simp [← h.1, ← h.2]
    | succ n => simp [splitAtByte] at h
  | cons c cs ih =>
    cases n with
    | zero => simp only [splitAtByte, Option.some.injEq, Prod.mk.injEq] at h; simp [← h.1, ← h.2]
    | succ n =>
      rw [splitAtByte] at h
      split at h
      · next hc =>
        obtain ⟨⟨as', bs'⟩, hs, he⟩ := Option.map_eq_some_iff.1 h
        obtain ⟨rfl, rfl⟩ := Prod.mk.injEq .. ▸ he
        obtain ⟨rfl, hl⟩ := ih hs
        exact ⟨rfl, by simp only [byteLength_cons, hl]; omega⟩
      · simp at h

/-- Cutting after a whole number of characters gives those characters back. -/
theorem splitAtByte_append (as bs : List Char) :
    splitAtByte (as ++ bs) (byteLength as) = some (as, bs) := by
  induction as with
  | nil => cases bs <;> rfl
  | cons c cs ih =>
    have hc := c.utf8Size_pos
    obtain ⟨n, hn⟩ : ∃ n, byteLength (c :: cs) = n + 1 :=
      ⟨c.utf8Size + byteLength cs - 1, by simp only [byteLength_cons]; omega⟩
    have hsub : n + 1 - c.utf8Size = byteLength cs := by
      simp only [byteLength_cons] at hn; omega
    have hle : c.utf8Size ≤ n + 1 := by simp only [byteLength_cons] at hn; omega
    rw [hn, List.cons_append, splitAtByte, if_pos hle, hsub, ih]
    rfl

/-- The text between two byte offsets; none if they are out of order, past the end or inside a
character. -/
def slice? (text : String) (start stop : Nat) : Option String :=
  if start ≤ stop then
    (splitAtByte text.toList start).bind fun (_, rest) =>
      (splitAtByte rest (stop - start)).map fun (cut, _) => String.ofList cut
  else none

end CueScope.Text
