import CueScope.Proofs.Text.Conversion
import Mathlib.Order.Bounds.Defs

/-!
# Offsets to positions and back

An offset is rounded down to a place between two characters, and its position leads back there.

* `Text.Floor`: the last place between two characters that is not behind an offset.
* `exists_floor`: every offset has one, and it is an entry of the table of boundaries.
* `line_add_column_le`: lines and columns are no larger than the offset, so they fit wherever it does.
* `ofOffset?_roundTrip`: what becomes of every offset of a text, and in which order.
-/

namespace CueScope

/-- `n` is the last place between two characters of the text, both ends included, that is not behind
the offset `o`. -/
def Text.Floor (text : String) (o n : Nat) : Prop :=
  IsGreatest {m | String.Pos.Raw.IsValid text ⟨m⟩ ∧ m ≤ o} n

theorem Text.Floor.mono {text : String} {o₁ o₂ n₁ n₂ : Nat} (h₁ : Text.Floor text o₁ n₁)
    (h₂ : Text.Floor text o₂ n₂) (hle : o₁ ≤ o₂) : n₁ ≤ n₂ :=
  h₂.2 ⟨h₁.1.1, Nat.le_trans h₁.1.2 hle⟩

/-- No character has more units than bytes. -/
theorem Text.utf16Width_le (c : Char) : Text.utf16Width c ≤ c.utf8Size := by
  unfold Text.utf16Width
  split
  · exact c.utf8Size_pos
  · rename_i hwide
    have hval : c.toNat = c.val.toNat := rfl
    unfold Char.utf8Size
    simp only [UInt32.le_iff_toNat_le]
    rw [hval] at hwide
    split_ifs with h₁ h₂ h₃
    · exact absurd (Nat.lt_of_le_of_lt h₁ (by decide)) hwide
    · decide
    · decide
    · decide

namespace Position

variable {text : String} {o n : Nat} {p q : Position}

/-! ## The entry that an offset is rounded to -/

/-- Two entries of the table are one, or one of them precedes the other. -/
theorem precedes_total {a b : Nat × Position} (ha : a ∈ boundaries text)
    (hb : b ∈ boundaries text) : a = b ∨ Precedes a b ∨ Precedes b a := by
  obtain ⟨front, back, hsplit⟩ := List.append_of_mem ha
  have hord := boundaries_pairwise text
  rw [hsplit] at hord hb
  obtain ⟨-, hback, hfront⟩ := List.pairwise_append.mp hord
  rcases List.mem_append.mp hb with hb | hb
  · exact .inr (.inr (hfront b hb a List.mem_cons_self))
  · rcases List.mem_cons.mp hb with rfl | hb
    · exact .inl rfl
    · exact .inr (.inl ((List.pairwise_cons.mp hback).1 b hb))

/-- An offset is rounded to an entry of the table. -/
theorem exists_floor (text : String) (o : Nat) :
    ∃ n q, (n, q) ∈ boundaries text ∧ Text.Floor text o n := by
  obtain ⟨n, q, -, hentry, hle, hlast⟩ := exists_last_upto text o
  refine ⟨n, q, hentry, ⟨isValid_iff_mem_boundaries.mpr ⟨q, hentry⟩, hle⟩, ?_⟩
  rintro m ⟨hvalid, hm⟩
  obtain ⟨r, hr⟩ := isValid_iff_mem_boundaries.mp hvalid
  exact hlast m r hr hm

theorem ofOffset?_of_floor (h : (n, q) ∈ boundaries text) (hfloor : Text.Floor text o n)
    (ho : o ≤ text.utf8ByteSize) : ofOffset? text o = some q :=
  ofOffset?_of_last h hfloor.1.2 ho fun _ r hr hm =>
    hfloor.2 ⟨isValid_iff_mem_boundaries.mpr ⟨r, hr⟩, hm⟩

/-! ## Size and order of positions -/

/-- Each line and each column takes at least a byte. -/
theorem line_add_column_le_of_mem {o : Nat} {p : Position} {cs : List Char}
    (hp : p.line + p.column ≤ o) (h : (n, q) ∈ boundariesFrom o p cs) :
    q.line + q.column ≤ n := by
  induction cs generalizing o p with
  | nil =>
    rw [boundariesFrom, List.mem_singleton, Prod.mk.injEq] at h
    obtain ⟨rfl, rfl⟩ := h
    exact hp
  | cons c cs ih =>
    rw [boundariesFrom, List.mem_cons, Prod.mk.injEq] at h
    rcases h with ⟨rfl, rfl⟩ | h
    · exact hp
    · refine ih ?_ h
      have hwidth := Text.utf16Width_le c
      have hpos := c.utf8Size_pos
      unfold after
      split <;> dsimp only <;> omega

/-- Lines and columns are counted in no more steps than bytes. -/
theorem line_add_column_le (h : (n, q) ∈ boundaries text) : q.line + q.column ≤ n :=
  line_add_column_le_of_mem (Nat.le_refl 0) h

/-- Every offset of a text has a position, which leads to the last place between two characters that
is not behind the offset, and no other offset has one. Later offsets have later positions, unless
they are rounded to one place. -/
theorem ofOffset?_roundTrip (text : String) :
    (∀ o, o ≤ text.utf8ByteSize → ∃ p n, ofOffset? text o = some p ∧
      p.line + p.column ≤ o ∧ toOffset? text p = some n ∧ Text.Floor text o n) ∧
    (∀ o, String.Pos.Raw.IsValid text ⟨o⟩ →
      (ofOffset? text o).bind (toOffset? text) = some o) ∧
    (∀ o, text.utf8ByteSize < o → ofOffset? text o = none) ∧
    ∀ o₁ o₂, o₁ ≤ o₂ → o₂ ≤ text.utf8ByteSize → ∃ p₁ p₂ n₁ n₂,
      ofOffset? text o₁ = some p₁ ∧ Text.Floor text o₁ n₁ ∧
      ofOffset? text o₂ = some p₂ ∧ Text.Floor text o₂ n₂ ∧
      (n₁ = n₂ ∧ p₁ = p₂ ∨ n₁ < n₂ ∧ p₁.Before p₂) := by
  refine ⟨fun o ho => ?_, fun o ho => ?_, fun o ho => ?_, fun o₁ o₂ hle ho => ?_⟩
  · obtain ⟨n, q, hq, hfloor⟩ := exists_floor text o
    exact ⟨q, n, ofOffset?_of_floor hq hfloor ho,
      Nat.le_trans (line_add_column_le hq) hfloor.1.2, toOffset?_of_mem hq, hfloor⟩
  · obtain ⟨q, hq⟩ := isValid_iff_mem_boundaries.mp ho
    rw [ofOffset?_of_mem hq, Option.bind_some, toOffset?_of_mem hq]
  · exact ofOffset?_of_lt ho
  · obtain ⟨n₁, q₁, hq₁, hfloor₁⟩ := exists_floor text o₁
    obtain ⟨n₂, q₂, hq₂, hfloor₂⟩ := exists_floor text o₂
    refine ⟨q₁, q₂, n₁, n₂, ofOffset?_of_floor hq₁ hfloor₁ (Nat.le_trans hle ho), hfloor₁,
      ofOffset?_of_floor hq₂ hfloor₂ ho, hfloor₂, ?_⟩
    have hn := hfloor₁.mono hfloor₂ hle
    rcases precedes_total hq₁ hq₂ with heq | hlt | hgt
    · exact .inl (Prod.mk.injEq .. ▸ heq)
    · exact .inr hlt
    · exact absurd hgt.1 (Nat.not_lt.mpr hn)

/-- Behind a line break of two characters, which can be cut apart, stands a character of four bytes:
an offset inside it is rounded down, and one past it has no position. -/
theorem ofOffset?_roundTrip_crlf :
    (∃ p n, ofOffset? "a\r\n😀" 5 = some p ∧ p.line + p.column ≤ 5 ∧
      toOffset? "a\r\n😀" p = some n ∧ Text.Floor "a\r\n😀" 5 n) ∧
    (ofOffset? "a\r\n😀" 2).bind (toOffset? "a\r\n😀") = some 2 ∧
    ofOffset? "a\r\n😀" 8 = none ∧
    ∃ p₁ p₂ n₁ n₂, ofOffset? "a\r\n😀" 2 = some p₁ ∧ Text.Floor "a\r\n😀" 2 n₁ ∧
      ofOffset? "a\r\n😀" 5 = some p₂ ∧ Text.Floor "a\r\n😀" 5 n₂ ∧
      (n₁ = n₂ ∧ p₁ = p₂ ∨ n₁ < n₂ ∧ p₁.Before p₂) := by
  obtain ⟨hback, hvalid, hpast, horder⟩ := ofOffset?_roundTrip "a\r\n😀"
  exact ⟨hback 5 (by decide), hvalid 2 (by decide), hpast 8 (by decide),
    horder 2 5 (by decide) (by decide)⟩

end Position

end CueScope
