import CueScope.Proofs.Path

/-!
# Texts as bytes

* `readBytes_utf8EncodeChar`: the bytes of a character are read as this character, whatever follows.
  So reading the UTF-8 form of a text gives the text back (`ofBytes_toBytes`).
* `pieces_toBytes`: no byte of another character is a slash. So the UTF-8 form of a text is cut at
  slashes where the text is.
-/

namespace CueScope.Text

variable {c : Char} {n m : Nat} {p : Pending}

@[simp] theorem toBytes_append (s t : String) : toBytes (s ++ t) = toBytes s ++ toBytes t := by
  simp [toBytes]

/-! ## Reading bytes back -/

/-- What the first byte of a character says, by the number that it stands for. -/
theorem start?_ofNat (h : n < 256) : Pending.start? (UInt8.ofNat n) =
    if 0xC2 ≤ n ∧ n ≤ 0xDF then some { value := n - 0xC0, missing := 1 }
    else if n = 0xE0 then some { value := 0, missing := 2, low := 0xA0 }
    else if n = 0xED then some { value := 0xD, missing := 2, high := 0x9F }
    else if 0xE1 ≤ n ∧ n ≤ 0xEF then some { value := n - 0xE0, missing := 2 }
    else if n = 0xF0 then some { value := 0, missing := 3, low := 0x90 }
    else if 0xF1 ≤ n ∧ n ≤ 0xF3 then some { value := n - 0xF0, missing := 3 }
    else if n = 0xF4 then some { value := 4, missing := 3, high := 0x8F }
    else none := by
  have hn : (UInt8.ofNat n).toNat = n := by simp [Nat.mod_eq_of_lt h]
  simp only [Pending.start?, UInt8.le_iff_toNat_le, ← UInt8.toNat_inj, hn]
  rfl

theorem readBytes_ascii (h : n < 0x80) (bs : List UInt8) :
    readBytes none (UInt8.ofNat n :: bs) = Char.ofNat n :: readBytes none bs := by
  have hn : (UInt8.ofNat n).toNat = n := by simp [Nat.mod_eq_of_lt (show n < 256 by omega)]
  have hlt : UInt8.ofNat n < 0x80 := by
    rw [UInt8.lt_iff_toNat_lt, hn]
    exact h
  simp [readBytes, readFirst, hlt, hn]

/-- After the first byte of a character the rest of it is read. -/
theorem readBytes_start (hn : 0x80 ≤ n) (hn' : n < 256)
    (h : Pending.start? (UInt8.ofNat n) = some p) (bs : List UInt8) :
    readBytes none (UInt8.ofNat n :: bs) = readBytes (some p) bs := by
  have hlarge : ¬ UInt8.ofNat n < 0x80 := by
    rw [UInt8.lt_iff_toNat_lt]
    simpa [Nat.mod_eq_of_lt hn'] using hn
  simp [readBytes, readFirst, hlarge, h]

/-- Each further byte gives six bits. -/
theorem readBytes_next (hm : m < 64) (hlow : p.low.toNat ≤ m + 0x80)
    (hhigh : m + 0x80 ≤ p.high.toNat) (bs : List UInt8) :
    readBytes (some p) (UInt8.ofNat (m + 0x80) :: bs) =
      if p.missing ≤ 1 then Char.ofNat (64 * p.value + m) :: readBytes none bs
      else readBytes (some { value := 64 * p.value + m, missing := p.missing - 1 }) bs := by
  have hn : (UInt8.ofNat (m + 0x80)).toNat = m + 0x80 := by
    simp [Nat.mod_eq_of_lt (show m + 0x80 < 256 by omega)]
  have hbounds : p.low ≤ UInt8.ofNat (m + 0x80) ∧ UInt8.ofNat (m + 0x80) ≤ p.high := by
    rw [UInt8.le_iff_toNat_le, UInt8.le_iff_toNat_le, hn]
    exact ⟨hlow, hhigh⟩
  generalize UInt8.ofNat (m + 0x80) = b at hn hbounds
  by_cases hlast : p.missing ≤ 1 <;> simp [readBytes, readNext, hbounds, hn, hlast]

theorem readBytes_more {low high : UInt8} (hm : m < 64) (hlow : low.toNat ≤ m + 0x80)
    (hhigh : m + 0x80 ≤ high.toNat) (value k : Nat) (bs : List UInt8) :
    readBytes (some { value, missing := k + 2, low, high }) (UInt8.ofNat (m + 0x80) :: bs) =
      readBytes (some { value := 64 * value + m, missing := k + 1 }) bs := by
  rw [readBytes_next hm hlow hhigh, if_neg (by simp)]
  rfl

/-- The last byte gives the character. -/
theorem readBytes_last (hm : m < 64) (value : Nat) (bs : List UInt8) :
    readBytes (some { value, missing := 1 }) (UInt8.ofNat (m + 0x80) :: bs) =
      Char.ofNat (64 * value + m) :: readBytes none bs := by
  rw [readBytes_next hm (by simp) (by simp; omega), if_pos (by simp)]

theorem start?_two (hn : 2 ≤ n) (hn' : n < 32) :
    Pending.start? (UInt8.ofNat (n + 0xC0)) = some { value := n, missing := 1 } := by
  rw [start?_ofNat (by omega), if_pos (by omega), Nat.add_sub_cancel]

/-- What comes next is bounded where the value would be too small, or no character. -/
theorem start?_three (hn : n < 16) : Pending.start? (UInt8.ofNat (n + 0xE0)) = some
    { value := n, missing := 2, low := if n = 0 then 0xA0 else 0x80,
      high := if n = 13 then 0x9F else 0xBF } := by
  rw [start?_ofNat (by omega), if_neg (by omega)]
  by_cases hzero : n = 0
  · simp [hzero]
  by_cases hlast : n = 13
  · simp [hlast]
  rw [if_neg (by omega), if_neg (by omega), if_pos (by omega), if_neg hzero, if_neg hlast,
    Nat.add_sub_cancel]

theorem start?_four (hn : n < 5) : Pending.start? (UInt8.ofNat (n + 0xF0)) = some
    { value := n, missing := 3, low := if n = 0 then 0x90 else 0x80,
      high := if n = 4 then 0x8F else 0xBF } := by
  rw [start?_ofNat (by omega)]
  iterate 4 rw [if_neg (by omega)]
  by_cases hzero : n = 0
  · simp [hzero]
  by_cases hlast : n = 4
  · simp [hlast]
  rw [if_neg (by omega), if_pos (by omega), if_neg hzero, if_neg hlast, Nat.add_sub_cancel]

/-- The bytes of a character are read as this character. -/
theorem readBytes_utf8EncodeChar (c : Char) (bs : List UInt8) :
    readBytes none (String.utf8EncodeChar c ++ bs) = c :: readBytes none bs := by
  have hvalid : c.toNat < 0xD800 ∨ 0xDFFF < c.toNat ∧ c.toNat < 0x110000 := c.valid
  have hchar : Char.ofNat c.toNat = c := c.ofNat_toNat
  unfold String.utf8EncodeChar
  rw [Char.toNat_val]
  generalize c.toNat = v at hvalid hchar
  dsimp only
  -- a character has one to four bytes, as many as its number needs
  split
  · rw [List.singleton_append, readBytes_ascii (by omega), hchar]
  split
  · simp only [List.cons_append, List.nil_append]
    rw [readBytes_start (by omega) (by omega) (start?_two (by omega) (by omega)),
      readBytes_last (by omega), show 64 * (v / 64 % 32) + v % 64 = v by omega, hchar]
  split
  · simp only [List.cons_append, List.nil_append]
    have hlow : (if v / 4096 % 16 = 0 then (0xA0 : UInt8) else 0x80).toNat ≤
        v / 64 % 64 + 0x80 := by
      split
      · simp; omega
      · simp
    have hhigh : v / 64 % 64 + 0x80 ≤
        (if v / 4096 % 16 = 13 then (0x9F : UInt8) else 0xBF).toNat := by
      split <;> (simp; omega)
    have hvalue : 64 * (64 * (v / 4096 % 16) + v / 64 % 64) + v % 64 = v := by omega
    rw [readBytes_start (by omega) (by omega) (start?_three (by omega)),
      readBytes_more (by omega) hlow hhigh _ 0, readBytes_last (by omega), hvalue, hchar]
  · simp only [List.cons_append, List.nil_append]
    have hlow : (if v / 262144 % 8 = 0 then (0x90 : UInt8) else 0x80).toNat ≤
        v / 4096 % 64 + 0x80 := by
      split
      · simp; omega
      · simp
    have hhigh : v / 4096 % 64 + 0x80 ≤
        (if v / 262144 % 8 = 4 then (0x8F : UInt8) else 0xBF).toNat := by
      split <;> (simp; omega)
    have hvalue :
        64 * (64 * (64 * (v / 262144 % 8) + v / 4096 % 64) + v / 64 % 64) + v % 64 = v := by
      omega
    rw [readBytes_start (by omega) (by omega) (start?_four (by omega)),
      readBytes_more (by omega) hlow hhigh _ 1,
      readBytes_more (by omega) (by simp) (by simp; omega) _ 0, readBytes_last (by omega), hvalue,
      hchar]

/-- Reading the UTF-8 form of a text gives the text back. -/
theorem ofBytes_toBytes (text : String) : ofBytes (toBytes text) = text := by
  have hread : ∀ cs : List Char, readBytes none (cs.flatMap String.utf8EncodeChar) = cs := by
    intro cs
    induction cs with
    | nil => rfl
    | cons c cs ih => rw [List.flatMap_cons, readBytes_utf8EncodeChar, ih]
  rw [ofBytes, toBytes, hread, String.ofList_toList]

/-! ## Slashes -/

theorem pieces_append {α : Type} {isSeparator : α → Bool} {as : List α}
    (h : ∀ a ∈ as, isSeparator a = false) (bs : List α) :
    pieces isSeparator (as ++ bs) = (pieces isSeparator bs).modifyHead (as ++ ·) := by
  induction as with
  | nil => cases hbs : pieces isSeparator bs <;> simp [hbs]
  | cons a as ih =>
    obtain ⟨ha, has⟩ := List.forall_mem_cons.1 h
    rw [List.cons_append, pieces, ih has]
    cases hbs : pieces isSeparator bs with
    | nil => exact absurd hbs (pieces_ne_nil _ _)
    | cons p ps => simp [ha]

theorem slash_ne_ofNat (hn : n < 256) (hne : n ≠ 0x2F) : Path.slash ≠ UInt8.ofNat n := by
  intro he
  have hnat := congrArg UInt8.toNat he
  rw [UInt8.toNat_ofNat', Nat.mod_eq_of_lt hn] at hnat
  exact hne hnat.symm

/-- No other character has a byte that is a slash. -/
theorem slash_notMem_utf8EncodeChar (h : c ≠ '/') : Path.slash ∉ String.utf8EncodeChar c := by
  have hne : c.toNat ≠ 0x2F := fun he => h (by rw [← c.ofNat_toNat, he])
  unfold String.utf8EncodeChar
  rw [Char.toNat_val]
  generalize c.toNat = v at hne
  dsimp only
  split
  · exact List.not_mem_cons_of_ne_of_not_mem (slash_ne_ofNat (by omega) hne) List.not_mem_nil
  have hlarge : ∀ {m k}, 0x80 ≤ k → m + k < 256 → Path.slash ≠ UInt8.ofNat (m + k) :=
    fun hk hlt => slash_ne_ofNat hlt (by omega)
  split
  · simp only [List.mem_cons, List.not_mem_nil, or_false, not_or]
    exact ⟨hlarge (by decide) (by omega), hlarge (by decide) (by omega)⟩
  split
  · simp only [List.mem_cons, List.not_mem_nil, or_false, not_or]
    exact ⟨hlarge (by decide) (by omega), hlarge (by decide) (by omega),
      hlarge (by decide) (by omega)⟩
  · simp only [List.mem_cons, List.not_mem_nil, or_false, not_or]
    exact ⟨hlarge (by decide) (by omega), hlarge (by decide) (by omega),
      hlarge (by decide) (by omega), hlarge (by decide) (by omega)⟩

/-- The bytes of a text are cut at slashes as the text is. -/
theorem pieces_toBytes (text : String) : pieces (· = Path.slash) (toBytes text) =
    (pieces (· = '/') text.toList).map fun piece => toBytes (String.ofList piece) := by
  unfold toBytes
  simp only [String.toList_ofList]
  induction text.toList with
  | nil => rfl
  | cons c cs ih =>
    rw [List.flatMap_cons, pieces]
    by_cases hc : c = '/'
    · have hslash : String.utf8EncodeChar '/' = [Path.slash] := by decide
      rw [hc, hslash, List.singleton_append, pieces, ih]
      simp
    · have hnone : ∀ b ∈ String.utf8EncodeChar c, decide (b = Path.slash) = false := by
        intro b hb
        exact decide_eq_false fun he => slash_notMem_utf8EncodeChar hc (he ▸ hb)
      rw [pieces_append hnone, ih]
      cases hcs : pieces (· = '/') cs with
      | nil => exact absurd hcs (pieces_ne_nil _ _)
      | cons p ps => simp [hc]

end CueScope.Text
