import CueScope.Text.Position
import Mathlib.Data.String.Basic

/-!
# The table of boundaries

`Position.boundaries` lists the places between two characters, each with its byte offset and its
editor position. They go up both by offset and by position:

* `boundaries_pairwise`: the entries are in order.
* `isValid_iff_mem_boundaries`: they are all the offsets between two characters.
-/

namespace CueScope

/-! ## Bytes of a text -/

theorem Text.byteLength_eq_utf8Len (cs : List Char) : Text.byteLength cs = String.utf8Len cs := by
  induction cs with
  | nil => rfl
  | cons c cs ih => rw [Text.byteLength_cons, String.utf8Len_cons, ih, Nat.add_comm]

theorem Text.utf8ByteSize_eq (text : String) : text.utf8ByteSize = Text.byteLength text.toList := by
  rw [Text.byteLength_eq_utf8Len, ← String.utf8ByteSize_ofList, String.ofList_toList]

namespace Position

/-! ## The table of boundaries -/

/-- The position after `c`, read at `p` and followed by `rest`: a `\r` right before a `\n` does
not end the line yet. -/
def after (p : Position) (c : Char) (rest : List Char) : Position :=
  if c = '\n' ∨ (c = '\r' ∧ rest.head? ≠ some '\n') then ⟨p.line + 1, 0⟩
  else ⟨p.line, p.column + Text.utf16Width c⟩

/-- Every place between two characters of `cs`, which starts at byte `offset` and position `p`. -/
def boundariesFrom (offset : Nat) (p : Position) : List Char → List (Nat × Position)
  | [] => [(offset, p)]
  | c :: cs => (offset, p) :: boundariesFrom (offset + c.utf8Size) (p.after c cs) cs

/-- Every place between two characters of a text, both ends included. -/
def boundaries (text : String) : List (Nat × Position) :=
  boundariesFrom 0 ⟨0, 0⟩ text.toList

/-! ## The order of the table -/

/-- `p` comes before `q`: on an earlier line, or further left on the same one. -/
def Before (p q : Position) : Prop := p.line < q.line ∨ (p.line = q.line ∧ p.column < q.column)

theorem Before.trans {p q r : Position} (h₁ : p.Before q) (h₂ : q.Before r) : p.Before r := by
  unfold Before at *
  omega

theorem not_before_self (p : Position) : ¬ p.Before p := by
  unfold Before
  omega

theorem before_after (p : Position) (c : Char) (rest : List Char) : p.Before (p.after c rest) := by
  unfold after Before
  split
  · exact .inl (Nat.lt_succ_self _)
  · refine .inr ⟨rfl, ?_⟩
    simp only [Text.utf16Width]
    split <;> omega

/-- One entry of the table comes before another one. -/
def Precedes (a b : Nat × Position) : Prop := a.1 < b.1 ∧ a.2.Before b.2

theorem Precedes.trans {a b c : Nat × Position} (h₁ : Precedes a b) (h₂ : Precedes b c) :
    Precedes a c :=
  ⟨Nat.lt_trans h₁.1 h₂.1, h₁.2.trans h₂.2⟩

/-- Everything that follows a place lies behind it. -/
theorem precedes_of_mem_boundariesFrom {o : Nat} {p : Position} {a : Nat × Position}
    {cs : List Char} (h : Precedes a (o, p)) {b : Nat × Position}
    (hb : b ∈ boundariesFrom o p cs) : Precedes a b := by
  induction cs generalizing o p with
  | nil =>
    rw [boundariesFrom, List.mem_singleton] at hb
    exact hb ▸ h
  | cons c cs ih =>
    rw [boundariesFrom, List.mem_cons] at hb
    rcases hb with rfl | hb
    · exact h
    · exact ih (h.trans ⟨Nat.lt_add_of_pos_right c.utf8Size_pos, before_after p c cs⟩) hb

theorem boundariesFrom_pairwise (o : Nat) (p : Position) (cs : List Char) :
    (boundariesFrom o p cs).Pairwise Precedes := by
  induction cs generalizing o p with
  | nil => exact List.pairwise_singleton _ _
  | cons c cs ih =>
    rw [boundariesFrom, List.pairwise_cons]
    refine ⟨fun b hb => precedes_of_mem_boundariesFrom ?_ hb, ih _ _⟩
    exact ⟨Nat.lt_add_of_pos_right c.utf8Size_pos, before_after p c cs⟩

theorem boundaries_pairwise (text : String) : (boundaries text).Pairwise Precedes :=
  boundariesFrom_pairwise 0 ⟨0, 0⟩ text.toList

/-- The offsets of the table are those that cut the text between two characters. -/
theorem mem_boundariesFrom_iff {o n : Nat} {p : Position} {cs : List Char} :
    (∃ q, (n, q) ∈ boundariesFrom o p cs) ↔
      ∃ front back, cs = front ++ back ∧ n = o + Text.byteLength front := by
  induction cs generalizing o p with
  | nil =>
    constructor
    · rintro ⟨q, hq⟩
      rw [boundariesFrom, List.mem_singleton, Prod.mk.injEq] at hq
      exact ⟨[], [], rfl, hq.1⟩
    · rintro ⟨front, back, hcs, rfl⟩
      obtain ⟨rfl, rfl⟩ := List.append_eq_nil_iff.mp hcs.symm
      exact ⟨p, by simp [boundariesFrom]⟩
  | cons c cs ih =>
    constructor
    · rintro ⟨q, hq⟩
      rw [boundariesFrom, List.mem_cons, Prod.mk.injEq] at hq
      rcases hq with ⟨rfl, -⟩ | hq
      · exact ⟨[], c :: cs, rfl, rfl⟩
      · obtain ⟨front, back, rfl, rfl⟩ := ih.mp ⟨q, hq⟩
        exact ⟨c :: front, back, rfl, by rw [Text.byteLength_cons]; omega⟩
    · rintro ⟨front, back, hcs, rfl⟩
      cases front with
      | nil => exact ⟨p, by simp [boundariesFrom]⟩
      | cons d front =>
        rw [List.cons_append, List.cons.injEq] at hcs
        obtain ⟨rfl, rfl⟩ := hcs
        obtain ⟨q, hq⟩ := (ih (o := o + c.utf8Size) (p := p.after c (front ++ back))).mpr
          ⟨front, back, rfl, by rw [Text.byteLength_cons, ← Nat.add_assoc]⟩
        exact ⟨q, List.mem_cons_of_mem _ hq⟩

/-- The places between characters are those of the table. -/
theorem isValid_iff_mem_boundaries {text : String} {n : Nat} :
    String.Pos.Raw.IsValid text ⟨n⟩ ↔ ∃ q, (n, q) ∈ boundaries text := by
  unfold boundaries
  rw [mem_boundariesFrom_iff, String.Pos.Raw.isValid_iff_exists_append]
  constructor
  · rintro ⟨front, back, rfl, hn⟩
    refine ⟨front.toList, back.toList, String.toList_append, ?_⟩
    rw [Nat.zero_add, ← Text.utf8ByteSize_eq]
    exact congrArg String.Pos.Raw.byteIdx hn
  · rintro ⟨front, back, hcs, rfl⟩
    refine ⟨String.ofList front, String.ofList back, ?_, ?_⟩
    · rw [← String.ofList_append, ← hcs, String.ofList_toList]
    · rw [Nat.zero_add, Text.byteLength_eq_utf8Len, ← String.utf8ByteSize_ofList]
      rfl

/-- No boundary lies past the end of the text. -/
theorem le_size_of_mem_boundaries {text : String} {n : Nat} {q : Position}
    (h : (n, q) ∈ boundaries text) : n ≤ text.utf8ByteSize := by
  obtain ⟨front, back, hcs, rfl⟩ := mem_boundariesFrom_iff.mp ⟨q, h⟩
  rw [Text.utf8ByteSize_eq, hcs, Text.byteLength_append]
  omega

/-! ## The last entry up to somewhere -/

/-- The entries up to an offset are a front part of the table. -/
theorem takeWhile_eq_filter {l : List (Nat × Position)} (hl : l.Pairwise Precedes) (n : Nat) :
    l.takeWhile (·.1 ≤ n) = l.filter (·.1 ≤ n) := by
  induction l with
  | nil => rfl
  | cons a l ih =>
    obtain ⟨ha, hl⟩ := List.pairwise_cons.mp hl
    by_cases han : a.1 ≤ n
    · rw [List.takeWhile_cons_of_pos (by simpa using han),
        List.filter_cons_of_pos (by simpa using han), ih hl]
    · rw [List.takeWhile_cons_of_neg (by simpa using han),
        List.filter_cons_of_neg (by simpa using han), eq_comm, List.filter_eq_nil_iff]
      intro b hb
      have := (ha b hb).1
      simp only [decide_eq_true_eq]
      omega

/-- Of two places the one with fewer bytes in front of it comes first in the table. -/
theorem precedes_of_lt {text : String} {a b : Nat × Position} (ha : a ∈ boundaries text)
    (hb : b ∈ boundaries text) (h : a.1 < b.1) : Precedes a b := by
  have hord := boundaries_pairwise text
  obtain ⟨before, behind, htable⟩ := List.append_of_mem ha
  rw [htable] at hord hb
  obtain ⟨-, hbehind, hbefore⟩ := List.pairwise_append.1 hord
  rcases List.mem_append.1 hb with hb | hb
  · exact absurd (hbefore b hb a List.mem_cons_self).1 (Nat.not_lt.2 (Nat.le_of_lt h))
  · rcases List.mem_cons.1 hb with rfl | hb
    · exact absurd h (Nat.lt_irrefl _)
    · exact (List.pairwise_cons.1 hbehind).1 b hb

theorem boundaries_start (text : String) : (0, ⟨0, 0⟩) ∈ boundaries text := by
  unfold boundaries
  cases text.toList <;> simp [boundariesFrom]

/-- All entries of an ordered list come before its last one. -/
theorem eq_or_rel_of_getLast? {α : Type} {R : α → α → Prop} {l : List α} (hl : l.Pairwise R)
    {x : α} (hx : l.getLast? = some x) {y : α} (hy : y ∈ l) : y = x ∨ R y x := by
  obtain ⟨front, rfl⟩ := List.getLast?_eq_some_iff.mp hx
  rcases List.mem_append.mp hy with hy | hy
  · exact .inr ((List.pairwise_append.mp hl).2.2 y hy x (List.mem_singleton_self x))
  · exact .inl (List.mem_singleton.mp hy)

/-- The last entry that is not behind an offset. -/
theorem exists_last_upto (text : String) (o : Nat) :
    ∃ n q, ((boundaries text).takeWhile (·.1 ≤ o)).getLast? = some (n, q) ∧
      (n, q) ∈ boundaries text ∧ n ≤ o ∧ ∀ m r, (m, r) ∈ boundaries text → m ≤ o → m ≤ n := by
  have hord := (boundaries_pairwise text).filter (fun e => decide (e.1 ≤ o))
  have hmem : ∀ {e}, e ∈ (boundaries text).filter (fun e => decide (e.1 ≤ o)) ↔
      e ∈ boundaries text ∧ e.1 ≤ o := by
    simp [List.mem_filter]
  rw [takeWhile_eq_filter (boundaries_pairwise text)]
  generalize (boundaries text).filter (fun e => decide (e.1 ≤ o)) = upto at hord hmem
  obtain ⟨⟨n, q⟩, hlast⟩ : ∃ e, upto.getLast? = some e :=
    ⟨_, List.getLast?_eq_some_getLast
      (List.ne_nil_of_mem (hmem.mpr ⟨boundaries_start text, Nat.zero_le o⟩))⟩
  obtain ⟨hentry, hle⟩ := hmem.mp (List.mem_of_getLast? hlast)
  refine ⟨n, q, hlast, hentry, hle, fun m r hr hm => ?_⟩
  rcases eq_or_rel_of_getLast? hord hlast (hmem.mpr ⟨hr, hm⟩) with heq | hlt
  · exact Nat.le_of_eq (congrArg (·.1) heq)
  · exact Nat.le_of_lt hlt.1

end Position

end CueScope
