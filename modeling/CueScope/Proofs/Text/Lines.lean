import CueScope.Proofs.Text.Boundary

/-!
# The lines of a text

A text is cut behind every `\n`, `\r\n` and lone `\r`. What is left behind the last of them is one
more line, which has no terminator and may be empty.

* `Text.lines`: the lines. Together they are the text (`flatten_lines`), and all but the last one are
  terminated (`terminated_of_getElem?`).
* `Text.shown`: the part of a line that columns reach. It ends before the last character of the
  terminator.
* `mem_boundaries_iff`: the entries of the table of boundaries, line by line.
-/

namespace CueScope

namespace Text

theorem utf16Width_pos (c : Char) : 0 < utf16Width c := by
  unfold utf16Width
  split <;> decide

/-! ## Cutting a text into lines -/

/-- The line ends in a terminator and has no other. -/
def Terminated (line : List Char) : Prop :=
  ∃ body, (∀ c ∈ body, c ≠ '\n' ∧ c ≠ '\r') ∧
    (line = body ++ ['\n'] ∨ line = body ++ ['\r'] ∨ line = body ++ ['\r', '\n'])

theorem Terminated.cons {line : List Char} (h : Terminated line) {c : Char}
    (hc : ¬ (c = '\n' ∨ c = '\r')) : Terminated (c :: line) := by
  obtain ⟨body, hbody, hline⟩ := h
  refine ⟨c :: body, fun d hd => ?_, ?_⟩
  · rcases List.mem_cons.mp hd with rfl | hd
    · exact not_or.mp hc
    · exact hbody d hd
  · rcases hline with rfl | rfl | rfl <;> simp

theorem Terminated.ne_nil {line : List Char} (h : Terminated line) : line ≠ [] := by
  obtain ⟨body, -, rfl | rfl | rfl⟩ := h <;> simp

theorem exists_lines (cs : List Char) : ∃ l ls, lines cs = l :: ls := by
  fun_induction lines cs with
  | case1 => exact ⟨_, _, rfl⟩
  | case2 cs ih => exact ⟨_, _, rfl⟩
  | case3 c cs _ hc ih => exact ⟨_, _, rfl⟩
  | case4 c cs _ hc ih =>
    obtain ⟨l, ls, hls⟩ := ih
    exact ⟨c :: l, ls, by rw [hls, List.modifyHead_cons]⟩

/-- Cutting a text into lines loses nothing. -/
theorem flatten_lines (cs : List Char) : (lines cs).flatten = cs := by
  fun_induction lines cs with
  | case1 => rfl
  | case2 cs ih => rw [List.flatten_cons, ih]; rfl
  | case3 c cs _ hc ih => rw [List.flatten_cons, ih]; rfl
  | case4 c cs _ hc ih =>
    obtain ⟨l, ls, hls⟩ := exists_lines cs
    rw [hls] at ih ⊢
    rw [List.modifyHead_cons, List.flatten_cons, List.cons_append, ← ih, List.flatten_cons]

/-- All lines but the last are terminated. -/
theorem terminated_of_getElem? {cs line : List Char} {k : Nat} (hk : k + 1 < (lines cs).length)
    (hline : (lines cs)[k]? = some line) : Terminated line := by
  fun_induction lines cs generalizing k line with
  | case1 => exact absurd hk (by simp)
  | case2 cs ih =>
    cases k with
    | zero => exact ⟨[], by simp, by simp_all⟩
    | succ k => exact ih (by simpa using hk) (by simpa using hline)
  | case3 c cs _ hc ih =>
    cases k with
    | zero =>
      obtain rfl : [c] = line := by simpa using hline
      exact ⟨[], by simp, hc.imp (by simp [·]) (by simp [·])⟩
    | succ k => exact ih (by simpa using hk) (by simpa using hline)
  | case4 c cs _ hc ih =>
    obtain ⟨l, ls, hls⟩ := exists_lines cs
    rw [hls] at hk hline ih
    rw [List.modifyHead_cons] at hk hline
    cases k with
    | zero =>
      obtain rfl : c :: l = line := by simpa using hline
      exact (ih (k := 0) (by simpa using hk) rfl).cons hc
    | succ k => exact ih (k := k + 1) (by simpa using hk) (by simpa using hline)

/-- The part of a line that columns reach: all but the last character of the terminator. -/
def shown (cs : List Char) (k : Nat) : List Char :=
  let line := (lines cs).getD k []
  if k + 1 < (lines cs).length then line.dropLast else line

/-- Number of bytes before a line. -/
def lineStart (cs : List Char) (k : Nat) : Nat := byteLength ((lines cs).take k).flatten

/-- `u` units into `cs` is the middle of a character of two units. -/
def InPair (cs : List Char) (u : Nat) : Prop :=
  ∃ front c back, cs = front ++ c :: back ∧ 0x10000 ≤ c.toNat ∧ u = utf16Length front + 1

/-- The end of a front part is not the middle of a character. -/
theorem not_inPair {cs front : List Char} (h : front <+: cs) :
    ¬ InPair cs (utf16Length front) := by
  rintro ⟨front', c, back', hsplit, hwide, hu⟩
  have hwidth : utf16Width c = 2 := if_neg (Nat.not_lt.mpr hwide)
  obtain ⟨back, rfl⟩ := h
  rcases List.append_eq_append_iff.mp hsplit with ⟨more, rfl, -⟩ | ⟨more, rfl, hmore⟩
  · rw [utf16Length_append] at hu
    omega
  · cases more with
    | nil => simp at hu
    | cons d more =>
      obtain ⟨rfl, -⟩ := List.cons.inj hmore
      rw [utf16Length_append, utf16Length_cons] at hu
      omega

/-- Units within `cs` are those of the longest front part that has no more, or one more if they end
in the middle of the next character. -/
theorem eq_or_inPair {cs front : List Char} {u : Nat} (hfront : front <+: cs)
    (hle : utf16Length front ≤ u) (hu : u ≤ utf16Length cs)
    (hnext : ∀ c, front ++ [c] <+: cs → u < utf16Length (front ++ [c])) :
    u = utf16Length front ∨ InPair cs u ∧ u = utf16Length front + 1 := by
  obtain ⟨back, rfl⟩ := hfront
  cases back with
  | nil =>
    rw [List.append_nil] at hu
    exact .inl (Nat.le_antisymm hu hle)
  | cons c back =>
    have hlt := hnext c ⟨back, by simp⟩
    rw [utf16Length_append, utf16Length_cons, utf16Length_nil] at hlt
    by_cases hwide : 0x10000 ≤ c.toNat
    · have hwidth : utf16Width c = 2 := if_neg (Nat.not_lt.mpr hwide)
      by_cases heq : u = utf16Length front
      · exact .inl heq
      · have hsucc : u = utf16Length front + 1 := by omega
        exact .inr ⟨⟨front, c, back, rfl, hwide, hsucc⟩, hsucc⟩
    · have hwidth : utf16Width c = 1 := if_pos (Nat.lt_of_not_le hwide)
      exact .inl (by omega)

/-! ## Places in a line -/

/-- `n` bytes and `u` units into `line` is a place between two characters. The end of the line is one
only if no line follows. -/
def StandsIn (line : List Char) (ls : List (List Char)) (n u : Nat) : Prop :=
  ∃ front back, line = front ++ back ∧ (back = [] → ls = []) ∧ n = byteLength front ∧
    u = utf16Length front

theorem standsIn_nil {ls : List (List Char)} {n u : Nat} :
    StandsIn [] ls n u ↔ ls = [] ∧ n = 0 ∧ u = 0 := by
  constructor
  · rintro ⟨front, back, hsplit, hback, rfl, rfl⟩
    obtain ⟨rfl, rfl⟩ := List.append_eq_nil_iff.mp hsplit.symm
    exact ⟨hback rfl, rfl, rfl⟩
  · rintro ⟨hls, rfl, rfl⟩
    exact ⟨[], [], rfl, fun _ => hls, rfl, rfl⟩

/-- A place in a line is its start or one behind its first character. -/
theorem standsIn_cons {c : Char} {line : List Char} {ls : List (List Char)} {n u : Nat} :
    StandsIn (c :: line) ls n u ↔ (n = 0 ∧ u = 0) ∨
      ∃ m v, StandsIn line ls m v ∧ n = c.utf8Size + m ∧ u = utf16Width c + v := by
  constructor
  · rintro ⟨front, back, hsplit, hback, rfl, rfl⟩
    cases front with
    | nil => exact .inl ⟨rfl, rfl⟩
    | cons d front =>
      rw [List.cons_append, List.cons.injEq] at hsplit
      obtain ⟨rfl, rfl⟩ := hsplit
      exact .inr ⟨_, _, ⟨front, back, rfl, hback, rfl, rfl⟩, rfl, rfl⟩
  · rintro (⟨rfl, rfl⟩ | ⟨m, v, ⟨front, back, rfl, hback, rfl, rfl⟩, rfl, rfl⟩)
    · exact ⟨[], c :: line, rfl, by simp, rfl, rfl⟩
    · exact ⟨c :: front, back, rfl, hback, rfl, rfl⟩

/-- `n` bytes into the text of some lines, `u` units into line `k` of them, is such a place. -/
def Stands (ls : List (List Char)) (k n u : Nat) : Prop :=
  ∃ line m, ls[k]? = some line ∧ StandsIn line (ls.drop (k + 1)) m u ∧
    n = byteLength (ls.take k).flatten + m

theorem stands_zero {line : List Char} {ls : List (List Char)} {n u : Nat} :
    Stands (line :: ls) 0 n u ↔ StandsIn line ls n u := by
  simp [Stands]

theorem stands_succ {line : List Char} {ls : List (List Char)} {k n u : Nat} :
    Stands (line :: ls) (k + 1) n u ↔ ∃ m, Stands ls k m u ∧ n = byteLength line + m := by
  constructor
  · rintro ⟨l, m, hl, hm, rfl⟩
    refine ⟨_, ⟨l, m, by simpa using hl, by simpa using hm, rfl⟩, ?_⟩
    rw [List.take_succ_cons, List.flatten_cons, byteLength_append, Nat.add_assoc]
  · rintro ⟨_, ⟨l, m, hl, hm, rfl⟩, rfl⟩
    refine ⟨l, m, by simpa using hl, by simpa using hm, ?_⟩
    rw [List.take_succ_cons, List.flatten_cons, byteLength_append, Nat.add_assoc]

/-- The places in a line are the ends of the front parts of what columns reach. -/
theorem stands_lines_iff {cs : List Char} {k n u : Nat} :
    Stands (lines cs) k n u ↔ k < (lines cs).length ∧ ∃ front, front <+: shown cs k ∧
      n = lineStart cs k + byteLength front ∧ u = utf16Length front := by
  by_cases hk : k < (lines cs).length
  swap
  · simp [Stands, hk]
  obtain ⟨line, hline⟩ : ∃ line, (lines cs)[k]? = some line := ⟨_, List.getElem?_eq_getElem hk⟩
  have hget : (lines cs).getD k [] = line := by rw [List.getD_eq_getElem?_getD, hline]; rfl
  -- a place is the end of a front part, which is a proper one if a line follows
  have hcut : ∀ front, front <+: shown cs k ↔
      ∃ back, line = front ++ back ∧ (back = [] → (lines cs).drop (k + 1) = []) := by
    intro front
    simp only [shown, hget, List.drop_eq_nil_iff]
    split
    · rename_i hinner
      obtain ⟨body, last, rfl⟩ : ∃ body last, line = body ++ [last] :=
        ⟨_, _, (List.dropLast_append_getLast (terminated_of_getElem? hinner hline).ne_nil).symm⟩
      rw [List.dropLast_concat]
      constructor
      · rintro ⟨rest, rfl⟩
        exact ⟨rest ++ [last], List.append_assoc .., by simp⟩
      · rintro ⟨back, hsplit, hback⟩
        have hne : back ≠ [] := fun h => Nat.not_le.mpr hinner (hback h)
        rcases List.prefix_concat_iff.mp ⟨back, hsplit.symm⟩ with rfl | hpre
        · exact absurd (List.append_right_eq_self.mp hsplit.symm) hne
        · exact hpre
    · rename_i hlast
      constructor
      · rintro ⟨back, rfl⟩
        exact ⟨back, rfl, fun _ => Nat.le_of_not_lt hlast⟩
      · rintro ⟨back, rfl, -⟩
        exact List.prefix_append front back
  constructor
  · rintro ⟨l, m, hl, ⟨front, back, hsplit, hback, rfl, rfl⟩, rfl⟩
    obtain rfl := Option.some.inj (hline.symm.trans hl)
    exact ⟨hk, front, (hcut front).mpr ⟨back, hsplit, hback⟩, rfl, rfl⟩
  · rintro ⟨-, front, hfront, rfl, rfl⟩
    obtain ⟨back, hsplit, hback⟩ := (hcut front).mp hfront
    exact ⟨line, _, hline, ⟨front, back, hsplit, hback, rfl, rfl⟩, rfl⟩

end Text

namespace Position

open Text

/-! ## The table of boundaries, line by line -/

/-- The places in `ls`, where the first line goes on at `p` and byte `o`. -/
def Listed (o : Nat) (p : Position) (ls : List (List Char)) (n : Nat) (q : Position) : Prop :=
  ∃ k m u, Stands ls k m u ∧ n = o + m ∧ q = ⟨p.line + k, if k = 0 then p.column + u else u⟩

/-- A place of a text is one in its first line or one in the lines after that. -/
theorem listed_cons {o n : Nat} {p q : Position} {line : List Char} {ls : List (List Char)} :
    Listed o p (line :: ls) n q ↔
      (∃ m u, StandsIn line ls m u ∧ n = o + m ∧ q = ⟨p.line, p.column + u⟩) ∨
        Listed (o + byteLength line) ⟨p.line + 1, 0⟩ ls n q := by
  constructor
  · rintro ⟨k, m, u, hstands, rfl, rfl⟩
    cases k with
    | zero => exact .inl ⟨m, u, stands_zero.mp hstands, rfl, rfl⟩
    | succ k =>
      obtain ⟨m', hlater, rfl⟩ := stands_succ.mp hstands
      exact .inr ⟨k, m', u, hlater, (Nat.add_assoc ..).symm, by simp; omega⟩
  · rintro (⟨m, u, hstands, rfl, rfl⟩ | ⟨k, m, u, hstands, rfl, rfl⟩)
    · exact ⟨0, m, u, stands_zero.mpr hstands, rfl, rfl⟩
    · exact ⟨k + 1, _, u, stands_succ.mpr ⟨m, hstands, rfl⟩, Nat.add_assoc .., by simp; omega⟩

theorem not_listed_nil {o n : Nat} {p q : Position} : ¬ Listed o p [] n q := by
  rintro ⟨k, m, u, ⟨line, m', hline, -⟩, -⟩
  simp at hline

/-- A place in a line with a character is in front of that or behind it. -/
theorem listed_cons_cons {o n : Nat} {p q : Position} {c : Char} {line : List Char}
    {ls : List (List Char)} : Listed o p ((c :: line) :: ls) n q ↔ (n = o ∧ q = p) ∨
      Listed (o + c.utf8Size) ⟨p.line, p.column + utf16Width c⟩ (line :: ls) n q := by
  rw [listed_cons, listed_cons, ← or_assoc, byteLength_cons, Nat.add_assoc]
  refine or_congr_left ⟨?_, ?_⟩
  · rintro ⟨m, u, hstands, rfl, rfl⟩
    rcases standsIn_cons.mp hstands with ⟨rfl, rfl⟩ | ⟨m', v, hlater, rfl, rfl⟩
    · exact .inl ⟨rfl, rfl⟩
    · exact .inr ⟨m', v, hlater, (Nat.add_assoc ..).symm, by simp [Nat.add_assoc]⟩
  · rintro (⟨rfl, rfl⟩ | ⟨m, u, hstands, rfl, rfl⟩)
    · exact ⟨0, 0, standsIn_cons.mpr (.inl ⟨rfl, rfl⟩), rfl, rfl⟩
    · exact ⟨_, _, standsIn_cons.mpr (.inr ⟨m, u, hstands, rfl, rfl⟩), Nat.add_assoc ..,
        by simp [Nat.add_assoc]⟩

/-- Behind an empty line the next one starts, and at the end of the text there is none. -/
theorem listed_nil_cons {o n : Nat} {p q : Position} {ls : List (List Char)} :
    Listed o p ([] :: ls) n q ↔
      (ls = [] ∧ n = o ∧ q = p) ∨ Listed o ⟨p.line + 1, 0⟩ ls n q := by
  rw [listed_cons]
  refine or_congr_left ⟨?_, ?_⟩
  · rintro ⟨m, u, hstands, rfl, rfl⟩
    obtain ⟨hls, rfl, rfl⟩ := standsIn_nil.mp hstands
    exact ⟨hls, rfl, rfl⟩
  · rintro ⟨hls, rfl, rfl⟩
    exact ⟨0, 0, standsIn_nil.mpr ⟨hls, rfl, rfl⟩, rfl, rfl⟩

/-- By induction on the text, the places of the table are those in its lines. -/
theorem mem_boundariesFrom_iff_listed {o n : Nat} {p q : Position} {cs : List Char} :
    (n, q) ∈ boundariesFrom o p cs ↔ Listed o p (lines cs) n q := by
  fun_induction lines cs generalizing o p with
  | case1 => simp [boundariesFrom, listed_nil_cons, not_listed_nil]
  | case2 cs ih =>
    obtain ⟨l, ls, hls⟩ := exists_lines cs
    rw [listed_cons_cons, listed_cons_cons, listed_nil_cons, ← ih, hls]
    simp [boundariesFrom, after]
  | case3 c cs hcrlf hc ih =>
    obtain ⟨l, ls, hls⟩ := exists_lines cs
    rw [listed_cons_cons, listed_nil_cons, ← ih, hls]
    have hafter : p.after c cs = ⟨p.line + 1, 0⟩ := by
      refine if_pos (hc.imp id fun hr => ⟨hr, fun hhead => ?_⟩)
      obtain ⟨rest, rfl⟩ := List.head?_eq_some_iff.mp hhead
      exact hcrlf rest hr rfl
    simp [boundariesFrom, hafter]
  | case4 c cs hcrlf hc ih =>
    obtain ⟨l, ls, hls⟩ := exists_lines cs
    rw [hls] at ih ⊢
    rw [List.modifyHead_cons, listed_cons_cons, ← ih]
    have hafter : p.after c cs = ⟨p.line, p.column + utf16Width c⟩ :=
      if_neg fun h => hc (h.imp id And.left)
    simp [boundariesFrom, hafter]

/-- The entries of the table: on every line one for each front part of what columns reach. -/
theorem mem_boundaries_iff {text : String} {n : Nat} {q : Position} :
    (n, q) ∈ boundaries text ↔ q.line < (lines text.toList).length ∧
      ∃ front, front <+: shown text.toList q.line ∧
        n = lineStart text.toList q.line + byteLength front ∧ q.column = utf16Length front := by
  rw [boundaries, mem_boundariesFrom_iff_listed]
  constructor
  · rintro ⟨k, m, u, hstands, rfl, rfl⟩
    simpa using stands_lines_iff.mp hstands
  · intro h
    exact ⟨q.line, n, q.column, stands_lines_iff.mpr h, by simp, by simp⟩

theorem lineCount_eq (text : String) : lineCount text = (lines text.toList).length := rfl

end Position

end CueScope
