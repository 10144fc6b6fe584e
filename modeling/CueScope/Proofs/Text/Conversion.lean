import CueScope.Proofs.Text.Lines
import Mathlib.Data.List.GetD

/-!
# Offsets and positions by counting

Both conversions count characters, lines and UTF-16 units from the start of the text. What they come
to is a look-up in the table of boundaries:

* `Text.fitting_append`: how far a count gets. It stops before the first element that has no room.
* `Rope.charToLine_of_front`: the line of a place is the one that the table gives it.
* `ofOffset?_eq_lookup`: an offset leads to the last entry that is not behind it.
* `toOffset?_eq_lookup`: a position leads to the last entry on its line that is not behind it, unless
  it is behind all of them.
* `toOffset?_onLine`: which positions have an offset, and where it is.
-/

namespace CueScope

namespace Text

/-! ## Counting -/

/-- Number of units that the elements of a list take. -/
def taken {α : Type} (width : α → Nat) : List α → Nat
  | [] => 0
  | a :: as => width a + taken width as

theorem byteLength_eq_taken (cs : List Char) : byteLength cs = taken Char.utf8Size cs := by
  induction cs with
  | nil => rfl
  | cons c cs ih => rw [byteLength_cons, taken, ih]

theorem utf16Length_eq_taken (cs : List Char) : utf16Length cs = taken utf16Width cs := by
  induction cs with
  | nil => rfl
  | cons c cs ih => rw [utf16Length_cons, taken, ih]

theorem length_flatten_eq_taken (ls : List (List Char)) :
    ls.flatten.length = taken List.length ls := by
  induction ls with
  | nil => rfl
  | cons l ls ih => rw [List.flatten_cons, List.length_append, taken, ih]

/-- Elements have room as long as their widths do, and then the next one has none. -/
theorem fitting_append {α : Type} {width : α → Nat} {front back : List α} {n : Nat}
    (hfront : taken width front ≤ n)
    (hnext : ∀ a ∈ back.head?, n < taken width front + width a) :
    fitting width (front ++ back) n = front.length := by
  induction front generalizing n with
  | nil =>
    cases back with
    | nil => rfl
    | cons a back =>
      have hlt := hnext a rfl
      rw [taken, Nat.zero_add] at hlt
      rw [List.nil_append, fitting, if_neg (Nat.not_le.2 hlt)]
      rfl
  | cons a front ih =>
    rw [taken] at hfront
    rw [List.cons_append, fitting, if_pos (by omega), ih (by omega), List.length_cons]
    intro b hb
    have hlt := hnext b hb
    rw [taken] at hlt
    omega

/-- A list falls into a part that has room and one whose first element has none. -/
theorem exists_fitting {α : Type} (width : α → Nat) (as : List α) (n : Nat) :
    ∃ front back, as = front ++ back ∧ taken width front ≤ n ∧
      ∀ a ∈ back.head?, n < taken width front + width a := by
  induction as generalizing n with
  | nil => exact ⟨[], [], rfl, Nat.zero_le _, by simp⟩
  | cons a as ih =>
    by_cases ha : width a ≤ n
    · obtain ⟨front, back, rfl, hfront, hnext⟩ := ih (n - width a)
      refine ⟨a :: front, back, rfl, ?_, fun b hb => ?_⟩
      · rw [taken]
        omega
      · have hlt := hnext b hb
        rw [taken]
        omega
    · refine ⟨[], a :: as, rfl, Nat.zero_le _, fun b hb => ?_⟩
      obtain rfl : a = b := by simpa using hb
      simpa [taken] using ha

/-- Front parts are told apart by their UTF-16 units. -/
theorem eq_of_utf16Length_eq {cs front front' : List Char} (h : front <+: cs) (h' : front' <+: cs)
    (heq : utf16Length front = utf16Length front') : front = front' := by
  have hlonger : ∀ {as bs : List Char}, as <+: bs → utf16Length as = utf16Length bs → as = bs := by
    rintro as _ ⟨more, rfl⟩ hlen
    cases more with
    | nil => rw [List.append_nil]
    | cons c more =>
      have hpos := utf16Width_pos c
      rw [utf16Length_append, utf16Length_cons] at hlen
      omega
  rcases List.prefix_or_prefix_of_prefix h h' with hle | hle
  · exact hlonger hle heq
  · exact (hlonger hle heq.symm).symm

/-! ## The parts of a line -/

section Line

variable {cs : List Char} {k : Nat}

/-- A text is what stands before a line, the line, and what stands behind it. -/
theorem eq_append_line (hk : k < (lines cs).length) :
    cs = ((lines cs).take k).flatten ++
      ((lines cs).getD k [] ++ ((lines cs).drop (k + 1)).flatten) := by
  rw [List.getD_eq_getElem _ _ hk, ← List.flatten_cons, ← List.drop_eq_getElem_cons hk,
    ← List.flatten_append, List.take_append_drop, flatten_lines]

theorem shown_prefix_line : shown cs k <+: (lines cs).getD k [] := by
  unfold shown
  dsimp only
  split
  · exact List.dropLast_prefix _
  · exact List.prefix_rfl

/-- What columns reach, together with what stands before it, is a front part of the text. -/
theorem append_shown_front (hk : k < (lines cs).length) :
    ((lines cs).take k).flatten ++ shown cs k <+: cs := by
  conv => rhs; rw [eq_append_line hk]
  rw [List.prefix_append_right_inj]
  exact shown_prefix_line.trans (List.prefix_append _ _)

/-- Columns do not reach to the end of a line that another one follows. -/
theorem length_shown_lt (hk : k + 1 < (lines cs).length) :
    (shown cs k).length < ((lines cs).getD k []).length := by
  have hget : (lines cs)[k]? = some ((lines cs).getD k []) := by
    rw [List.getD_eq_getElem _ _ (by omega), List.getElem?_eq_getElem]
  have hpos := List.length_pos_iff.2 (terminated_of_getElem? hk hget).ne_nil
  unfold shown
  dsimp only
  rw [if_pos hk, List.length_dropLast]
  omega

end Line

/-! ## Counting in a rope -/

namespace Rope

theorem charToByte_of_front {r : Rope} {front : List Char} (h : front <+: r.chars) :
    r.charToByte front.length = byteLength front := by
  rw [charToByte, ← List.prefix_iff_eq_take.1 h]

theorem charToUtf16_of_front {r : Rope} {front : List Char} (h : front <+: r.chars) :
    r.charToUtf16 front.length = utf16Length front := by
  rw [charToUtf16, ← List.prefix_iff_eq_take.1 h]

/-- A place that the columns of a line reach is in that line. -/
theorem charToLine_of_front {cs : List Char} {k : Nat} {front : List Char}
    (hk : k < (lines cs).length) (hfront : front <+: shown cs k) :
    charToLine ⟨cs⟩ (((lines cs).take k).flatten ++ front).length = k := by
  have hsplit : (lines cs).dropLast = (lines cs).take k ++ ((lines cs).drop k).dropLast := by
    rw [← List.dropLast_append_of_ne_nil, List.take_append_drop]
    exact List.ne_nil_of_length_pos (by rw [List.length_drop]; omega)
  have htaken := length_flatten_eq_taken ((lines cs).take k)
  rw [charToLine, hsplit, fitting_append, List.length_take, Nat.min_eq_left (Nat.le_of_lt hk)]
  · rw [← htaken, List.length_append]
    exact Nat.le_add_right _ _
  · intro line hline
    have hinner : k + 1 < (lines cs).length := by
      by_contra hlast
      rw [List.drop_eq_getElem_cons hk, List.drop_eq_nil_of_le (by omega)] at hline
      simp at hline
    rw [List.drop_eq_getElem_cons hk, List.dropLast_cons_of_ne_nil
      (List.ne_nil_of_length_pos (by rw [List.length_drop]; omega))] at hline
    obtain rfl : (lines cs)[k] = line := by simpa using hline
    have hlt := length_shown_lt hinner
    have hle := hfront.length_le
    rw [List.getD_eq_getElem _ _ hk] at hlt
    rw [← htaken, List.length_append]
    omega

end Rope

end Text

namespace Position

open Text

/-! ## The position of an offset -/

/-- An offset is in front of as many characters as the last entry of the table that is not behind it. -/
theorem byteToChar?_of_last {text : String} {front : List Char} {o : Nat}
    (hfront : front <+: text.toList) (hle : byteLength front ≤ o) (ho : o ≤ text.utf8ByteSize)
    (hlast : ∀ m r, (m, r) ∈ boundaries text → m ≤ o → m ≤ byteLength front) :
    (Rope.ofText text).byteToChar? o = some front.length := by
  obtain ⟨back, hback⟩ := hfront
  rw [Rope.byteToChar?, Rope.ofText, if_pos (by rw [← utf8ByteSize_eq]; exact ho), ← hback,
    fitting_append]
  · rw [← byteLength_eq_taken]
    exact hle
  · intro c hc
    rw [← byteLength_eq_taken]
    by_contra hroom
    obtain ⟨rest, rfl⟩ := List.head?_eq_some_iff.1 hc
    have hpos := c.utf8Size_pos
    obtain ⟨r, hr⟩ : ∃ r, (byteLength front + c.utf8Size, r) ∈ boundaries text := by
      refine mem_boundariesFrom_iff.2 ⟨front ++ [c], rest, by simp [← hback], ?_⟩
      simp [byteLength_append]
    have hle' := hlast _ r hr (Nat.not_lt.1 hroom)
    omega

/-- An offset leads to the last entry of the table that is not behind it. -/
theorem ofOffset?_of_last {text : String} {n o : Nat} {q : Position} (h : (n, q) ∈ boundaries text)
    (hle : n ≤ o) (ho : o ≤ text.utf8ByteSize)
    (hlast : ∀ m r, (m, r) ∈ boundaries text → m ≤ o → m ≤ n) : ofOffset? text o = some q := by
  obtain ⟨hk, front, hfront, rfl, hcolumn⟩ := mem_boundaries_iff.1 h
  obtain ⟨k, column⟩ := q
  dsimp only at hk hfront hle hlast hcolumn
  subst hcolumn
  generalize hbefore : ((lines text.toList).take k).flatten = before
  have hreach : before ++ front <+: text.toList := by
    rw [← hbefore]
    exact ((List.prefix_append_right_inj _).2 hfront).trans (append_shown_front hk)
  have hstart : before <+: text.toList := (List.prefix_append _ _).trans hreach
  have hbytes : lineStart text.toList k + byteLength front = byteLength (before ++ front) := by
    rw [lineStart, hbefore, byteLength_append]
  rw [hbytes] at hle hlast
  have hchar := byteToChar?_of_last hreach hle ho hlast
  have hline : (Rope.ofText text).charToLine (before ++ front).length = k := by
    rw [← hbefore]
    exact Rope.charToLine_of_front hk hfront
  have hfirst : (Rope.ofText text).lineToChar k = before.length := by
    rw [← hbefore]
    rfl
  unfold ofOffset?
  simp only [hchar, hline, hfirst, Option.bind_eq_bind, Option.bind_some,
    Rope.charToUtf16_of_front (r := Rope.ofText text) hreach,
    Rope.charToUtf16_of_front (r := Rope.ofText text) hstart, utf16Length_append,
    Nat.add_sub_cancel_left]
  rfl

theorem ofOffset?_of_mem {text : String} {n : Nat} {q : Position}
    (h : (n, q) ∈ boundaries text) : ofOffset? text n = some q :=
  ofOffset?_of_last h (Nat.le_refl n) (le_size_of_mem_boundaries h) fun _ _ _ hm => hm

theorem ofOffset?_of_lt {text : String} {o : Nat} (ho : text.utf8ByteSize < o) :
    ofOffset? text o = none := by
  rw [utf8ByteSize_eq] at ho
  have hchar : (Rope.ofText text).byteToChar? o = none := if_neg (Nat.not_le.2 ho)
  simp only [ofOffset?, hchar]
  rfl

/-- The position of an offset, looked up in the table of boundaries. -/
theorem ofOffset?_eq_lookup (text : String) (o : Nat) :
    ofOffset? text o =
      if o ≤ text.utf8ByteSize then ((boundaries text).takeWhile (·.1 ≤ o)).getLast?.map (·.2)
      else none := by
  split
  · rename_i ho
    obtain ⟨n, q, hlookup, hentry, hle, hlast⟩ := exists_last_upto text o
    rw [hlookup, ofOffset?_of_last hentry hle ho hlast]
    rfl
  · rename_i ho
    exact ofOffset?_of_lt (Nat.not_le.1 ho)

/-- Boundaries are in the same order as their positions. -/
theorem before_iff_of_mem {text : String} {n m : Nat} {p q : Position}
    (hp : (n, p) ∈ boundaries text) (hq : (m, q) ∈ boundaries text) : p.Before q ↔ n < m := by
  refine ⟨fun h => ?_, fun h => (precedes_of_lt hp hq h).2⟩
  by_contra hle
  rcases Nat.lt_or_eq_of_le (Nat.not_lt.1 hle) with hlt | rfl
  · exact not_before_self p (h.trans (precedes_of_lt hq hp hlt).2)
  · have hpq := (ofOffset?_of_mem hp).symm.trans (ofOffset?_of_mem hq)
    obtain rfl := Option.some.inj hpq
    exact not_before_self p h

/-! ## The offset of a position -/

/-- A column is compared with what its line reaches, and counted from the start of the line. -/
theorem toOffset?_eq_ite {text : String} {p : Position}
    (hk : p.line < (lines text.toList).length) :
    toOffset? text p =
      if p.column ≤ utf16Length (shown text.toList p.line) then
        some ((Rope.ofText text).charToByte ((Rope.ofText text).utf16ToChar
          (utf16Length ((lines text.toList).take p.line).flatten + p.column)))
      else none := by
  generalize hbefore : ((lines text.toList).take p.line).flatten = before
  have hreach : before ++ shown text.toList p.line <+: text.toList := hbefore ▸ append_shown_front hk
  have hstart : before <+: text.toList := (List.prefix_append _ _).trans hreach
  have hfirst : (Rope.ofText text).lineToChar p.line = before.length := by
    rw [← hbefore]
    rfl
  have hlast : (if p.line + 1 < (Rope.ofText text).lineCount then
      before.length + (((Rope.ofText text).line p.line).length - 1)
      else before.length + ((Rope.ofText text).line p.line).length) =
        (before ++ shown text.toList p.line).length := by
    have hcount : (Rope.ofText text).lineCount = (lines text.toList).length := rfl
    have hget : (Rope.ofText text).line p.line = (lines text.toList).getD p.line [] := rfl
    unfold shown
    rw [hcount, hget, List.length_append]
    dsimp only
    split
    · rw [List.length_dropLast]
    · rfl
  have hline : ¬ (Rope.ofText text).lineCount ≤ p.line := Nat.not_le.2 hk
  unfold toOffset?
  dsimp only
  rw [if_neg hline, hfirst, hlast,
    Rope.charToUtf16_of_front (r := Rope.ofText text) hstart,
    Rope.charToUtf16_of_front (r := Rope.ofText text) hreach, utf16Length_append]
  by_cases hc : p.column ≤ utf16Length (shown text.toList p.line)
  · rw [if_neg (by omega), if_pos hc]
  · rw [if_pos (by omega), if_neg hc]

/-- There is no such line, or its columns end before. -/
theorem toOffset?_eq_none {text : String} {p : Position}
    (hp : ¬ (p.line < lineCount text ∧ p.column ≤ utf16Length (shown text.toList p.line))) :
    toOffset? text p = none := by
  rw [lineCount_eq] at hp
  by_cases hk : p.line < (lines text.toList).length
  · rw [toOffset?_eq_ite hk, if_neg fun hc => hp ⟨hk, hc⟩]
  · exact if_pos (Nat.not_lt.1 hk)

/-- A column that its line reaches is rounded down to the end of a front part, which has as many
units, or one less if the column is in the middle of the next character. -/
theorem toOffset?_of_le {text : String} {p : Position} (hk : p.line < lineCount text)
    (hc : p.column ≤ utf16Length (shown text.toList p.line)) :
    ∃ front, front <+: shown text.toList p.line ∧
      toOffset? text p = some (lineStart text.toList p.line + byteLength front) ∧
      (p.column = utf16Length front ∨ InPair (shown text.toList p.line) p.column ∧
        p.column = utf16Length front + 1) := by
  rw [lineCount_eq] at hk
  rw [toOffset?_eq_ite hk, if_pos hc]
  generalize hbefore : ((lines text.toList).take p.line).flatten = before
  have hreach := append_shown_front hk
  rw [hbefore] at hreach
  obtain ⟨front, back, hshown, hroom, hnext⟩ :=
    exists_fitting utf16Width (shown text.toList p.line) p.column
  rw [← utf16Length_eq_taken] at hroom hnext
  obtain ⟨rest, hrest⟩ := hreach
  have hchar : (Rope.ofText text).utf16ToChar (utf16Length before + p.column) =
      (before ++ front).length := by
    rw [Rope.utf16ToChar, Rope.ofText, ← hrest, hshown,
      show before ++ (front ++ back) ++ rest = before ++ front ++ (back ++ rest) by simp,
      fitting_append]
    · rw [← utf16Length_eq_taken, utf16Length_append]
      omega
    · intro c hhead
      rw [← utf16Length_eq_taken, utf16Length_append]
      cases back with
      | nil =>
        -- the column is where the columns of the line end
        have hwidth := utf16Width_pos c
        rw [hshown, List.append_nil] at hc
        omega
      | cons d back =>
        have hlt := hnext c hhead
        omega
  have hfront : before ++ front <+: text.toList := ⟨back ++ rest, by rw [← hrest, hshown]; simp⟩
  refine ⟨front, ⟨back, hshown.symm⟩, ?_, ?_⟩
  · rw [hchar, Rope.charToByte_of_front (r := Rope.ofText text) hfront, byteLength_append, lineStart,
      hbefore]
  · refine eq_or_inPair ⟨back, hshown.symm⟩ hroom hc fun c hpre => ?_
    obtain ⟨more, hmore⟩ := hpre
    rw [hshown, List.append_assoc, List.append_cancel_left_eq] at hmore
    have hlt := hnext c (by rw [← hmore]; rfl)
    rw [utf16Length_append, utf16Length_cons, utf16Length_nil]
    omega

theorem toOffset?_of_mem {text : String} {n : Nat} {q : Position}
    (h : (n, q) ∈ boundaries text) : toOffset? text q = some n := by
  obtain ⟨hk, front, hfront, rfl, hcolumn⟩ := mem_boundaries_iff.1 h
  have hc : q.column ≤ utf16Length (shown text.toList q.line) := by
    obtain ⟨back, hback⟩ := hfront
    rw [hcolumn, ← hback, utf16Length_append]
    exact Nat.le_add_right _ _
  rw [← lineCount_eq] at hk
  obtain ⟨front', hfront', hoffset, heq | ⟨hpair, -⟩⟩ := toOffset?_of_le hk hc
  · rw [hoffset, eq_of_utf16Length_eq hfront hfront' (hcolumn.symm.trans heq)]
  · exact absurd (hcolumn ▸ hpair) (not_inPair hfront)

theorem mem_onLine_iff {text : String} {k n : Nat} {q : Position} (hk : k < lineCount text) :
    (n, q) ∈ (boundaries text).filter (·.2.line = k) ↔ q.line = k ∧
      ∃ front, front <+: shown text.toList k ∧ n = lineStart text.toList k + byteLength front ∧
        q.column = utf16Length front := by
  rw [lineCount_eq] at hk
  rw [List.mem_filter, mem_boundaries_iff, decide_eq_true_eq, and_comm]
  refine and_congr_right ?_
  rintro rfl
  exact and_iff_right hk

/-- Every front part of what columns reach ends at an entry. -/
theorem mem_onLine {text : String} {k : Nat} {front : List Char} (hk : k < lineCount text)
    (hfront : front <+: shown text.toList k) :
    (lineStart text.toList k + byteLength front, ⟨k, utf16Length front⟩) ∈
      (boundaries text).filter (·.2.line = k) :=
  (mem_onLine_iff hk).mpr ⟨rfl, front, hfront, rfl, rfl⟩

/-- The last entry of a line stands where columns end. -/
theorem column_of_getLast? {text : String} {k : Nat} {last : Nat × Position}
    (hk : k < lineCount text)
    (hlast : ((boundaries text).filter (·.2.line = k)).getLast? = some last) :
    last.2.column = utf16Length (shown text.toList k) := by
  have hord := (boundaries_pairwise text).filter (fun e => decide (e.2.line = k))
  obtain ⟨hline, front, ⟨back, hshown⟩, -, hcolumn⟩ :=
    (mem_onLine_iff hk).mp (List.mem_of_getLast? hlast)
  have hle : last.2.column ≤ utf16Length (shown text.toList k) := by
    rw [← hshown, utf16Length_append, hcolumn]
    exact Nat.le_add_right _ _
  rcases eq_or_rel_of_getLast? hord hlast (mem_onLine hk List.prefix_rfl) with heq | hprec
  · rw [← heq]
  · have := hprec.2
    simp only [Before] at this
    omega

theorem exists_last {text : String} {k : Nat} (hk : k < lineCount text) :
    ∃ last, ((boundaries text).filter (·.2.line = k)).getLast? = some last :=
  ⟨_, List.getLast?_eq_some_getLast (List.ne_nil_of_mem (mem_onLine hk List.nil_prefix))⟩

theorem onLine_eq_nil {text : String} {k : Nat} (hk : ¬ k < lineCount text) :
    (boundaries text).filter (·.2.line = k) = [] := by
  refine List.filter_eq_nil_iff.mpr fun e he => ?_
  have hlt := (mem_boundaries_iff.mp he).1
  rw [← lineCount_eq] at hlt
  simp only [decide_eq_true_eq]
  omega

/-- The last entry of a line that is not behind a column stands at that column, or in front of the
character that the column is in the middle of. -/
theorem getLast?_upto {text : String} {k column : Nat} {front : List Char} (hk : k < lineCount text)
    (hfront : front <+: shown text.toList k)
    (hcolumn : column = utf16Length front ∨
      InPair (shown text.toList k) column ∧ column = utf16Length front + 1) :
    (((boundaries text).filter (·.2.line = k)).filter (·.2.column ≤ column)).getLast? =
      some (lineStart text.toList k + byteLength front, ⟨k, utf16Length front⟩) := by
  have hord := ((boundaries_pairwise text).filter (fun e => decide (e.2.line = k))).filter
    (fun e => decide (e.2.column ≤ column))
  have hmem : ∀ {e : Nat × Position}, e ∈ ((boundaries text).filter (·.2.line = k)).filter
      (·.2.column ≤ column) ↔ e ∈ (boundaries text).filter (·.2.line = k) ∧ e.2.column ≤ column := by
    intro e
    rw [List.mem_filter, decide_eq_true_eq]
  have hplace := hmem.2 ⟨mem_onLine hk hfront, show utf16Length front ≤ column by omega⟩
  generalize ((boundaries text).filter (·.2.line = k)).filter (·.2.column ≤ column) = upto
    at hord hmem hplace ⊢
  obtain ⟨⟨n, q⟩, hq⟩ : ∃ e, upto.getLast? = some e :=
    ⟨_, List.getLast?_eq_some_getLast (List.ne_nil_of_mem hplace)⟩
  rcases eq_or_rel_of_getLast? hord hq hplace with heq | hprec
  · rw [hq, heq]
  · -- a later entry would stand in the middle of a character
    obtain ⟨hentry, hle⟩ := hmem.1 (List.mem_of_getLast? hq)
    obtain ⟨hline, front', hfront', -, hcolumn'⟩ := (mem_onLine_iff hk).1 hentry
    have hlt : utf16Length front < q.column := by
      rcases hprec.2 with hlt | hlt
      · exact absurd hline (Nat.ne_of_gt hlt)
      · exact hlt.2
    dsimp only at hle
    rcases hcolumn with heq | ⟨hpair, heq⟩
    · omega
    · have hsame : column = utf16Length front' := by omega
      exact absurd (hsame ▸ hpair) (not_inPair hfront')

/-- The offset of a position, looked up in the table of boundaries. -/
theorem toOffset?_eq_lookup (text : String) (p : Position) :
    toOffset? text p =
      ((boundaries text).filter (·.2.line = p.line)).getLast?.bind fun last =>
        if p.column ≤ last.2.column then
          (((boundaries text).filter (·.2.line = p.line)).filter
            (·.2.column ≤ p.column)).getLast?.map (·.1)
        else none := by
  by_cases hk : p.line < lineCount text
  · obtain ⟨last, hlast⟩ := exists_last hk
    rw [hlast, Option.bind_some, column_of_getLast? hk hlast]
    by_cases hc : p.column ≤ utf16Length (shown text.toList p.line)
    · obtain ⟨front, hfront, hoffset, hcolumn⟩ := toOffset?_of_le hk hc
      rw [if_pos hc, hoffset, getLast?_upto hk hfront hcolumn, Option.map_some]
    · rw [if_neg hc, toOffset?_eq_none fun h => hc h.2]
  · rw [onLine_eq_nil hk, toOffset?_eq_none fun h => hk h.1]
    rfl

/-- A position has an offset exactly if there is such a line and its columns reach as far. The offset
is a place between two characters of the line, and its position is the one asked for, except that a
column in the middle of a character gives way to the one before it. -/
theorem toOffset?_onLine (text : String) (p : Position) :
    ((toOffset? text p).isSome ↔ p.line < lineCount text ∧
      p.column ≤ utf16Length (shown text.toList p.line)) ∧
    ∀ n, toOffset? text p = some n →
      String.Pos.Raw.IsValid text ⟨n⟩ ∧ n ≤ text.utf8ByteSize ∧
      lineStart text.toList p.line ≤ n ∧
      n ≤ lineStart text.toList p.line + byteLength (shown text.toList p.line) ∧
      (¬ InPair (shown text.toList p.line) p.column ∧ ofOffset? text n = some p ∨
        InPair (shown text.toList p.line) p.column ∧
          ofOffset? text n = some ⟨p.line, p.column - 1⟩) := by
  by_cases hp : p.line < lineCount text ∧ p.column ≤ utf16Length (shown text.toList p.line)
  swap
  · simp [toOffset?_eq_none hp, hp]
  obtain ⟨front, hfront, hoffset, hcolumn⟩ := toOffset?_of_le hp.1 hp.2
  have hentry : (lineStart text.toList p.line + byteLength front,
      ⟨p.line, utf16Length front⟩) ∈ boundaries text :=
    (List.mem_filter.mp (mem_onLine hp.1 hfront)).1
  refine ⟨by simp [hoffset, hp], fun n hn => ?_⟩
  obtain rfl := Option.some.inj (hoffset.symm.trans hn)
  refine ⟨isValid_iff_mem_boundaries.mpr ⟨_, hentry⟩, le_size_of_mem_boundaries hentry,
    Nat.le_add_right _ _, ?_, ?_⟩
  · obtain ⟨back, hback⟩ := hfront
    rw [← hback, byteLength_append]
    omega
  · rw [ofOffset?_of_mem hentry]
    rcases hcolumn with heq | ⟨hpair, heq⟩
    · rw [← heq]
      exact .inl ⟨heq ▸ not_inPair hfront, rfl⟩
    · exact .inr ⟨hpair, by rw [heq, Nat.add_sub_cancel]⟩

/-- The first line goes up to its `\r`, and a column in the middle of its last character leads to the
start of it. -/
theorem toOffset?_onLine_pair :
    ∃ n, toOffset? "a😀\r\nb" ⟨0, 2⟩ = some n ∧
      String.Pos.Raw.IsValid "a😀\r\nb" ⟨n⟩ ∧ n ≤ "a😀\r\nb".utf8ByteSize ∧
      lineStart "a😀\r\nb".toList 0 ≤ n ∧
      n ≤ lineStart "a😀\r\nb".toList 0 + byteLength (shown "a😀\r\nb".toList 0) ∧
      (¬ InPair (shown "a😀\r\nb".toList 0) 2 ∧ ofOffset? "a😀\r\nb" n = some ⟨0, 2⟩ ∨
        InPair (shown "a😀\r\nb".toList 0) 2 ∧ ofOffset? "a😀\r\nb" n = some ⟨0, 2 - 1⟩) :=
  ⟨1, by decide, (toOffset?_onLine "a😀\r\nb" ⟨0, 2⟩).2 1 (by decide)⟩

end Position

end CueScope
