import CueScope.Text.Literal
import Mathlib.Data.List.Basic

/-!
# What literals stand for

* `Escapes`: characters of which every backslash has one after it. These are the insides that stand
  for a text (`unescape_isSome_iff`).
* `Delimited`: such an inside between single or tripled quotes. A delimited text is the literal of some
  text (`Delimited.unquote_isSome`).
* `quote`: a text as a literal, and `unquote_quote`, which gives the text back.
-/

namespace CueScope.Text

/-! ## Escapes -/

/-- Every backslash has a character after it that it escapes. -/
inductive Escapes : List Char → Prop
  | nil : Escapes []
  | char {c cs} : c ≠ '\\' → Escapes cs → Escapes (c :: cs)
  | escape {c cs} : Escapes cs → Escapes ('\\' :: c :: cs)

variable {q c : Char} {cs raw : List Char}

theorem unescape_char (hc : c ≠ '\\') : unescape (c :: cs) = (unescape cs).map (c :: ·) := by
  rw [unescape]
  · simp [hc]
  · simp [hc]

/-- A text without quotes is unescaped exactly if all its escapes are known. -/
theorem unescape_isSome_iff : (unescape cs).isSome ↔ Escapes cs := by
  constructor
  · intro h
    fun_induction unescape cs with
    | case1 => exact .nil
    | case2 => cases h
    | case3 c cs ih => exact .escape (ih (by simpa using h))
    | case4 c cs hend hescape ih =>
      refine .char ?_ (ih (by simpa using h))
      rintro rfl
      cases cs with
      | nil => exact hend rfl rfl
      | cons d ds => exact hescape d ds rfl rfl
  · intro h
    induction h with
    | nil => rfl
    | char hc _ ih => simpa [unescape_char hc] using ih
    | escape _ ih => simpa [unescape] using ih

/-! ## Quotes -/

/-- An inside between quotes of one kind. Single quotes are not followed by another one, which would
make them tripled. -/
inductive Delimited : List Char → Prop
  | single {q : Char} {cs : List Char} : q ∈ ['"', '\''] → cs.head? ≠ some q → Escapes cs → Delimited (q :: (cs ++ [q]))
  | triple {q : Char} {cs : List Char} : q ∈ ['"', '\''] → Escapes cs → Delimited ([q, q, q] ++ (cs ++ [q, q, q]))

theorem inside_single (hcs : cs.head? ≠ some q) : inside q (q :: (cs ++ [q])) = cs := by
  have htriple : ¬ ((q :: (cs ++ [q])).take 3 = [q, q, q]) := by
    cases cs with
    | nil => simp
    | cons d ds =>
      intro h
      simp only [List.cons_append, List.take_succ_cons, List.cons.injEq] at h
      exact hcs (congrArg some h.2.1)
  rw [inside, if_neg (fun h => htriple h.1)]
  simp

theorem inside_triple : inside q ([q, q, q] ++ (cs ++ [q, q, q])) = cs := by
  rw [inside, if_pos]
  · simp
  · refine ⟨rfl, by simp, ?_⟩
    have hlen : ([q, q, q] ++ (cs ++ [q, q, q])).length - 3 = ([q, q, q] ++ cs).length := by
      simp only [List.length_append, List.length_cons, List.length_nil]
      omega
    rw [hlen, ← List.append_assoc, List.drop_left]

theorem unquote_of_quotes (hq : q ∈ ['"', '\'']) :
    unquote (String.ofList (q :: (cs ++ [q]))) =
      (unescape (inside q (q :: (cs ++ [q])))).map String.ofList := by
  have hquotes : (q = '"' ∨ q = '\'') ∧ (cs ++ [q]).getLast? = some q :=
    ⟨by simpa using hq, by simp⟩
  rw [unquote, String.toList_ofList]
  exact if_pos hquotes

theorem Delimited.unquote_isSome (h : Delimited raw) : (unquote (String.ofList raw)).isSome := by
  cases h with
  | single hq hhead hcs =>
    rw [unquote_of_quotes hq, inside_single hhead, Option.isSome_map]
    exact unescape_isSome_iff.2 hcs
  | @triple q cs hq hcs =>
    have hraw : [q, q, q] ++ (cs ++ [q, q, q]) = q :: (([q, q] ++ cs ++ [q, q]) ++ [q]) := by simp
    rw [hraw, unquote_of_quotes hq, ← hraw, inside_triple, Option.isSome_map]
    exact unescape_isSome_iff.2 hcs

/-! ## Writing literals -/

/-- A character in a literal: quotes and backslashes are escaped, a newline is named. -/
def quoteChar : Char → List Char
  | '\n' => ['\\', 'n']
  | '"' => ['\\', '"']
  | '\\' => ['\\', '\\']
  | c => [c]

/-- The literal of a text. -/
def quote (s : String) : String := String.ofList ('"' :: (s.toList.flatMap quoteChar ++ ['"']))

theorem quoteChar_cases (c : Char) :
    (∃ d, quoteChar c = ['\\', d] ∧ escaped d = c ∧ d ≠ '(') ∨
      (quoteChar c = [c] ∧ c ∉ ['"', '\\', '\n']) := by
  unfold quoteChar
  split
  · exact .inl ⟨'n', rfl, rfl, by decide⟩
  · exact .inl ⟨'"', rfl, rfl, by decide⟩
  · exact .inl ⟨'\\', rfl, rfl, by decide⟩
  · exact .inr ⟨rfl, by simp_all⟩

/-- What is escaped character by character is unescaped to what it was. -/
theorem unescape_flatMap_quoteChar (cs : List Char) : unescape (cs.flatMap quoteChar) = some cs := by
  induction cs with
  | nil => rfl
  | cons c cs ih =>
    rw [List.flatMap_cons]
    rcases quoteChar_cases c with ⟨d, hd, hc, -⟩ | ⟨hc, hplain⟩
    · rw [hd]
      simp [unescape, ih, hc]
    · have hback : c ≠ '\\' := by
        rintro rfl
        simp at hplain
      rw [hc, List.singleton_append, unescape_char hback, ih]
      rfl

/-- The inside of a literal does not start with its quote. -/
theorem flatMap_quoteChar_head (cs : List Char) : (cs.flatMap quoteChar).head? ≠ some '"' := by
  cases cs with
  | nil => simp
  | cons c cs =>
    rw [List.flatMap_cons]
    rcases quoteChar_cases c with ⟨d, hd, -, -⟩ | ⟨hc, hplain⟩
    · simp [hd]
    · simp only [hc, List.singleton_append, List.head?_cons, ne_eq, Option.some.injEq]
      rintro rfl
      simp at hplain

theorem unquote_quote (s : String) : unquote (quote s) = some s := by
  rw [quote, unquote_of_quotes (by decide), inside_single (flatMap_quoteChar_head _),
    unescape_flatMap_quoteChar, Option.map_some, String.ofList_toList]

end CueScope.Text
