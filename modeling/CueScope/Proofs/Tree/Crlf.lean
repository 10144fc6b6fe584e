import CueScope.Proofs.Token.Crlf
import CueScope.Proofs.Tree.InPlace
import CueScope.Proofs.Tree.Leaves

/-!
# Trees of texts with other line breaks

* `Stands.crlf`: a text of one line stands where its first byte is found now.
* `crlfPlacement`: how places are moved by line breaks of two characters.
* `SourceTree.parse_crlf`: a source without errors has the same tree with line breaks `\r\n`, moved to
  the places where its characters are found then.
* `SourceTree.parse_crlf_threeQuotes`: that fails where three quotes open no string of several lines.
-/

namespace CueScope

/-- A text of one line stands in the text with other line breaks, too. -/
theorem Stands.crlf {source : List Char} {p : Span} {w : List Char} (h : Stands source p w)
    (hw : '\n' ∉ w) : Stands (Text.crlf source) (p.move (Text.crlfOffset source)) w ∧
      Shifts (Text.crlfOffset source) p.start (Text.byteLength w) := by
  obtain ⟨pre, post, rfl, hstart, hstop⟩ := h
  have hshifts : Shifts (Text.crlfOffset (pre ++ w ++ post)) p.start (Text.byteLength w) := by
    intro i hi
    rw [hstart]
    exact Text.crlfOffset_add hw hi
  refine ⟨⟨Text.crlf pre, Text.crlf post, ?_, ?_, ?_⟩, hshifts⟩
  · rw [Text.crlf_append, Text.crlf_append, Text.crlf_of_not_mem hw]
  · show Text.crlfOffset (pre ++ w ++ post) p.start = _
    rw [hstart, List.append_assoc, Text.crlfOffset_byteLength]
  · show Text.crlfOffset (pre ++ w ++ post) p.stop = _
    rw [hstop]
    exact hshifts _ (Nat.le_refl _)

namespace Tree

open Grammar Rule

/-- How the places of a source text are moved by line breaks of two characters. -/
def crlfPlacement (file : FileId) (source : List Char) : Placement where
  place := Text.crlfOffset source
  mono _ _ := Text.crlfOffset_le
  gap := 1
  before := body file source source.length
  after := body file (Text.crlf source) (Text.crlf source).length

variable {file : FileId} {source : List Char}

/-- The parts of a string on one line are read as before. -/
theorem admits_crlf {t : Spanned Token} (ht : t ∈ (Token.tokenize file 0 source).1)
    (hline : t.val.isLiteral = true → '\n' ∉ t.val.name.toList) :
    (crlfPlacement file source).tokens.admits t.val := by
  intro p hp
  obtain ⟨w, hw, hlt, hin⟩ := Token.tokenize_part_in ht hp
  have hstands : Stands source p w := by
    obtain ⟨as, bs, hsource, hstart, hstop⟩ := hw
    exact ⟨as, bs, hsource, hstart.trans (Nat.zero_add _), hstop⟩
  have hnewline : '\n' ∉ w := by
    intro hmem
    obtain ⟨text, parts, hinterp⟩ : ∃ text parts, t.val = .interp text parts := by
      cases hval : t.val with
      | interp text parts => exact ⟨text, parts, rfl⟩
      | _ => simp [hval, Token.parts] at hp
    refine hline (by rw [hinterp]; rfl) ?_
    rw [← Token.written_eq_name (by simp [hinterp])]
    exact hin.subset hmem
  obtain ⟨hmoved, hshifts⟩ := hstands.crlf hnewline
  exact body_moved (fun _ _ => Text.crlfOffset_le) hstands hmoved hshifts hlt
    (Nat.lt_of_lt_of_le hlt (Text.length_le_length_crlf source))

/-- What the tokens become. -/
theorem items_crlf (hok : (Token.tokenize file 0 source).2 = [])
    (hreg : ∀ t ∈ (Token.tokenize file 0 source).1,
      Token.Regular (Token.characters file 0 source) t) :
    List.Forall₂ (crlfPlacement file source).tokens.Item (Token.tokenize file 0 source).1
      (Token.tokenize file 0 (Text.crlf source)).1 := by
  obtain ⟨hsame, -⟩ := Token.tokenize_crlf hok hreg
  have hadmits : ∀ t ∈ (Token.tokenize file 0 source).1,
      (crlfPlacement file source).tokens.admits t.val := fun t ht => admits_crlf ht (hreg t ht).line
  generalize (Token.tokenize file 0 source).1 = ts, (Token.tokenize file 0 (Text.crlf source)).1 = us
    at hsame hadmits
  clear hreg
  induction hsame with
  | nil => exact .nil
  | @cons t u ts us htu _ ih =>
    refine .cons ⟨hadmits t List.mem_cons_self, htu.1, ?_⟩
      (ih fun t ht => hadmits t (List.mem_cons_of_mem _ ht))
    have hiff : (Token.moveSpanned (Text.crlfOffset source) t).val = .newline ↔ t.val = .newline :=
      Token.move_eq_iff (by simp)
    rw [htu.2]
    simp only [hiff]
    rfl

/-- The end of the text. -/
theorem finish_crlf (file : FileId) (source : List Char) :
    (⟨file, Text.byteLength (Text.crlf source), Text.byteLength (Text.crlf source)⟩ : Span) =
      Span.move (Text.crlfOffset source) ⟨file, Text.byteLength source, Text.byteLength source⟩ := by
  have h := Text.crlfOffset_byteLength source []
  rw [List.append_nil] at h
  rw [Span.move, h]

/-- From moved tokens the same file is read without errors, if it is read without errors. -/
theorem run_file_moved {S : Placement} {ts us : List (Spanned Token)} {finish finish' : Span}
    (hitems : List.Forall₂ S.tokens.Item ts us) (hfinish : finish' = finish.move S.place)
    (hok : (run Token.name (Tree.file S.before) ts finish).2 = []) :
    run Token.name (Tree.file S.after) us finish' =
      ((run Token.name (Tree.file S.before) ts finish).1.map fun a =>
        (a.1.map (PackageClause.move S.place), a.2.1.map (ImportSpec.move S.place),
          a.2.2.map (Decl.move S.place)), []) := by
  have hvalue := run_value_moved Token.name file_moved hitems hfinish
  have hcount := run_length_moved Token.name file_moved hitems hfinish
  rw [hok, List.length_nil, List.length_eq_zero_iff] at hcount
  exact Prod.ext (eq_map_of_rel hvalue) hcount

/-- A character stands where it is found. -/
theorem stands_character {x : Spanned Char} (hx : x ∈ Token.characters file 0 source) :
    Stands source x.span [x.val] := by
  obtain ⟨pre, post, hl⟩ := List.append_of_mem hx
  have hl : Token.characters file 0 source = pre ++ [x] ++ post := by simpa using hl
  obtain ⟨as, w, bs, rfl, rfl, hx⟩ := Token.characters_split hl
  have hx : x = ⟨x.val, file, 0 + Text.byteLength as, 0 + Text.byteLength as + x.val.utf8Size⟩ :=
    (List.cons.inj hx).1
  rw [hx]
  exact ⟨as, bs, rfl, Nat.zero_add _, rfl⟩

end Tree

/-- The tokens of a text without lexical errors are regular, if no literal has a newline in it, and no
empty one another quote of its kind behind it. -/
theorem Token.regular_of_slice {file : FileId} {source : String} {t : Spanned Token}
    (ht : t ∈ (tokenize file 0 source.toList).1) (hok : (tokenize file 0 source.toList).2 = [])
    (hline : t.val.isLiteral = true → '\n' ∉ t.val.name.toList)
    (hquotes : ∀ q ∈ ['"', '\''], t.val = .str (String.ofList [q, q]) →
      Text.slice? source t.span.stop (t.span.stop + 1) ≠ some (String.ofList [q])) :
    Regular (characters file 0 source.toList) t := by
  refine ⟨tokenize_unbroken hok ht, hline, fun q hq hempty x hx hstart hval => hquotes q hq hempty ?_⟩
  have hstands := Tree.stands_character hx
  have hslice := hstands.slice?
  obtain ⟨-, -, -, -, hstop⟩ := hstands
  have hsize : Text.byteLength [q] = 1 := by
    simp only [List.mem_cons, List.not_mem_nil, or_false] at hq
    rcases hq with rfl | rfl <;> decide
  rwa [hstop, hval, hsize, hstart] at hslice

theorem SyntaxError.arrange_nil : arrange [] = [] := by simp [arrange, dropRepeats]

/-- Line breaks do not matter: the text with `\r\n` for each `\n` has no errors either, and the same
tree at the places where its characters are found then. No literal has a newline in it, and none that
is empty is followed by another quote of its kind, which would make it three. -/
theorem SourceTree.parse_crlf {file : FileId} {source : String} (hok : (parse file source).2 = [])
    (hline : ∀ t ∈ (Token.tokenize file 0 source.toList).1, t.val.isLiteral = true →
      '\n' ∉ t.val.name.toList)
    (hquotes : ∀ t ∈ (Token.tokenize file 0 source.toList).1, ∀ q ∈ ['"', '\''],
      t.val = .str (String.ofList [q, q]) →
        Text.slice? source t.span.stop (t.span.stop + 1) ≠ some (String.ofList [q])) :
    parse file (String.ofList (Text.crlf source.toList)) =
      ((parse file source).1.move (Text.crlfOffset source.toList), []) := by
  unfold parse at hok ⊢
  dsimp only at hok ⊢
  rw [String.toList_ofList]
  obtain ⟨hlexical, herrors⟩ := List.append_eq_nil_iff.1 (SyntaxError.arrange_eq_nil hok)
  have hreg : ∀ t ∈ (Token.tokenize file 0 source.toList).1,
      Token.Regular (Token.characters file 0 source.toList) t :=
    fun t ht => Token.regular_of_slice ht hlexical (hline t ht) (hquotes t ht)
  obtain ⟨-, hclean⟩ := Token.tokenize_crlf hlexical hreg
  obtain ⟨x, hx⟩ := Grammar.Rule.exists_of_run_eq_nil herrors
  have hfinish := congrArg Span.stop (Tree.finish_crlf file source.toList)
  have hrun := Tree.run_file_moved (Tree.items_crlf hlexical hreg)
    (Tree.finish_crlf file source.toList) herrors
  simp only [Tree.crlfPlacement] at hrun
  rw [hrun, hx, hclean, List.append_nil, SyntaxError.arrange_nil]
  simp only [Option.map_some, Option.getD_some, move, Span.move, Text.crlfOffset_zero] at hfinish ⊢
  rw [hfinish]

/-- Comments, an empty string, a string with a part and a struct over several lines. -/
def SourceTree.severalLines : String :=
  "package p // c\nimport \"m\"\na: \"\"\nb: \x7b // d\n\tc: \"x\\(a + 1)\"\n\x7d\n"

theorem SourceTree.parse_crlf_severalLines :
    ((parse 0 severalLines).2 = [] ∧
      (∀ t ∈ (Token.tokenize 0 0 severalLines.toList).1, t.val.isLiteral = true →
        '\n' ∉ t.val.name.toList) ∧
      ∀ t ∈ (Token.tokenize 0 0 severalLines.toList).1, ∀ q ∈ ['"', '\''],
        t.val = .str (String.ofList [q, q]) →
          Text.slice? severalLines t.span.stop (t.span.stop + 1) ≠ some (String.ofList [q])) ∧
    parse 0 (String.ofList (Text.crlf severalLines.toList)) =
      ((parse 0 severalLines).1.move (Text.crlfOffset severalLines.toList), []) := by
  have hok : (parse 0 severalLines).2 = [] := by decide +kernel
  have hline : ∀ t ∈ (Token.tokenize 0 0 severalLines.toList).1, t.val.isLiteral = true →
      '\n' ∉ t.val.name.toList := by decide +kernel
  have hquotes : ∀ t ∈ (Token.tokenize 0 0 severalLines.toList).1, ∀ q ∈ ['"', '\''],
      t.val = .str (String.ofList [q, q]) →
        Text.slice? severalLines t.span.stop (t.span.stop + 1) ≠ some (String.ofList [q]) := by
    intro t ht q hq
    -- one quote at a time, else every character there is may be tried
    revert t
    simp only [List.mem_cons, List.not_mem_nil, or_false] at hq
    rcases hq with rfl | rfl
    · decide +kernel
    · decide +kernel
  exact ⟨⟨hok, hline, hquotes⟩, parse_crlf hok hline hquotes⟩

/-- An import whose path is empty, with a string right behind it. The three quotes open no string of
several lines: the quotes that could close it are in a part, whose string goes on over an escaped
newline. The carriage return is escaped instead of the newline, then there is no such part. -/
def SourceTree.threeQuotes : String := "import \"\"\"x\"\n//\\(\"\"\"\"\"\\\n\")\""

/-- Where an empty literal is followed by another quote, line breaks do matter. -/
theorem SourceTree.parse_crlf_threeQuotes :
    (parse 0 threeQuotes).2 = [] ∧
    (∀ t ∈ (Token.tokenize 0 0 threeQuotes.toList).1, t.val.isLiteral = true →
      '\n' ∉ t.val.name.toList) ∧
    parse 0 (String.ofList (Text.crlf threeQuotes.toList)) ≠
      ((parse 0 threeQuotes).1.move (Text.crlfOffset threeQuotes.toList), []) := by
  have hok : (parse 0 threeQuotes).2 = [] := by decide +kernel
  have hline : ∀ t ∈ (Token.tokenize 0 0 threeQuotes.toList).1, t.val.isLiteral = true →
      '\n' ∉ t.val.name.toList := by decide +kernel
  have herrors : (parse 0 (String.ofList (Text.crlf threeQuotes.toList))).2 ≠ [] := by decide +kernel
  exact ⟨hok, hline, fun h => herrors (congrArg Prod.snd h)⟩

end CueScope
