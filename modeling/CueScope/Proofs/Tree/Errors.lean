import CueScope.Proofs.Text.Conversion
import CueScope.Proofs.Tree.Arranged
import CueScope.Proofs.Tree.Located
import CueScope.Proofs.Tree.Positions
import CueScope.Source

/-!
# Syntax errors of a text

* `ReadIn`: the texts that are read at a text of a file, those of string parts included.
* `SyntaxError.Backward`: an error about a closing bracket whose range goes back to the token before it.
* `SyntaxError.Placed`: where an error stands, and how an editor shows it.
* `SourceTree.parse_errors_placed`: all errors of every text are placed. The end of a range is before
  its start exactly where the error is a backward one.
* `SourceTree.collected`: the errors as they are met, where a string that is read again has its errors
  again.
* `SourceTree.parse_errors_nodup_iff`: an error is there twice exactly if it was met twice, with a
  different one of its range in between.
-/

namespace CueScope

open Grammar Rule

/-! ## Texts that are read -/

/-- The text `text` at `offset` is read where the text of a file is: it is that text, or the body of a
string part in a text that is read. -/
inductive Tree.ReadIn (F : FileId) (source : List Char) : Nat → List Char → Prop
  | whole : ReadIn F source 0 source
  | part {offset text t p w} : ReadIn F source offset text → t ∈ (Token.tokenize F offset text).1 →
      p ∈ t.val.parts → Stands source p w → ReadIn F source p.start w

variable {F : FileId} {source : String} {offset : Nat} {text : List Char} {e : SyntaxError}

theorem Tree.ReadIn.exists_append {source : List Char} (h : ReadIn F source offset text) :
    ∃ pre post, source = pre ++ text ++ post ∧ offset = Text.byteLength pre := by
  cases h with
  | whole => exact ⟨[], [], by simp, rfl⟩
  | part _ _ _ hp =>
    obtain ⟨pre, post, hsource, hstart, -⟩ := hp
    exact ⟨pre, post, hsource, hstart⟩

/-- What stands in a text that is read stands in the file. -/
theorem Tree.ReadIn.stands {source : List Char} {span : Span} {w : List Char}
    (h : ReadIn F source offset text) (hw : StandsFrom offset text span w) : Stands source span w := by
  obtain ⟨pre, post, rfl, rfl⟩ := h.exists_append
  exact hw.stands

theorem Tree.ReadIn.fits {t : Spanned Token} (h : ReadIn F source.toList offset text)
    (ht : t ∈ (Token.tokenize F offset text).1) : t.span.Fits F source :=
  (h.stands (Token.tokenize_standsFrom ht)).fits ((Token.tokenize_lined F offset text).file t ht)

/-! ## Backward ranges -/

/-- The error is about a closing bracket `u`, where something else was expected, and its range goes
from there back to the end of the token before it. -/
def SyntaxError.Backward (F : FileId) (source : List Char) (e : SyntaxError) : Prop :=
  ∃ offset text t u more, Tree.ReadIn F source offset text ∧
    [t, u] <:+: (Token.tokenize F offset text).1 ∧ (u.val = .rbrace ∨ u.val = .rparen) ∧
    t.span.stop < u.span.start ∧
    e = (Fault.unexpected ⟨F, u.span.start, t.span.stop⟩ (some u.val)
      (.somethingElse :: more)).toError Token.name

namespace SyntaxError

theorem Backward.stop_lt {source : List Char} (h : e.Backward F source) :
    e.span.stop < e.span.start := by
  obtain ⟨offset, text, t, u, more, -, -, -, hlt, rfl⟩ := h
  exact hlt

/-- Read forwards, the range is one of the text. -/
theorem Backward.fits (h : e.Backward F source.toList) :
    (⟨e.span.file, e.span.stop, e.span.start⟩ : Span).Fits F source := by
  obtain ⟨offset, text, t, u, more, hread, htu, -, hlt, rfl⟩ := h
  have ht : t.span.Fits F source := hread.fits (htu.subset (by simp))
  have hu : u.span.Fits F source := hread.fits (htu.subset (by simp))
  exact ⟨rfl, Nat.le_of_lt hlt, Nat.le_trans hu.ordered hu.within, ht.stop, hu.start⟩

/-- Where an error of a text stands. -/
structure Placed (F : FileId) (source : String) (e : SyntaxError) : Prop where
  file : e.span.file = F
  within : e.span.start ≤ source.utf8ByteSize ∧ e.span.stop ≤ source.utf8ByteSize
  start : String.Pos.Raw.IsValid source ⟨e.span.start⟩
  stop : String.Pos.Raw.IsValid source ⟨e.span.stop⟩
  backward : e.span.stop < e.span.start ↔ e.Backward F source.toList
  /-- An editor shows the error at a range of its own, which is as ordered as that of the error. -/
  shown : ∀ (s : Sources) (path : Path), s.get? F = some ⟨path, source⟩ →
    ∃ r, s.range? e.span = some r ∧ (r.stop.Before r.start ↔ e.span.stop < e.span.start)

/-- An error with both ends between characters is in its place. -/
theorem Placed.of_valid (hfile : e.span.file = F)
    (hstart : String.Pos.Raw.IsValid source ⟨e.span.start⟩)
    (hstop : String.Pos.Raw.IsValid source ⟨e.span.stop⟩)
    (hback : e.span.stop < e.span.start ↔ e.Backward F source.toList) : e.Placed F source := by
  obtain ⟨p, hp⟩ := Position.isValid_iff_mem_boundaries.1 hstart
  obtain ⟨q, hq⟩ := Position.isValid_iff_mem_boundaries.1 hstop
  refine ⟨hfile, ⟨Position.le_size_of_mem_boundaries hp, Position.le_size_of_mem_boundaries hq⟩,
    hstart, hstop, hback, fun s path hs => ⟨⟨p, q⟩, ?_, ?_⟩⟩
  · rw [Sources.range?, hfile, hs]
    simp [Position.ofOffset?_of_mem hp, Position.ofOffset?_of_mem hq]
  · exact Position.before_iff_of_mem hq hp

/-- The range of an error is one of the text, or it is a backward one. -/
def Sound (F : FileId) (source : String) (e : SyntaxError) : Prop :=
  e.span.Fits F source ∨ e.Backward F source.toList

theorem Sound.placed (h : e.Sound F source) : e.Placed F source := by
  rcases h with h | h
  · refine .of_valid h.file h.start h.stop ⟨fun hlt => ?_, Backward.stop_lt⟩
    exact absurd h.ordered (Nat.not_le.2 hlt)
  · exact .of_valid h.fits.file h.fits.stop h.fits.start ⟨fun _ => h, Backward.stop_lt⟩

end SyntaxError

namespace Tree

/-! ## Texts and the bodies in them -/

/-- Where errors are expected, the text of the file has a range. -/
theorem ground_covers {bodies : Bodies} {ts : List (Spanned Token)} {finish span : Span}
    (hF : InOrder F ts) (hts : ∀ t ∈ ts, t.span.Fits F source ∧ t.span.stop ≤ finish.stop)
    (hfinish : finish.Fits F source) (h : (ground bodies ts finish).Covers span) :
    span.Fits F source := by
  have hcover : ∀ {m : List (Spanned Token)}, m ≠ [] → m <:+: ts → (cover m).Fits F source :=
    fun hne hm => cover_fits (hF.sublist hm.sublist) (fun t ht => (hts t (hm.subset ht)).1) hne
  cases h with
  | items hne hm => exact hcover hne hm
  | behind hne hm =>
    have hfits := hcover hne hm
    exact ⟨hfits.file, Nat.le_refl _, hfits.within, hfits.stop, hfits.stop⟩
  | @whole x hx =>
    obtain ⟨hfits, hle⟩ := hts x (List.mem_of_head? hx)
    exact ⟨hfits.file, Nat.le_trans hfits.ordered hle, hfinish.within, hfits.start, hfinish.stop⟩
  | finish => exact hfinish

section text

variable {α : Type} {bodies : Bodies} {finish : Span}

/-- A fault that is allowed among the tokens of a text that is read is sound. -/
theorem fault_sound {f : Fault Token} (hread : ReadIn F source.toList offset text)
    (hfinish : finish = ⟨F, offset + Text.byteLength text, offset + Text.byteLength text⟩)
    (hf : (ground bodies (Token.tokenize F offset text).1 finish).Allows f) :
    (f.toError Token.name).Sound F source := by
  have hF := (Token.tokenize_lined F offset text).toInOrder
  have hts : ∀ t ∈ (Token.tokenize F offset text).1,
      t.span.Fits F source ∧ t.span.stop ≤ finish.stop := by
    intro t ht
    rw [hfinish]
    exact ⟨hread.fits ht, (Token.tokenize_within ht).2⟩
  have hfits : finish.Fits F source := by
    rw [hfinish]
    exact (hread.stands ⟨text, [], by simp, rfl, rfl⟩ : Stands _ _ []).fits rfl
  cases hf with
  | unexpected hspan => exact .inl (ground_covers hF hts hfits hspan)
  | complaint hspan => exact .inl (ground_covers hF hts hfits hspan)
  | @backward t u more htu hu =>
    rw [ground_items] at htu
    have ht := (hts t (htu.subset (by simp))).1
    have hu' := (hts u (htu.subset (by simp))).1
    have hle : t.span.stop ≤ u.span.start :=
      (List.pairwise_cons.1 (hF.sublist htu.sublist).sorted).1 u (by simp)
    rcases Nat.lt_or_eq_of_le hle with hlt | heq
    · exact .inr ⟨offset, text, t, u, more, hread, htu, hu, hlt, by rw [hu'.file]⟩
    · exact .inl ⟨hu'.file, Nat.le_of_eq heq.symm, ht.within, hu'.start, ht.stop⟩

/-- The errors of a text that is read are sound if those of the string parts in it are. -/
theorem errors_sound {r : Rule Token α} (hread : ReadIn F source.toList offset text)
    (hfinish : finish = ⟨F, offset + Text.byteLength text, offset + Text.byteLength text⟩)
    [Located (ground bodies (Token.tokenize F offset text).1 finish) r]
    (hbodies : ∀ t ∈ (Token.tokenize F offset text).1, ∀ p ∈ t.val.parts, ∀ e ∈ (bodies p).2,
      e.Sound F source)
    (he : e ∈ (Token.tokenize F offset text).2 ++
      (run Token.name r (Token.tokenize F offset text).1 finish).2) : e.Sound F source := by
  rcases List.mem_append.1 he with he | he
  · obtain ⟨hfile, w, hw⟩ := Token.tokenize_errors he
    exact .inl ((hread.stands hw).fits hfile)
  · obtain ⟨faults, strings, hrun, hfaults, hstrings⟩ :=
      run_errors bodies (Token.tokenize F offset text).1 finish r
    rw [hrun, List.mem_append, List.mem_map, List.mem_flatMap] at he
    obtain ⟨f, hf, rfl⟩ | ⟨t, ht, he⟩ := he
    · exact fault_sound hread hfinish (hfaults f hf)
    · obtain ⟨p, hp, he⟩ := List.mem_flatMap.1 he
      exact hbodies t (hstrings ht) p hp e he

end text

/-- So are the errors of the bodies of string parts, however deep they nest. -/
theorem body_errors (depth : Nat) {t : Spanned Token} {p : Span}
    (hread : ReadIn F source.toList offset text) (ht : t ∈ (Token.tokenize F offset text).1)
    (hp : p ∈ t.val.parts) (he : e ∈ (body F source.toList depth p).2) : e.Sound F source := by
  induction depth generalizing offset text t p e with
  | zero => cases he
  | succ depth ih =>
    obtain ⟨w, hw, -⟩ := Token.tokenize_parts_from ht hp
    have hstands := hread.stands hw
    have hstop : p.stop = p.start + Text.byteLength w := by
      obtain ⟨_, _, -, -, hstop⟩ := hw
      exact hstop
    rw [body_succ hstands] at he
    exact errors_sound (.part hread ht hp hstands) (by rw [hstop])
      (fun u hu q hq e he => ih (.part hread ht hp hstands) hu hq he) he

end Tree

namespace SourceTree

/-- The errors of a text as they are met: those of its tokens, then those of its tree. -/
def collected (F : FileId) (source : String) : List SyntaxError :=
  (Token.tokenize F 0 source.toList).2 ++
    (run Token.name (Tree.file (Tree.body F source.toList source.toList.length))
      (Token.tokenize F 0 source.toList).1
      ⟨F, Text.byteLength source.toList, Text.byteLength source.toList⟩).2

theorem parse_errors (F : FileId) (source : String) :
    (parse F source).2 = SyntaxError.arrange (collected F source) := by
  rw [parse_snd]
  rfl

theorem collected_sound (he : e ∈ collected F source) : e.Sound F source := by
  have hbodies : ∀ t ∈ (Token.tokenize F 0 source.toList).1, ∀ p ∈ t.val.parts,
      ∀ e ∈ (Tree.body F source.toList source.toList.length p).2, e.Sound F source :=
    fun t ht p hp e he => Tree.body_errors _ .whole ht hp he
  exact Tree.errors_sound .whole (by rw [Nat.zero_add]) hbodies he

/-- Every error of a text is placed in it. -/
theorem parse_errors_placed (he : e ∈ (parse F source).2) : e.Placed F source := by
  rw [parse_errors] at he
  exact (collected_sound (SyntaxError.mem_arrange.1 he)).placed

/-- In `x: {a: ] } )` the error about the closing brace goes back to the end of the bracket. -/
theorem stray_error : ∃ e ∈ (parse 0 "x: \x7ba: ] \x7d )").2, e.span = ⟨0, 9, 8⟩ := by
  decide +kernel

theorem parse_errors_placed_stray : ∃ e ∈ (parse 0 "x: \x7ba: ] \x7d )").2,
    e.span = ⟨0, 9, 8⟩ ∧ e.Placed 0 "x: \x7ba: ] \x7d )" := by
  obtain ⟨e, he, hspan⟩ := stray_error
  exact ⟨e, he, hspan, parse_errors_placed he⟩

/-- So an error may end before it starts, in the text and in an editor. -/
theorem parse_errors_reversed : ∃ e ∈ (parse 0 "x: \x7ba: ] \x7d )").2, e.span.stop < e.span.start ∧
    Sources.range? ⟨[⟨⟨[]⟩, "x: \x7ba: ] \x7d )"⟩]⟩ e.span = some ⟨⟨0, 9⟩, ⟨0, 8⟩⟩ := by
  obtain ⟨e, he, hspan⟩ := stray_error
  refine ⟨e, he, ?_⟩
  rw [hspan]
  exact ⟨by decide, by decide +kernel⟩

/-! ## Repeated errors -/

theorem collected_file (he : e ∈ collected F source) : e.span.file = F :=
  (collected_sound he).placed.file

/-- The tokens of a text as an input. -/
def ground (F : FileId) (source : String) : Ground Token :=
  Tree.ground (Tree.body F source.toList source.toList.length) (Token.tokenize F 0 source.toList).1
    ⟨F, Text.byteLength source.toList, Text.byteLength source.toList⟩

/-- The errors of a string come together, as often as it was read. -/
theorem collected_eq (F : FileId) (source : String) :
    ∃ (faults : List (Fault Token)) (strings : List (Spanned Token)),
      collected F source = (Token.tokenize F 0 source.toList).2 ++
        (faults.map (·.toError Token.name) ++
          strings.flatMap (Tree.partErrors (Tree.body F source.toList source.toList.length))) ∧
      (∀ f ∈ faults, (ground F source).Allows f) ∧
      strings ⊆ (Token.tokenize F 0 source.toList).1 := by
  obtain ⟨faults, strings, hrun, hfaults, hstrings⟩ := Tree.run_errors
    (Tree.body F source.toList source.toList.length) (Token.tokenize F 0 source.toList).1
    ⟨F, Text.byteLength source.toList, Text.byteLength source.toList⟩
    (Tree.file (Tree.body F source.toList source.toList.length))
  exact ⟨faults, strings, by rw [collected, hrun], hfaults, hstrings⟩

/-- The errors of a text are those of its tokens, of what they form, and of the parts of strings as often
as these were read. Those of one range stay in this order, and of equal neighbours one is kept, so an
error is there twice exactly if a different one of its range was met in between. -/
theorem parse_errors_nodup_iff (F : FileId) (source : String) :
    (∃ (faults : List (Fault Token)) (strings : List (Spanned Token)),
      collected F source = (Token.tokenize F 0 source.toList).2 ++
        (faults.map (·.toError Token.name) ++
          strings.flatMap (Tree.partErrors (Tree.body F source.toList source.toList.length))) ∧
      (∀ f ∈ faults, (ground F source).Allows f) ∧
      strings ⊆ (Token.tokenize F 0 source.toList).1) ∧
    (∀ span, (parse F source).2.filter (·.span = span) =
      SyntaxError.dropRepeats ((collected F source).filter (·.span = span))) ∧
    ((parse F source).2.Nodup ↔
      ∀ a b, a.span = b.span → a ≠ b → ¬ [a, b, a].Sublist (collected F source)) := by
  rw [parse_errors]
  refine ⟨collected_eq F source, fun span => ?_, ?_⟩
  · exact SyntaxError.filter_arrange span fun e he => collected_file he
  · exact SyntaxError.nodup_arrange_iff fun e he => collected_file he

/-- The string is read as a label and then as an expression, and its part has two errors of one range:
both are there twice. -/
theorem parse_errors_repeated : ¬ (parse 0 "\"\\(x 'y)\"").2.Nodup := by
  have hmet : ∃ a ∈ collected 0 "\"\\(x 'y)\"", ∃ b ∈ collected 0 "\"\\(x 'y)\"",
      a.span = b.span ∧ a ≠ b ∧ [a, b, a].Sublist (collected 0 "\"\\(x 'y)\"") := by
    decide +kernel
  obtain ⟨a, -, b, -, hspan, hne, hsub⟩ := hmet
  rw [parse_errors, SyntaxError.nodup_arrange_iff fun e he => collected_file he]
  exact fun h => h a b hspan hne hsub

end SourceTree

end CueScope
