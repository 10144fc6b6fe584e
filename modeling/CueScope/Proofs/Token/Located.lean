import CueScope.Proofs.Grammar.Located
import CueScope.Proofs.Token.Text

/-!
# Where lexical errors stand

* `Located` instances for the words of the language.
* `tokenize_errors`: the range of a lexical error is a stretch of the text.
-/

namespace CueScope.Token

open Grammar Rule

variable {G : Ground Char}

instance : Located G escape := by
  unfold escape
  infer_instance

instance : Located G partBody := .recursive fun _ _ => by
  dsimp only
  infer_instance

instance : Located G part := by
  unfold part
  infer_instance

instance (q : List Char) (plain : Rule Char Char) [Located G plain] :
    Located G (quotedBy q plain) := by
  unfold quotedBy
  infer_instance

instance : Located G string := by
  have hchoice : Located G
      (choice [multiLine '"', multiLine '\'', singleLine '"', singleLine '\'']) := by
    unfold multiLine singleLine
    infer_instance
  refine ⟨string_at.tame, fun s hs hh => ?_⟩
  unfold string
  split
  · rename_i ps t ht
    exact hchoice.after hs hh ht
  · rename_i t ht
    exact hchoice.after hs hh ht

instance : Located G rawString := by
  unfold rawString
  infer_instance

/-- The complaint is about all that was read. -/
instance : Located G brokenString := by
  have hline : Consumes (recognized do
      let _ ← oneOf ['"', '\'']
      many (noneOf ['\n'])) := inferInstance
  unfold brokenString
  refine Located.bind_of inferInstance inferInstance fun {s x t} hs hrun hh => ?_
  obtain ⟨m, hne, hm, hspan⟩ := spanned_covers hs hrun
  refine holds_complain hh ?_
  rw [hspan]
  exact .items hne hm

instance : Located G digits := by
  unfold digits
  infer_instance

instance : Located G radixNumber := by
  unfold radixNumber
  infer_instance

instance : Located G decimalNumber := by
  unfold decimalNumber
  infer_instance

instance : Located G identifier := by
  unfold identifier
  infer_instance

instance (text : String) (t : Token) : Located G (spelled text t) := by
  unfold spelled
  infer_instance

instance : Located G sign := by
  unfold sign
  infer_instance

instance : Located G token := by
  unfold token
  infer_instance

instance : Located G padding := by
  unfold padding
  infer_instance

instance : Located G tokens := by
  unfold tokens
  infer_instance

/-! ## Errors of a text -/

/-- The characters of a text as an input. -/
def ground (file : FileId) (offset : Nat) (text : List Char) : Ground Char where
  items := characters file offset text
  finish := ⟨file, offset + Text.byteLength text, offset + Text.byteLength text⟩
  closing _ := False
  told _ := False

/-- Where errors are expected, a stretch of the text stands, which may be empty. -/
theorem ground_covers {file : FileId} {offset : Nat} {text : List Char} {span : Span}
    (h : (ground file offset text).Covers span) :
    span.file = file ∧ ∃ w, StandsFrom offset text span w := by
  cases h with
  | @items m hne hm =>
    obtain ⟨pre, post, hl⟩ := hm
    rw [cover_stretch hl.symm hne]
    exact ⟨rfl, _, _, _, (characters_stretch hl.symm).1, rfl, rfl⟩
  | @behind m hne hm =>
    obtain ⟨pre, post, hl⟩ := hm
    rw [cover_stretch hl.symm hne]
    refine ⟨rfl, [], pre.map (·.val) ++ m.map (·.val), post.map (·.val), ?_, ?_, rfl⟩
    · rw [List.append_nil]
      exact (characters_stretch hl.symm).1
    · rw [Text.byteLength_append, Nat.add_assoc]
  | @whole x hx =>
    cases text with
    | nil => cases hx
    | cons c cs =>
      cases hx
      exact ⟨rfl, c :: cs, [], [], by simp, rfl, rfl⟩
  | finish => exact ⟨rfl, [], text, [], by simp, rfl, rfl⟩

/-- A lexical error stands at a stretch of the text. -/
theorem tokenize_errors {file : FileId} {offset : Nat} {text : List Char} {e : SyntaxError}
    (he : e ∈ (tokenize file offset text).2) :
    e.span.file = file ∧ ∃ w, StandsFrom offset text e.span w := by
  obtain ⟨faults, blocks, hrun, hfaults, hblocks⟩ :=
    Located.run (G := ground file offset text) (r := tokens) fun c => String.ofList [c]
  unfold tokenize at he
  dsimp only at he
  change e ∈ (run (fun c => String.ofList [c]) tokens (ground file offset text).items
    (ground file offset text).finish).2 at he
  rw [hrun, List.mem_append, List.mem_map, List.mem_flatten] at he
  obtain ⟨f, hf, rfl⟩ | ⟨b, hb, -⟩ := he
  · cases hfaults f hf with
    | unexpected hspan => exact ground_covers hspan
    | complaint hspan => exact ground_covers hspan
    | backward _ hclosing => exact hclosing.elim
  · exact (hblocks b hb).elim

end CueScope.Token
