import CueScope.Editor.Store
import CueScope.Proofs.Text.Conversion

/-!
# Editor and server hold the same text

An editor changes its own copy of a text by bytes (`Change`), and tells the server where by lines
and columns of the text before the change (`Change.encode?`). The server plays the edits one after
the other on its copy.

* `exists_cut`: two offsets between characters cut a text into three.
* `apply_encode`: one edit, played on the text it was encoded on.
* `edited_encodeAll`: a whole list of them, through a handle.
-/

namespace CueScope

/-- A change of the editor's own copy of a text. -/
inductive Change where
  | whole (new : String)
  /-- The bytes from `start` to `stop` give way to `new`. -/
  | splice (start stop : Nat) (new : String)
deriving DecidableEq, Repr

namespace Change

/-- The text after a change. -/
def apply (text : String) : Change → String
  | .whole new => new
  | .splice start stop new =>
    String.Pos.Raw.extract text 0 ⟨start⟩ ++ new ++
      String.Pos.Raw.extract text ⟨stop⟩ text.rawEndPos

/-- The change can be made: its ends are in order and fall between characters of the text. -/
def Fits (text : String) : Change → Prop
  | .whole _ => True
  | .splice start stop _ =>
    start ≤ stop ∧ String.Pos.Raw.IsValid text ⟨start⟩ ∧ String.Pos.Raw.IsValid text ⟨stop⟩

instance (text : String) (c : Change) : Decidable (c.Fits text) := by
  cases c <;> unfold Fits <;> infer_instance

/-- How the editor tells the server. -/
def encode? (text : String) : Change → Option Edit
  | .whole new => some ⟨none, new⟩
  | .splice start stop new =>
    (Position.ofOffset? text start).bind fun first =>
      (Position.ofOffset? text stop).map fun last => ⟨some ⟨first, last⟩, new⟩

/-- The text after several changes. -/
def applyAll (changes : List Change) (text : String) : String := changes.foldl apply text

/-- Each change can be made on the text that the ones before it left. -/
def FitAll : List Change → String → Prop
  | [], _ => True
  | c :: cs, text => c.Fits text ∧ FitAll cs (c.apply text)

instance decidableFitAll : (changes : List Change) → (text : String) → Decidable (FitAll changes text)
  | [], _ => .isTrue trivial
  | c :: cs, text =>
    have := decidableFitAll cs (c.apply text)
    inferInstanceAs (Decidable (c.Fits text ∧ FitAll cs (c.apply text)))

/-- How the editor tells the server about several changes, each in terms of the text before it. -/
def encodeAll : List Change → String → Option (List Edit)
  | [], _ => some []
  | c :: cs, text =>
    (c.encode? text).bind fun e => (encodeAll cs (c.apply text)).map (e :: ·)

end Change

/-! ## One edit -/

/-- Two offsets between characters, in order, cut a text into three. -/
theorem Text.exists_cut {text : String} {start stop : Nat} (hle : start ≤ stop)
    (hstart : String.Pos.Raw.IsValid text ⟨start⟩) (hstop : String.Pos.Raw.IsValid text ⟨stop⟩) :
    ∃ front cut back, text.toList = front ++ cut ++ back ∧ Text.byteLength front = start ∧
      Text.byteLength front + Text.byteLength cut = stop := by
  obtain ⟨front, rest, hfront, hs⟩ :=
    Position.mem_boundariesFrom_iff.mp (Position.isValid_iff_mem_boundaries.mp hstart)
  obtain ⟨upto, back, hupto, ht⟩ :=
    Position.mem_boundariesFrom_iff.mp (Position.isValid_iff_mem_boundaries.mp hstop)
  rw [Nat.zero_add] at hs ht
  rcases List.append_eq_append_iff.mp (hfront.symm.trans hupto) with ⟨cut, rfl, -⟩ | ⟨extra, rfl, -⟩
  · exact ⟨front, cut, back, hupto, hs.symm, by rw [ht, Text.byteLength_append]⟩
  · -- `start` is not behind `stop`, so nothing is left between them.
    rw [Text.byteLength_append] at hs
    refine ⟨upto, [], back, by rw [List.append_nil]; exact hupto, by omega, ?_⟩
    rw [Text.byteLength_nil]
    omega

theorem Text.replace?_of_cut {text : String} {front cut back : List Char}
    (h : text.toList = front ++ cut ++ back) (new : String) :
    Text.replace? text (Text.byteLength front) (Text.byteLength front + Text.byteLength cut) new =
      some (String.ofList (front ++ new.toList ++ back)) := by
  unfold Text.replace?
  rw [if_pos (Nat.le_add_right _ _), h, List.append_assoc, Text.splitAtByte_append]
  simp only [Option.bind_some, Nat.add_sub_cancel_left, Text.splitAtByte_append, Option.map_some]

/-- A cut that is given in bytes replaces exactly what was cut. -/
theorem Change.apply_of_cut {text : String} {front cut back : List Char}
    (h : text.toList = front ++ cut ++ back) (new : String) :
    (Change.splice (Text.byteLength front) (Text.byteLength front + Text.byteLength cut) new).apply
      text = String.ofList (front ++ new.toList ++ back) := by
  obtain rfl : text = String.ofList (front ++ cut ++ back) := by rw [← h, String.ofList_toList]
  have hfront := String.extract_of_valid [] front (cut ++ back)
  have hback := String.extract_of_valid (front ++ cut) back []
  rw [List.nil_append, String.utf8Len_nil, Nat.zero_add, ← List.append_assoc] at hfront
  rw [List.append_nil, ← String.utf8Len_append, String.utf8Len_append front cut] at hback
  simp only [Change.apply, Text.byteLength_eq_utf8Len]
  rw [show (0 : String.Pos.Raw) = ⟨0⟩ from rfl, hfront, String.rawEndPos_ofList, hback]
  simp only [String.ofList_append, String.ofList_toList]

/-- A change that can be made can be told, and the server makes the same of it. -/
theorem Change.apply_encode {text : String} {c : Change} (h : c.Fits text) :
    ∃ e, c.encode? text = some e ∧ e.apply text = .ok (c.apply text) := by
  cases c with
  | whole new => exact ⟨⟨none, new⟩, rfl, rfl⟩
  | splice start stop new =>
    obtain ⟨hle, hstart, hstop⟩ := h
    obtain ⟨first, hfirst⟩ := Position.isValid_iff_mem_boundaries.mp hstart
    obtain ⟨last, hlast⟩ := Position.isValid_iff_mem_boundaries.mp hstop
    refine ⟨⟨some ⟨first, last⟩, new⟩, ?_, ?_⟩
    · rw [Change.encode?, Position.ofOffset?_of_mem hfirst, Position.ofOffset?_of_mem hlast]
      rfl
    · obtain ⟨front, cut, back, htext, rfl, rfl⟩ := Text.exists_cut hle hstart hstop
      simp only [Edit.apply, Position.toOffset, Position.toOffset?_of_mem hfirst,
        Position.toOffset?_of_mem hlast, bind, Except.bind, Text.replace?_of_cut htext,
        Change.apply_of_cut htext]

/-! ## A list of edits -/

/-- By induction on the changes, each is encoded for the text that the ones before it gave. -/
theorem Change.applyAll_encodeAll {changes : List Change} {text : String}
    (h : FitAll changes text) :
    ∃ edits, encodeAll changes text = some edits ∧
      Edit.applyAll edits text = .ok (applyAll changes text) := by
  induction changes generalizing text with
  | nil => exact ⟨[], rfl, rfl⟩
  | cons c cs ih =>
    obtain ⟨hc, hcs⟩ := h
    obtain ⟨e, he, happly⟩ := Change.apply_encode hc
    obtain ⟨edits, hedits, hall⟩ := ih hcs
    refine ⟨e :: edits, by rw [encodeAll, he, hedits]; rfl, ?_⟩
    unfold Edit.applyAll at hall ⊢
    rw [List.foldlM_cons, happly]
    exact hall

/-- Editor and server never drift: whatever the editor does to the text of a document, the edits
it sends lead the server to the very same text, through any handle of the document and for any
version above the present one. -/
theorem Store.edited_encodeAll (s : Store) (h : Handle) (d : Document)
    (hd : s.get? h.document = some d) (changes : List Change) (hfit : Change.FitAll changes d.text)
    (version : Int) (hversion : d.version < version) :
    ∃ edits, Change.encodeAll changes d.text = some edits ∧
      s.edited h edits version = .ok (Change.applyAll changes d.text) := by
  obtain ⟨edits, hedits, hall⟩ := Change.applyAll_encodeAll hfit
  refine ⟨edits, hedits, ?_⟩
  simp only [Store.edited, hd, Document.edited, Document.supersede, if_pos hversion, bind,
    Except.bind]
  exact hall

/-- A document whose text has a line break of two characters and a character of two units. -/
def crlfDocument : Document :=
  { uri := ⟨"file", none, "/a.cue", none, none⟩
    path := .ofText "/a.cue"
    language := "cue"
    text := "a\r\n😀"
    version := 1 }

/-- A `\r\n` is cut apart, and the pair of units of a character behind it is then replaced. -/
theorem Store.edited_encodeAll_crlf :
    Change.FitAll [.splice 1 2 "", .splice 2 6 "é"] "a\r\n😀" ∧
      ∃ edits, Change.encodeAll [.splice 1 2 "", .splice 2 6 "é"] "a\r\n😀" = some edits ∧
        Store.edited { documents := [crlfDocument] } ⟨0, 0⟩ edits 2 = .ok "a\né" := by
  have hfit : Change.FitAll [.splice 1 2 "", .splice 2 6 "é"] "a\r\n😀" := by decide
  have hlast : Change.applyAll [.splice 1 2 "", .splice 2 6 "é"] "a\r\n😀" = "a\né" := by decide
  refine ⟨hfit, ?_⟩
  rw [← hlast]
  exact Store.edited_encodeAll _ ⟨0, 0⟩ crlfDocument rfl _ hfit 2 (by decide)

end CueScope
