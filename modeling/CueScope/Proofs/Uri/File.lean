import CueScope.Proofs.Place
import CueScope.Uri.File
import Mathlib.Data.String.Basic

/-!
# Paths and their URIs

* `percentDecode_percentBytes`: decoding gives back the bytes that were encoded, whatever follows.
* `toPath?_ofPath?`: the URI of an absolute path leads back to the same place. The bytes need not be
  the same: a URI has one slash before each step, and none for a `.` between them.
* `documentPath_ofPath?`: they are the same for a source file at a normal path.
-/

namespace CueScope

/-! ## Percent encoding -/

namespace Text

theorem digit?_percentDigit {n : Nat} (h : n < 16) :
    digit? (if n < 10 then Char.ofNat (48 + n) else Char.ofNat (55 + n)) = some n := by
  have hall : ∀ n : Fin 16,
      digit? (if n.val < 10 then Char.ofNat (48 + n) else Char.ofNat (55 + n)) = some n.val := by
    decide
  exact hall ⟨n, h⟩

theorem utf8EncodeChar_ofNat {b : UInt8} (h : b < 0x7F) :
    String.utf8EncodeChar (Char.ofNat b.toNat) = [b] := by
  have hall : ∀ n : Fin 127, String.utf8EncodeChar (Char.ofNat n.val) = [UInt8.ofNat n.val] := by
    decide
  have := hall ⟨b.toNat, h⟩
  simpa using this

theorem percentDecode_cons {c : Char} (h : c ≠ '%') (cs : List Char) :
    percentDecode (c :: cs) = String.utf8EncodeChar c ++ percentDecode cs := by
  rw [percentDecode]
  rintro a b cs' rfl
  exact absurd rfl h

theorem percentDecode_percentByte (b : UInt8) (cs : List Char) :
    percentDecode (percentByte b ++ cs) = b :: percentDecode cs := by
  have hb := b.toNat_lt
  simp only [percentByte, List.cons_append, List.nil_append, percentDecode]
  rw [digit?_percentDigit (by omega), digit?_percentDigit (by omega)]
  dsimp only
  rw [Nat.div_add_mod, UInt8.ofNat_toNat]

theorem percentDecode_percentBytes {set : List Char} (hset : '%' ∈ set) (bytes : List UInt8)
    (cs : List Char) :
    percentDecode ((percentBytes set bytes).toList ++ cs) = bytes ++ percentDecode cs := by
  unfold percentBytes
  rw [String.toList_ofList]
  induction bytes with
  | nil => rfl
  | cons b bytes ih =>
    rw [List.flatMap_cons, List.append_assoc]
    split
    · rw [percentDecode_percentByte, ih, List.cons_append]
    · rename_i h
      push Not at h
      obtain ⟨-, hascii, hnot⟩ := h
      have hne : Char.ofNat b.toNat ≠ '%' := fun he => hnot (he ▸ hset)
      have hlt : b < 0x7F := UInt8.not_le.1 hascii
      rw [List.cons_append, List.nil_append, percentDecode_cons hne, utf8EncodeChar_ofNat hlt, ih]
      rfl

end Text

/-! ## Steps of absolute paths -/

namespace Path

/-- The bytes of a path from the root that takes the steps. -/
def rooted (steps : List Component) : List UInt8 := steps.flatMap fun c => slash :: c.bytes

/-- The step is what its bytes stand for. -/
def Component.Spelt (c : Component) : Prop := slash ∉ c.bytes ∧ stepOf c.bytes = some c

theorem spelt_of_stepOf {s : Name} {c : Component} (hs : slash ∉ s) (h : stepOf s = some c) :
    c.Spelt := by
  have hbytes : c.bytes = s := by
    unfold stepOf at h
    split at h
    · cases h
    · split at h <;> cases h
      · rename_i hparent
        simpa [isParent, Component.bytes, eq_comm] using hparent
      · rfl
  rw [Component.Spelt, hbytes]
  exact ⟨hs, h⟩

/-- An absolute path goes from the root, in steps that are spelt by names. -/
theorem components_of_isAbsolute {p : Path} (h : p.isAbsolute) :
    ∃ steps, p.components = .root :: steps ∧ ∀ c ∈ steps, c.Spelt := by
  obtain ⟨rest, hsegments⟩ := segments_of_isAbsolute h
  refine ⟨(Text.pieces (· = slash) rest).filterMap stepOf, ?_, fun c hc => ?_⟩
  · rw [components_eq, hsegments]
    rfl
  · obtain ⟨s, hs, hc⟩ := List.mem_filterMap.1 hc
    exact spelt_of_stepOf (slash_notMem_segment (p := p) (by simp [hsegments, hs])) hc

theorem pieces_rooted {steps : List Component} (h : ∀ c ∈ steps, slash ∉ c.bytes)
    (front : List UInt8) : Text.pieces (· = slash) (front ++ rooted steps) =
      Text.pieces (· = slash) front ++ steps.map (·.bytes) := by
  induction steps generalizing front with
  | nil => simp [rooted]
  | cons c steps ih =>
    obtain ⟨hc, hsteps⟩ := List.forall_mem_cons.1 h
    have hsplit : front ++ rooted (c :: steps) = (front ++ slash :: c.bytes) ++ rooted steps := by
      simp [rooted]
    have hlast := segments_append_slash (p := front) hc
    rw [segments_of_ne (by simp)] at hlast
    rw [hsplit, ih hsteps, hlast, List.append_assoc]
    rfl

/-- A slash at the end stands for no step. -/
theorem components_append_slash {bytes : List UInt8} (h : bytes ≠ []) :
    (Path.mk (bytes ++ [slash])).components = (Path.mk bytes).components := by
  have hne := Text.pieces_ne_nil (· = slash) bytes
  rw [components_eq, components_eq, segments_append_slash (by simp), segments_of_ne h,
    stepsOf_append hne]
  simp [stepOf, isIdle]

theorem components_rooted {steps : List Component} (h : ∀ c ∈ steps, c.Spelt) :
    (Path.mk (if steps = [] then [slash] else rooted steps)).components = .root :: steps := by
  split
  · rename_i hnil
    rw [hnil]
    rfl
  · rename_i hne
    have hbytes : rooted steps ≠ [] := by
      obtain ⟨c, rest, rfl⟩ := List.exists_cons_of_ne_nil hne
      simp [rooted]
    have hpieces := pieces_rooted (fun c hc => (h c hc).1) []
    have hsteps : (steps.map (·.bytes)).filterMap stepOf = steps := by
      rw [List.filterMap_map]
      refine (List.filterMap_congr fun c hc => (h c hc).2).trans ?_
      exact List.filterMap_some
    rw [List.nil_append] at hpieces
    rw [components_eq, segments_of_ne (p := ⟨rooted steps⟩) hbytes, hpieces]
    simp [Text.pieces, stepsOf, hsteps]

end Path

/-! ## URIs -/

namespace Uri

open Path (rooted)

/-- A drive letter at the end gets a slash, which is no step. -/
theorem components_closeDrive {bytes : List UInt8} (h : bytes ≠ []) :
    (Path.mk (closeDrive bytes)).components = (Path.mk bytes).components := by
  unfold closeDrive
  split
  · split
    · exact Path.components_append_slash h
    · rfl
  · rfl

/-- The path in the URI of a file. -/
def stepsText (steps : List Path.Component) : String :=
  let names := steps.map fun c => "/" ++ Text.percentBytes nameSet c.bytes
  if names.isEmpty then "/" else String.join names

theorem percentDecode_stepsText (steps : List Path.Component) :
    Text.percentDecode (stepsText steps).toList =
      if steps = [] then [Path.slash] else rooted steps := by
  have hnames : Text.percentDecode
      ((steps.map fun c => "/" ++ Text.percentBytes nameSet c.bytes).map String.toList).flatten =
        rooted steps := by
    induction steps with
    | nil => rfl
    | cons c steps ih =>
      simp only [List.map_cons, List.flatten_cons, String.toList_append, List.append_assoc]
      have hslash : "/".toList = ['/'] := rfl
      rw [hslash, List.cons_append, List.nil_append, Text.percentDecode_cons (by decide),
        Text.percentDecode_percentBytes (by decide), ih]
      rfl
  unfold stepsText
  cases steps with
  | nil => decide
  | cons c steps =>
    rw [if_neg (by simp), if_neg (by simp), String.join_eq, String.toList_ofList, hnames]

theorem head?_stepsText (steps : List Path.Component) : (stepsText steps).toList.head? = some '/' := by
  unfold stepsText
  cases steps with
  | nil => rfl
  | cons c steps =>
    rw [if_neg (by simp), String.join_eq, String.toList_ofList, List.map_cons, List.map_cons,
      List.flatten_cons, String.toList_append]
    rfl

/-- The URI of an absolute path spells its steps. -/
theorem ofPath?_eq {p : Path} {steps : List Path.Component} (h : p.isAbsolute)
    (hsteps : p.components = .root :: steps) : ofPath? p = some (file (stepsText steps)) := by
  rw [ofPath?, if_pos h, hsteps]
  rfl

theorem toPath?_file (steps : List Path.Component) : (file (stepsText steps)).toPath? =
    some ⟨closeDrive (if steps = [] then [Path.slash] else rooted steps)⟩ := by
  rw [toPath?, ← percentDecode_stepsText]
  exact if_pos ⟨by simp [file], rfl, head?_stepsText steps⟩

/-- Two spellings of a path have one URI. -/
theorem ofPath?_congr {p q : Path} (h : (p == q) = true) : ofPath? p = ofPath? q := by
  rw [ofPath?, ofPath?, Path.isAbsolute_congr h, Path.beq_iff.1 h]

/-- The URI of an absolute path leads back to the same place. -/
theorem toPath?_ofPath? {p : Path} (h : p.isAbsolute) :
    ∃ u q, ofPath? p = some u ∧ u.toPath? = some q ∧ (q == p) = true := by
  obtain ⟨steps, hsteps, hspelt⟩ := Path.components_of_isAbsolute h
  have hbytes : (if steps = [] then [Path.slash] else rooted steps) ≠ [] := by
    split
    · simp
    · rename_i hne
      obtain ⟨c, rest, rfl⟩ := List.exists_cons_of_ne_nil hne
      simp [rooted]
  refine ⟨_, _, ofPath?_eq h hsteps, toPath?_file steps, ?_⟩
  rw [Path.beq_iff, components_closeDrive hbytes, Path.components_rooted hspelt, hsteps]

/-- What ends in the extension of source files ends in no drive letter. -/
theorem closeDrive_of_cue {bytes : List UInt8} (h : Text.toBytes "cue" <:+ bytes) :
    closeDrive bytes = bytes := by
  obtain ⟨front, rfl⟩ := h
  have hcue : (Text.toBytes "cue").reverse = [0x65, 0x75, 0x63] := by decide
  unfold closeDrive
  rw [List.reverse_append, hcue]
  rfl

/-- The URI of a source file at a normal path leads back to this path. -/
theorem documentPath_ofPath? {p : Path} (h : p.Normal) (hsource : Workspace.isSource p) {u : Uri}
    (hu : ofPath? p = some u) : u.documentPath = p := by
  have hsteps := Path.components_of_straight h.1 h.straight
  have hrooted : p.bytes = rooted (p.names.map .name) := by
    rw [h.bytes_eq, Path.intercalate_slash, rooted, List.flatMap_map, List.nil_append]
    rfl
  obtain rfl := Option.some.inj ((ofPath?_eq h.1 hsteps).symm.trans hu)
  rw [documentPath, toPath?_file, if_neg (by simpa using h.names_ne_nil), ← hrooted,
    closeDrive_of_cue (h.cue_suffix hsource), Option.getD_some]

end Uri

end CueScope
