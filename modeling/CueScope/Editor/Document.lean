import CueScope.Editor.Diagnostic
import CueScope.Text.Position

/-!
# Documents

A document is a text that an editor has, or had, open. Every text it gets has a version, and
versions only go up.

`Edit.applyAll` plays changes of an editor on a text, one after the other.
-/

namespace CueScope

/-- Why something cannot be done with a document. -/
inductive DocumentError where
  | alreadyOpen (uri : Uri)
  | notOpen (uri : Uri)
  /-- The document has moved on, or was closed. -/
  | expired
  | staleVersion (uri : Uri) (current requested : Int)
  | tooLarge (size limit : Nat)
  | noSuchPosition (p : Position)
  | noSuchOffset (offset : Nat)
  | badRange
  | notCompiled
deriving DecidableEq, Repr

namespace DocumentError

/-- An error in words. -/
def message : DocumentError → String
  | .alreadyOpen uri => "document already exists: " ++ uri.text
  | .notOpen uri => "document not found: " ++ uri.text
  | .expired => "document expired"
  | .staleVersion uri current requested =>
    "update to " ++ uri.text ++ " didn't increase version number (" ++ toString requested ++
      " <= " ++ toString current ++ ")"
  | .tooLarge size limit =>
    "document too large: " ++ toString size ++ " bytes, at most " ++ toString limit ++ " allowed"
  | .noSuchPosition p =>
    toString p.line ++ ":" ++ toString p.column ++ " is out of range for the document"
  | .noSuchOffset offset => "offset " ++ toString offset ++ " is out of range for the document"
  | .badRange => "invalid range for content change"
  | .notCompiled => "document has no compiled package"

end DocumentError

/-! ## Edits -/

/-- A new text for a range, or for all of a document. -/
structure Edit where
  range : Option Range
  text : String
deriving DecidableEq, Repr

/-- The byte offset of a position in a text. -/
def Position.toOffset (text : String) (p : Position) : Except DocumentError Nat :=
  match Position.toOffset? text p with
  | some offset => .ok offset
  | none => .error (.noSuchPosition p)

/-- The position of a byte offset in a text. -/
def Position.ofOffset (text : String) (offset : Nat) : Except DocumentError Position :=
  match Position.ofOffset? text offset with
  | some p => .ok p
  | none => .error (.noSuchOffset offset)

/-- A text with the bytes from `start` to `stop` replaced; none if the offsets do not cut the
text. -/
def Text.replace? (text : String) (start stop : Nat) (new : String) : Option String :=
  if start ≤ stop then
    (Text.splitAtByte text.toList start).bind fun (front, rest) =>
      (Text.splitAtByte rest (stop - start)).map fun (_, back) =>
        String.ofList (front ++ new.toList ++ back)
  else none

namespace Edit

/-- The text after an edit. Both ends of the range have to be positions of the text. -/
def apply (e : Edit) (text : String) : Except DocumentError String :=
  match e.range with
  | none => .ok e.text
  | some range => do
    let start ← range.start.toOffset text
    let stop ← range.stop.toOffset text
    match Text.replace? text start stop e.text with
    | some new => .ok new
    | none => .error .badRange

/-- The text after several edits, each made on the text that the one before it left. -/
def applyAll (edits : List Edit) (text : String) : Except DocumentError String :=
  edits.foldlM (fun text e => e.apply text) text

end Edit

/-! ## Documents -/

/-- What one version of a document was compiled to. -/
structure CompiledVersion extends Compilation where
  version : Int

/-- A document and what it was compiled to. -/
structure Document where
  uri : Uri
  path : Path
  language : String
  text : String
  version : Int
  /-- Number of texts that the document had before. -/
  stamp : Nat := 0
  /-- The document was closed while it had its present text. -/
  revoked : Bool := false
  /-- What the package of the document was compiled to when the document got its text. -/
  compiled : Option CompiledVersion := none
  diagnostics : Diagnostics := []

namespace Document

/-- The text between two byte offsets. -/
def substring (d : Document) (start stop : Nat) : Except DocumentError String :=
  match Text.slice? d.text start stop with
  | some text => .ok text
  | none => .error .badRange

/-- The range between two byte offsets. -/
def range (d : Document) (start stop : Nat) : Except DocumentError Range := do
  let first ← Position.ofOffset d.text start
  let last ← Position.ofOffset d.text stop
  pure ⟨first, last⟩

/-- Only higher versions may follow. -/
def supersede (d : Document) (version : Int) : Except DocumentError Unit :=
  if d.version < version then .ok () else .error (.staleVersion d.uri d.version version)

/-- The text after edits that lead to a version. -/
def edited (d : Document) (edits : List Edit) (version : Int) : Except DocumentError String := do
  d.supersede version
  Edit.applyAll edits d.text

end Document

end CueScope
