import CueScope.Editor.Document
import CueScope.Editor.Hover
import CueScope.Settings.Basic

/-!
# The documents of an editor

A `Store` holds the documents that an editor has open and compiles each when it gets a text. Texts
of open documents take precedence over the disk.

A `Handle` stands for one text of one document. It expires when the document gets another text or
is closed, and all handles expire at the end (`Store.shutdown`). A document that was closed can
still get a text through a handle of it; it is compiled then, but is not open, so that other
documents do not see it.

What a document was compiled to is not brought up to date when another document changes.

Documents are opened, changed and closed by `Step`s, which change the store in place and can be
refused on the way.
-/

namespace CueScope

/-- Number of a document, in order of opening. -/
abbrev DocumentId := Nat

/-- One text of a document. -/
structure Handle where
  document : DocumentId
  stamp : Nat
deriving DecidableEq, Repr

/-- The documents of an editor. -/
structure Store where
  disk : Disk := {}
  load : Loader := Workspace.load
  /-- The directory that packages are compiled in. -/
  root : Option Path := none
  settings : Settings := {}
  /-- All documents that were ever opened. -/
  documents : List Document := []
  /-- Those that are open. -/
  opened : List (Uri × DocumentId) := []
  /-- The end has come. -/
  isShutdown : Bool := false

namespace Store

/-! ## Reading -/

/-- The document with a number. -/
def get? (s : Store) (id : DocumentId) : Option Document := s.documents[id]?

/-- The texts of open documents by path. -/
def overlay (s : Store) : Overlay :=
  .ofList (s.opened.filterMap fun (_, id) => (s.get? id).map fun d => (d.path, d.text))

/-- Where a document at a path is compiled: in the root directory, else in its own. -/
def workspace (s : Store) (path : Path) : Workspace :=
  { dir := s.root.getD (path.parent?.getD (.ofText "")), overlay := s.overlay, disk := s.disk }

/-- The path a document is known under; a relative one starts from the root directory. -/
def pathOf (s : Store) (uri : Uri) : Path :=
  let path := uri.documentPath
  if path.isAbsolute then path else s.root.elim path (·.join path)

/-- The text of a handle is gone. -/
def isExpired (s : Store) (h : Handle) : Bool :=
  s.isShutdown || (s.get? h.document).all fun d => d.revoked || d.stamp ≠ h.stamp

/-- The document of a handle, while it has the text of the handle. -/
def document (s : Store) (h : Handle) : Except DocumentError Document :=
  match s.get? h.document with
  | some d => if s.isExpired h then .error .expired else .ok d
  | none => .error .expired

/-- The version of a handle. -/
def version (s : Store) (h : Handle) : Except DocumentError Int := do
  pure (← s.document h).version

/-- The text of a handle. -/
def content (s : Store) (h : Handle) : Except DocumentError String := do
  pure (← s.document h).text

/-- The diagnostics of a handle's text. -/
def diagnostics (s : Store) (h : Handle) : Except DocumentError Diagnostics := do
  pure (← s.document h).diagnostics

/-- What the text of a handle was compiled to. -/
def compiled (s : Store) (h : Handle) : Except DocumentError CompiledVersion := do
  match (← s.document h).compiled with
  | some c => pure c
  | none => throw .notCompiled

/-- The handle of an open document's present text. -/
def handle (s : Store) (uri : Uri) : Except DocumentError Handle :=
  match s.opened.lookup uri with
  | some id => .ok ⟨id, (s.get? id).elim 0 (·.stamp)⟩
  | none => .error (.notOpen uri)

/-- A text of `size` bytes is small enough. -/
def fits (s : Store) (size : Nat) : Except DocumentError Unit :=
  if size ≤ s.settings.maxDocumentSize then .ok ()
  else .error (.tooLarge size s.settings.maxDocumentSize)

/-- No document is open under a name. -/
def isNew (s : Store) (uri : Uri) : Except DocumentError Unit :=
  if (s.opened.lookup uri).isSome then .error (.alreadyOpen uri) else .ok ()

/-! ## Compiling -/

/-- A document with the outcome of compiling it. After the end, and for other languages, nothing
is compiled. -/
def compile (s : Store) (d : Document) : Document :=
  if s.settings.compiles d.language ∧ !s.isShutdown then
    match (s.workspace d.path).compile? s.load d.path with
    | .ok c =>
      { d with compiled := some ⟨c, d.version⟩, diagnostics := c.diagnostics d.uri d.path }
    | .error p =>
      let nothing : Compilation := { problems := [p] }
      { d with compiled := none, diagnostics := nothing.diagnostics d.uri d.path }
  else { d with compiled := none, diagnostics := [] }

/-- Compiles the document with a number. -/
def recompile (s : Store) (id : DocumentId) : Store :=
  { s with documents := s.documents.modify id s.compile }

/-! ## Changing -/

/-- The text of a handle's document, expired or not, after edits that lead to a version. -/
def edited (s : Store) (h : Handle) (edits : List Edit) (version : Int) :
    Except DocumentError String :=
  match s.get? h.document with
  | none => .error .expired
  | some d => d.edited edits version

/-- A step that changes the documents. It works on the store in place, so that one that is refused
leaves whatever it has made of the store by then. -/
abbrev Step := ExceptT DocumentError (StateM Store)

namespace Step

variable {α : Type}

/-- The answer of a step, and the store it leaves. -/
def on (m : Step α) (s : Store) : Except DocumentError α × Store := m.run.run s

/-- The answer of a step with the store after it, where the step is accepted. -/
def accepted (m : Step α) (s : Store) : Except DocumentError (α × Store) :=
  (m.on s).1.map (·, (m.on s).2)

/-- Opens a document. -/
def add (uri : Uri) (language : String) (version : Int) (text : String) : Step Handle := do
  let s ← get
  s.fits text.utf8ByteSize
  s.isNew uri
  let id := s.documents.length
  let d : Document := { uri, path := s.pathOf uri, language, text, version }
  set { s with documents := s.documents ++ [d], opened := s.opened ++ [(uri, id)] }
  modify (·.recompile id)
  pure ⟨id, 0⟩

/-- Gives the document of a handle, expired or not, another text. -/
def replace (h : Handle) (text : String) (version : Int) : Step Handle := do
  let s ← get
  match s.get? h.document with
  | none => throw .expired
  | some d =>
    d.supersede version
    s.fits text.utf8ByteSize
    let next := { d with text, version, stamp := d.stamp + 1, revoked := false }
    set { s with documents := s.documents.set h.document next }
    modify (·.recompile h.document)
    pure ⟨h.document, next.stamp⟩

/-- Closes a document. -/
def remove (uri : Uri) : Step Unit := do
  let s ← get
  match s.opened.lookup uri with
  | none => throw (.notOpen uri)
  | some id =>
    set { s with opened := s.opened.filter (·.1 ≠ uri) }
    modify fun s =>
      { s with documents := s.documents.modify id fun d => { d with revoked := true } }

/-- Changes an open document. -/
def change (uri : Uri) (edits : List Edit) (version : Int) : Step Handle := do
  let s ← get
  let h ← s.handle uri
  let text ← s.edited h edits version
  replace h text version

end Step

/-- A document opened. -/
def add (s : Store) (uri : Uri) (language : String) (version : Int) (text : String) :
    Except DocumentError (Handle × Store) :=
  (Step.add uri language version text).accepted s

/-- The document of a handle with another text. -/
def replace (s : Store) (h : Handle) (text : String) (version : Int) :
    Except DocumentError (Handle × Store) :=
  (Step.replace h text version).accepted s

/-- A document closed. -/
def remove (s : Store) (uri : Uri) : Except DocumentError Store :=
  ((Step.remove uri).accepted s).map (·.2)

/-- An open document changed. -/
def change (s : Store) (uri : Uri) (edits : List Edit) (version : Int) :
    Except DocumentError (Handle × Store) :=
  (Step.change uri edits version).accepted s

/-- Later compilations are done in another directory. -/
def setRoot (s : Store) (root : Path) : Store := { s with root := some root }

/-- Takes other settings. -/
def setSettings (s : Store) (settings : Settings) : Store := { s with settings }

/-- The end: all handles expire. -/
def shutdown (s : Store) : Store := { s with isShutdown := true }

/-! ## Looking something up -/

/-- What is at a position of a document. -/
structure Hit where
  document : Document
  pos : Pos
  graph : Graph
  /-- The most specific node there. -/
  node : Option NodeRef

/-- What is at a position of an open document. -/
def find (s : Store) (uri : Uri) (p : Position) : Except DocumentError Hit := do
  let h ← s.handle uri
  let d ← s.document h
  let offset ← p.toOffset d.text
  let c ← s.compiled h
  match c.graph.sources.find? d.path with
  | none => throw .notCompiled
  | some file =>
    let pos : Pos := ⟨file, offset⟩
    pure ⟨d, pos, c.graph, c.graph.root.bind fun root => c.graph.find? (.node root) pos⟩

/-- What is shown when hovering. -/
def Hit.hover? (hit : Hit) (settings : Settings) : Option Hover :=
  if settings.hover then hit.node.bind hit.graph.hover? else none

/-- Where the definition is written. -/
def Hit.definitionSites? (hit : Hit) : Option (List Location) :=
  hit.node.bind hit.graph.definitionSites?

end Store

end CueScope
