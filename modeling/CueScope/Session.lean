import CueScope.Editor.Store

/-!
# Editor sessions

A session answers the messages of one editor, one after the other (`Session.step`). It begins with
a handshake and ends with a shutdown; outside of that, requests are refused and notifications are
dropped.

After a document got a text, its diagnostics are published: one list for the document itself,
which may be empty, and one for each other document that has some.
-/

namespace CueScope

/-! ## Messages -/

/-- What an editor sends. -/
inductive Message where
  /-- The first message: the root directory and the folders of the workspace. -/
  | handshake (root : Option Uri) (folders : List Uri)
  /-- The editor is done with the handshake. -/
  | ready
  | didOpen (uri : Uri) (language : String) (version : Int) (text : String)
  | didChange (uri : Uri) (version : Int) (edits : List Edit)
  | didClose (uri : Uri)
  | hover (uri : Uri) (position : Position)
  | definition (uri : Uri) (position : Position)
  | shutdown
deriving DecidableEq, Repr

/-- The message wants a reply. -/
def Message.isRequest : Message → Bool
  | .handshake .. | .hover .. | .definition .. | .shutdown => true
  | .ready | .didOpen .. | .didChange .. | .didClose .. => false

/-- Kinds of messages to the user. -/
inductive Urgency where
  | error
  | info
deriving DecidableEq, Repr

/-- The number that editors know an urgency by. -/
def Urgency.code : Urgency → Nat
  | .error => 1
  | .info => 3

/-- What is sent to the editor on its own account. -/
inductive Note where
  /-- Replaces the diagnostics of a document. -/
  | publish (uri : Uri) (version : Option Int) (diagnostics : List Diagnostic)
  | showMessage (urgency : Urgency) (message : String)
  | logMessage (urgency : Urgency) (message : String)
deriving DecidableEq, Repr

/-- What the server can do. -/
structure Capabilities where
  definition : Bool
  hover : Bool
  /-- How changes are sent; `2` is by ranges. -/
  documentSync : Nat
  name : String
  version : String
deriving DecidableEq, Repr

/-- The result of a request. -/
inductive Result where
  | capabilities (c : Capabilities)
  | hover (h : Option Hover)
  | definition (sites : Option (List Location))
  | nothing
deriving DecidableEq, Repr

/-- Why a request has no result. -/
inductive RequestError where
  /-- The handshake is still to come. -/
  | notReady
  /-- The request comes at the wrong time. -/
  | invalid
  | document (e : DocumentError)
deriving DecidableEq, Repr

namespace RequestError

/-- The number of an error. -/
def code : RequestError → Int
  | .notReady => -32002
  | .invalid => -32600
  | .document .expired => -32801
  | .document (.staleVersion ..) | .document (.noSuchPosition _) | .document (.noSuchOffset _)
  | .document .badRange | .document (.notOpen _) => -32602
  | .document (.alreadyOpen _) | .document (.tooLarge ..) | .document .notCompiled => -32603

/-- An error in words. -/
def message : RequestError → String
  | .notReady => "Server not initialized"
  | .invalid => "Invalid request"
  | .document e => e.message

end RequestError

/-! ## Sessions -/

/-- How far a session has come. -/
inductive Phase where
  | waiting
  | running
  | ended
deriving DecidableEq, Repr

/-- A session. -/
structure Session where
  phase : Phase := .waiting
  store : Store := {}

/-- What a message leads to: the reply to a request, and notes. -/
structure Outcome where
  reply : Option (Except RequestError Result) := none
  notes : List Note := []

namespace Session

/-- What this server can do. -/
def capabilities : Capabilities := ⟨true, true, 2, "cuels", "0.1.0"⟩

/-- The notes that publish the diagnostics of a document's text. -/
def publications (d : Document) : List Note :=
  let own := if (d.diagnostics.lookup d.uri).isSome then [] else [.publish d.uri d.version []]
  own ++ d.diagnostics.map fun (uri, ds) =>
    .publish uri (if uri = d.uri then some d.version else none) ds

/-- The notes after the text of a handle was stored. -/
def publish (s : Store) (h : Handle) : List Note :=
  match s.document h with
  | .ok d => if s.settings.diagnostics then publications d else []
  | .error _ => []

/-- The root directory that an editor asks for: that of the first folder, else the root. -/
def rootOf (root : Option Uri) (folders : List Uri) : Option Path :=
  (folders.head?.or root).bind Uri.toPath?

/-- Takes a root directory and the settings there; where these are invalid, the old ones stay. -/
def enter (s : Store) : Option Path → Store
  | none => s
  | some root =>
    { s with
      settings := (Settings.load? s.disk root).getD s.settings
      root := some root }

/-- The reply to a question about a position: `f` of what is there, or nothing where no package
was compiled. -/
def ask (s : Store) (uri : Uri) (p : Position) (f : Option Store.Hit → Result) :
    Except RequestError Result :=
  match s.find uri p with
  | .ok hit => .ok (f (some hit))
  | .error .notCompiled => .ok (f none)
  | .error e => .error (.document e)

/-- Answers a message of a running session. -/
def handle (s : Store) : Message → Outcome × Store
  | .handshake .. => ({ reply := some (.error .invalid) }, s)
  | .ready => ({ notes := [.logMessage .info "cuels initialized"] }, s)
  | .didOpen uri language version text =>
    match (Store.Step.add uri language version text).on s with
    | (.ok h, s) => ({ notes := publish s h }, s)
    | (.error e, s) => ({ notes := [.showMessage .error e.message] }, s)
  | .didChange uri version edits =>
    match (Store.Step.change uri edits version).on s with
    | (.ok h, s) => ({ notes := publish s h }, s)
    | (.error _, s) => ({}, s)
  | .didClose uri =>
    match (Store.Step.remove uri).on s with
    | (.ok (), s) => ({ notes := [.publish uri none []] }, s)
    | (.error _, s) => ({}, s)
  | .hover uri p =>
    let reply := ask s uri p fun hit => .hover (hit.bind (·.hover? s.settings))
    ({ reply := some reply }, s)
  | .definition uri p =>
    let reply := ask s uri p fun hit => .definition (hit.bind (·.definitionSites?))
    ({ reply := some reply }, s)
  | .shutdown => ({ reply := some (.ok .nothing) }, s.shutdown)

/-- The outcome of a message that comes at the wrong time. -/
def refuse (m : Message) (e : RequestError) : Outcome :=
  if m.isRequest then { reply := some (.error e) } else {}

/-- Answers a message. -/
def step (s : Session) (m : Message) : Outcome × Session :=
  match s.phase, m with
  | .waiting, .handshake root folders =>
    ({ reply := some (.ok (.capabilities capabilities)) },
      { phase := .running, store := enter s.store (rootOf root folders) })
  | .waiting, m => (refuse m .notReady, s)
  | .running, m =>
    let (outcome, store) := handle s.store m
    (outcome, { phase := if m = .shutdown then .ended else .running, store })
  | .ended, m => (refuse m .invalid, s)

end Session

end CueScope
