import CueScope.Check
import CueScope.Proofs.Editor.History
import CueScope.Proofs.Graph.Spelling
import CueScope.Proofs.Instance.Saved
import CueScope.Proofs.Uri.File

/-!
# Checking and editing agree

A file is checked as it is on the disk. An editor that has opened this file alone compiles it with
its text in the overlay.

* `Compilation.Alike.diagnostics_eq`: compilations that are alike have the same diagnostics, though
  the paths of their files may be spelled otherwise.
* `Disk.check_eq_opened`: the diagnostics of a check are those that the editor shows.
-/

namespace CueScope

/-! ## Diagnostics of compilations that are alike -/

section alike

variable {s s' : Sources} {g g' : Graph} {k k' : NodeKind}

theorem Sources.Alike.get? (h : s.Alike s') (id : FileId) :
    Option.Rel SourceFile.Alike (s.get? id) (s'.get? id) := by
  unfold Sources.Alike at h
  unfold Sources.get?
  generalize s.files = files, s'.files = files' at h
  induction h generalizing id with
  | nil => exact .none
  | cons hf _ ih =>
    cases id with
    | zero => exact .some hf
    | succ id => exact ih id

theorem Sources.Alike.uri_eq (h : s.Alike s') (id : FileId) :
    (s'.path? id).bind Uri.ofPath? = (s.path? id).bind Uri.ofPath? := by
  have hfile := h.get? id
  unfold Sources.path?
  generalize s.get? id = o, s'.get? id = o' at hfile
  cases hfile with
  | none => rfl
  | some hf => exact (Uri.ofPath?_congr hf.path).symm

theorem Sources.Alike.range?_eq (h : s.Alike s') (span : Span) :
    s'.range? span = s.range? span := by
  have hfile := h.get? span.file
  unfold Sources.range?
  generalize s.get? span.file = o, s'.get? span.file = o' at hfile
  cases hfile with
  | none => rfl
  | some hf => rw [Option.bind_some, Option.bind_some, hf.text]

theorem NodeKind.Alike.span?_eq (h : k.Alike k') : k'.span? = k.span? := by
  cases h <;> rfl

theorem NodeKind.Alike.find_eq (h : k.Alike k') (pos : Pos) :
    Graph.mayHold pos k' = Graph.mayHold pos k ∧ Graph.searched k' = Graph.searched k ∧
      Graph.covers pos k' = Graph.covers pos k := by
  cases h <;> exact ⟨rfl, rfl, rfl⟩

namespace Graph.Alike

variable (h : g.Alike g')
include h

theorem kind? (id : NodeId) : Option.Rel NodeKind.Alike (g.kind? id) (g'.kind? id) := by
  have hnodes := h.nodes
  unfold Graph.kind?
  rw [← Array.getElem?_toList, ← Array.getElem?_toList]
  generalize g.nodes.toList = nodes, g'.nodes.toList = nodes' at hnodes
  induction hnodes generalizing id with
  | nil => exact .none
  | cons hn _ ih =>
    cases id with
    | zero => exact .some hn.kind
    | succ id => exact ih id

theorem size_eq : g'.size = g.size := by
  rw [Graph.size, Graph.size, ← Array.length_toList, ← Array.length_toList, h.nodes.length_eq]

/-- The span of a node does not depend on how the paths of files are spelt. -/
theorem span?_eq (r : NodeRef) : g'.span? r = g.span? r := by
  cases r with
  | node id =>
    have hkind := h.kind? id
    unfold Graph.span?
    dsimp only
    generalize g.kind? id = o, g'.kind? id = o' at hkind
    cases hkind with
    | none => rfl
    | some hk => exact hk.span?_eq
  | type | package | member => rfl

/-- What is found at a position does not depend on how paths are spelt. -/
theorem findFrom_eq (pos : Pos) (depth : Nat) : g'.findFrom pos depth = g.findFrom pos depth := by
  induction depth with
  | zero => rfl
  | succ depth ih =>
    funext id
    have hkind := h.kind? id
    rw [findFrom, findFrom, ih]
    generalize g.kind? id = o, g'.kind? id = o' at hkind
    cases hkind with
    | none => rfl
    | some hk =>
      obtain ⟨hmay, hsearched, hcovers⟩ := hk.find_eq pos
      dsimp only
      rw [hmay, hsearched, hcovers]

theorem find?_eq (r : NodeRef) (pos : Pos) : g'.find? r pos = g.find? r pos := by
  cases r with
  | node id => rw [Graph.find?, Graph.find?, h.size_eq, h.findFrom_eq]
  | type | package | member => rfl

theorem widen_eq (pos : Pos) : g'.widen pos = g.widen pos := by
  have hfind : ∀ o : Option NodeId, (o.bind fun root => g'.find? (.node root) pos) =
      o.bind fun root => g.find? (.node root) pos :=
    fun o => Option.bind_congr fun root _ => h.find?_eq _ _
  unfold widen
  rw [h.root, hfind, funext h.span?_eq]

/-- A problem is shown at the same place with the same text. -/
theorem diagnose_eq (uri : Uri) (path : Path) (p : Problem) :
    g'.diagnose uri path p = g.diagnose uri path p := by
  have hmarked : g'.marked? path p = g.marked? path p := by
    unfold marked?
    split
    · rfl
    · rw [h.widen_eq]
    · rw [h.sources.find?_eq (Path.beq_iff.2 rfl)]
  have hhome : ∀ o : Option Span, (o.bind fun s => g'.sources.path? s.file).bind Uri.ofPath? =
      (o.bind fun s => g.sources.path? s.file).bind Uri.ofPath? := by
    intro o
    cases o with
    | none => rfl
    | some span => exact h.sources.uri_eq span.file
  unfold diagnose
  dsimp only
  rw [hmarked, hhome, funext h.sources.range?_eq]

end Graph.Alike

theorem Compilation.Alike.diagnostics_eq {c c' : Compilation} (h : c.Alike c') (uri : Uri)
    (path : Path) : c'.diagnostics uri path = c.diagnostics uri path := by
  unfold Compilation.diagnostics
  rw [h.problems]
  simp only [h.graph.diagnose_eq]

end alike

namespace Compilation

/-- The diagnostics of an outcome. A failure is the only problem there is. -/
def shown (uri : Uri) (path : Path) : Except Problem Compilation → Diagnostics
  | .ok c => c.diagnostics uri path
  | .error p => Compilation.diagnostics { problems := [p] } uri path

theorem SameOutcome.shown_eq {o o' : Except Problem Compilation} (h : SameOutcome o o') (uri : Uri)
    (path : Path) : shown uri path o' = shown uri path o := by
  cases h with
  | ok hc => exact hc.diagnostics_eq uri path
  | error p => rfl

end Compilation

/-! ## Checking -/

namespace Disk

variable {d : Disk} {path : Path} {text : String} {uri : Uri}

/-- No file is a directory. -/
def IsTree (d : Disk) : Prop := ∀ f ∈ d.files, d.isDir f.1 = false

/-- A file is checked in its directory. -/
theorem check_eq (htree : d.IsTree) (hpath : path.Normal) (hread : d.read? path = some text)
    (huri : Uri.ofPath? path = some uri) : d.check path = .ok (Compilation.shown uri path
      (Workspace.compile? { dir := path.parent?.getD path, disk := d } Workspace.load path)) := by
  obtain ⟨place, hplace, hfile⟩ := Option.bind_eq_some_iff.1 (Option.join_eq_some_iff.1 hread)
  obtain rfl := locate?_of_straight hpath.1 hpath.straight hplace
  have hdir : d.isDir path.names = false := by
    obtain ⟨before, after, hsplit, -⟩ := List.lookup_eq_some_iff.1 hfile
    exact htree (path.names, some text) (by simp [hsplit])
  unfold check
  rw [hplace]
  dsimp only
  rw [hdir, if_neg Bool.false_ne_true, pathOf_names hpath, huri, Option.getD_some]
  split
  · rename_i c hc
    rw [hc]
    rfl
  · rename_i p hp
    rw [hp]
    rfl

end Disk

/-! ## Opening a file alone -/

/-- Where a file is compiled while it alone is open. -/
def Disk.opening (d : Disk) (path : Path) (text : String) : Workspace :=
  { dir := path.parent?.getD (.ofText ""), overlay := .ofList [(path, text)], disk := d }

namespace Store

variable {s : Store} {path : Path} {uri : Uri} {text : String}

/-- Nothing is open, there is no root, and the settings are the defaults. -/
structure Blank (s : Store) : Prop where
  load : s.load = Workspace.load
  root : s.root = none
  settings : s.settings = {}
  opened : s.opened = []
  running : s.isShutdown = false

/-- A document that is compiled shows the diagnostics of its compilation. -/
theorem diagnostics_compile (s : Store) {d : Document} (hlanguage : s.settings.compiles d.language)
    (hrunning : s.isShutdown = false) : (s.compile d).diagnostics =
      Compilation.shown d.uri d.path ((s.workspace d.path).compile? s.load d.path) := by
  unfold compile
  rw [if_pos ⟨hlanguage, by simpa using hrunning⟩]
  split
  · rename_i c hc
    rw [hc]
    rfl
  · rename_i p hp
    rw [hp]
    rfl

/-- The store with one more open document, which is not compiled yet. -/
def holding (s : Store) (d : Document) : Store :=
  { s with
    documents := s.documents ++ [d]
    opened := s.opened ++ [(d.uri, s.documents.length)] }

theorem get?_holding (s : Store) (d : Document) :
    (s.holding d).get? s.documents.length = some d := by
  simp [holding, get?]

/-- Only a document that is too large cannot be opened alone. -/
theorem add_holding (hs : s.Blank) (uri : Uri) (language : String) (version : Int) (text : String)
    (hsize : text.utf8ByteSize ≤ s.settings.maxDocumentSize) :
    s.add uri language version text = .ok (⟨s.documents.length, 0⟩,
      (s.holding { uri, path := s.pathOf uri, language, text, version }).recompile
        s.documents.length) := by
  have hfits : s.fits text.utf8ByteSize = .ok () := if_pos hsize
  have hnew : s.isNew uri = .ok () := by
    rw [isNew_eq_ok_iff, hs.opened]
    rfl
  rw [add, Step.accepted_eq_ok_iff]
  simp only [Step.add, Step.on_bind, Step.on_get, Step.on_lift, hfits, hnew]
  rfl

theorem workspace_holding (hs : s.Blank) (d : Document) :
    (s.holding d).workspace d.path = s.disk.opening d.path d.text := by
  have hopened : (s.holding d).opened = [(d.uri, s.documents.length)] := by
    rw [holding, hs.opened]
    rfl
  have hoverlay : (s.holding d).overlay = .ofList [(d.path, d.text)] := by
    rw [overlay, hopened]
    simp [get?_holding]
  have hroot : (s.holding d).root = none := hs.root
  rw [workspace, hoverlay, hroot]
  rfl

/-- The document can be had by its handle. -/
theorem document_recompile (hrunning : s.isShutdown = false) {d : Document}
    (hrevoked : d.revoked = false) (hstamp : d.stamp = 0) :
    ((s.holding d).recompile s.documents.length).document ⟨s.documents.length, 0⟩ =
      .ok ((s.holding d).compile d) := by
  obtain ⟨compiled, diagnostics, hcompile, -⟩ := compile_eq (s.holding d) d
  have hget : ((s.holding d).recompile s.documents.length).get? s.documents.length =
      some ((s.holding d).compile d) := by
    rw [get?_recompile, get?_holding]
    simp
  have hshutdown : ((s.holding d).recompile s.documents.length).isShutdown = false := hrunning
  unfold document isExpired
  rw [hget, hshutdown, hcompile]
  simp [hrevoked, hstamp]

/-- A document that is opened alone is shown as it is compiled then. -/
theorem diagnostics_add (hs : s.Blank) (uri : Uri) (version : Int) (text : String)
    (hsize : text.utf8ByteSize ≤ s.settings.maxDocumentSize) :
    ∃ h s', s.add uri "cue" version text = .ok (h, s') ∧
      s'.diagnostics h = .ok (Compilation.shown uri (s.pathOf uri)
        ((s.disk.opening (s.pathOf uri) text).compile? Workspace.load (s.pathOf uri))) := by
  refine ⟨_, _, add_holding hs uri "cue" version text hsize, ?_⟩
  generalize hd : ({ uri, path := s.pathOf uri, language := "cue", text, version } : Document) = d
  have hlanguage : (s.holding d).settings.compiles d.language := by
    have hsettings : (s.holding d).settings = {} := hs.settings
    have hcue : Settings.compiles {} "cue" := by decide
    rw [hsettings, ← hd]
    exact hcue
  have hload : (s.holding d).load = Workspace.load := hs.load
  unfold Store.diagnostics
  rw [document_recompile hs.running (by rw [← hd]) (by rw [← hd])]
  refine congrArg Except.ok ?_
  rw [diagnostics_compile _ hlanguage hs.running, workspace_holding hs, hload, ← hd]

/-- A relative path starts from the root, an absolute one does not. -/
theorem pathOf_eq (s : Store) (h : uri.documentPath.isAbsolute) : s.pathOf uri = uri.documentPath :=
  if_pos h

end Store

theorem Disk.opening_saved {d : Disk} {path : Path} {text : String} (hpath : path.Normal)
    (hread : d.read? path = some text) : (d.opening path text).Saved := by
  refine ⟨fun e he => ?_, fun e he => ?_⟩
  · rw [List.mem_singleton.1 he]
    exact hpath
  · rw [List.mem_singleton.1 he]
    exact hread

/-- Checking a file on a disk gives the diagnostics that an editor shows which opened it alone. -/
theorem Disk.check_eq_opened {s : Store} (hs : s.Blank) (htree : s.disk.IsTree) {path : Path}
    (hpath : path.Normal) (hsource : Workspace.isSource path) {text : String}
    (hread : s.disk.read? path = some text) {uri : Uri} (huri : Uri.ofPath? path = some uri)
    (version : Int) :
    ∃ ds, s.disk.check path = .ok ds ∧
      (text.utf8ByteSize ≤ s.settings.maxDocumentSize →
        ∃ h s', s.add uri "cue" version text = .ok (h, s') ∧ s'.diagnostics h = .ok ds) := by
  refine ⟨_, check_eq htree hpath hread huri, fun hsize => ?_⟩
  obtain ⟨h, s', hadd, hshown⟩ := Store.diagnostics_add hs uri version text hsize
  refine ⟨h, s', hadd, hshown.trans ?_⟩
  have hdocument := Uri.documentPath_ofPath? hpath hsource huri
  rw [s.pathOf_eq (hdocument ▸ hpath.1), hdocument]
  have halike : ((s.disk.opening path text).load [path]).Alike
      ((s.disk.opening path text).bare.load [path]) := by
    refine (opening_saved hpath hread).load_alike fun p hp _ => ?_
    rw [List.mem_singleton.1 hp, Path.join, if_pos hpath.1]
    exact hpath.trimmed
  obtain ⟨dir, hdir⟩ := hpath.exists_parent
  have hbare : (s.disk.opening path text).bare =
      { dir := path.parent?.getD path, disk := s.disk } := by
    rw [opening, hdir]
    rfl
  rw [hbare] at halike
  exact congrArg Except.ok ((Workspace.compile?_alike halike).shown_eq uri path).symm

/-- A module with a file that imports a package and has an unresolved reference. -/
def Disk.twoPackages : Disk :=
  .ofLists
    [([Text.toBytes "m", Text.toBytes "cue.mod", Text.toBytes "module.cue"], some "module: \"m\""),
      ([Text.toBytes "m", Text.toBytes "a.cue"], some "import \"m/b\"\nx: y"),
      ([Text.toBytes "m", Text.toBytes "b", Text.toBytes "b.cue"], some "package b")] []

/-- A package that imports another one, with an unresolved reference. -/
theorem Disk.check_eq_opened_twoPackages :
    let shown : Diagnostics :=
      [(Uri.file "/m/a.cue", [⟨⟨⟨1, 3⟩, ⟨1, 4⟩⟩, "unresolved reference y"⟩])]
    twoPackages.check (.ofText "/m/a.cue") = .ok shown ∧
      ∃ h s', Store.add { disk := twoPackages } (Uri.file "/m/a.cue") "cue" 1
          "import \"m/b\"\nx: y" = .ok (h, s') ∧ s'.diagnostics h = .ok shown := by
  have hcheck : twoPackages.check (.ofText "/m/a.cue") =
      .ok [(Uri.file "/m/a.cue", [⟨⟨⟨1, 3⟩, ⟨1, 4⟩⟩, "unresolved reference y"⟩])] := by
    decide +kernel
  have htree : twoPackages.IsTree := by
    unfold IsTree
    decide +kernel
  have hread : twoPackages.read? (.ofText "/m/a.cue") = some "import \"m/b\"\nx: y" := by
    decide +kernel
  have huri : Uri.ofPath? (.ofText "/m/a.cue") = some (Uri.file "/m/a.cue") := by decide +kernel
  obtain ⟨ds, hds, hopened⟩ := check_eq_opened (s := { disk := twoPackages })
    ⟨rfl, rfl, rfl, rfl, rfl⟩ htree (by decide +kernel) (by decide +kernel) hread huri 1
  obtain rfl := Except.ok.inj (hds.symm.trans hcheck)
  exact ⟨hcheck, hopened (by decide +kernel)⟩

end CueScope
