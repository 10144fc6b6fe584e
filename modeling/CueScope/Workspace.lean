import CueScope.Disk

/-!
# Workspaces

What a compilation reads: the disk, and texts that are open in an editor and take precedence over
the disk (the overlay).
-/

namespace CueScope

/-- Texts by path; the paths differ pairwise. -/
structure Overlay where
  entries : List (Path × String) := []

namespace Overlay

/-- The text at a path. -/
def get? (o : Overlay) (path : Path) : Option String :=
  (o.entries.find? (·.1 == path)).map (·.2)

/-- Puts a text at a path. A path that is there already keeps its spelling. -/
def insert (o : Overlay) (path : Path) (text : String) : Overlay :=
  match o.entries.findIdx? (·.1 == path) with
  | some i => ⟨o.entries.modify i fun e => (e.1, text)⟩
  | none => ⟨o.entries ++ [(path, text)]⟩

/-- Texts put in one after the other. -/
def ofList (entries : List (Path × String)) : Overlay :=
  entries.foldl (fun o e => o.insert e.1 e.2) {}

end Overlay

/-- Where sources come from. -/
structure Workspace where
  /-- The directory that relative paths start from. -/
  dir : Path
  overlay : Overlay := {}
  disk : Disk := {}

namespace Workspace

/-- The text at a path. -/
def read? (w : Workspace) (path : Path) : Option String :=
  (w.overlay.get? path).or (w.disk.read? path)

/-- Of several paths to one place the last one is kept. -/
def dropSame : List Path → List Path
  | p :: q :: ps => if p == q then dropSame (q :: ps) else p :: dropSame (q :: ps)
  | ps => ps

/-- A path of a source file. -/
def isSource (path : Path) : Bool := path.extension? = some (Text.toBytes "cue")

/-- The source files of a directory in order, from the disk and the overlay. -/
def list (w : Workspace) (dir : Path) : List Path :=
  let onDisk := (w.disk.list dir).map fun name => dir.join ⟨name⟩
  let inOverlay := (w.overlay.entries.map (·.1)).filter fun p => p.parent?.any (· == dir)
  dropSame (((onDisk ++ inOverlay).filter isSource).mergeSort fun p q => !q.before p)

/-- Number of characters of all texts. -/
def volume (w : Workspace) : Nat :=
  let inOverlay := w.overlay.entries.foldl (fun n e => n + e.2.length) 0
  w.disk.files.foldl (fun n f => n + f.2.elim 0 (·.length)) inOverlay

end Workspace

end CueScope
