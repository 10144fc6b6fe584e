import CueScope.Editor.Definition
import CueScope.Graph.Build
import CueScope.Graph.Find

/-!
# Diagnostics

Problems of a compilation as an editor shows them: with a range, and sorted by the document they
are in. A problem that belongs to no file is shown at the start of the document that was compiled.
-/

namespace CueScope

/-- A problem as an editor shows it. -/
structure Diagnostic where
  range : Range
  message : String
deriving DecidableEq, Repr

/-- Diagnostics by document. -/
abbrev Diagnostics := List (Uri × List Diagnostic)

namespace Diagnostic

/-- All diagnostics are errors, the first of the severities that editors know. -/
def severity : Nat := 1

/-- Who diagnoses. -/
def source : String := "cuels"

end Diagnostic

namespace Diagnostics

/-- The diagnostics of a document. -/
def of (ds : Diagnostics) (uri : Uri) : List Diagnostic := (ds.lookup uri).getD []

/-- Adds a diagnostic to those of its document. -/
def insert (ds : Diagnostics) (uri : Uri) (d : Diagnostic) : Diagnostics :=
  match ds with
  | [] => [(uri, [d])]
  | (u, old) :: rest => if u = uri then (u, old ++ [d]) :: rest else (u, old) :: insert rest uri d

end Diagnostics

namespace Graph

/-- A point is shown up to the end of the most specific node there. -/
def widen (g : Graph) (pos : Pos) : Span :=
  let node := g.root.bind fun root => g.find? (.node root) pos
  match node.bind g.span? with
  | some span =>
    if span.file = pos.file ∧ pos.offset ≤ span.stop then ⟨pos.file, pos.offset, span.stop⟩
    else .point pos
  | none => .point pos

/-- What is marked for a problem in a package compiled for the document at a path. -/
def marked? (g : Graph) (path : Path) (p : Problem) : Option Span :=
  match p.place with
  | .range span => some span
  | .point pos => some (g.widen pos)
  | .nowhere => (g.sources.find? path).map fun file => .point ⟨file, 0⟩

/-- The document a problem is shown in, and how. -/
def diagnose (g : Graph) (uri : Uri) (path : Path) (p : Problem) : Uri × Diagnostic :=
  let span := g.marked? path p
  let home := (span.bind fun s => g.sources.path? s.file).bind Uri.ofPath?
  (home.getD uri, ⟨(span.bind g.sources.range?).getD default, p.message⟩)

end Graph

/-- The diagnostics of a compilation that was done for the document `uri` at `path`. -/
def Compilation.diagnostics (c : Compilation) (uri : Uri) (path : Path) : Diagnostics :=
  c.problems.foldl
    (fun ds p =>
      let (home, d) := c.graph.diagnose uri path p
      ds.insert home d)
    []

end CueScope
