import CueScope.Path
import CueScope.Text.Position
import CueScope.Text.Span

/-!
# Source files

`Sources` numbers the files that take part in one compilation. A path is registered once:
registering it again gives the number it already has and keeps the first text.
-/

namespace CueScope

/-- A registered file. -/
structure SourceFile where
  path : Path
  text : String

/-- The files of a compilation; the number of a file is its place in the list. -/
structure Sources where
  files : List SourceFile := []

namespace Sources

/-- The file with a number. -/
def get? (s : Sources) (id : FileId) : Option SourceFile := s.files[id]?

/-- The number of the file at a path. -/
def find? (s : Sources) (path : Path) : Option FileId := s.files.findIdx? (·.path == path)

/-- Registers a file. -/
def add (s : Sources) (path : Path) (text : String) : FileId × Sources :=
  match s.find? path with
  | some id => (id, s)
  | none => (s.files.length, ⟨s.files ++ [⟨path, text⟩]⟩)

/-- The path of a file. -/
def path? (s : Sources) (id : FileId) : Option Path := (s.get? id).map (·.path)

/-- The text under a span. -/
def slice? (s : Sources) (span : Span) : Option String :=
  (s.get? span.file).bind fun f => Text.slice? f.text span.start span.stop

/-- A span as an editor range. -/
def range? (s : Sources) (span : Span) : Option Range :=
  (s.get? span.file).bind fun f =>
    (Position.ofOffset? f.text span.start).bind fun start =>
      (Position.ofOffset? f.text span.stop).map fun stop => ⟨start, stop⟩

end Sources

end CueScope
