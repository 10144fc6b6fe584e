import CueScope.Path

/-!
# The disk

A disk is a tree of directories and files. It is a value: a compilation reads the disk it is
given. There are no links, so a place has one name, its list of names from the root. There is no
working directory either, so a path that does not start at the root leads nowhere.

What is said of every disk is said of every such tree: where a link, or a directory that relative
paths start from, would lead somewhere else, it says nothing.
-/

namespace CueScope

/-- The names that lead from the root to a file or directory. -/
abbrev Place := List Path.Name

/-- A tree of directories and files. -/
structure Disk where
  /-- The files; one that is not UTF-8 has no text. -/
  files : List (Place × Option String)
  /-- Directories. Every directory that holds something is one, listed or not. -/
  dirs : List Place
  /-- Files lie where names lead to. -/
  proper : ∀ f ∈ files, f.1.all Path.isProper

namespace Disk

/-- The disk with some files and directories; files that no names lead to are left out. -/
def ofLists (files : List (Place × Option String)) (dirs : List Place) : Disk :=
  { files := files.filter (·.1.all Path.isProper)
    dirs
    proper := fun _ h => (List.mem_filter.mp h).2 }

instance : EmptyCollection Disk := ⟨ofLists [] []⟩

/-- The file at a place. -/
def file? (d : Disk) (p : Place) : Option (Option String) := d.files.lookup p

/-- A place that is a directory; the root always is. -/
def isDir (d : Disk) (p : Place) : Bool :=
  p.isEmpty || d.dirs.any (p.isPrefixOf ·) || d.files.any fun (q, _) => p.isPrefixOf q && p ≠ q

/-- A place where there is something. -/
def holds (d : Disk) (p : Place) : Bool := (d.file? p).isSome || d.isDir p

/-- Follows the segments of a path from a place. Only a directory can be left, also by an empty
segment or `.`. -/
def follow? (d : Disk) : Place → List Path.Name → Option Place
  | p, [] => if d.holds p then some p else none
  | p, s :: ss =>
    if d.isDir p then
      if Path.isIdle s then d.follow? p ss
      else if Path.isParent s then d.follow? p.dropLast ss
      else d.follow? (p ++ [s]) ss
    else none

/-- The place an absolute path leads to. A relative one has nowhere to start from. -/
def locate? (d : Disk) (path : Path) : Option Place :=
  if path.isAbsolute then d.follow? [] (path.segments.drop 1) else none

/-- The text of the file at a path. -/
def read? (d : Disk) (path : Path) : Option String :=
  ((d.locate? path).bind d.file?).join

/-- The names of the files in the directory at a path. -/
def list (d : Disk) (path : Path) : List Path.Name :=
  match d.locate? path with
  | none => []
  | some p => (d.files.filter fun (q, _) => q ≠ [] && q.dropLast = p).filterMap (·.1.getLast?)

/-- The path from the root to a place. -/
def pathOf (p : Place) : Path := .ofSegments ([] :: p)

end Disk

end CueScope
