import CueScope.Editor.Diagnostic

/-!
# Checking without an editor

`Disk.check` compiles the package of a file or directory as it is on the disk and gives its
diagnostics.
-/

namespace CueScope

/-- There is nothing at a path. -/
structure CheckError where
  path : Path
deriving DecidableEq, Repr

/-- An error in words. -/
def CheckError.message (e : CheckError) : String := "can't access " ++ e.path.text

/-- The diagnostics of the package at a path. -/
def Disk.check (disk : Disk) (path : Path) : Except CheckError Diagnostics :=
  match disk.locate? path with
  | none => .error ⟨path⟩
  | some place =>
    let path := Disk.pathOf place
    let dir := if disk.isDir place then path else path.parent?.getD path
    let uri := (Uri.ofPath? path).getD (Uri.file path.text)
    let w : Workspace := { dir, disk }
    match w.compile? Workspace.load path with
    | .ok c => .ok (c.diagnostics uri path)
    | .error p =>
      let nothing : Compilation := { problems := [p] }
      .ok (nothing.diagnostics uri path)

end CueScope
