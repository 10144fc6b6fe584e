import CueScope.ImportPath
import CueScope.Instance.Basic
import CueScope.Instance.Module

/-!
# Loading instances

`Workspace.load` finds the instances that paths ask for and all that they import. A directory is
loaded once: further requests for it get the instance it already has.
-/

namespace CueScope

/-- Which package of a directory is wanted. -/
inductive PackageChoice where
  /-- Only files of this package, or those without a package clause. -/
  | exactly (package : Option String)
  /-- This package if a file is of it, else that of the first file that names one. -/
  | prefer (package : Option String)

/-- The package chosen among those of the files. -/
def PackageChoice.pick (choice : PackageChoice) (files : List SourceTree) : Option String :=
  match choice with
  | .exactly package => package
  | .prefer package =>
    let names := files.filterMap (·.packageName)
    match package with
    | some name => if name ∈ names then some name else names.head?
    | none => names.head?

namespace Load

/-- What was loaded so far, and the module imports are resolved in. -/
structure State where
  found : Instances := {}
  module? : Option Module := none

/-- The package clause of a single file, which is registered. -/
def packageOf (w : Workspace) (path : Path) (s : State) : Option String × State :=
  match w.read? path with
  | none => (none, s)
  | some text =>
    let (id, sources) := s.found.sources.add path text
    ((SourceTree.parse id text).1.packageName, { s with found := { s.found with sources } })

/-- Registers files, in order. -/
def register : List (Path × String) → Sources → List (FileId × String) × Sources
  | [], sources => ([], sources)
  | (path, text) :: more, sources =>
    let (id, sources) := sources.add path text
    let (ids, sources) := register more sources
    ((id, text) :: ids, sources)

/-- Import paths of files, each once, in order of first occurrence. -/
def importPaths (files : List SourceTree) : List String :=
  (files.flatMap fun f => f.imports.filterMap (·.path?)).eraseDups

/-- Makes the instance of a directory, without its imports. -/
def instantiate (w : Workspace) (dir : Path) (choice : PackageChoice) (display : String)
    (s : State) : List String × State :=
  let texts := (w.list dir).filterMap fun path => (w.read? path).map fun text => (path, text)
  let (entries, sources) := register texts s.found.sources
  let parsed := entries.map fun (id, text) => SourceTree.parse id text
  let package := choice.pick (parsed.map (·.1))
  let files := (parsed.map (·.1)).filter (·.packageName = package)
  (importPaths files,
    { s with
      found := { s.found with
        all := s.found.all ++ [⟨dir, display, package, files⟩]
        sources
        errors := s.found.errors ++ parsed.flatMap (·.2) } })

/-- The instance of a directory and all that it imports. Imports nest at most `depth` deep. -/
def directory (w : Workspace) : Nat → Path → PackageChoice → String → State → InstanceId × State
  | 0, _, _, _, s => (0, s)
  | depth + 1, dir, choice, display, s =>
    match s.found.find? dir with
    | some id => (id, s)
    | none =>
      let id := s.found.all.length
      let (paths, s) := instantiate w dir choice display s
      let s := paths.foldl
        (fun s path =>
          match s.module?.bind (·.importDir? path) with
          | none => s
          | some target =>
            if (w.list target).isEmpty then s
            else
              let preferred := .prefer (some (ImportPath.lastElement path))
              let (t, s) := directory w depth target preferred path s
              { s with found := { s.found with edges := s.found.edges ++ [⟨id, path, t⟩] } })
        s
      (id, s)

/-- The instance that a path asks for: a source file asks for its package, a directory for the
package named like it. -/
def request (w : Workspace) (path : Path) (s : State) : State :=
  let path := if path.isAbsolute then path else w.dir.join path
  let load (dir : Path) (choice : PackageChoice) (s : State) : State :=
    let s := { s with module? := s.module?.or (Module.discover? w dir) }
    let (id, s) := directory w (w.volume + 2) dir choice (Module.display s.module? w.dir dir) s
    { s with found := { s.found with roots := s.found.roots ++ [id] } }
  if Workspace.isSource path then
    match path.parent? with
    | none => s
    | some dir =>
      let (package, s) := packageOf w path s
      load dir (.exactly package) s
  else load path (.prefer path.fileName?) s

end Load

/-- The instances that paths ask for, and all that they import. -/
def Workspace.load (w : Workspace) (paths : List Path) : Instances :=
  (paths.foldl (fun s path => Load.request w path s) {}).found

end CueScope
