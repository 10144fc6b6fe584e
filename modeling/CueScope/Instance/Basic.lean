import CueScope.Source
import CueScope.Tree.File
import CueScope.Workspace

/-!
# Package instances

An instance is the files of one package in one directory. Instances are linked by their imports.
-/

namespace CueScope

/-- Number of an instance, in order of loading. -/
abbrev InstanceId := Nat

/-- The files of one package in one directory. -/
structure Instance where
  dir : Path
  /-- How the package is shown. -/
  display : String
  package : Option String
  files : List SourceTree

/-- An import of one instance by another. -/
structure ImportEdge where
  importer : InstanceId
  path : String
  target : InstanceId
deriving DecidableEq, Repr

/-- Instances with their imports. -/
structure Instances where
  all : List Instance := []
  edges : List ImportEdge := []
  /-- The instances that were asked for. -/
  roots : List InstanceId := []
  sources : Sources := {}
  /-- Syntax errors of the files. -/
  errors : List SyntaxError := []

namespace Instances

/-- The instance with a number. -/
def get? (i : Instances) (id : InstanceId) : Option Instance := i.all[id]?

/-- The instance of a directory. -/
def find? (i : Instances) (dir : Path) : Option InstanceId := i.all.findIdx? (·.dir == dir)

/-- The instance that an instance imports by a path. -/
def lookup? (i : Instances) (importer : InstanceId) (path : String) : Option InstanceId :=
  (i.edges.find? fun e => e.importer = importer ∧ e.path = path).map (·.target)

/-- What an instance imports, in order of the import paths. -/
def importsOf (i : Instances) (importer : InstanceId) : List (String × InstanceId) :=
  ((i.edges.filter (·.importer = importer)).map fun e => (e.path, e.target)).mergeSort
    fun a b => a.1 ≤ b.1

end Instances

end CueScope
