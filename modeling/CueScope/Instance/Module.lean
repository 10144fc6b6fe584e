import CueScope.Text.Blank
import CueScope.Workspace

/-!
# Modules

A module is a directory with a file `cue.mod/module.cue`, which may declare the module's import
path. Packages of the module are imported below that path, others from `cue.mod/pkg`.
-/

namespace CueScope

/-- A module: its directory and the import path it declares. -/
structure Module where
  root : Path
  path? : Option String
deriving DecidableEq

namespace Module

/-- Reads `module : "path"` at the start of a text, with blanks anywhere between the words. -/
def declaration? (text : List Char) : Option String :=
  let skip (cs : List Char) := cs.dropWhile Text.isBlank
  match (skip text).splitAt 6 with
  | (word, rest) =>
    if word = "module".toList then
      match skip rest with
      | ':' :: rest =>
        match skip rest with
        | '"' :: rest =>
          let (path, rest) := rest.span (· ≠ '"')
          if path ≠ [] ∧ rest ≠ [] then some (String.ofList path) else none
        | _ => none
      | _ => none
    else none

/-- The path declared on the first line that starts a declaration. -/
def declared? : List Char → Option String
  | text => go true text
where
  /-- `fresh` tells whether a line starts here. -/
  go : Bool → List Char → Option String
    | _, [] => none
    | fresh, c :: cs =>
      match if fresh then declaration? (c :: cs) else none with
      | some path => some path
      | none => go (c = '\n') cs

/-- The module that a directory is in: that of the nearest directory above it, itself included,
which has a module file. -/
def discover? (w : Workspace) (dir : Path) : Option Module :=
  dir.ancestors.findSome? fun root =>
    (w.read? (root ++ "cue.mod" ++ "module.cue")).map fun text => ⟨root, declared? text.toList⟩

/-- What follows `head` in a text. -/
def after? (head text : String) : Option String :=
  let (h, t) := (head.toList, text.toList)
  if h.isPrefixOf t then some (String.ofList (t.drop h.length)) else none

/-- Where a package from outside the module lies; the first element of its path holds a dot. -/
def vendored? (m : Module) (path : String) : Option Path :=
  if (path.toList.takeWhile (· ≠ '/')).contains '.' then
    some (m.root ++ "cue.mod" ++ "pkg" ++ path)
  else none

/-- The directory an import path leads to, if it is not that of a builtin package. -/
def importDir? (m : Module) (path : String) : Option Path :=
  match m.path? with
  | none => m.vendored? path
  | some own =>
    if path = own then some m.root
    else
      match after? (own ++ "/") path with
      | some rest => some (m.root ++ rest)
      | none => m.vendored? path

/-- How a directory is shown: by its import path if it is in a module that declares one, else by
the way that leads to it from the working directory. -/
def display (m : Option Module) (workDir dir : Path) : String :=
  let inModule := m.bind fun m => m.path?.bind fun own =>
    (dir.relativeTo? m.root).map fun rest =>
      if rest.bytes.isEmpty then own else own ++ "/" ++ rest.text
  inModule.getD <|
    match dir.from? workDir with
    | some rel => if rel.bytes.isEmpty then "." else rel.text
    | none => dir.text

end Module

end CueScope
