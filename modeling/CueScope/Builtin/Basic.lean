import CueScope.ImportPath

/-!
# Builtins

Predeclared identifiers and the members of builtin packages, with the documentation an editor
shows for them.
-/

namespace CueScope

/-- What a builtin is. -/
inductive BuiltinKind where
  | type
  | intRange
  | function (params : List String) (result : String)
  | constant
deriving DecidableEq, Repr

/-- A predeclared identifier or a member of a builtin package. -/
structure Builtin where
  name : String
  doc : String
  kind : BuiltinKind
deriving DecidableEq, Repr

/-- A builtin package. -/
structure BuiltinPackage where
  /-- The import path. -/
  id : String
  /-- The name it is imported under, the last element of the path. -/
  name : String
  doc : String
  members : List Builtin
deriving DecidableEq, Repr

namespace Builtin

/-- The builtin can be called. -/
def isFunction (b : Builtin) : Bool :=
  match b.kind with
  | .function .. => true
  | _ => false

/-- Kinds of a function's parameters; nothing else has any. -/
def params (b : Builtin) : List String :=
  match b.kind with
  | .function params _ => params
  | _ => []

/-- Code as an editor shows it. -/
def fenced (code : String) : String := "```cue\n" ++ code ++ "\n```"

/-- A predeclared type. -/
def ofType (name doc : String) : Builtin := ⟨name, doc, .type⟩

/-- A predeclared integer range. -/
def ofRange (name bounds : String) : Builtin :=
  ⟨name,
    fenced (name ++ " : " ++ bounds) ++
      "\nPredefined identifier to restrict the bounds of integers to common values.",
    .intRange⟩

/-- The documentation of a member: its signature, then `doc` or where it is from. -/
def memberDoc (id signature doc : String) : String :=
  fenced signature ++ "\n" ++
    if doc.isEmpty then "Builtin function from package `\"" ++ id ++ "\"`" else doc

/-- A function of a package, given the import path of the package. -/
def function (name : String) (params : List String) (result doc id : String) : Builtin :=
  ⟨name, memberDoc id (name ++ "(" ++ ", ".intercalate params ++ ") " ++ result) doc,
    .function params result⟩

/-- A constant of a package, given the import path of the package. -/
def constant (name value doc id : String) : Builtin :=
  ⟨name, memberDoc id (name ++ " : " ++ value) doc, .constant⟩

end Builtin

namespace BuiltinPackage

/-- A package with members, which are told its import path. -/
def make (id doc : String) (members : List (String → Builtin)) : BuiltinPackage :=
  ⟨id, ImportPath.lastElement id, doc, members.map (· id)⟩

/-- The member with a name. -/
def member? (p : BuiltinPackage) (name : String) : Option Builtin :=
  p.members.find? (·.name = name)

end BuiltinPackage

end CueScope
