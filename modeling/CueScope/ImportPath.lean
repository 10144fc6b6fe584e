/-!
# Import paths

An import path is a list of elements between slashes. A qualifier after a colon names the package.
-/

namespace CueScope.ImportPath

/-- What follows the last `c` of a text, and whether there is one. -/
def afterLast (c : Char) (text : String) : Bool × String :=
  (text.toList.contains c, String.ofList (text.toList.reverse.takeWhile (· ≠ c)).reverse)

/-- The last element. -/
def lastElement (path : String) : String := (afterLast '/' path).2

/-- The name a package is imported under if the import gives none: the qualifier of the path, or
its last element. -/
def defaultAlias (path : String) : String :=
  match afterLast ':' path with
  | (true, qualifier) => qualifier
  | (false, _) => lastElement path

end CueScope.ImportPath
