import CueScope.Text.Split

/-!
# Segments of URI paths

The path of a hierarchical URI is made of segments, each after a slash. In normal form none of them
stands for the current directory or the one above. A drive letter is a segment such as `c:`; no
`..` leads out of it.
-/

namespace CueScope.Uri

/-- A segment that stands for the current directory; a dot may be percent-encoded. -/
def isDot (segment : List Char) : Bool :=
  segment.map Char.toLower ∈ [".", "%2e"].map String.toList

/-- A segment that stands for the directory above. -/
def isDotDot (segment : List Char) : Bool :=
  segment.map Char.toLower ∈ ["..", ".%2e", "%2e.", "%2e%2e"].map String.toList

/-- A text that starts with a drive letter: a letter and `:` or `|`, and then the end of the
segment. -/
def startsWithDrive : List Char → Bool
  | c :: d :: rest =>
    c.isAlpha && (d = ':' || d = '|') && rest.head?.all (· ∈ ['/', '\\', '?', '#'])
  | _ => false

/-- A drive letter. -/
def isDrive (segment : List Char) : Bool := segment.length = 2 && startsWithDrive segment

/-- A drive letter, with a colon. -/
def normalDrive (segment : List Char) : List Char :=
  if isDrive segment then segment.take 1 ++ [':'] else segment

/-- The segments of the directory above. -/
def climb (segments : List (List Char)) : List (List Char) :=
  if segments.getLast?.any fun s => startsWithDrive (s ++ ['/']) then segments
  else segments.dropLast

/-- Resolves `.` and `..`, after segments that are in normal form; either of them at the end leaves
an empty segment. With `drives`, a drive letter that comes first is brought into normal form. -/
def resolve (drives : Bool) : List (List Char) → List (List Char) → List (List Char)
  | done, [] => done
  | done, s :: ss =>
    let ending : List (List Char) := if ss.isEmpty then [[]] else []
    if isDotDot s then resolve drives (climb done ++ ending) ss
    else if isDot s then resolve drives (done ++ ending) ss
    else resolve drives (done ++ [if drives && done.isEmpty then normalDrive s else s]) ss

end CueScope.Uri
