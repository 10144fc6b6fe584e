import CueScope.Text.Bytes
import CueScope.Text.Split

/-!
# File paths

A path is kept as the bytes it was built from, and their text is what is printed; not every file
name is UTF-8. Two paths denote the same place (`==`) when their components agree: repeated and
trailing slashes and a `.` that is not the first component do not count, while `..` is kept as it
is.
-/

namespace CueScope

/-- A file path. -/
structure Path where
  bytes : List UInt8
deriving DecidableEq, Repr, Inhabited

namespace Path

/-- The name of a file or directory. -/
abbrev Name := List UInt8

/-- The path that a text spells. -/
def ofText (text : String) : Path := ⟨Text.toBytes text⟩

/-- The text of a path. -/
def text (p : Path) : String := Text.ofBytes p.bytes

/-- The byte between two names. -/
def slash : UInt8 := 0x2F

/-- The byte of a dot. -/
def dot : UInt8 := 0x2E

/-- A step of a path. -/
inductive Component where
  | root
  | current
  | parent
  | name (s : Name)
deriving DecidableEq, Repr

/-- Order of components: the root, `.`, `..`, then names by their bytes. -/
def Component.before : Component → Component → Bool
  | .name s, .name t => s < t
  | .name _, _ => false
  | _, .name _ => true
  | .root, .root => false
  | .root, _ => true
  | .current, .parent => true
  | _, _ => false

/-- What stands between the slashes of a path; the empty path has no segments. -/
def segments (p : Path) : List Name :=
  if p.bytes.isEmpty then [] else Text.pieces (· = slash) p.bytes

/-- A path from the root. -/
def isAbsolute (p : Path) : Bool := p.bytes.head? = some slash

/-- A segment that stands for no step, unless it comes first. -/
def isIdle (segment : Name) : Bool := segment = [] || segment = [dot]

/-- A segment that stands for the directory above. -/
def isParent (segment : Name) : Bool := segment = [dot, dot]

/-- A segment that is the name of a file or directory. -/
def isProper (segment : Name) : Bool :=
  !isIdle segment && !isParent segment && !segment.contains slash

/-- The step a segment stands for. -/
def stepOf (segment : Name) : Option Component :=
  if isIdle segment then none else if isParent segment then some .parent else some (.name segment)

/-- The steps of a path. -/
def components (p : Path) : List Component :=
  match p.segments with
  | [] => []
  | s :: ss =>
    if s = [] then .root :: ss.filterMap stepOf
    else if s = [dot] then .current :: ss.filterMap stepOf
    else (s :: ss).filterMap stepOf

/-- Two paths to the same place. -/
instance : BEq Path := ⟨fun p q => p.components == q.components⟩

theorem beq_def (p q : Path) : (p == q) = (p.components == q.components) := rfl

/-- Order of paths: by their components. -/
def before (p q : Path) : Bool := go p.components q.components
where
  go : List Component → List Component → Bool
    | _, [] => false
    | [], _ :: _ => true
    | a :: as, b :: bs => if a = b then go as bs else a.before b

/-- The path that `q` denotes in the directory `p`; an absolute `q` stands for itself. -/
def join (p q : Path) : Path :=
  if q.isAbsolute then q
  else if p.bytes.isEmpty ∨ p.bytes.getLast? = some slash then ⟨p.bytes ++ q.bytes⟩
  else ⟨p.bytes ++ slash :: q.bytes⟩

instance : HAppend Path String Path := ⟨fun p s => p.join (ofText s)⟩

/-- Segments with slashes between them. -/
def joinSegments (segments : List Name) : Path := ⟨[slash].intercalate segments⟩

/-- Segments put together again. A single empty segment is what is left of the root. -/
def ofSegments (segments : List Name) : Path :=
  if segments = [[]] then ⟨[slash]⟩ else joinSegments segments

/-- Segments of a path without idle ones at the end; the first one is never idle. -/
def trimEnd (segments : List Name) : List Name :=
  match segments with
  | [] => []
  | s :: ss => s :: (ss.reverse.dropWhile isIdle).reverse

/-- The directory a path lies in; none for the root and the empty path. -/
def parent? (p : Path) : Option Path :=
  match p.components.getLast? with
  | none | some .root => none
  | some _ => some (ofSegments (trimEnd (trimEnd p.segments).dropLast))

/-- The path itself, the directory it lies in, the directory of that, and so on. A path has at
most as many as it has segments. -/
def ancestors (p : Path) : List Path := go p.segments.length p
where
  go : Nat → Path → List Path
    | 0, p => [p]
    | n + 1, p => p :: (p.parent?.elim [] (go n))

/-- The last component, if it is a name. -/
def lastName? (p : Path) : Option Name :=
  match p.components.getLast? with
  | some (.name s) => some s
  | _ => none

/-- The text of the last component, if it is a name. -/
def fileName? (p : Path) : Option String := p.lastName?.map Text.ofBytes

/-- What follows the last dot of the last name; a name that starts with its only dot has none. -/
def extension? (p : Path) : Option Name :=
  p.lastName?.bind fun name =>
    match Text.splitLast (· = dot) name with
    | (none, _) | (some [], _) => none
    | (some _, extension) => some extension

/-- Drops the segments of the first `n` steps, and idle ones after them. -/
def dropSteps : Nat → List Name → List Name
  | 0, ss => ss.dropWhile isIdle
  | _ + 1, [] => []
  | n + 1, s :: ss => if isIdle s then dropSteps (n + 1) ss else dropSteps n ss

/-- The path from the directory `base` to `p`, if `p` lies in it. -/
def relativeTo? (p base : Path) : Option Path :=
  let steps := base.components
  if steps.isPrefixOf p.components then
    match steps, trimEnd p.segments with
    | [], ss => some (ofSegments ss)
    | _ :: _, [] => some ⟨[]⟩
    | _ :: more, _ :: ss => some (joinSegments (dropSteps more.length ss))
  else none

/-- The steps that lead from `base` to `p`: what both start with is dropped, each further step of
`base` is undone. None if a step of `base` to undo is `..`. -/
def diffSteps : List Component → List Component → Option (List Component)
  | [], [] => some []
  | as, [] => some as
  | [], _ :: bs => (diffSteps [] bs).map (.parent :: ·)
  | a :: as, b :: bs => if a = b then diffSteps as bs else diverge (a :: as) (b :: bs)
where
  /-- After the first difference. -/
  diverge : List Component → List Component → Option (List Component)
    | as, [] => some as
    | [], bs => some (bs.map fun _ => .parent)
    | a :: as, b :: bs =>
      if b = .current then (diverge as bs).map (a :: ·)
      else if b = .parent then none
      else some (.parent :: bs.map (fun _ => .parent) ++ a :: as)

/-- The bytes of a step. -/
def Component.bytes : Component → List UInt8
  | .root => [slash]
  | .current => [dot]
  | .parent => [dot, dot]
  | .name s => s

/-- The path from `base` to `p`, if there is one that needs no file system. -/
def from? (p base : Path) : Option Path :=
  if p.isAbsolute ≠ base.isAbsolute then
    if p.isAbsolute then some p else none
  else
    (diffSteps p.components base.components).map fun steps =>
      steps.foldl (fun q step => q.join ⟨step.bytes⟩) ⟨[]⟩

end Path

end CueScope
