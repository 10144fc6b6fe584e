import CueScope.Uri.Basic
import CueScope.Uri.Segments

/-!
# Reading URIs

`Uri.parse?` reads an absolute URI and brings it into normal form: the scheme and the domain are in
small letters, characters that need it are percent-encoded, and `.` and `..` are resolved in
hierarchical paths. Two spellings of one document have one normal form.

A scheme is special if it is known how its URIs name a document: they are hierarchical, have a
path, and take a backslash for a slash.
-/

namespace CueScope.Uri

/-! ## Schemes -/

/-- The special schemes other than `file`, and the numbers of the services that they imply. -/
def services : List (String × Nat) :=
  [("http", 80), ("https", 443), ("ws", 80), ("wss", 443), ("ftp", 21)]

/-- A character of a scheme after the first. -/
def isSchemeChar (c : Char) : Bool := c.isAlphanum || c = '+' || c = '-' || c = '.'

/-- A character that separates segments. -/
def isSlash (isSpecial : Bool) (c : Char) : Bool := c = '/' || (isSpecial && c = '\\')

/-! ## Query and fragment -/

/-- Splits off what follows the first `c`. -/
def splitOff (c : Char) (text : List Char) : List Char × Option (List Char) :=
  match text.span (· ≠ c) with
  | (front, []) => (front, none)
  | (front, _ :: back) => (front, some back)

/-- Reads a path, which `path` brings into normal form, and the query and fragment after it. -/
def withPath (scheme : String) (isSpecial : Bool) (authority : Option Authority)
    (path : List Char → String) (text : List Char) : Uri :=
  let (text, fragment) := splitOff '#' text
  let (text, query) := splitOff '?' text
  { scheme, authority
    path := path text
    query := query.map (Text.percentEncode (querySet isSpecial))
    fragment := fragment.map (Text.percentEncode fragmentSet) }

/-- Segments, each after a slash. -/
def pathText (segments : List (List Char)) : String :=
  String.join (segments.map fun s => "/" ++ Text.percentEncode pathSet s)

/-- The path that starts with a slash and goes on with a text. -/
def rootedPath (isSpecial : Bool) (text : List Char) : String :=
  pathText (resolve false [] (Text.pieces (isSlash isSpecial) text))

/-- The path after an authority. That of a special URI has a slash at least. -/
def pathAfterAuthority (isSpecial : Bool) (text : List Char) : String :=
  match text with
  | [] => if isSpecial then "/" else ""
  | c :: cs => rootedPath isSpecial (if isSlash isSpecial c then cs else text)

/-! ## Authorities -/

/-- A character that ends an authority. -/
def endsAuthority (isSpecial : Bool) (c : Char) : Bool :=
  isSlash isSpecial c || c = '?' || c = '#'

/-- Reads the name of a user and a password, which end with the last `@` of the authority. -/
def readUser? (isSpecial : Bool) (text : List Char) : Option (Authority × List Char) :=
  match Text.splitLast (· = '@') (text.takeWhile (!endsAuthority isSpecial ·)) with
  | (none, _) => some ({}, text)
  | (some info, _) =>
    let rest := text.drop (info.length + 1)
    if info = [] ∧ rest.head?.any (endsAuthority isSpecial) then none
    else
      let (user, password) := splitOff ':' info
      some ({
        user := Text.percentEncode userSet user
        password := Text.percentEncode userSet (password.getD []) }, rest)

/-- Splits off a host. A colon between brackets is part of it. -/
def splitHost (isSpecial : Bool) : Bool → List Char → List Char × List Char
  | _, [] => ([], [])
  | inside, c :: cs =>
    if endsAuthority isSpecial c || (c = ':' && !inside) then ([], c :: cs)
    else
      let (host, rest) := splitHost isSpecial (c = '[' || (inside && c ≠ ']')) cs
      (c :: host, rest)

/-- Reads the number of a service after a colon; the one that is `implied` does not count. -/
def readService? (implied : Option Nat) (text : List Char) : Option (Option Nat × List Char) :=
  match text with
  | ':' :: text =>
    let (digits, rest) := text.span Char.isDigit
    let n := Text.valueIn 10 digits
    if rest.head?.all (endsAuthority true) ∧ n ≤ 65535 then
      some (if digits = [] ∨ implied = some n then none else some n, rest)
    else none
  | text => some (none, text)

/-- Reads an authority. Only if it is not special and nothing else is in it, it may lack a host. -/
def readAuthority? (isSpecial : Bool) (implied : Option Nat) (text : List Char) :
    Option (Authority × List Char) := do
  let (authority, text) ← readUser? isSpecial text
  let (name, text) := splitHost isSpecial false text
  let host ←
    if name = [] then
      if isSpecial ∨ text.head? = some ':' ∨ authority ≠ {} then none else some .absent
    else if isSpecial then Host.ofText? name
    else Host.verbatim? name
  let (service, text) ← readService? implied text
  pure ({ authority with host, service }, text)

/-! ## URIs by kind of scheme -/

/-- The URI of a file on a host. A drive letter that comes first is on this machine. -/
def fileUri (host : Host) (text : List Char) : Uri :=
  let segments (path : List Char) : List (List Char) :=
    resolve true [] (Text.pieces (isSlash true) path)
  let path (text : List Char) : String :=
    String.ofList ('/' :: (pathText (segments text)).toList.dropWhile (· = '/'))
  let isHere := (segments (text.takeWhile fun c => c ≠ '?' && c ≠ '#')).head?.any isDrive
  withPath "file" true (some { host := if isHere then .absent else host }) path text

/-- Reads a URI with the scheme `file`. What stands after two slashes is a host, unless it is a
drive letter; this machine is not named. -/
def parseFile? (text : List Char) : Option Uri :=
  match text with
  | a :: b :: rest =>
    if isSlash true a && isSlash true b then
      let (name, path) := rest.span (!endsAuthority true ·)
      if isDrive name then some (fileUri .absent rest)
      else if name = [] then some (fileUri .absent path)
      else
        (Host.ofText? name).map fun host =>
          if host = .localhost then fileUri .absent path
          else fileUri host (if path.head?.any (isSlash true) then path.drop 1 else path)
    else some (fileUri .absent (if isSlash true a then b :: rest else text))
  | [a] => some (fileUri .absent (if isSlash true a then [] else text))
  | [] => some (fileUri .absent [])

/-- Reads a URI with another special scheme. -/
def parseSpecial? (scheme : String) (text : List Char) : Option Uri :=
  (readAuthority? true (services.lookup scheme) (text.dropWhile (isSlash true))).map
    fun (authority, text) => withPath scheme true (some authority) (pathAfterAuthority true) text

/-- Reads a URI with a scheme that is not special. Without slashes the path is not made of
segments. -/
def parseOther? (scheme : String) (text : List Char) : Option Uri :=
  match text with
  | '/' :: '/' :: text =>
    (readAuthority? false none text).map fun (authority, text) =>
      withPath scheme false (some authority) (pathAfterAuthority false) text
  | '/' :: text => some (withPath scheme false none (rootedPath false) text)
  | text => some (withPath scheme false none (Text.percentEncode []) text)

/-- Reads an absolute URI. Spaces and control characters at both ends, and tabs and line ends
anywhere, do not count. -/
def parse? (text : String) : Option Uri :=
  let outer (c : Char) : Bool := c.toNat ≤ 0x20
  let chars := ((text.toList.dropWhile outer).reverse.dropWhile outer).reverse
  let chars := chars.filter fun c => c ≠ '\t' && c ≠ '\n' && c ≠ '\r'
  match splitOff ':' chars with
  | (c :: cs, some rest) =>
    if c.isAlpha ∧ cs.all isSchemeChar then
      let scheme := String.ofList ((c :: cs).map Char.toLower)
      if scheme = "file" then parseFile? rest
      else if (services.lookup scheme).isSome then parseSpecial? scheme rest
      else parseOther? scheme rest
    else none
  | _ => none

end CueScope.Uri
