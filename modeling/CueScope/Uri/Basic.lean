import CueScope.Host.Basic

/-!
# URIs

A URI in normal form. Its parts are percent-encoded, so that its text is what is compared and
shown.
-/

namespace CueScope

/-- Who is asked for a document: a host, as some user, at some service. -/
structure Authority where
  user : String := ""
  password : String := ""
  host : Host := .absent
  /-- The number of the service, if it is not the one that the scheme implies. -/
  service : Option Nat := none
deriving DecidableEq, Repr

/-- The text of an authority. -/
def Authority.text (a : Authority) : String :=
  let password := if a.password = "" then "" else ":" ++ a.password
  let who := if a.user = "" ∧ a.password = "" then "" else a.user ++ password ++ "@"
  who ++ a.host.text ++ a.service.elim "" fun n => ":" ++ toString n

/-- A URI in normal form. -/
structure Uri where
  scheme : String
  /-- What stands after `//`. -/
  authority : Option Authority
  path : String
  query : Option String := none
  fragment : Option String := none
deriving DecidableEq, Repr

namespace Uri

/-- What stands between the scheme and the path. Without authority, a path that starts with two
slashes has `/.` in front of it. -/
def front (u : Uri) : String :=
  match u.authority with
  | some a => "//" ++ a.text
  | none => if ['/', '/'].isPrefixOf u.path.toList then "/." else ""

/-- The text of a URI. -/
def text (u : Uri) : String :=
  u.scheme ++ ":" ++ u.front ++ u.path ++ u.query.elim "" ("?" ++ ·) ++
    u.fragment.elim "" ("#" ++ ·)

/-! ## Characters that are percent-encoded -/

/-- Characters encoded in fragments. -/
def fragmentSet : List Char := [' ', '"', '<', '>', '\x60']

/-- Characters encoded in paths. -/
def pathSet : List Char := fragmentSet ++ ['#', '?', '\x7b', '\x7d']

/-- Characters encoded in the names of users and in passwords. -/
def userSet : List Char := pathSet ++ ['/', ':', ';', '=', '@', '[', '\\', ']', '^', '|']

/-- Characters encoded in a file name. -/
def nameSet : List Char := pathSet ++ ['/', '%', '\\']

/-- Characters encoded in queries. -/
def querySet (isSpecial : Bool) : List Char :=
  [' ', '"', '#', '<', '>'] ++ if isSpecial then ['\''] else []

end Uri

end CueScope
