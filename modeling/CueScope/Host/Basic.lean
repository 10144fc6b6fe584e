import CueScope.Domain.Basic
import CueScope.Host.Ipv4
import CueScope.Host.Ipv6
import CueScope.Text.Percent

/-!
# Hosts

The host of a URI is an address or has a name. Where the scheme of the URI is known to name a host
of the internet, the name is a domain (`ofText?`), else it is kept as it is written (`verbatim?`).
-/

namespace CueScope

/-- A host. -/
inductive Host where
  | name (text : String)
  | ipv4 (address : Ipv4)
  | ipv6 (address : Ipv6)
deriving DecidableEq, Repr

namespace Host

/-- The host of a URI that names none. -/
def absent : Host := .name ""

/-- The host of this machine. -/
def localhost : Host := .name "localhost"

/-- The address in brackets. -/
def bracketed? (text : List Char) : Option Host :=
  if text.getLast? = some ']' then (Ipv6.ofText? (text.drop 1).dropLast).map .ipv6 else none

/-- The host that a text spells. A domain that ends in a number is an address. -/
def ofText? (text : List Char) : Option Host :=
  if text.head? = some '[' then bracketed? text
  else
    ((Text.ofBytes? (Text.percentDecode text)).bind Domain.toAscii?).bind fun domain =>
      if domain = "" then none
      else if Ipv4.isMeant domain.toList then (Ipv4.ofText? domain.toList).map .ipv4
      else some (.name domain)

/-- Characters that no name contains. -/
def forbidden : List Char :=
  ['\x00', '\t', '\n', '\r', ' ', '#', '/', ':', '<', '>', '?', '@', '[', '\\', ']', '^', '|']

/-- The host with the name that is written. -/
def verbatim? (text : List Char) : Option Host :=
  if text.head? = some '[' then bracketed? text
  else if text.any (· ∈ forbidden) then none
  else some (.name (Text.percentEncode [] text))

/-- The text of a host. -/
def text : Host → String
  | .name s => s
  | .ipv4 a => a.text
  | .ipv6 a => "[" ++ a.text ++ "]"

end Host

end CueScope
