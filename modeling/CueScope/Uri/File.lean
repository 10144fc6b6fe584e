import CueScope.Path
import CueScope.Uri.Basic

/-!
# URIs of files

`Uri.ofPath?` and `Uri.toPath?` go from absolute file paths to `file` URIs and back.
-/

namespace CueScope.Uri

/-- The `file` URI with a path. -/
def file (path : String) : Uri := { scheme := "file", authority := some {}, path }

/-- The `file` URI of an absolute path. -/
def ofPath? (p : Path) : Option Uri :=
  if p.isAbsolute then
    let names := (p.components.drop 1).map fun c => "/" ++ Text.percentBytes nameSet c.bytes
    some (file (if names.isEmpty then "/" else String.join names))
  else none

/-- Bytes that end in a drive letter, with a slash after it. -/
def closeDrive (bytes : List UInt8) : List UInt8 :=
  match bytes.reverse with
  | mark :: letter :: _ :: _ =>
    if (mark = 0x3A ∨ mark = 0x7C) ∧ (Char.ofNat letter.toNat).isAlpha then bytes ++ [Path.slash]
    else bytes
  | _ => bytes

/-- The path of a URI on this machine whose scheme starts with `file`. -/
def toPath? (u : Uri) : Option Path :=
  let isHere := u.authority.all fun a => a.host = .absent || a.host = .localhost
  if "file".toList.isPrefixOf u.scheme.toList ∧ isHere ∧ u.path.toList.head? = some '/' then
    some ⟨closeDrive (Text.percentDecode u.path.toList)⟩
  else none

/-- The path that a document is known under: that of its file, else the path of its URI. -/
def documentPath (u : Uri) : Path := u.toPath?.getD (.ofText u.path)

end CueScope.Uri
