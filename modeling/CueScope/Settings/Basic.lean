import CueScope.Disk
import CueScope.Settings.Key
import CueScope.Toml

/-!
# Settings

Settings are read from the file `.cuels.toml` in the root directory of a workspace. A setting that
is not given has its default; keys that are no setting are ignored.
-/

namespace CueScope

/-- What a user can choose. -/
structure Settings where
  /-- Diagnostics are published. -/
  diagnostics : Bool := true
  /-- There is something to see when hovering. -/
  hover : Bool := true
  /-- Number of bytes that a document may have. -/
  maxDocumentSize : Nat := 1000000000
  /-- The languages whose documents are compiled. -/
  languageIds : List String := ["cue"]
deriving DecidableEq, Repr

/-! ## Values -/

namespace Toml.Scalar

/-- The words for yes. -/
def yes : List String := ["true", "on", "yes"]

/-- The words for no. -/
def no : List String := ["false", "off", "no"]

/-- A text in small letters. -/
def lower (s : String) : String := String.ofList (s.toList.map Char.toLower)

/-- A value read as a choice between yes and no. -/
def toBool? : Scalar → Option Bool
  | .boolean b => some b
  | .integer n => some (n ≠ 0)
  | .text s =>
    if lower s ∈ "1" :: yes then some true else if lower s ∈ "0" :: no then some false else none

/-- A value read as a size of at most 64 bits. -/
def toSize? : Scalar → Option Nat
  | .boolean b => some b.toNat
  | .integer n => if 0 ≤ n then some n.toNat else none
  | .text s =>
    if lower s ∈ yes then some 1
    else if lower s ∈ no then some 0
    else
      let digits := if s.toList.head? = some '+' then s.toList.drop 1 else s.toList
      let n := Text.valueIn 10 digits
      if digits ≠ [] ∧ digits.all Char.isDigit ∧ n ≤ 18446744073709551615 then some n else none

/-- A value read as a text. -/
def toText : Scalar → String
  | .boolean b => if b then "true" else "false"
  | .integer n => toString n
  | .text s => s

end Toml.Scalar

/-- What is given for a setting. -/
inductive SettingValue where
  | scalar (s : Toml.Scalar)
  /-- A list; an item that is not given, or is no single value, is none. -/
  | list (items : List (Option Toml.Scalar))
  | table
deriving DecidableEq, Repr

namespace SettingValue

/-- The value in a settings file. -/
def ofToml : Toml.Value → SettingValue
  | .scalar s => .scalar s
  | .list ss => .list (ss.map some)

/-- The items of a list. What is no list has none. -/
def items : SettingValue → List (Option Toml.Scalar)
  | .list items => items
  | _ => []

/-- The value as a single one. -/
def scalar? : SettingValue → Option Toml.Scalar
  | .scalar s => some s
  | _ => none

/-- The value as a list of texts. -/
def texts? : SettingValue → Option (List String)
  | .list items => items.mapM fun item => item.map (·.toText)
  | _ => none

/-- Puts a value where steps lead to. What is in the way gives way to a list or table; a list is
filled up to the place of a new item, and no item is before its start. -/
def put (old : Option SettingValue) (steps : List KeyStep) (new : SettingValue) : SettingValue :=
  match steps with
  | [] => new
  | .entry _ :: _ => .table
  | .item place :: more =>
    let items := old.elim [] items
    let item := if more.isEmpty then new.scalar? else none
    if 0 ≤ place then
      .list ((items ++ List.replicate (place.toNat + 1 - items.length) none).set place.toNat item)
    else if place.natAbs ≤ items.length then .list (items.set (items.length - place.natAbs) item)
    else .table

end SettingValue

/-! ## Settings files -/

/-- What is given in a settings file, by setting. -/
abbrev GivenSettings := List (String × SettingValue)

namespace GivenSettings

/-- What is given after an entry of the file. -/
def put (given : GivenSettings) (key : SettingKey) (v : SettingValue) : GivenSettings :=
  (key.name, .put (given.lookup key.name) key.steps v) :: given

/-- The value of a setting, read by `read?`, or else its default. -/
def get? {α : Type} (given : GivenSettings) (name : String) (read? : SettingValue → Option α)
    (default : α) : Option α :=
  match given.lookup name with
  | some v => read? v
  | none => some default

end GivenSettings

namespace Settings

/-- Documents in a language are compiled. -/
def compiles (s : Settings) (language : String) : Bool := language ∈ s.languageIds

/-- The settings that are given; none if a value does not fit. -/
def ofGiven? (given : GivenSettings) : Option Settings := do
  let default : Settings := {}
  let diagnostics ← given.get? "diagnostics" (·.scalar?.bind (·.toBool?)) default.diagnostics
  let hover ← given.get? "hover" (·.scalar?.bind (·.toBool?)) default.hover
  let maxDocumentSize ←
    given.get? "max_document_size" (·.scalar?.bind (·.toSize?)) default.maxDocumentSize
  let languageIds ← given.get? "language_ids" (·.texts?) default.languageIds
  pure { diagnostics, hover, maxDocumentSize, languageIds }

/-- Where an entry of a settings file goes: the first part of its key is a key of a setting, and
the others are entries of tables. -/
def keyOf : Toml.Key → SettingKey
  | [] => ⟨"", []⟩
  | first :: more =>
    let key := SettingKey.ofText first
    { key with steps := key.steps ++ more.map .entry }

/-- The settings in the text of a settings file; none if it is invalid. -/
def parse? (text : String) : Option Settings :=
  (Toml.parse? text).bind fun entries =>
    ofGiven? (entries.foldl (fun given (key, v) => given.put (keyOf key) (.ofToml v)) [])

/-- The settings of the workspace with a root directory; none if its settings file is invalid or
the path of the root is no text. Where there is no file that can be read, all settings have their
defaults; so they have where `.cuels` itself is a file, which is no known kind of settings file. -/
def load? (disk : Disk) (root : Path) : Option Settings :=
  (Text.ofBytes? root.bytes).bind fun root =>
    let base := root ++ "/.cuels"
    let taken := ((disk.locate? (.ofText base)).bind disk.file?).isSome
    match disk.read? (.ofText (base ++ ".toml")) with
    | some text => if taken then some {} else parse? text
    | none => some {}

end Settings

end CueScope
