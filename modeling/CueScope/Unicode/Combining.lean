import CueScope.Unicode.Runs

/-!
# Combining classes

The Unicode property Canonical_Combining_Class, which orders the marks after a character. Class
zero is that of all characters that keep their place.
-/

namespace CueScope.Unicode

/-- Runs of characters of one class; its number follows the `C`. -/
def combiningTable : List String :=
  ["300C0 15Ce6 1Ce8 4Cdc 1Ce8 1Cd8 5Cdc 2Cca 4Cdc 2Cca bCdc 5C1 4Cdc 8Ce6 1Cf0 1Ce6 3Cdc 3Ce6",
    "2Cdc 1C0 3Ce6 4Cdc 1Ce6 1Ce8 2Cdc 1Ce6 1Ce9 2Cea 1Ce9 2Cea 1Ce9 dCe6 113C0 5Ce6 109C0 1Cdc",
    "4Ce6 1Cdc 3Ce6 1Cde 1Cdc 6Ce6 6Cdc 2Ce6 1Cdc 2Ce6 1Cde 1Ce4 1Ce6 1Ca 1Cb 1Cc 1Cd 1Ce 1Cf",
    "1C10 1C11 1C12 2C13 1C14 1C15 1C16 1C0 1C17 1C0 1C18 1C19 1C0 1Ce6 1Cdc 1C0 1C12 48C0 8Ce6",
    "1C1e 1C1f 1C20 30C0 1C1b 1C1c 1C1d 1C1e 1C1f 1C20 1C21 1C22 2Ce6 2Cdc 5Ce6 1Cdc 2Ce6 1Cdc",
    "10C0 1C23 65C0 7Ce6 2C0 4Ce6 1Cdc 1Ce6 2C0 2Ce6 1C0 1Cdc 2Ce6 1Cdc 23C0 1C24 1eC0 1Ce6 1Cdc",
    "2Ce6 1Cdc 2Ce6 3Cdc 1Ce6 2Cdc 1Ce6 1Cdc 3Ce6 1Cdc 1Ce6 1Cdc 1Ce6 1Cdc 1Ce6 1Cdc 2Ce6 a0C0",
    "7Ce6 1Cdc 1Ce6 9C0 1Cdc 18C0 4Ce6 1C0 9Ce6 1C0 3Ce6 1C0 5Ce6 2bC0 3Cdc 3bC0 2Ce6 3Cdc 4Ce6",
    "2aC0 5Ce6 5Cdc eCe6 1C0 1Cdc 2Ce6 1Cdc 2Ce6 1Cdc 3Ce6 3Cdc 1C1b 1C1c 1C1d 3Ce6 1Cdc 2Ce6",
    "2Cdc 5Ce6 3cC0 1C7 10C0 1C9 3C0 1Ce6 1Cdc 2Ce6 67C0 1C7 10C0 1C9 30C0 1Ce6 3dC0 1C7 10C0 1C9",
    "6eC0 1C7 10C0 1C9 6eC0 1C7 10C0 1C9 7fC0 1C9 6eC0 1C7 10C0 1C9 7C0 1C54 1C5b 65C0 1C7 10C0",
    "1C9 6dC0 2C9 10C0 1C9 7cC0 1C9 6dC0 2C67 1C9 dC0 4C6b 6cC0 2C76 1C9 dC0 4C7a 4cC0 2Cdc 1bC0",
    "1Cdc 1C0 1Cdc 1C0 1Cd8 37C0 1C81 1C82 1C0 1C84 5C0 4C82 2C0 1C82 1C0 2Ce6 1C9 1C0 2Ce6 3eC0",
    "1Cdc 70C0 1C7 1C0 2C9 52C0 1Cdc 2cfC0 3Ce6 3b4C0 2C9 1eC0 1C9 9dC0 1C9 aC0 1Ce6 cbC0 1Ce4",
    "8fC0 1Cde 1Ce6 1Cdc dbC0 1Ce6 1Cdc 47C0 1C9 14C0 8Ce6 2C0 1Cdc 30C0 5Ce6 6Cdc 2Ce6 1Cdc 1C0",
    "2Cdc 2Ce6 2Cdc 5Ce6 1Cdc 12Ce6 1Cdc 2C0 6Ce6 1Cdc 4Ce6 1Cea 48C0 1C7 fC0 1C9 26C0 1Ce6 1Cdc",
    "7Ce6 36C0 2C9 3aC0 1C7 bC0 2C9 43C0 1C7 98C0 3Ce6 1C0 1C1 5Cdc 2Ce6 4Cdc 1Ce6 1C0 7C1 4C0",
    "1Cdc 6C0 1Ce6 3C0 2Ce6 c6C0 2Ce6 1Cdc 7Ce6 1Cdc 2Ce6 1Cea 1Cd6 1Cdc 1Cca 25Ce6 1Ce8 2Ce4",
    "1Cdc 1Cda 1Ce6 1Ce9 1Cdc 1Ce6 1Cdc 2d0C0 2Ce6 2C1 4Ce6 3C1 2Ce6 4C0 1Ce6 3C0 2C1 1Ce6 1Cdc",
    "1Ce6 2C1 4Cdc 1Ce6 bfeC0 3Ce6 8dC0 1C9 60C0 20Ce6 22aC0 1Cda 1Ce4 1Ce8 1Cde 2Ce0 69C0 2C8",
    "75d4C0 1Ce6 4C0 aCe6 20C0 2Ce6 50C0 2Ce6 114C0 1C9 25C0 1C9 97C0 1C9 1bC0 12Ce6 39C0 3Cdc",
    "25C0 1C9 5fC0 1C7 cC0 1C9 efC0 1Ce6 1C0 2Ce6 1Cdc 2C0 2Ce6 5C0 2Ce6 1C0 1Ce6 34C0 1C9 f6C0",
    "1C9 4f30C0 1C1a 301C0 7Ce6 7Cdc 2Ce6 3cdC0 1Cdc e2C0 1Cdc 95C0 5Ce6 692C0 1Cdc 1C0 1Ce6 28C0",
    "1Ce6 1C1 1Cdc 4C0 1C9 a5C0 1Ce6 1Cdc 23dC0 4Ce6 41C0 5Ce6 13dC0 2Ce6 4dC0 2Cdc 1C0 3Cdc 46C0",
    "2Cdc 3Ce6 1Cdc 1Ce6 4Cdc 31C0 1Ce6 1Cdc 1Ce6 1Cdc c0C0 1C9 29C0 1C9 eC0 1C9 39C0 1C9 1C7",
    "45C0 3Ce6 30C0 2C9 3eC0 1C7 4cC0 1C9 9C0 1C7 6aC0 1C9 1C7 b2C0 1C7 1C9 50C0 2C7 10C0 1C9",
    "18C0 7Ce6 3C0 5Ce6 59C0 3C9 71C0 1C9 3C0 1C7 17C0 1Ce6 63C0 1C9 1C7 fbC0 1C9 1C7 7eC0 1C9",
    "76C0 1C9 1C7 73C0 1C9 10dC0 1C9 1C7 102C0 2C9 4C0 1C7 9cC0 1C9 53C0 1C9 12C0 1C9 51C0 1C9",
    "1a5C0 1C9 102C0 1C7 1C0 2C9 51C0 1C9 1a9C0 2C9 41ecC0 1C9 9c0C0 5C1 3bC0 7Ce6 4b9C0 2C6",
    "4cacC0 1C1 14c6C0 2Cd8 3C1 3C0 1Ce2 5Cd8 8C0 8Cdc 2C0 5Ce6 2Cdc 1eC0 4Ce6 94C0 3Ce6 dbbC0",
    "7Ce6 1C0 11Ce6 2C0 7Ce6 1C0 2Ce6 1C0 5Ce6 64C0 1Ce6 a0C0 7Ce6 177C0 1Ce6 3dC0 4Ce6 1fcC0",
    "2Ce8 1Cdc 1Ce6 feC0 1Ce6 1Cdc f3C0 1Ce6 2C0 1Ce6 7C0 2Ce6 5C0 1Ce6 1daC0 7Cdc 6dC0 6Ce6 1C7"]

/-- The runs of combining classes. -/
def combiningRuns : Runs Nat := .ofTable (fun kind => Text.valueIn 16 (kind.drop 1)) combiningTable

/-- The combining class of a character. -/
def combiningClass (c : Char) : Nat := (combiningRuns.get? c).getD 0

/-- A character that takes the vowel from the letter before it, which is class nine. -/
def isVirama (c : Char) : Bool := combiningClass c = 9

end CueScope.Unicode
