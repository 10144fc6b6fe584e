import CueScope.Builtin.Basic

/-!
# The predeclared identifiers and builtin packages

`Catalog.type?` finds a predeclared identifier by any of its names, `Catalog.package?` a builtin
package by its import path.
-/

namespace CueScope.Catalog

open Builtin (ofType ofRange function constant)

/-- Predeclared types, each with its names; the first name is the canonical one. -/
def types : List (List String × Builtin) :=
  [(["string", "__string"],
      ofType "string" (
        "Strings are sequences of Unicode characters. They support escape sequences, " ++
        "multi-line strings enclosed by triple quotes, and interpolations.\n```cue\nmsg: " ++
        "\"You are \\(cost - budget) dollars over budget!\"\n```")),
    (["int", "__int"],
      ofType "int" (
        "Integers, denoted `int`, are whole numbers. An integer literal defaults to " ++
        "`int`, a literal with a decimal point is only compatible with " ++
        "`float`.\n```cue\na: int\na: 4\n\nb: [1_234, 5M, 1.5Gi, 0x1000_0000]\n```")),
    (["bool", "__bool"],
      ofType "bool" (
        "```cue\nbool\n```\nThe boolean type, `true | false`.")),
    (["float"],
      ofType "float" (
        "```cue\nfloat\n```\nDecimal floating point numbers.")),
    (["number"],
      ofType "number" (
        "```cue\nnumber\n```\nEither an `int` or a `float`: `int | float`.")),
    (["bytes"],
      ofType "bytes" (
        "```cue\nbytes\n```\nSequences of bytes, written with single quotes.")),
    (["null"],
      ofType "null" (
        "```cue\nnull\n```\nThe null value.")),
    (["_"],
      ofType "_" (
        "Top is represented by the underscore character `_`, lexically an identifier. " ++
        "Unifying any value `v` with top results `v` itself.\n```cue\n_ &  5     // 5\n_ " ++
        "& _|_    // _|_\n_ | _|_    // _\n```"))]

/-- Integer ranges with the bounds they stand for. -/
def ranges : List (List String × Builtin) :=
  [(["uint"], ofRange "uint" ">=0"),
    (["uint8"], ofRange "uint8" ">=0 & <=255"),
    (["int8"], ofRange "int8" ">=-128 & <=127"),
    (["uint16"], ofRange "uint16" ">=0 & <=65536"),
    (["int16"], ofRange "int16" ">=-32_768 & <=32_767"),
    (["rune"], ofRange "rune" ">=0 & <=0x10FFFF"),
    (["uint32"], ofRange "uint32" ">=0 & <=4_294_967_296"),
    (["int32"], ofRange "int32" ">=-2_147_483_648 & <=2_147_483_647"),
    (["uint64"], ofRange "uint64" ">=0 & <=18_446_744_073_709_551_615"),
    (["int64"], ofRange "int64" ">=-9_223_372_036_854_775_808 & <=9_223_372_036_854_775_807"),
    (["int128"],
      ofRange "int128" (
        ">=-170_141_183_460_469_231_731_687_303_715_884_105_728 & " ++
        "<=170_141_183_460_469_231_731_687_303_715_884_105_727")),
    (["uint128"], ofRange "uint128" ">=0 & <=340_282_366_920_938_463_463_374_607_431_768_211_455")]

/-- Package `encoding/json`. -/
def packageEncodingJson : BuiltinPackage :=
  BuiltinPackage.make "encoding/json"
    ("Package json implements encoding and decoding of JSON.")
    [function "Compact" ["bytes"] "string" "",
      function "HTMLEscape" ["bytes"] "string" "",
      function "Indent" ["bytes", "string", "string"] "string" "",
      function "Marshal" ["_"] "string" "Marshal returns the JSON encoding of v.",
      function "MarshalStream" ["_"] "string" "",
      function "Unmarshal" ["bytes"] "_" "Unmarshal parses the JSON-encoded data.",
      function "Valid" ["bytes"] "bool" "Valid reports whether data is a valid JSON encoding.",
      function "Validate" ["bytes", "_"] "bool" ""]

/-- Package `encoding/yaml`. -/
def packageEncodingYaml : BuiltinPackage :=
  BuiltinPackage.make "encoding/yaml"
    ("Package yaml implements YAML support for CUE.")
    [function "Marshal" ["_"] "string" "Marshal returns the YAML encoding of v.",
      function "MarshalStream" ["_"] "string" "",
      function "Unmarshal" ["bytes"] "_" "Unmarshal parses the YAML to a CUE expression.",
      function "Validate" ["bytes", "_"] "bool" "",
      function "ValidatePartial" ["bytes", "_"] "bool" ""]

/-- Package `list`. -/
def packageList : BuiltinPackage :=
  BuiltinPackage.make "list"
    ("Package list contains functions for manipulating and examining lists.")
    [function "Avg" ["list"] "number" "Avg computes the average of a list of numbers.",
      function "Concat" ["list"] "list" "Concat takes a list of lists and concatenates them.",
      function "Contains" ["list", "_"] "bool" "",
      function "Drop" ["list", "int"] "list" "",
      function "FlattenN" ["_", "int"] "list" "",
      function "Max" ["list"] "number" "",
      function "MaxItems" ["list", "int"] "bool" "",
      function "Min" ["list"] "number" "",
      function "MinItems" ["list", "int"] "bool" "",
      function "Product" ["list"] "number" "",
      function "Range" ["number", "number", "number"] "list"
        ("Range generates a list of numbers using a start value, a limit value, and a " ++
         "step value."),
      function "Repeat" ["list", "int"] "list" "",
      function "Slice" ["list", "int", "int"] "list" "",
      function "Sort" ["list", "_"] "list"
        "Sort sorts data while keeping the original order of equal elements.",
      function "SortStrings" ["list"] "list" "",
      function "Sum" ["list"] "number" "Sum computes the sum of a list of numbers.",
      function "Take" ["list", "int"] "list" "",
      function "UniqueItems" ["list"] "bool" ""]

/-- Package `math`. -/
def packageMath : BuiltinPackage :=
  BuiltinPackage.make "math"
    ("Package math provides basic constants and mathematical functions.")
    [constant "E" "2.71828182845904523536028747135266249775724709369995957496696763" "",
      constant "Pi" "3.14159265358979323846264338327950288419716939937510582097494459" "",
      constant "Phi" "1.61803398874989484820458683436563811772030917980576286213544861" "",
      constant "Sqrt2" "1.41421356237309504880168872420969807856967187537694807317667974" "",
      constant "Ln2" "0.693147180559945309417232121458176568075500134360255254120680009" "",
      constant "Ln10" "2.30258509299404568401799145468436420760110148862877297603332790" "",
      function "Abs" ["number"] "number" "Abs returns the absolute value of x.",
      function "Ceil" ["number"] "number" "",
      function "Exp" ["number"] "number" "",
      function "Floor" ["number"] "number" "",
      function "Log" ["number"] "number" "",
      function "MultipleOf" ["number", "number"] "bool"
        "MultipleOf reports whether x is a multiple of y.",
      function "Pow" ["number", "number"] "number" "",
      function "Round" ["number"] "number" "",
      function "Sqrt" ["number"] "number" "",
      function "Trunc" ["number"] "number" ""]

/-- Package `regexp`. -/
def packageRegexp : BuiltinPackage :=
  BuiltinPackage.make "regexp"
    ("Package regexp implements regular expression search.")
    [function "Find" ["string", "string"] "string" "",
      function "FindAll" ["string", "string", "int"] "list" "",
      function "FindNamedSubmatch" ["string", "string"] "struct" "",
      function "FindSubmatch" ["string", "string"] "list" "",
      function "Match" ["string", "string"] "bool"
        ("Match reports whether the string s contains any match of the regular expression " ++
         "pattern."),
      function "ReplaceAll" ["string", "string", "string"] "string" "",
      function "ReplaceAllLiteral" ["string", "string", "string"] "string" "",
      function "Valid" ["string"] "bool"
        "Valid reports whether the given regular expression is valid."]

/-- Package `strconv`. -/
def packageStrconv : BuiltinPackage :=
  BuiltinPackage.make "strconv"
    ("Package strconv implements conversions to and from string representations of " ++
     "basic data types.")
    [function "Atoi" ["string"] "int" "",
      function "FormatBool" ["bool"] "string" "",
      function "FormatFloat" ["number", "int", "int", "int"] "string" "",
      function "FormatInt" ["int", "int"] "string" "",
      function "ParseBool" ["string"] "bool" "",
      function "ParseFloat" ["string", "int"] "number" "",
      function "ParseInt" ["string", "int", "int"] "int" "",
      function "ParseUint" ["string", "int", "int"] "int" "",
      function "Quote" ["string"] "string" "",
      function "Unquote" ["string"] "string" ""]

/-- Package `strings`. -/
def packageStrings : BuiltinPackage :=
  BuiltinPackage.make "strings"
    ("Package strings implements simple functions to manipulate UTF-8 encoded strings.")
    [function "Contains" ["string", "string"] "bool"
        "Contains reports whether substr is within s.",
      function "ContainsAny" ["string", "string"] "bool"
        "ContainsAny reports whether any Unicode code points in chars are within s.",
      function "Count" ["string", "string"] "int"
        "Count counts the number of non-overlapping instances of substr in s.",
      function "HasPrefix" ["string", "string"] "bool"
        "HasPrefix tests whether the string s begins with prefix.",
      function "HasSuffix" ["string", "string"] "bool"
        "HasSuffix tests whether the string s ends with suffix.",
      function "Index" ["string", "string"] "int" "",
      function "Join" ["list", "string"] "string"
        "Join concatenates the elements of its first argument to create a single string.",
      function "LastIndex" ["string", "string"] "int" "",
      function "MaxRunes" ["string", "int"] "bool"
        "MaxRunes reports whether the number of runes in s is at most max.",
      function "MinRunes" ["string", "int"] "bool"
        "MinRunes reports whether the number of runes in s is at least min.",
      function "Repeat" ["string", "int"] "string" "",
      function "Replace" ["string", "string", "string", "int"] "string" "",
      function "Split" ["string", "string"] "list"
        "Split slices s into all substrings separated by sep.",
      function "SplitN" ["string", "string", "int"] "list" "",
      function "ToLower" ["string"] "string"
        "ToLower returns s with all Unicode letters mapped to their lower case.",
      function "ToTitle" ["string"] "string" "",
      function "ToUpper" ["string"] "string"
        "ToUpper returns s with all Unicode letters mapped to their upper case.",
      function "Trim" ["string", "string"] "string" "",
      function "TrimPrefix" ["string", "string"] "string" "",
      function "TrimSpace" ["string"] "string"
        "TrimSpace returns s with all leading and trailing white space removed.",
      function "TrimSuffix" ["string", "string"] "string" ""]

/-- Package `struct`. -/
def packageStruct : BuiltinPackage :=
  BuiltinPackage.make "struct"
    ("Package struct defines utilities for struct types.")
    [function "MaxFields" ["struct", "int"] "bool"
        "MaxFields validates the maximum number of fields that are part of a struct.",
      function "MinFields" ["struct", "int"] "bool"
        "MinFields validates the minimum number of fields that are part of a struct."]

/-- Package `time`. -/
def packageTime : BuiltinPackage :=
  BuiltinPackage.make "time"
    ("Package time provides functionality for representing and displaying time.")
    [constant "Nanosecond" "1" "",
      constant "Microsecond" "1000" "",
      constant "Millisecond" "1000000" "",
      constant "Second" "1000000000" "",
      constant "Minute" "60000000000" "",
      constant "Hour" "3600000000000" "",
      constant "RFC3339" "\"2006-01-02T15:04:05Z07:00\"" "",
      constant "RFC3339Nano" "\"2006-01-02T15:04:05.999999999Z07:00\"" "",
      function "Duration" ["string"] "bool" "Duration validates a duration string.",
      function "Format" ["string", "string"] "bool" "",
      function "FormatDuration" ["int"] "string" "",
      function "Parse" ["string", "string"] "string" "",
      function "ParseDuration" ["string"] "int" "",
      function "Split" ["string"] "struct" "",
      function "Time" ["string"] "bool" "Time validates a RFC3339 date-time.",
      function "Unix" ["int", "int"] "string" ""]

/-- The builtin packages in order of their import paths. -/
def packages : List BuiltinPackage :=
  [packageEncodingJson, packageEncodingYaml, packageList, packageMath, packageRegexp,
    packageStrconv, packageStrings, packageStruct, packageTime]

/-- The predeclared identifier with a name, which may be an alias. -/
def type? (name : String) : Option Builtin :=
  ((types ++ ranges).find? (name ∈ ·.1)).map (·.2)

/-- The builtin package with an import path. -/
def package? (id : String) : Option BuiltinPackage := packages.find? (·.id = id)

/-- Names of all predeclared identifiers in order, aliases included. -/
def typeNames : List String := ((types ++ ranges).flatMap (·.1)).mergeSort (· ≤ ·)

end CueScope.Catalog
