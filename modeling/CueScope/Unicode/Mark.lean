import CueScope.Unicode.Runs

/-!
# Marks

The characters with the Unicode general category Mark: those that combine with the character
before them.
-/

namespace CueScope.Unicode

/-- Runs of marks (`M`) and of other characters (`N`). -/
def markTable : List String :=
  ["300N 70M 113N 7M 107N 2dM 1N 1M 1N 2M 1N 2M 1N 1M 48N bM 30N 15M 10N 1M 65N 7M 2N 6M 2N 2M",
    "1N 4M 23N 1M 1eN 1bM 5bN bM 3aN 9M 9N 1M 18N 4M 1N 9M 1N 3M 1N 5M 2bN 3M 3bN 9M 2aN 18M 1N",
    "21M 36N 3M 1N 12M 1N 7M aN 2M 1dN 3M 38N 1M 1N 7M 2N 2M 2N 3M 9N 1M aN 2M 1aN 1M 2N 3M 38N",
    "1M 1N 5M 4N 2M 2N 3M 3N 1M 1eN 2M 3N 1M bN 3M 38N 1M 1N 8M 1N 3M 1N 3M 14N 2M 16N 6M 1N 3M",
    "38N 1M 1N 7M 2N 2M 2N 3M 7N 3M aN 2M 1eN 1M 3bN 5M 3N 3M 1N 4M 9N 1M 28N 5M 37N 1M 1N 7M 1N",
    "3M 1N 4M 7N 2M bN 2M 1dN 3M 38N 1M 1N 7M 1N 3M 1N 4M 7N 2M bN 2M fN 1M cN 4M 37N 2M 1N 7M 1N",
    "3M 1N 4M 9N 1M aN 2M 1dN 3M 46N 1M 4N 6M 1N 1M 1N 8M 12N 2M 3dN 1M 2N 7M cN 8M 62N 1M 2N 9M",
    "bN 7M 49N 2M 1bN 1M 1N 1M 1N 1M 4N 2M 31N 14M 1N 2M 5N bM 1N 24M 9N 1M 64N 14M 17N 4M 4N 3M",
    "1N 3M 2N 7M 3N 4M dN cM 1N 1M aN 4M 2bfN 3M 3b2N 4M 1cN 3M 1dN 2M 1eN 2M 40N 20M 9N 1M 2dN",
    "3M 1N 1M 75N 2M 22N 1M 76N cM 4N cM dbN 5M 39N aM 1N 1dM 2N 1M 30N 2eM 2N cM 14N 5M 2fN 11M",
    "26N 9M cN 3M 1eN dM 38N eM 30N 14M 98N 3M 1N 15M 4N 1M 6N 1M 2N 3M c6N 40M 2d0N 21M bfeN 3M",
    "8dN 1M 60N 20M 22aN 6M 69N 2M 75d4N 4M 1N aM 20N 2M 50N 2M 110N 1M 3N 1M 4N 1M 17N 5M 4N 1M",
    "53N 2M 32N 12M 1aN 12M dN 1M 26N 8M 19N dM 2cN 4M 2fN eM 24N 1M 43N eM cN 1M 8N 2M 2dN 3M",
    "32N 1M 1N 3M 2N 2M 5N 2M 1N 1M 29N 5M 5N 2M ecN 8M 1N 2M 4f30N 1M 2e1N 10M 10N 10M 3cdN 1M",
    "e2N 1M 95N 5M 686N 3M 1N 2M 5N 4M 28N 3M 4N 1M a5N 2M 23dN 4M 41N 5M 13dN 2M 4dN 6M 46N bM",
    "31N 4M 7aN 3M 35N fM 29N 1M 2N 2M aN 4M 2dN bM 7N 1M 3dN 3M 24N eM 10N 2M 2cN 1M cN 3M 30N",
    "eM 8N 4M 1N 2M 5cN cM 6N 1M 2N 1M 9dN cM 15N 4M 37N 2M 1N 7M 2N 2M 2N 3M 9N 1M aN 2M 2N 7M",
    "3N 5M 43N 9M 1N 1M 2N 1M 1N 4M 1N 5M 1N 1M eN 2M 52N 12M 17N 1M 51N 14M ebN 7M 2N 9M 1bN 2M",
    "52N 11M 6aN dM 65N fM 100N fM f5N 6M 1N 2M 2N 4M 1N 1M 1N 2M 8dN 7M 2N 7M 3N 1M 1cN aM 28N",
    "7M 1N 4M 8N 1M 9N bM 2eN 10M c6N 8M c7N 8M 1N 8M 52N 16M 1N eM 7aN 6M 3N 1M 1N 2M 1N 7M 1N",
    "1M 42N 5M 1N 2M 1N 5M 15bN 4M 9N 2M 1N 1M 30N 7M 3N 5M 17N 1M 14e5N 1M 6N fM 2cc8N 12M 9c0N",
    "5M 3bN 7M 418N 1M 1N 37M 7N 4M 51N 1M bN 2M 4cabN 2M 1261N 2eM 2N 17M 21eN 5M 3N 6M 8N 8M 2N",
    "7M 1eN 4M 94N 3M 7bbN 37M 4N 32M 8N 1M eN 1M 16N 5M 1N fM 550N 7M 1N 11M 2N 7M 1N 2M 1N 5M",
    "64N 1M a0N 7M 177N 1M 3dN 4M 1fcN 4M feN 2M f3N 1M 2N 1M 7N 2M 5N 1M 1daN 7M 6dN 7M c17b5N",
    "f0M"]

/-- The runs of marks. -/
def markRuns : Runs Bool := .ofTable (· = ['M']) markTable

/-- A character that combines with the one before it. -/
def isMark (c : Char) : Bool := (markRuns.get? c).getD false

end CueScope.Unicode
