import CueScope.Unicode.Runs

/-!
# Direction of characters

The Unicode property Bidi_Class, which tells in which direction text is written. Characters that
are no letters, numbers or marks of a text, such as spaces and line ends, are of one class here.
-/

namespace CueScope.Unicode

/-- What a character is for the direction of a text. -/
inductive Direction where
  | leftToRight
  | rightToLeft
  | arabicLetter
  | arabicNumber
  | europeanNumber
  | europeanSeparator
  | europeanTerminator
  | commonSeparator
  | nonspacingMark
  | boundaryNeutral
  | otherNeutral
  /-- Spaces, line ends and characters that set the direction. -/
  | layout
deriving DecidableEq, Repr

/-- Runs of characters of one class, by the first letters of its name. -/
def directionTable : List String :=
  ["9BN 5X eBN 5X 2ON 3ET 5ON 1ES 1CS 1ES 2CS aEN 1CS 6ON 1aL 6ON 1aL 4ON 6BN 1X 1aBN 1CS 1ON",
    "4ET 4ON 1L 2ON 1BN 2ON 2ET 2EN 1ON 1L 3ON 1EN 1L 5ON 17L 1ON 1fL 1ON 1c1L 2ON 7L eON 2L eON",
    "5L 9ON 1L 11ON 70NS 4L 2ON 8L 1ON 5L 2ON 1L 1ON 6eL 1ON 8cL 7NS 100L 1ON 2L 2ON 1ET 1L 2dNS",
    "1R 1NS 1R 2NS 1R 2NS 1R 1NS 8L 1bR 4L 6R bL 6AN 2ON 1AL 2ET 1AL 1CS 1AL 2ON bNS 30AL 15NS",
    "aAN 1ET 2AN 3AL 1NS 65AL 7NS 1AN 1ON 6NS 2AL 2NS 1ON 4NS 2AL aEN 14AL 1L 2AL 1NS 1eAL 1bNS",
    "2L 59AL bNS 1AL eL 2bR 9NS 2R 4ON 1R 2L 1NS 18R 4NS 1R 9NS 1R 3NS 1R 5NS 2L fR 1L 19R 3NS 2L",
    "1R 1L bAL 5L 20AL 2AN 5L 9NS 2aAL 18NS 1AN 20NS 37L 1NS 1L 1NS 4L 8NS 4L 1NS 3L 7NS aL 2NS",
    "1dL 1NS 3aL 1NS 4L 4NS 8L 1NS 14L 2NS eL 2ET 7L 1ET 2L 1NS 2L 2NS 39L 1NS 4L 2NS 4L 2NS 2L",
    "3NS 3L 1NS 1eL 2NS 3L 1NS bL 2NS 39L 1NS 4L 5NS 1L 2NS 4L 1NS 14L 2NS dL 1ET 8L 6NS 1L 1NS",
    "3aL 1NS 2L 1NS 1L 4NS 8L 1NS 7L 2NS bL 2NS 1eL 1NS 3dL 1NS cL 1NS 25L 6ON 1ET 1ON 5L 1NS 3L",
    "1NS 37L 1NS 1L 3NS 5L 3NS 1L 4NS 7L 2NS bL 2NS 14L 7ON 2L 1NS 3aL 1NS fL 2NS 14L 2NS 1cL 2NS",
    "39L 2NS 4L 4NS 8L 1NS 14L 2NS 1dL 1NS 48L 1NS 7L 3NS 1L 1NS 5aL 1NS 2L 7NS 4L 1ET 7L 8NS 62L",
    "1NS 2L 9NS bL 7NS 49L 2NS 1bL 1NS 1L 1NS 1L 1NS 4ON 33L eNS 1L 5NS 1L 2NS 5L bNS 1L 24NS 9L",
    "1NS 66L 4NS 1L 6NS 1L 2NS 2L 2NS 19L 2NS 4L 3NS 10L 4NS dL 1NS 2L 2NS 6L 1NS fL 1NS 2bfL 3NS",
    "30L aON 66L 1ON 27fL 1X 1aL 2ON 75L 3NS 1dL 2NS 1eL 2NS 1eL 2NS 40L 2NS 1L 7NS 8L 1NS 2L bNS",
    "7L 1ET 1L 1NS 12L aON 6L bON 3NS 1BN 1NS 75L 2NS 22L 1NS 76L 3NS 4L 2NS 9L 1NS 6L 3NS 4L 1ON",
    "3L 2ON 98L 22ON 17L 2NS 2L 1NS 3aL 1NS 1L 7NS 1L 1NS 1L 1NS 2L 8NS 6L aNS 2L 1NS 30L 2eNS 2L",
    "cNS 14L 4NS 30L 1NS 1L 5NS 1L 1NS 5L 1NS 28L 9NS cL 2NS 20L 4NS 2L 2NS 1L 3NS 38L 1NS 1L 2NS",
    "3L 1NS 1L 3NS 3aL 8NS 2L 2NS 98L 3NS 1L dNS 1L 7NS 4L 1NS 6L 1NS 3L 2NS c6L 40NS 1bdL 1ON 1L",
    "3ON bL 3ON dL 3ON dL 3ON dL 2ON 1L bX 3BN 1L 1R 18ON 7X 1CS 5ET fON 1CS 1aON 1X 5BN 1L 4X",
    "6BN 1EN 3L 6EN 2ES 3ON 1L aEN 2ES 3ON 11L 22ET eL 21NS fL 2ON 1L 4ON 1L 2ON aL 1ON 1L 3ON 5L",
    "6ON 1L 1ON 1L 1ON 1L 1ON 4L 1ET bL 2ON 4L 5ON 5L 4ON 2L 10ON 29L 3ON 4L 82ON 1ES 1ET 122ON",
    "45L 1aON 1L 94ON 16L bON 15L 28ON 14EN 4eL 1c2ON 1L 153ON 100L 274ON 2L 8aON e5L 6ON 4L 3NS",
    "7L 7ON 7fL 1NS 60L 20NS 5eON 22L 1aON 1L 59ON cL d6ON 1aL cON 4L 1X 4ON 3L 19ON 9L 4NS 2L",
    "1ON 5L 2ON 5L 3ON 59L 2NS 2ON 3L 1ON 5aL 1ON c4L 24ON 39L 2ON 31L 10ON 1cL 3ON 32L fON cL",
    "4ON a7L 4ON 63L 2ON 1fL 1ON 19c0L 40ON 5690L 37ON 146L 3ON 5fL 4NS 1ON aNS 2ON 1eL 2NS 50L",
    "2NS eL 22ON 66L 1ON 79L 1NS 3L 1NS 4L 1NS 19L 2NS 1L 4ON 1NS bL 2ET 3aL 4ON 4cL 2NS 1aL 12NS",
    "dL 1NS 26L 8NS 19L bNS 2eL 3NS 30L 1NS 2L 4NS 2L 2NS 27L 1NS 43L 6NS 2L 2NS 2L 2NS cL 1NS 8L",
    "1NS 2fL 1NS 33L 1NS 1L 3NS 2L 2NS 5L 2NS 1L 1NS 2aL 2NS 8L 1NS 73L 2ON 79L 1NS 2L 1NS 4L 1NS",
    "4f2fL 1R 1NS aR 1ES dR 1L 5R 1L 1R 1L 2R 1L 2R 1L aR 1eeAL 12ON 7fAL 1ON 20L dAL 3ON 10NS",
    "aON 6L 10NS 20ON 1CS 1ON 1CS 1L 1ON 1CS 9ON 1ET 2ON 2ES 3ON 1L 1ON 2ET 1ON 4L 5AL 1L 87AL 2L",
    "1BN 1L 2ON 3ET 5ON 1ES 1CS 1ES 2CS aEN 1CS 6ON 1aL 6ON 1aL bON 7aL 2ET 3ON 2ET 1L 7ON aL 5ON",
    "103L 1ON 3eL 4dON 3L dON 3L 1ON 5cL 1NS e2L 1NS 1bEN 7aL 5NS 485L 6R 2L 1R 1L 2cR 1L 2R 3L",
    "1R 2L 17R 1L 48R 8L 9R 30L 13R 1L 2R 5L 21R 3L 1ON 1aR 5L 1bR 26L 38R 4L 14R 2L 2fR 3NS 1L",
    "2NS 5L 4NS 4R 1L 3R 1L 1dR 2L 3NS 4L 1NS 9R 7L 9R 7L 40R 20L 25R 2NS 4L cR 9L 36R 3L 7ON 16R",
    "2L 1bR 5L 1aR 7L 4R cL 7R 50L 49R 37L 33R dL 33R 7L 6R 24AL 4NS 8L aAN 6L 26R 3L 5NS 18R 8L",
    "2R d0L 1fAN 1L 2aR 1L 2NS 1R 2L 2R 10L 6AL 8L 9AL 21L 6NS 28R 8L 16AL bNS 9AL 16L 12R 4NS 4R",
    "26L 1cR 14L 17R aL 1NS 36L fNS bL 14ON aL 1NS 2L 2NS aL 3NS 31L 4NS 2L 2NS 7L 1NS 3dL 3NS",
    "24L 5NS 1L 8NS 3eL 1NS cL 2NS 34L 9NS aL 4NS 2L 1NS 5fL 3NS 2L 1NS 1L 2NS 6L 1NS 2L 1NS 9dL",
    "1NS 3L 8NS 15L 2NS 39L 2NS 3L 1NS 25L 7NS 3L 5NS 46L 6NS dL 1NS 1L 1NS 1L 1NS eL 2NS 55L 8NS",
    "2L 3NS 1L 1NS 17L 1NS 54L 6NS 1L 1NS 4L 2NS 1L 2NS eeL 4NS 6L 2NS 1L 2NS 1bL 2NS 55L 8NS 2L",
    "1NS 1L 2NS 1fL dON 3eL 1NS 1L 1NS 2L 6NS 1L 1NS 65L 3NS 2L 4NS 1L 5NS 103L 9NS 1L 2NS 100L",
    "2NS 1L 1NS 4L 1NS 90L 4NS 2L 2NS 4L 1NS 20L 6NS 2L 2NS 28L 6NS 2L 4NS 8L 1NS 9L 6NS 2L 3NS",
    "2eL dNS 1L 2NS c6L 1NS 1L 3NS 1L 1NS c9L 7NS 1L 6NS 54L 16NS 2L 7NS 1L 2NS 1L 2NS 7aL 6NS 3L",
    "1NS 1L 2NS 1L 7NS 1L 1NS 48L 2NS 3L 1NS 1L 1NS 15bL 2NS bL 2NS 34L 5NS 5L 1NS 1L 1NS 17L 1NS",
    "7aL 8ON 4ET 11ON 144eL 1NS 6L fNS 2cc8L cNS 3L 3NS 9c0L 5NS 3bL 7NS 418L 1NS 3fL 4NS 4fL 1ON",
    "1L 1NS 4cb8L 2NS 1L 4BN f5cL d6ON 24L 3ON 3L 1b4ON 6L 17ON fL 11ON fL 2eNS 2L 17NS 220L 3NS",
    "9L 8BN 8NS 2L 7NS 1eL 4NS 3bL 2ON 15L 42ON 3NS 1ON baL 57ON 384L 1ON 39L 1ON 39L 1ON 39L 1ON",
    "39L 1ON aL 32EN 200L 37NS 4L 32NS 8L 1NS eL 1NS 16L 5NS 1L fNS 550L 7NS 1L 11NS 2L 7NS 1L",
    "2NS 1L 5NS 64L 1NS a0L 7NS 177L 1NS 3dL 4NS fL 1ET 1ecL 4NS feL 2NS f3L 1NS 2L 1NS 7L 2NS 5L",
    "1NS 10aL c5R 2L 9R 7NS 29L 44R 7NS 1R 4L aR 4L 2R 311L 44AL 4cL 3dAL c2L 4AL 1L 1bAL 1L 2AL",
    "1L 1AL 2L 1AL 1L aAL 1L 4AL 1L 1AL 1L 1AL 6L 1AL 4L 1AL 1L 1AL 1L 1AL 1L 3AL 1L 2AL 1L 1AL",
    "2L 1AL 1L 1AL 1L 1AL 1L 1AL 1L 1AL 1L 2AL 1L 1AL 2L 4AL 1L 7AL 1L 4AL 1L 4AL 1L 1AL 1L aAL",
    "1L 11AL 5L 3AL 1L 5AL 1L 11AL 34L 2ON 10eL 2cON 4L 64ON cL fON 2L fON 1L fON 1L 25ON aL bEN",
    "5ON 1fL 1ON 3aL 6ON 3dL 1ON b2L 6ON 9aL 3d9ON 3L 11ON 3L dON 3L daON 6L cON 4L 1ON fL cON 4L",
    "38ON 8L aON 6L 28ON 8L 1eON 2L cON 4L 2ON eL 9ON 27L 158ON 8L eON 2L dON 3L bON 3L 39ON 1L",
    "1ON 4L 10ON 2L cON 4L aON 7L 93ON 1L 5cON aEN 1ON c0406L 1BN 1eL 60BN 80L f0NS"]

/-- The class that the letters of the table stand for. -/
def Direction.ofKind (kind : List Char) : Direction :=
  match kind with
  | ['L'] => .leftToRight
  | ['R'] => .rightToLeft
  | ['A', 'L'] => .arabicLetter
  | ['A', 'N'] => .arabicNumber
  | ['E', 'N'] => .europeanNumber
  | ['E', 'S'] => .europeanSeparator
  | ['E', 'T'] => .europeanTerminator
  | ['C', 'S'] => .commonSeparator
  | ['N', 'S'] => .nonspacingMark
  | ['B', 'N'] => .boundaryNeutral
  | ['O', 'N'] => .otherNeutral
  | _ => .layout

/-- The runs of directions. -/
def directionRuns : Runs Direction := .ofTable Direction.ofKind directionTable

/-- The direction class of a character. -/
def direction (c : Char) : Direction := (directionRuns.get? c).getD .leftToRight

end CueScope.Unicode
