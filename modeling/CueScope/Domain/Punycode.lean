import CueScope.Text.Split

/-!
# Punycode

`encode` writes a text with ASCII characters only: first the ASCII characters of the text, then a
hyphen if there are any, then the others as numbers. The other characters are taken in order of
their numbers, and each is written as the distance to the one before it, where a step goes to the
next place in the text, and from the last place to the next character number. Distances are written
in base 36, the least digit first, with thresholds that tell where a number ends; these adapt to
the distances written before. `decode?` reads such a text.
-/

namespace CueScope.Domain.Punycode

/-- Values of distances and characters stay below this. -/
def limit : Nat := 4294967296

/-- The digits: small letters, then the digits of decimal numbers. -/
def digitChar (d : Nat) : Char := if d < 26 then Char.ofNat (97 + d) else Char.ofNat (22 + d)

/-- The value of a digit; capital letters count too. -/
def digit? (c : Char) : Option Nat :=
  if 'a' ≤ c ∧ c ≤ 'z' then some (c.toNat - 97)
  else if 'A' ≤ c ∧ c ≤ 'Z' then some (c.toNat - 65)
  else if c.isDigit then some (c.toNat - 22)
  else none

/-- The threshold of a digit: a digit below it ends a number. `k` is 36 for the first digit of a
number and grows by 36 with each. -/
def threshold (k bias : Nat) : Nat := if k ≤ bias then 1 else if bias + 26 ≤ k then 26 else k - bias

theorem one_le_threshold (k bias : Nat) : 1 ≤ threshold k bias := by
  unfold threshold; split <;> try split
  all_goals omega

/-- Divides a distance until it is at most 455, and counts 36 for each time. -/
def shrink (delta k : Nat) : Nat × Nat :=
  if 455 < delta then shrink (delta / 35) (k + 36) else (delta, k)
termination_by delta
decreasing_by omega

/-- The bias after a distance was written at one of `places` places. -/
def adapt (delta places : Nat) (isFirst : Bool) : Nat :=
  let half := if isFirst then delta / 700 else delta / 2
  let (rest, k) := shrink (half + half / places) 0
  k + 36 * rest / (rest + 38)

/-! ## Writing -/

/-- The digits of a distance. -/
def digits (bias k q : Nat) : List Char :=
  let t := threshold k bias
  if q < t then [digitChar q]
  else digitChar (t + (q - t) % (36 - t)) :: digits bias (k + 36) ((q - t) / (36 - t))
termination_by q
decreasing_by
  have := one_le_threshold k bias
  calc (q - threshold k bias) / (36 - threshold k bias)
      ≤ q - threshold k bias := Nat.div_le_self _ _
    _ < q := by omega

/-- The state of writing. -/
structure Writer where
  out : List Char
  delta : Nat := 0
  bias : Nat := 72
  /-- Number of characters written. -/
  count : Nat

/-- Passes a place of the text while the character with number `n` is written. -/
def Writer.pass (basic n : Nat) (w : Writer) (c : Char) : Writer :=
  if c.toNat < n then { w with delta := w.delta + 1 }
  else if c.toNat = n then
    { out := w.out ++ digits w.bias 36 w.delta
      bias := adapt w.delta (w.count + 1) (w.count = basic)
      count := w.count + 1 }
  else w

/-- Writes the characters with the numbers that are left; `n` is the first not written. -/
def Writer.run (text : List Char) (basic : Nat) : List Nat → Nat → Writer → Writer
  | [], _, w => w
  | m :: more, n, w =>
    let w := { w with delta := w.delta + (m - n) * (w.count + 1) }
    let w := text.foldl (Writer.pass basic m) w
    run text basic more (m + 1) { w with delta := w.delta + 1 }

/-- A character of ASCII. -/
def isBasic (c : Char) : Bool := c.toNat < 0x80

/-- A text with ASCII characters only. -/
def encode (text : List Char) : List Char :=
  let basic := text.filter isBasic
  let others := ((text.filter (!isBasic ·)).map Char.toNat).eraseDups.mergeSort (· ≤ ·)
  let front := if basic.isEmpty then [] else basic ++ ['-']
  (Writer.run text basic.length others 0x80 { out := front, count := basic.length }).out

/-! ## Reading -/

/-- The state of reading. -/
structure Reader where
  out : List Char
  /-- The number of the character that comes next. -/
  code : Nat := 0x80
  /-- The place where it goes. -/
  place : Nat := 0
  bias : Nat := 72
  /-- The place before the number that is being read. -/
  before : Nat := 0
  /-- The weight of the next digit, and its `k`. -/
  weight : Nat := 1
  k : Nat := 36

/-- Puts in the character whose distance was read. -/
def Reader.insert? (r : Reader) : Option Reader :=
  let places := r.out.length + 1
  let code := r.code + r.place / places
  let place := r.place % places
  if code.isValidChar then
    some {
      out := r.out.insertIdx place (Char.ofNat code)
      code
      place := place + 1
      bias := adapt (r.place - r.before) places (r.before = 0)
      before := place + 1 }
  else none

/-- Reads a digit. -/
def Reader.step? (r : Reader) (c : Char) : Option Reader :=
  (digit? c).bind fun d =>
    let t := threshold r.k r.bias
    let place := r.place + d * r.weight
    let weight := r.weight * (36 - t)
    if limit ≤ place then none
    else if d < t then Reader.insert? { r with place }
    else if limit ≤ weight then none
    else some { r with place, weight, k := r.k + 36 }

/-- The text that ASCII characters stand for. The last number has to be complete. -/
def decode? (text : List Char) : Option (List Char) :=
  let (basic, rest) := Text.splitLast (· = '-') text
  let digits := if basic = some [] then text else rest
  (digits.foldlM Reader.step? { out := basic.getD [] }).bind fun r =>
    if r.k = 36 then some r.out else none

end CueScope.Domain.Punycode
