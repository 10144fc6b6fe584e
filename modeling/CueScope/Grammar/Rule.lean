import CueScope.Grammar.Fault

/-!
# Grammar rules

A `Rule` reads items from a `State` and yields a value, or fails. Failing is not the end: the
state then still holds what was learnt on the way.

* `State.pending` is the furthest failure met so far. It outlives backtracking and success, so
  that an error names what would have been accepted at the furthest place.
* `State.faults` are the errors to report. Going back to an earlier state (`State.back`) drops
  those of the abandoned attempt.
* `State.aside` are the errors of texts that were read separately on the way. They are kept
  whatever becomes of the attempt.

Repetition and recursion are bounded by the number of items left, which every turn lowers.
-/

namespace CueScope.Grammar

variable {τ α β : Type}

/-- What is left to read and what was learnt so far. -/
structure State (τ : Type) where
  /-- The items not yet read. -/
  rest : List (Spanned τ)
  /-- Their number. -/
  left : Nat
  left_eq : left = rest.length
  /-- The span of the item read last, and the end of the input before the first one. -/
  last : Span
  /-- The empty span at the end of the input. -/
  finish : Span
  /-- Errors to report, in order. -/
  faults : List (Fault τ) := []
  /-- The furthest failure. -/
  pending : Option (Failure τ) := none
  /-- Errors of texts read separately. -/
  aside : List SyntaxError := []

/-- A grammar rule: a value or a failure, and the state after it. -/
def Rule (τ α : Type) : Type := State τ → Option α × State τ

namespace State

/-- The state before the first item. -/
def start (items : List (Spanned τ)) (finish : Span) : State τ :=
  { rest := items, left := items.length, left_eq := rfl, last := finish, finish }

/-- The state after the next item. -/
def advance (s : State τ) (x : Spanned τ) (xs : List (Spanned τ)) (h : s.rest = x :: xs) :
    State τ :=
  { s with
    rest := xs
    left := s.left - 1
    left_eq := by rw [s.left_eq, h]; rfl
    last := x.span }

/-- Back to the earlier state `s`; failures and errors read aside are kept. -/
def back (t s : State τ) : State τ := { s with pending := t.pending, aside := t.aside }

/-- Remembers a failure at the current place. -/
def fail [DecidableEq τ] (s : State τ) (span : Span) (found : Option τ)
    (expected : List (Expectation τ)) : State τ :=
  let new : Failure τ := ⟨s.left, span, found, expected⟩
  { s with pending := some (s.pending.elim new (·.further new)) }

/-- Adds an error to report. -/
def report (s : State τ) (f : Fault τ) : State τ := { s with faults := s.faults ++ [f] }

/-- The span read between `s` and the later state `t`: from the start of the item that was next
to the end of the item read last. Where no item was next it is the end of the input. -/
def spanTo (s t : State τ) : Span :=
  match s.rest with
  | [] => s.finish
  | x :: _ => ⟨x.span.file, x.span.start, t.last.stop⟩

/-- The items read between `s` and the later state `t`. -/
def readTo (s t : State τ) : List τ := (s.rest.take (s.left - t.left)).map (·.val)

/-- The furthest failure as an error to report. -/
def pendingFault (s : State τ) : Fault τ :=
  s.pending.elim (.unexpected s.finish none []) Failure.toFault

end State

namespace Rule

/-- Reads nothing. -/
protected def pure (a : α) : Rule τ α := fun s => (some a, s)

/-- One rule after the other. -/
protected def bind (r : Rule τ α) (f : α → Rule τ β) : Rule τ β := fun s =>
  match r s with
  | (some a, t) => f a t
  | (none, t) => (none, t)

instance : Monad (Rule τ) where
  pure := Rule.pure
  bind := Rule.bind

/-! ## Single items -/

/-- Reads the next item if `f` takes it; else stays before it and remembers what was expected. -/
def item [DecidableEq τ] (expected : List (Expectation τ)) (f : τ → Option α) : Rule τ α := fun s =>
  match h : s.rest with
  | [] => (none, s.fail s.finish none expected)
  | x :: xs =>
    match f x.val with
    | some a => (some a, s.advance x xs h)
    | none => (none, s.fail x.span (some x.val) expected)

/-- The item `t`. -/
def just [DecidableEq τ] (t : τ) : Rule τ τ :=
  item [.item t] fun x => if x = t then some x else none

/-- The items `ts` in a row. -/
def justAll [DecidableEq τ] : List τ → Rule τ Unit
  | [] => pure ()
  | t :: ts => do
    let _ ← just t
    justAll ts

/-- One of the items `ts`. -/
def oneOf [DecidableEq τ] (ts : List τ) : Rule τ τ :=
  item (ts.map .item) fun x => if x ∈ ts then some x else none

/-- An item that is none of `ts`. -/
def noneOf [DecidableEq τ] (ts : List τ) : Rule τ τ :=
  item [.somethingElse] fun x => if x ∈ ts then none else some x

/-- An item that `f` takes. -/
def select [DecidableEq τ] (f : τ → Option α) : Rule τ α := item [.somethingElse] f

/-- Any item. -/
def anyItem [DecidableEq τ] : Rule τ τ := item [.any] some

/-- An item with the property `p`. An item without it counts as read when the failure is
remembered, and is not named in it. -/
def satisfy [DecidableEq τ] (p : τ → Bool) : Rule τ τ := fun s =>
  match anyItem s with
  | (some x, t) => if p x then (some x, t) else (none, t.fail (s.spanTo t) none [.somethingElse])
  | (none, t) => (none, t)

/-- The end of the input. -/
def endOfInput [DecidableEq τ] : Rule τ Unit := fun s =>
  match s.rest with
  | [] => (some (), s)
  | x :: _ => (none, s.fail x.span (some x.val) [.endOfInput])

/-! ## Alternatives and looking ahead -/

/-- The first rule that succeeds. -/
def choice : List (Rule τ α) → Rule τ α
  | [], s => (none, s)
  | r :: rs, s =>
    match r s with
    | (some a, t) => (some a, t)
    | (none, t) => choice rs (t.back s)

/-- `r`, or nothing if it fails. -/
def maybe (r : Rule τ α) : Rule τ (Option α) := fun s =>
  match r s with
  | (some a, t) => (some (some a), t)
  | (none, t) => (some none, t.back s)

/-- Succeeds where `r` does, but reads nothing. -/
def ahead (r : Rule τ α) : Rule τ α := fun s =>
  match r s with
  | (some a, t) => (some a, t.back s)
  | (none, t) => (none, t)

/-- Succeeds where `r` fails, and reads nothing. What `r` learnt is forgotten; where it succeeds,
the failure counts as one after the next item. -/
def notAhead [DecidableEq τ] (r : Rule τ α) : Rule τ Unit := fun s =>
  match r { s with pending := none } with
  | (none, t) => (some (), { t.back s with pending := s.pending })
  | (some _, t) =>
    let span := s.spanTo t
    let t := { t.back s with pending := s.pending }
    match h : t.rest with
    | [] => (none, t.fail span none [.somethingElse])
    | x :: xs => (none, (t.advance x xs h).fail span (some x.val) [.somethingElse])

/-- `a`, where `b` succeeds too; reads what `a` reads. -/
def andIs (a : Rule τ α) (b : Rule τ β) : Rule τ α := fun s =>
  match a s with
  | (none, t) => (none, t)
  | (some x, t) =>
    match b (t.back s) with
    | (some _, u) => (some x, u.back t)
    | (none, u) => (none, u)

/-! ## Repetition and recursion -/

/-- At most `n` turns of `r`. -/
def upTo (r : Rule τ α) : Nat → State τ → List α × State τ
  | 0, s => ([], s)
  | n + 1, s =>
    match r s with
    | (some a, t) =>
      let (as, u) := upTo r n t
      (a :: as, u)
    | (none, t) => ([], t.back s)

/-- `r` as often as it succeeds; every turn is meant to read something. -/
def many (r : Rule τ α) : Rule τ (List α) := fun s =>
  let (as, t) := upTo r (s.left + 1) s
  (some as, t)

/-- `r` at least once. -/
def many1 (r : Rule τ α) : Rule τ (List α) := fun s =>
  match r s with
  | (some a, t) =>
    let (as, u) := upTo r (s.left + 1) t
    (some (a :: as), u)
  | (none, t) => (none, t.back s)

/-- `r` over and over, its value dropped. -/
def skipMany (r : Rule τ α) : Rule τ Unit := do
  let _ ← many r
  pure ()

/-- `n`-fold unfolding of a recursive rule. -/
def unfold (f : Rule τ α → Rule τ α) : Nat → Rule τ α
  | 0, s => (none, s)
  | n + 1, s => f (unfold f n) s

/-- The rule `r = f r`, where `f r` uses `r` only after reading something. -/
def recursive (f : Rule τ α → Rule τ α) : Rule τ α := fun s => unfold f (s.left + 1) s

/-- At most `n` turns of a separator and an item. A separator without an item stays read. -/
def sepUpTo (r : Rule τ α) (sep : Rule τ β) : Nat → State τ → List α × State τ
  | 0, s => ([], s)
  | n + 1, s =>
    match sep s with
    | (none, t) => ([], t.back s)
    | (some _, t) =>
      match r t with
      | (some a, u) =>
        let (as, v) := sepUpTo r sep n u
        (a :: as, v)
      | (none, u) => ([], u.back t)

/-- Items with separators between them. Separators may also lead and trail. -/
def sepBy (r : Rule τ α) (sep : Rule τ β) : Rule τ (List α) := fun s =>
  let (_, t) := maybe sep s
  match r t with
  | (none, u) => (some [], u.back t)
  | (some a, u) =>
    let (as, v) := sepUpTo r sep (s.left + 1) u
    (some (a :: as), v)

/-- `r` between `l` and `r'`. -/
def between {γ : Type} (l : Rule τ β) (r : Rule τ α) (r' : Rule τ γ) : Rule τ α := do
  let _ ← l
  let a ← r
  let _ ← r'
  pure a

/-- `r` with `pad` read on both sides. -/
def padded (pad : Rule τ β) (r : Rule τ α) : Rule τ α := between pad r pad

/-! ## Places and errors -/

/-- `r` and the span it read. -/
def spanned (r : Rule τ α) : Rule τ (Spanned α) := fun s =>
  match r s with
  | (some a, t) => (some ⟨a, s.spanTo t⟩, t)
  | (none, t) => (none, t)

/-- The items `r` read. -/
def recognized (r : Rule τ α) : Rule τ (List τ) := fun s =>
  match r s with
  | (some _, t) => (some (s.readTo t), t)
  | (none, t) => (none, t)

/-- Reports a complaint and goes on. -/
def complain (span : Span) (reason : Complaint) : Rule τ Unit := fun s =>
  (some (), s.report (.complaint span reason))

/-- Keeps errors of a text read separately. -/
def putAside (errors : List SyntaxError) : Rule τ Unit := fun s =>
  (some (), { s with aside := s.aside ++ errors })

/-! ## Recovery -/

/-- `r`; where it fails and `other` succeeds in its place, the furthest failure is reported. -/
def orRecover (r other : Rule τ α) : Rule τ α := fun s =>
  match r s with
  | (some a, t) => (some a, t)
  | (none, t) =>
    match other { t.back s with pending := none } with
    | (some a, u) => (some a, u.report (t.pendingFault))
    | (none, u) => (none, { u.back s with pending := t.pending })

/-- Tries `r` after one more skipped item, again and again, at most `n` times. An attempt counts
only if it reports no error of its own. -/
def retry [DecidableEq τ] (r : Rule τ α) : Nat → Rule τ α
  | 0, s => (none, s)
  | n + 1, s =>
    match endOfInput s with
    | (some _, t) => (none, t)
    | (none, t) =>
      match anyItem (t.back s) with
      | (none, u) => (none, u)
      | (some _, u) =>
        match r u with
        | (some a, v) =>
          if v.faults.length = u.faults.length then (some a, v)
          else retry r n { v.back u with pending := none }
        | (none, v) => retry r n { v.back u with pending := none }

/-- `r`; where it fails, items are skipped until it succeeds without an error, and the furthest
failure is reported. Fails if that does not happen before the end of the input. -/
def orSkip [DecidableEq τ] (r : Rule τ α) : Rule τ α := fun s =>
  match r s with
  | (some a, t) => (some a, t)
  | (none, t) =>
    match retry r (s.left + 1) { t.back s with pending := none } with
    | (some a, u) => (some a, u.report (t.pendingFault))
    | (none, u) => (none, { u.back s with pending := t.pending })

/-! ## Running a rule -/

/-- Reads a whole input: the value if the rule reads it to the end, and the errors in order, those
read aside last. Without a value, the furthest failure is reported too. -/
def run [DecidableEq τ] (name : τ → String) (r : Rule τ α) (items : List (Spanned τ))
    (finish : Span) : Option α × List SyntaxError :=
  let whole : Rule τ α := do
    let a ← r
    endOfInput
    pure a
  match whole (State.start items finish) with
  | (some a, t) => (some a, t.faults.map (·.toError name) ++ t.aside)
  | (none, t) => (none, (t.faults ++ [t.pendingFault]).map (·.toError name) ++ t.aside)

end Rule

end CueScope.Grammar
