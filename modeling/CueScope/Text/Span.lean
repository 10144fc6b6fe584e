/-!
# Places in source files

* `Pos`: a byte offset in one file. Positions of different files are never ordered.
* `Span`: a byte range of one file. The end is exclusive for cutting text out, but a span
  *contains* both of its ends, so a cursor placed right after a word still hits the word.
-/

namespace CueScope

/-- Number of a source file, in order of registration. -/
abbrev FileId := Nat

/-- A byte offset in a file. -/
structure Pos where
  file : FileId
  offset : Nat
deriving DecidableEq, Repr

/-- `p ≤ q`: both are in one file and `p` is not after `q`. -/
instance : LE Pos := ⟨fun p q => p.file = q.file ∧ p.offset ≤ q.offset⟩

instance (p q : Pos) : Decidable (p ≤ q) :=
  inferInstanceAs (Decidable (p.file = q.file ∧ p.offset ≤ q.offset))

/-- A byte range of a file. -/
structure Span where
  file : FileId
  start : Nat
  stop : Nat
deriving DecidableEq, Repr, Inhabited

namespace Span

/-- Where the span starts. -/
def pos (s : Span) : Pos := ⟨s.file, s.start⟩

/-- Where the span ends. -/
def endPos (s : Span) : Pos := ⟨s.file, s.stop⟩

/-- Number of bytes; a span whose end lies before its start has none. -/
def length (s : Span) : Nat := s.stop - s.start

/-- The span has no bytes. -/
def isEmpty (s : Span) : Bool := s.length == 0

/-- The empty span at a position. -/
def point (p : Pos) : Span := ⟨p.file, p.offset, p.offset⟩

/-- The smallest range that covers both spans, in the file of the first. -/
def join (s t : Span) : Span := ⟨s.file, min s.start t.start, max s.stop t.stop⟩

/-- The text of a span: `start..end`. -/
def render (s : Span) : String := s!"{s.start}..{s.stop}"

/-- `p ∈ s`: the position lies in the span, ends included. -/
instance : Membership Pos Span := ⟨fun s p => s.pos ≤ p ∧ p ≤ s.endPos⟩

instance (p : Pos) (s : Span) : Decidable (p ∈ s) :=
  inferInstanceAs (Decidable (s.pos ≤ p ∧ p ≤ s.endPos))

/-- `inner ⊆ outer`: every byte of `inner` is one of `outer`, ends included. -/
instance : HasSubset Span :=
  ⟨fun inner outer => outer.file = inner.file ∧ outer.start ≤ inner.start ∧ inner.stop ≤ outer.stop⟩

instance (inner outer : Span) : Decidable (inner ⊆ outer) :=
  inferInstanceAs
    (Decidable (outer.file = inner.file ∧ outer.start ≤ inner.start ∧ inner.stop ≤ outer.stop))

theorem mem_def {p : Pos} {s : Span} :
    p ∈ s ↔ s.file = p.file ∧ s.start ≤ p.offset ∧ p.offset ≤ s.stop := by
  constructor
  · rintro ⟨⟨hf, hs⟩, -, ht⟩; exact ⟨hf, hs, ht⟩
  · rintro ⟨hf, hs, ht⟩; exact ⟨⟨hf, hs⟩, hf.symm, ht⟩

theorem subset_def {inner outer : Span} :
    inner ⊆ outer ↔
      outer.file = inner.file ∧ outer.start ≤ inner.start ∧ inner.stop ≤ outer.stop := Iff.rfl

/-- A position of a span lies in every span around it. -/
theorem mem_of_subset {p : Pos} {inner outer : Span} (h : inner ⊆ outer) (hp : p ∈ inner) :
    p ∈ outer := by
  rw [mem_def] at hp ⊢
  obtain ⟨hf, hs, ht⟩ := h
  exact ⟨hf.trans hp.1, Nat.le_trans hs hp.2.1, Nat.le_trans hp.2.2 ht⟩

end Span

/-- A value and the place it was read from. -/
structure Spanned (α : Type) where
  val : α
  span : Span
deriving DecidableEq, Repr

end CueScope
