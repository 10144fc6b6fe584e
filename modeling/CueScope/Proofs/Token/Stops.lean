import CueScope.Proofs.Grammar.Parallel
import CueScope.Token.Lexer

/-!
# Tokens that no line break belongs to

Two inputs have the same characters up to a place, which may be in front of a line break. Numbers,
words and signs read no line break, so they are read in the same way on both sides.

* `Stops`: what reads no line break does not notice where the characters begin to differ.
* `Stops.radixNumber`, `Stops.decimalNumber`, `Stops.identifier`, `Stops.sign`: the rules for such
  tokens.
-/

namespace CueScope.Token

open Grammar Rule

/-- Corresponding characters are the same, and a rule that takes neither `\n` nor `\r` finds the next
one on both sides or on none. -/
structure Stops (P : Pairing Char) : Prop where
  exact : P.Exact
  admits : ∀ {α : Type} {f : Char → Option α}, f '\n' = none → f '\r' = none → P.Admits f

namespace Stops

variable {P : Pairing Char} (h : Stops P)
include h

/-! ## Characters -/

theorem just {c : Char} (hc : c ≠ '\n' ∧ c ≠ '\r') : Parallel P Eq (just c) (just c) :=
  .just c (h.admits (if_neg hc.1.symm) (if_neg hc.2.symm))

theorem oneOf {cs : List Char} (hcs : '\n' ∉ cs ∧ '\r' ∉ cs) : Parallel P Eq (oneOf cs) (oneOf cs) :=
  .oneOf cs (h.admits (if_neg hcs.1) (if_neg hcs.2))

theorem satisfy {p : Char → Bool} (hp : p '\n' = false ∧ p '\r' = false) :
    Parallel P Eq (satisfy p) (satisfy p) :=
  .satisfy (h.admits (by rw [hp.1]; rfl) (by rw [hp.2]; rfl))

theorem justAll {cs : List Char} (hcs : '\n' ∉ cs ∧ '\r' ∉ cs) :
    Parallel P Eq (justAll cs) (justAll cs) :=
  .justAll fun _ hc => h.admits (if_neg (ne_of_mem_of_not_mem hc hcs.1).symm)
    (if_neg (ne_of_mem_of_not_mem hc hcs.2).symm)

theorem recognized {α β : Type} {V : α → β → Prop} {r : Rule Char α} {r' : Rule Char β}
    (hr : Parallel P V r r') : Parallel P Eq (recognized r) (recognized r') :=
  hr.recognized fun k a b hk => by rw [h.exact k a b hk]

/-! ## Numbers -/

theorem digits : Parallel P Eq digits digits :=
  (h.satisfy (by decide)).bind fun _ _ _ => .skipMany
    (.choice_cons (h.satisfy (by decide)) (.choice_cons (h.just (by decide)) .choice_nil))

theorem radixNumber : Parallel P Eq radixNumber radixNumber :=
  (h.recognized ((h.just (by decide)).bind fun _ _ _ => (h.oneOf (by decide)).bind fun _ _ _ =>
    (h.satisfy (by decide)).many1)).bind fun _ _ hv => .pure (by rw [hv])

theorem decimalNumber : Parallel P Eq decimalNumber decimalNumber := by
  have hdot : ∀ {α β : Type} {V : α → β → Prop} {r : Rule Char α} {r' : Rule Char β},
      Parallel P V r r' → Parallel P V (do let _ ← Rule.just '.'; r) (do let _ ← Rule.just '.'; r') :=
    fun hr => (h.just (by decide)).bind fun _ _ _ => hr
  have hbase : Parallel P Eq
      (choice [(do Token.digits; let _ ← maybe (do let _ ← Rule.just '.'; Token.digits); pure ()),
        (do let _ ← Rule.just '.'; Token.digits)])
      (choice [(do Token.digits; let _ ← maybe (do let _ ← Rule.just '.'; Token.digits); pure ()),
        (do let _ ← Rule.just '.'; Token.digits)]) :=
    .choice_cons (h.digits.bind fun _ _ _ => (hdot h.digits).maybe.bind fun _ _ _ => .pure rfl)
      (.choice_cons (hdot h.digits) .choice_nil)
  have hexponent : Parallel P Eq
      (do let _ ← Rule.oneOf ['e', 'E']; let _ ← maybe (Rule.oneOf ['+', '-']); Token.digits)
      (do let _ ← Rule.oneOf ['e', 'E']; let _ ← maybe (Rule.oneOf ['+', '-']); Token.digits) :=
    (h.oneOf (by decide)).bind fun _ _ _ => (h.oneOf (by decide)).maybe.bind fun _ _ _ => h.digits
  have hmultiplier : Parallel P (Option.Rel Eq)
      (do let _ ← Rule.oneOf ['K', 'M', 'G', 'T', 'P']; maybe (Rule.just 'i'))
      (do let _ ← Rule.oneOf ['K', 'M', 'G', 'T', 'P']; maybe (Rule.just 'i')) :=
    (h.oneOf (by decide)).bind fun _ _ _ => (h.just (by decide)).maybe
  exact (h.recognized (hbase.bind fun _ _ _ => hexponent.maybe.bind fun _ _ _ =>
    hmultiplier.maybe)).bind fun _ _ hv => .pure (by rw [hv])

/-! ## Words and signs -/

theorem identifier : Parallel P Eq identifier identifier :=
  (h.recognized ((h.satisfy (by decide)).bind fun _ _ _ => (h.satisfy (by decide)).many)).bind
    fun _ _ hv => .pure (by rw [hv])

theorem spelled {text : String} (t : Token) (htext : '\n' ∉ text.toList ∧ '\r' ∉ text.toList) :
    Parallel P Eq (spelled text t) (spelled text t) :=
  (h.justAll htext).bind fun _ _ _ => .pure rfl

theorem sign : Parallel P Eq sign sign := by
  unfold Token.sign
  repeat' first
    | exact .choice_nil
    | apply Parallel.choice_cons
    | exact h.spelled _ (by decide)

end Stops

end CueScope.Token
