import CueScope.Proofs.Grammar.Relocate
import CueScope.Proofs.Token.Text

/-!
# Tokens of a text in another place

* `Token.move`: a token whose parts are moved.
* `tokens_moved`: wherever the characters of a text stand, its tokens and the errors in it move with
  them.
* `tokenize_moved`: so they do where the same text is read from another byte of the file.
-/

namespace CueScope.Token

open Grammar Rule

/-- The token whose parts are moved by `f`. -/
def move (f : Nat → Nat) : Token → Token
  | .interp text parts => .interp text (parts.map (Span.move f))
  | t => t

variable {f : Nat → Nat}

theorem move_eq_or (f : Nat → Nat) (t : Token) :
    t.move f = t ∨ ∃ text parts, t = .interp text parts := by
  cases t with
  | interp text parts => exact .inr ⟨text, parts, rfl⟩
  | _ => exact .inl rfl

theorem name_move (f : Nat → Nat) (t : Token) : (t.move f).name = t.name := by cases t <;> rfl

theorem endsStatement_move (f : Nat → Nat) (t : Token) :
    (t.move f).endsStatement = t.endsStatement := by cases t <;> rfl

theorem move_eq_iff {t u : Token} (hu : ∀ text parts, u ≠ .interp text parts) :
    t.move f = u ↔ t = u := by
  rcases move_eq_or f t with h | ⟨text, parts, rfl⟩
  · rw [h]
  · exact ⟨fun h => absurd h.symm (hu _ _), fun h => absurd h.symm (hu _ _)⟩

/-! ## Strings -/

instance : Along f escape := by
  unfold escape
  infer_instance

instance : Along f partBody := .recursive fun _ _ => by
  dsimp only
  infer_instance

theorem part_moved : Moved (.along f) (fun p q => q = p.move f) part part := by
  refine (Along.moved (r := justAll ['\\', '('])).bind fun _ _ _ => ?_
  refine ((Along.moved (r := partBody)).spanned (.of_exact (Relocation.exact_along f) _)).bind
    fun x y hxy => ?_
  exact (Along.moved (r := just ')')).bind fun _ _ _ => .pure hxy.2

theorem quotedBy_moved (q : List Char) (plain : Rule Char Char) [Along f plain] :
    Moved (.along f) (fun ps qs => qs = ps.map (Span.move f)) (quotedBy q plain) (quotedBy q plain) := by
  have hskip : ∀ {α : Type} {r : Rule Char α} [Along f r], Moved (.along f)
      (fun p q => q = p.map (Span.move f)) (do let _ ← r; pure none) (do let _ ← r; pure none) :=
    (Along.moved).bind fun _ _ _ => .pure rfl
  have hparts := (Moved.choice_cons (part_moved.bind fun p q hpq => .pure (a := some p)
    (V := fun p q => q = p.map (Span.move f)) (congrArg some hpq))
    (.choice_cons (hskip (r := escape)) (.choice_cons (hskip (r := plain)) .choice_nil))).many
  refine (Along.moved (r := justAll q)).bind fun _ _ _ => hparts.bind fun ps qs hpq =>
    (Along.moved (r := justAll q)).bind fun _ _ _ => .pure ?_
  induction hpq with
  | nil => rfl
  | @cons p q _ _ h _ ih => cases p <;> simp_all

/-- A string moves with its characters, and so do its parts. -/
theorem string_moved : Moved (.along f) (fun t u => u = t.move f) string string := by
  have hchoice : Moved (.along f) (fun ps qs => qs = ps.map (Span.move f))
      (choice [multiLine '"', multiLine '\'', singleLine '"', singleLine '\''])
      (choice [multiLine '"', multiLine '\'', singleLine '"', singleLine '\'']) :=
    .choice_cons (quotedBy_moved _ _) (.choice_cons (quotedBy_moved _ _)
      (.choice_cons (quotedBy_moved _ _) (.choice_cons (quotedBy_moved _ _) .choice_nil)))
  refine ⟨fun {s s'} hs => ?_⟩
  unfold string
  have hrun := hchoice.run hs
  generalize choice _ s = o, choice _ s' = o' at hrun ⊢
  cases hrun with
  | fail ht => exact .fail ht
  | @ok ps qs t t' hpq ht =>
    refine .ok ?_ ht
    have hread : s'.readTo t' = s.readTo t := (hs.readTo ht).trans (List.map_id _)
    rw [hread, hpq]
    cases ps <;> rfl

theorem brokenString_moved : Moved (.along f) (fun t u => u = t.move f) brokenString brokenString := by
  have htext := (Along.moved (f := f) (r := recognized do
    let _ ← oneOf ['"', '\'']
    many (noneOf ['\n']))).spanned (.of_exact (Relocation.exact_along f) _)
  refine htext.bind fun x y hxy => (Moved.complain hxy.2 _).bind fun _ _ _ => .pure ?_
  rw [← hxy.1]
  rfl

/-! ## Other tokens -/

instance : Along f digits := by
  unfold digits
  infer_instance

instance : Along f padding := by
  unfold padding
  infer_instance

/-- A token made of the characters that are read. -/
theorem ofText_moved {r : Rule Char (List Char)} [Along f r] {g : List Char → Token}
    (hg : ∀ text, (g text).move f = g text) : Moved (.along f) (fun t u => u = t.move f)
      (do let text ← r; pure (g text)) (do let text ← r; pure (g text)) :=
  (Along.moved (r := r)).bind fun text _ h => .pure (by rw [hg, h])

theorem spelled_moved (text : String) {t : Token} (ht : t.move f = t) :
    Moved (.along f) (fun t u => u = t.move f) (spelled text t) (spelled text t) :=
  (Along.moved (r := justAll text.toList)).bind fun _ _ _ => .pure ht.symm

theorem ofDecimal_move (text : List Char) : (ofDecimal text).move f = ofDecimal text := by
  unfold ofDecimal
  split
  · rfl
  · split <;> rfl

theorem sign_moved : Moved (.along f) (fun t u => u = t.move f) sign sign := by
  unfold sign
  repeat' first
    | exact .choice_nil
    | apply Moved.choice_cons
    | exact spelled_moved _ rfl

theorem token_moved : Moved (.along f) (fun t u => u = t.move f) token token :=
  .choice_cons (spelled_moved _ rfl) <|
  .choice_cons (ofText_moved fun _ => rfl) <|
  .choice_cons string_moved <| .choice_cons brokenString_moved <|
  .choice_cons (ofText_moved fun _ => rfl) <|
  .choice_cons (ofText_moved ofDecimal_move) <| .choice_cons (spelled_moved _ rfl) <|
  .choice_cons (ofText_moved fun _ => rfl) <|
  .choice_cons sign_moved .choice_nil

/-! ## All tokens -/

/-- The token at its moved place. -/
def moveSpanned (f : Nat → Nat) (t : Spanned Token) : Spanned Token := ⟨t.val.move f, t.span.move f⟩

/-- All tokens of a text move with its characters. -/
theorem tokens_moved :
    Moved (.along f) (fun ts us => us = ts.map (moveSpanned f)) tokens tokens := by
  have hword : Moved (.along f) (fun t u => u = moveSpanned f t)
      (do let t ← spanned token; padding; pure t) (do let t ← spanned token; padding; pure t) := by
    refine (token_moved.spanned (.of_exact (Relocation.exact_along f) _)).bind fun t u htu =>
      (Along.moved (r := padding)).bind fun _ _ _ => .pure ?_
    obtain ⟨u, span⟩ := u
    obtain ⟨rfl, rfl⟩ := htu
    rfl
  refine (Along.moved (r := padding)).bind fun _ _ _ => hword.orSkip.many.mono fun ts us h => ?_
  induction h with
  | nil => rfl
  | cons h _ ih => rw [h, ih, List.map_cons]

/-- Which newlines are dropped does not depend on places. -/
theorem dropIdleNewlines_move (ended : Bool) (ts : List (Spanned Token)) :
    dropIdleNewlines ended (ts.map (moveSpanned f)) =
      (dropIdleNewlines ended ts).map (moveSpanned f) := by
  have hnewline : ∀ t : Spanned Token, (moveSpanned f t).val = .newline ↔ t.val = .newline :=
    fun t => move_eq_iff (by simp)
  have hends : ∀ t : Spanned Token, (moveSpanned f t).val.endsStatement = t.val.endsStatement :=
    fun t => endsStatement_move f t.val
  induction ts generalizing ended with
  | nil => rfl
  | cons t ts ih =>
    simp only [List.map_cons, dropIdleNewlines, hnewline, hends]
    split
    · exact ih ended
    · rw [ih, List.map_cons]

/-- The characters of a moved text are its characters, moved. -/
theorem characters_moved {file : FileId} {offset : Nat} {text : List Char}
    (hf : ∀ i ≤ Text.byteLength text, f (offset + i) = f offset + i) :
    List.Forall₂ (Relocation.along f).Item (characters file offset text)
      (characters file (f offset) text) := by
  induction text generalizing offset with
  | nil => exact .nil
  | cons c cs ih =>
    have hc : f (offset + c.utf8Size) = f offset + c.utf8Size :=
      hf _ (by rw [Text.byteLength_cons]; omega)
    refine .cons ⟨trivial, rfl, ?_⟩ ?_
    · show (⟨file, f offset, f offset + c.utf8Size⟩ : Span) = ⟨file, f offset + 0, _⟩
      rw [← hc]
      rfl
    · rw [← hc]
      refine ih fun i hi => ?_
      rw [hc, Nat.add_assoc, Nat.add_assoc]
      exact hf _ (by rw [Text.byteLength_cons]; omega)

/-- The tokens of a text that is read from another byte of the file, and the errors in it. -/
theorem tokenize_moved {file : FileId} {offset : Nat} {text : List Char}
    (hf : ∀ i ≤ Text.byteLength text, f (offset + i) = f offset + i) :
    tokenize file (f offset) text = ((tokenize file offset text).1.map (moveSpanned f),
      (tokenize file offset text).2.map (SyntaxError.move f)) := by
  have hfinish : (⟨file, f offset + Text.byteLength text, f offset + Text.byteLength text⟩ : Span) =
      Span.move f ⟨file, offset + Text.byteLength text, offset + Text.byteLength text⟩ := by
    rw [← hf _ (Nat.le_refl _)]
    rfl
  have hchars : List.Forall₂ (Relocation.along f).Item (characters file offset text)
      (characters file (f offset) text) := characters_moved hf
  have hvalue := run_value_moved (fun c => String.ofList [c]) tokens_moved hchars hfinish
  have herrors := run_errors_moved (fun c => String.ofList [c]) tokens_moved hchars hfinish
    (Relocation.exact_along f) fun _ => rfl
  unfold tokenize
  dsimp only
  rw [herrors]
  refine Prod.ext ?_ rfl
  generalize (run _ tokens (characters file offset text) _).1 = o,
    (run _ tokens (characters file (f offset) text) _).1 = o' at hvalue
  cases hvalue with
  | none => rfl
  | some h =>
    rw [h]
    exact dropIdleNewlines_move false _

end CueScope.Token
