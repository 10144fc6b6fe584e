import CueScope.Proofs.Token.Pace
import CueScope.Proofs.Token.Text

/-!
# Tokens of a text in any file

* `mark`: a token without the places in it.
* `token_mark`: a token is read the same wherever the text is, apart from places.
* `tokenize_mark`: so are all tokens of a text.
-/

namespace CueScope.Token

open Grammar Rule

/-- The token without the places of its parts. -/
def mark : Token → Token
  | .interp text _ => .str text
  | t => t

theorem mark_eq_or (t : Token) : t.mark = t ∨ ∃ text parts, t = .interp text parts := by
  cases t with
  | interp text parts => exact .inr ⟨text, parts, rfl⟩
  | _ => exact .inl rfl

theorem endsStatement_mark (t : Token) : t.mark.endsStatement = t.endsStatement := by
  cases t <;> rfl

theorem mark_eq_newline {t : Token} : t.mark = .newline ↔ t = .newline := by
  cases t <;> simp [mark]

/-! ## One token -/

/-- The characters that are read are the same. -/
theorem recognized_alike {α : Type} {r r' : Rule Char α} [h : Paced r r'] :
    Parallel .alike Eq (recognized r) (recognized r') :=
  h.parallel.recognized fun _ _ _ hk => by rw [List.map_take, List.map_take, hk.1]

/-- A token made of the characters that are read. -/
theorem ofText_mark {r : Rule Char (List Char)} (h : Parallel .alike Eq r r)
    (f : List Char → Token) : Parallel .alike (fun t u => mark u = mark t)
      (do let text ← r; pure (f text)) (do let text ← r; pure (f text)) :=
  h.bind fun _ _ htext => .pure (by rw [htext])

theorem spelled_mark (text : String) (t : Token) :
    Parallel .alike (fun t u => mark u = mark t) (spelled text t) (spelled text t) :=
  (inferInstance : Paced (justAll text.toList) (justAll text.toList)).parallel.bind
    fun _ _ _ => .pure rfl

/-- Whatever parts a string has, its mark is its text. -/
theorem string_mark : Parallel .alike (fun t u => mark u = mark t) string string := by
  have htext : Parallel .alike Eq
      (recognized (choice [multiLine '"', multiLine '\'', singleLine '"', singleLine '\'']))
      (recognized (choice [multiLine '"', multiLine '\'', singleLine '"', singleLine '\''])) :=
    recognized_alike
  refine ⟨fun {k} s s' hk => ?_⟩
  have hrun := htext.run s s' hk
  unfold recognized at hrun
  unfold string
  cases hr : choice [multiLine '"', multiLine '\'', singleLine '"', singleLine '\''] s with
  | mk o t =>
  cases hr' : choice [multiLine '"', multiLine '\'', singleLine '"', singleLine '\''] s' with
  | mk o' t' =>
  rw [hr, hr'] at hrun
  cases o with
  | none =>
    cases o' with
    | none => exact .fail _ _
    | some parts' => cases hrun
  | some parts =>
    cases o' with
    | none => cases hrun
    | some parts' =>
      generalize s.readTo t = cs, s'.readTo t' = cs' at hrun ⊢
      cases hrun with
      | ok n hm hcs =>
        refine .ok n hm ?_
        rw [hcs]
        cases parts <;> cases parts' <;> rfl

theorem brokenString_mark : Parallel .alike (fun t u => mark u = mark t) brokenString brokenString :=
  recognized_alike.spanned_val.bind fun _ _ htext => (Parallel.complain _ _ _ _).bind
    fun _ _ _ => .pure (by rw [htext])

/-- The alternatives of a choice, one after the other. -/
theorem choice_mark {rs : List (Rule Char Token)}
    (h : ∀ r ∈ rs, Parallel .alike (fun t u => mark u = mark t) r r) :
    Parallel .alike (fun t u => mark u = mark t) (choice rs) (choice rs) := by
  induction rs with
  | nil => exact .choice_nil
  | cons r rs ih =>
    exact .choice_cons (h r List.mem_cons_self) (ih fun q hq => h q (List.mem_cons_of_mem _ hq))

theorem sign_mark : Parallel .alike (fun t u => mark u = mark t) sign sign := by
  refine choice_mark fun r hr => ?_
  simp only [List.mem_cons, List.not_mem_nil, or_false] at hr
  rcases hr with rfl | rfl | rfl
  all_goals
    refine choice_mark fun r hr => ?_
    simp only [List.mem_cons, List.not_mem_nil, or_false] at hr
    rcases hr with rfl | rfl | rfl | rfl | rfl | rfl | rfl | rfl | rfl | rfl | rfl <;>
      exact spelled_mark _ _

/-- A token is the same wherever it is read. -/
theorem token_mark : Parallel .alike (fun t u => mark u = mark t) token token := by
  refine choice_mark fun r hr => ?_
  simp only [List.mem_cons, List.not_mem_nil, or_false] at hr
  rcases hr with rfl | rfl | rfl | rfl | rfl | rfl | rfl | rfl | rfl
  · exact spelled_mark _ _
  · exact ofText_mark recognized_alike _
  · exact string_mark
  · exact brokenString_mark
  · exact ofText_mark recognized_alike _
  · exact ofText_mark recognized_alike _
  · exact spelled_mark _ _
  · exact ofText_mark recognized_alike _
  · exact sign_mark

/-! ## All tokens -/

theorem tokens_mark : Parallel .alike
    (List.Forall₂ fun (t u : Spanned Token) => u.val.mark = t.val.mark) tokens tokens := by
  have hpad : Paced padding padding := inferInstance
  have hword : Parallel .alike (fun (t u : Spanned Token) => u.val.mark = t.val.mark) word word :=
    token_mark.spanned_val.bind fun _ _ h => hpad.parallel.bind fun _ _ _ => .pure h
  rw [tokens_eq]
  exact hpad.parallel.bind fun _ _ _ => (hword.orSkip (Pairing.admits_alike _)
    Pairing.length_eq_of_alike).many_of_length Pairing.length_eq_of_alike

/-- Which newlines are dropped depends on the marks of the tokens alone. -/
theorem dropIdleNewlines_mark {ts us : List (Spanned Token)} (ended : Bool)
    (h : List.Forall₂ (fun t u => u.val.mark = t.val.mark) ts us) :
    List.Forall₂ (fun t u => u.val.mark = t.val.mark) (dropIdleNewlines ended ts)
      (dropIdleNewlines ended us) := by
  induction h generalizing ended with
  | nil => exact .nil
  | @cons t u ts us hmark _ ih =>
    have hnewline : u.val = .newline ↔ t.val = .newline := by
      rw [← mark_eq_newline, hmark, mark_eq_newline]
    have hends : u.val.endsStatement = t.val.endsStatement := by
      rw [← endsStatement_mark, hmark, endsStatement_mark]
    simp only [dropIdleNewlines, hnewline, hends]
    split
    · exact ih ended
    · exact .cons hmark (ih _)

/-- The tokens of a text are the same in every file, wherever it starts, apart from their places. -/
theorem tokenize_mark (file file' : FileId) (offset offset' : Nat) (text : List Char) :
    List.Forall₂ (fun t u => u.val.mark = t.val.mark) (tokenize file offset text).1
      (tokenize file' offset' text).1 := by
  unfold tokenize
  refine dropIdleNewlines_mark false ?_
  have hchars : (characters file offset text).map (·.val) =
      (characters file' offset' text).map (·.val) := by
    rw [characters_map_val, characters_map_val]
  have hrun := run_alike tokens_mark hchars (fun c => String.ofList [c])
    (fun c => String.ofList [c])
    ⟨file, offset + Text.byteLength text, offset + Text.byteLength text⟩
    ⟨file', offset' + Text.byteLength text, offset' + Text.byteLength text⟩
  generalize (run _ tokens (characters file offset text) _).1 = o,
    (run _ tokens (characters file' offset' text) _).1 = o' at hrun
  cases hrun with
  | none => exact .nil
  | some h => exact h

end CueScope.Token
