import CueScope.Proofs.Grammar.Steady
import CueScope.Proofs.Token.Layout

/-!
# How far tokens reach

Where a token ends depends on the characters alone, not on the file they are in, their places there or
what was read before them.
-/

namespace CueScope.Token

open Grammar Rule

instance : Paced escape escape := by
  unfold escape
  infer_instance

instance : Paced partBody partBody := .recursive fun _ _ _ => by
  dsimp only
  infer_instance

instance : Paced part part := by
  unfold part
  infer_instance

instance (q : List Char) (plain : Rule Char Char) [Paced plain plain] :
    Paced (quotedBy q plain) (quotedBy q plain) := by
  unfold quotedBy
  infer_instance

instance (q : Char) : Paced (singleLine q) (singleLine q) := by
  unfold singleLine
  infer_instance

instance (q : Char) : Paced (multiLine q) (multiLine q) := by
  unfold multiLine
  infer_instance

instance : Paced string string := by
  have hchoice : Paced (choice [multiLine '"', multiLine '\'', singleLine '"', singleLine '\''])
    (choice [multiLine '"', multiLine '\'', singleLine '"', singleLine '\'']) := inferInstance
  refine ⟨⟨fun {k} s s' hk => ?_⟩⟩
  unfold string
  have hrun := hchoice.parallel.run s s' hk
  generalize choice _ s = o, choice _ s' = o' at hrun ⊢
  cases hrun with
  | fail t t' => exact .fail t t'
  | ok n hm _ => exact .ok n hm trivial

instance : Paced rawString rawString := by
  unfold rawString
  infer_instance

instance : Paced brokenString brokenString := by
  unfold brokenString
  infer_instance

instance : Paced digits digits := by
  unfold digits
  infer_instance

instance : Paced radixNumber radixNumber := by
  unfold radixNumber
  infer_instance

instance : Paced decimalNumber decimalNumber := by
  unfold decimalNumber
  infer_instance

instance : Paced identifier identifier := by
  unfold identifier
  infer_instance

instance (text : String) (t : Token) : Paced (spelled text t) (spelled text t) := by
  unfold spelled
  infer_instance

instance : Paced sign sign := by
  unfold sign
  infer_instance

instance : Paced token token := by
  unfold token
  infer_instance

instance : Paced padding padding := by
  unfold padding
  infer_instance

/-- A token and what separates it from the next one. -/
def word : Rule Char (Spanned Token) := do
  let t ← spanned token
  padding
  pure t

theorem tokens_eq : tokens = (do padding; many (orSkip word)) := rfl

instance : Consumes token := (token_at.mono fun h => h.1).consumes

instance : Consumes word := by
  unfold word
  infer_instance

instance : Consumes (orSkip word) := by
  have hword : Consumes word := inferInstance
  refine (hword.ensures.orSkip.mono ?_).consumes
  rintro read rest t ⟨skip, xs, rfl, hxs⟩
  simp [hxs]

instance : Paced word word := by
  unfold word
  infer_instance

end CueScope.Token
