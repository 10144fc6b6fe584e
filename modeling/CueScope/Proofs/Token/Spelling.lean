import CueScope.Proofs.Token.Pace
import CueScope.Proofs.Token.Text

/-!
# Spellings of tokens

* `spellings`: the characters of each token of a text. They are at most as many as the text has
  characters (`length_spellings_le`).
* `name_mem_spellings`: whatever file a text is in, its tokens are spelt by some of them.
-/

namespace CueScope.Token

open Grammar Rule

/-- The characters of a token, and what separates it from the next one. -/
def spelling : Rule Char (List Char) := do
  let cs ← recognized token
  padding
  pure cs

/-- The characters of each token of a text. -/
def spellings (text : List Char) : List (List Char) :=
  let finish := Text.byteLength text
  let all : Rule Char (List (List Char)) := do
    padding
    many (orSkip spelling)
  (run (fun c => String.ofList [c]) all (characters 0 0 text) ⟨0, finish, finish⟩).1.getD []

instance : Consumes spelling := by
  have htoken : Consumes token := (token_at.mono fun h => h.1).consumes
  unfold spelling
  infer_instance

/-- Every token has a character of its own. -/
theorem length_spellings_le (text : List Char) : (spellings text).length ≤ text.length := by
  have hpad : Tame padding := inferInstance
  have hword : Consumes (orSkip spelling) := by
    refine ((inferInstance : Consumes spelling).ensures.orSkip.mono ?_).consumes
    rintro read rest t ⟨skip, xs, rfl, hxs⟩
    simp [hxs]
  unfold spellings
  dsimp only
  generalize ho : (run _ _ (characters 0 0 text) _).1 = o
  cases o with
  | none => exact Nat.zero_le _
  | some cs =>
    obtain ⟨pad, words, _, hread, -, hturns⟩ :=
      (hpad.ensures.bind fun _ => hword.ensures.many).run ho
    have hlen := congrArg List.length (characters_map_val 0 0 text)
    rw [List.length_map, hread, List.length_append] at hlen
    have := hturns.length_le fun h => h
    rw [Option.getD_some]
    omega

/-- A token is spelt by the same characters wherever it is read. -/
theorem token_spelling : Parallel .alike
    (fun (t : Spanned Token) cs => t.val ≠ .newline → t.val.name.toList = cs)
    (spanned token) (recognized token) := by
  have hpaced : Paced token token := inferInstance
  refine ⟨fun {k} s s' hk => ?_⟩
  have hrun := hpaced.parallel.run s s' hk
  unfold Rule.spanned Rule.recognized
  cases ht : token s with
  | mk o t =>
  cases ht' : token s' with
  | mk o' t' =>
  rw [ht, ht'] at hrun
  cases hrun with
  | fail => exact .fail _ _
  | ok n hm _ =>
    refine .ok n hm fun hne => ?_
    obtain ⟨read, hread, hspelt⟩ := token_spelt.ensures ht
    obtain ⟨xs, hxs, hn⟩ := hm.left
    obtain ⟨ys, hys, hn'⟩ := hm.right
    obtain rfl : read = xs := List.append_cancel_right (hread.rest_eq.symm.trans hxs.rest_eq)
    have htake := congrArg (List.take n) hk.1
    rw [hxs.rest_eq, hys.rest_eq, List.map_append, List.map_append,
      List.take_left' (by simpa using hn), List.take_left' (by simpa using hn')] at htake
    rw [← written_eq_name hne, hspelt, hys.readTo_eq, htake]

/-- Side by side, each token other than a newline has the characters it is spelt with for its name.
-/
theorem tokens_spellings : Parallel .alike
    (List.Forall₂ fun (t : Spanned Token) cs => t.val ≠ .newline → t.val.name.toList = cs)
    tokens (do padding; many (orSkip spelling)) := by
  have hpad : Paced padding padding := inferInstance
  have hword : Parallel .alike
      (fun (t : Spanned Token) cs => t.val ≠ .newline → t.val.name.toList = cs) word spelling :=
    token_spelling.bind fun _ _ h => hpad.parallel.bind fun _ _ _ => .pure h
  rw [tokens_eq]
  exact hpad.parallel.bind fun _ _ _ => (hword.orSkip (Pairing.admits_alike _)
    Pairing.length_eq_of_alike).many_of_length Pairing.length_eq_of_alike

/-- A token of a text, in whatever file, is spelt by characters that spell one in any file. -/
theorem name_mem_spellings {file : FileId} {offset : Nat} {text : List Char} {t : Spanned Token}
    (ht : t ∈ (tokenize file offset text).1) (hne : t.val ≠ .newline) :
    t.val.name.toList ∈ spellings text := by
  have hchars : (characters file offset text).map (·.val) = (characters 0 0 text).map (·.val) := by
    rw [characters_map_val, characters_map_val]
  have hrun := run_alike tokens_spellings hchars (fun c => String.ofList [c])
    (fun c => String.ofList [c]) ⟨file, offset + Text.byteLength text, offset + Text.byteLength text⟩
    ⟨0, Text.byteLength text, Text.byteLength text⟩
  unfold tokenize at ht
  unfold spellings
  dsimp only at ht ⊢
  generalize (run _ tokens (characters file offset text) _).1 = o at ht hrun
  generalize (run _ _ (characters 0 0 text) _).1 = o' at hrun ⊢
  cases hrun with
  | none => simp [dropIdleNewlines] at ht
  | @some ts cs hspelt =>
    have ht := (dropIdleNewlines_sublist _ _).subset ht
    rw [Option.getD_some] at ht ⊢
    obtain ⟨i, hi, rfl⟩ := List.getElem_of_mem ht
    have hi' : i < cs.length := hspelt.length_eq ▸ hi
    rw [show ts[i].val.name.toList = cs[i] from (List.forall₂_iff_get.1 hspelt).2 i hi hi' hne]
    exact List.getElem_mem hi'

end CueScope.Token
