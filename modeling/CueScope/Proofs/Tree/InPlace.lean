import CueScope.Proofs.Tree.Positions
import CueScope.Proofs.Tree.Relocate

/-!
# Texts that are read in place

* `Shifts`: places are moved, but none of a range against the others.
* `body_moved`: where a text stands in two sources, the expression read from it and the errors in it
  differ by the places alone, however deep its string parts nest.
* `Expr.parse_slice`: so an expression that is read in place is the one read alone, moved to its
  place.
-/

namespace CueScope

/-- The bytes of a text are moved as one. -/
def Shifts (f : Nat → Nat) (start length : Nat) : Prop := ∀ i ≤ length, f (start + i) = f start + i

/-- The text of a slice stands where it was cut out. -/
theorem stands_of_slice? {source text : String} {span : Span}
    (h : Text.slice? source span.start span.stop = some text) :
    Stands source.toList span text.toList := by
  unfold Text.slice? at h
  split at h
  · rename_i hle
    obtain ⟨⟨pre, rest⟩, hpre, h⟩ := Option.bind_eq_some_iff.1 h
    obtain ⟨⟨cut, post⟩, hcut, rfl⟩ := Option.map_eq_some_iff.1 h
    obtain ⟨hsource, hstart⟩ := Text.splitAtByte_eq_some hpre
    obtain ⟨rfl, hlen⟩ := Text.splitAtByte_eq_some hcut
    rw [String.toList_ofList]
    exact ⟨pre, post, by rw [hsource, List.append_assoc], hstart.symm, by omega⟩
  · cases h

/-- A text that stands in two sources has its words where they stand in both. -/
theorem StandsFrom.moved {source : List Char} {f : Nat → Nat} {p q : Span} {w v : List Char}
    (h : StandsFrom p.start w q v) (hp : Stands source (p.move f) w)
    (hf : Shifts f p.start (Text.byteLength w)) :
    Stands source (q.move f) v ∧ Shifts f q.start (Text.byteLength v) := by
  obtain ⟨as, bs, rfl, hstart, hstop⟩ := h
  obtain ⟨pre, post, rfl, hpre, -⟩ := hp
  have hlen : Text.byteLength (as ++ v ++ bs) =
      Text.byteLength as + Text.byteLength v + Text.byteLength bs := by
    rw [Text.byteLength_append, Text.byteLength_append]
  have hfq : f q.start = f p.start + Text.byteLength as := by
    rw [hstart]
    exact hf _ (by omega)
  have hshift : Shifts f q.start (Text.byteLength v) := by
    intro i hi
    rw [hfq, hstart, Nat.add_assoc, Nat.add_assoc]
    exact hf _ (by omega)
  refine ⟨⟨pre ++ as, bs ++ post, by simp, ?_, ?_⟩, hshift⟩
  · rw [Text.byteLength_append, ← hpre]
    exact hfq
  · show f q.stop = f q.start + Text.byteLength v
    rw [hstop]
    exact hshift _ (Nat.le_refl _)

namespace Tree

open Grammar Rule

/-- Tokens that are moved, with nothing put in front of newlines. -/
theorem items_moved {S : Placement} (hgap : S.gap = 0) {ts : List (Spanned Token)}
    (hts : ∀ t ∈ ts, S.tokens.admits t.val) :
    List.Forall₂ S.tokens.Item ts (ts.map (Token.moveSpanned S.place)) := by
  induction ts with
  | nil => exact .nil
  | cons t ts ih =>
    refine .cons ⟨hts t List.mem_cons_self, rfl, ?_⟩ (ih fun u hu => hts u (List.mem_cons_of_mem _ hu))
    rw [Placement.exact_tokens hgap t.val]
    rfl

theorem name_item (S : Placement) (t : Token) : (S.tokens.item t).name = t.name :=
  Token.name_move S.place t

theorem eq_map_of_rel {α : Type} {g : α → α} {o o' : Option α}
    (h : Option.Rel (fun a b => b = g a) o o') : o' = o.map g := by
  cases h with
  | none => rfl
  | some h => exact congrArg some h

/-- The expression read from moved tokens, and the errors in it, are moved. -/
theorem run_expr_moved {S : Placement} (hgap : S.gap = 0) {ts : List (Spanned Token)}
    (hts : ∀ t ∈ ts, S.tokens.admits t.val) (finish : Span) :
    (run Token.name (padded newlines (expr S.after)) (ts.map (Token.moveSpanned S.place))
        (finish.move S.place)).1 =
      (run Token.name (padded newlines (expr S.before)) ts finish).1.map (Expr.move S.place) ∧
    (run Token.name (padded newlines (expr S.after)) (ts.map (Token.moveSpanned S.place))
        (finish.move S.place)).2 =
      (run Token.name (padded newlines (expr S.before)) ts finish).2.map
        (SyntaxError.move S.place) := by
  have hrule : S.Carries (Expr.move S.place) (padded newlines (expr S.before))
      (padded newlines (expr S.after)) := newlines_moved.padded expr_moved
  have hitems := items_moved hgap hts
  have hfinish : finish.move S.place = finish.move S.tokens.place := rfl
  have hvalue := run_value_moved Token.name hrule hitems hfinish
  have herrors := run_errors_moved Token.name hrule hitems hfinish (Placement.exact_tokens hgap)
    (name_item S)
  exact ⟨eq_map_of_rel hvalue, herrors⟩

/-- The expression read from a text, and the errors in it, are the same wherever it stands. -/
theorem body_moved {file : FileId} {source source' : List Char} {f : Nat → Nat}
    (hmono : ∀ a b, a ≤ b → f a ≤ f b) {depth depth' : Nat} {p : Span} {w : List Char}
    (hp : Stands source p w) (hp' : Stands source' (p.move f) w)
    (hf : Shifts f p.start (Text.byteLength w)) (hd : w.length < depth) (hd' : w.length < depth') :
    body file source' depth' (p.move f) = ((body file source depth p).1.move f,
      (body file source depth p).2.map (SyntaxError.move f)) := by
  induction depth generalizing depth' p w with
  | zero => exact absurd hd (Nat.not_lt_zero _)
  | succ depth ih =>
    obtain ⟨depth', rfl⟩ : ∃ d, depth' = d + 1 := ⟨depth' - 1, by omega⟩
    rw [body_succ hp, body_succ hp', show Token.tokenize file (p.move f).start w = _ from
      Token.tokenize_moved hf]
    -- the parts of its strings are shorter and stand in both sources, too
    have hparts : ∀ t ∈ (Token.tokenize file p.start w).1, ∀ q ∈ t.val.parts,
        body file source' depth' (q.move f) = ((body file source depth q).1.move f,
          (body file source depth q).2.map (SyntaxError.move f)) := by
      intro t ht q hq
      obtain ⟨v, hv, hlt⟩ := Token.tokenize_parts_from ht hq
      obtain ⟨hq', hshift⟩ := hv.moved hp' hf
      refine ih ?_ hq' hshift (by omega) (by omega)
      obtain ⟨pre, post, rfl, hstart, -⟩ := hp
      rw [hstart] at hv
      exact hv.stands
    obtain ⟨hvalue, herrors⟩ := run_expr_moved
      (S := ⟨f, hmono, 0, body file source depth, body file source' depth'⟩) rfl hparts
      ⟨file, p.stop, p.stop⟩
    have hfinish : Span.move f ⟨file, p.stop, p.stop⟩ =
        ⟨file, (p.move f).stop, (p.move f).stop⟩ := rfl
    have hbad : Expr.bad (p.move f) = (Expr.bad p).move f := rfl
    dsimp only at hvalue herrors
    rw [hfinish] at hvalue herrors
    dsimp only
    rw [hvalue, herrors, hbad, Option.getD_map, List.map_append]

end Tree

/-- Reading an expression in place gives what reading its text alone gives, moved to its place: the
expression, with the bodies of string parts at any depth, and the errors in their order. -/
theorem Expr.parse_slice {file : FileId} {source text : String} {span : Span}
    (h : Text.slice? source span.start span.stop = some text) :
    Expr.parse file source span =
      ((Expr.parse file text ⟨span.file, 0, span.stop - span.start⟩).1.move (· + span.start),
        (Expr.parse file text ⟨span.file, 0, span.stop - span.start⟩).2.map
          (SyntaxError.move (· + span.start))) := by
  have hstands := stands_of_slice? h
  obtain ⟨pre, post, hsource, hstart, hstop⟩ := hstands
  have hlen : text.toList.length < source.length + 1 := by
    rw [← String.length_toList, hsource]
    simp only [List.length_append]
    omega
  have halone : Stands text.toList ⟨span.file, 0, span.stop - span.start⟩ text.toList :=
    ⟨[], [], by simp, rfl, by simp only; omega⟩
  have hmoved : Span.move (· + span.start) ⟨span.file, 0, span.stop - span.start⟩ = span := by
    obtain ⟨F, a, b⟩ := span
    simp only [Span.move, Span.mk.injEq, true_and]
    dsimp only at hstop
    omega
  have hplace : Stands source.toList
      (Span.move (· + span.start) ⟨span.file, 0, span.stop - span.start⟩) text.toList := by
    rw [hmoved]
    exact stands_of_slice? h
  have hshifts : Shifts (· + span.start) 0 (Text.byteLength text.toList) :=
    fun i _ => Nat.add_right_comm 0 i _
  have hbody := @Tree.body_moved file _ _ _ (fun _ _ hab => Nat.add_le_add_right hab _) _ _ _ _
    halone hplace hshifts (Nat.lt_succ_self _) hlen
  rw [hmoved, String.length_toList] at hbody
  exact hbody

/-- The body of a part in the body of a part, with an error in it. -/
theorem Expr.parse_slice_nested :
    let source := "a: \"\\(b + \"\\(c d)\")\""
    let text := "b + \"\\(c d)\""
    Text.slice? source 6 18 = some text ∧ (Expr.parse 0 source ⟨0, 6, 18⟩).2 ≠ [] ∧
      Expr.parse 0 source ⟨0, 6, 18⟩ = ((Expr.parse 0 text ⟨0, 0, 12⟩).1.move (· + 6),
        (Expr.parse 0 text ⟨0, 0, 12⟩).2.map (SyntaxError.move (· + 6))) := by
  have hslice : Text.slice? "a: \"\\(b + \"\\(c d)\")\"" 6 18 = some "b + \"\\(c d)\"" := by
    decide +kernel
  exact ⟨hslice, by decide +kernel, @Expr.parse_slice 0 _ _ ⟨0, 6, 18⟩ hslice⟩

end CueScope
