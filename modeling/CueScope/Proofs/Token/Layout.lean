import CueScope.Token.Lexer
import CueScope.Proofs.Grammar.Layout

/-!
# Where tokens stand

* `characters_inOrder`, `characters_contiguous`: the characters of a text follow each other without
  gaps.
* `part_at`: the body of a string part fills the space between its parentheses, also when it is
  empty.
* `tokenize_lined`, `tokenize_within`: the tokens of a text are not empty, come in order and lie in
  the text; the parts of a string lie in it, apart from each other.
-/

namespace CueScope

open Grammar Rule

/-! ## Characters -/

/-- There is no gap between the items. -/
def Contiguous {τ : Type} (l : List (Spanned τ)) : Prop :=
  l.IsChain fun x y => x.span.stop = y.span.start

namespace Token

/-- A character lies in the text, and is not empty. -/
theorem characters_bounds {file : FileId} {offset : Nat} {text : List Char} {x : Spanned Char}
    (hx : x ∈ characters file offset text) :
    x.span.file = file ∧ offset ≤ x.span.start ∧ x.span.start < x.span.stop ∧
      x.span.stop ≤ offset + Text.byteLength text := by
  induction text generalizing offset with
  | nil => cases hx
  | cons c cs ih =>
    have hc := c.utf8Size_pos
    rcases List.mem_cons.1 hx with rfl | hx
    · simp only [Text.byteLength_cons]
      exact ⟨trivial, Nat.le_refl _, by omega, by omega⟩
    · obtain ⟨hf, h₁, h₂, h₃⟩ := ih hx
      simp only [Text.byteLength_cons]
      exact ⟨hf, by omega, h₂, by omega⟩

theorem characters_inOrder (file : FileId) (offset : Nat) (text : List Char) :
    InOrder file (characters file offset text) := by
  refine ⟨fun x hx => (characters_bounds hx).1, fun x hx => (characters_bounds hx).2.2.1, ?_⟩
  induction text generalizing offset with
  | nil => exact .nil
  | cons c cs ih =>
    refine List.pairwise_cons.2 ⟨fun y hy => ?_, ih _⟩
    exact (characters_bounds hy).2.1

theorem characters_contiguous (file : FileId) (offset : Nat) (text : List Char) :
    Contiguous (characters file offset text) := by
  induction text generalizing offset with
  | nil => exact .nil
  | cons c cs ih =>
    cases cs with
    | nil => exact .singleton _
    | cons d ds => exact .cons_cons rfl (ih _)

/-! ## Parts of strings -/

instance : Consumes escape := by
  unfold escape
  infer_instance

instance : Tame partBody := .recursive fun body _ => by
  dsimp only
  infer_instance

instance : Consumes part := by
  unfold part
  infer_instance

/-- The span `p` is that of a string part: what is between its parentheses. -/
def PartAt (read : List (Spanned Char)) (p : Span) : Prop :=
  ∃ x y body z, read = x :: y :: (body ++ [z]) ∧
    ∀ F, InOrder F read → Contiguous read → p = ⟨F, y.span.stop, z.span.start⟩

theorem bind_ok {τ α β : Type} {r : Rule τ α} {f : α → Rule τ β} {s t : State τ} {b : β}
    (h : (r >>= f) s = (some b, t)) : ∃ a u, r s = (some a, u) ∧ f a u = (some b, t) := by
  change Rule.bind r f s = (some b, t) at h
  unfold Rule.bind at h
  split at h
  · rename_i a u hu
    exact ⟨a, u, hu, h⟩
  · cases h

/-- The span of a part whose body stands between `y` and `z`: from the character that is next behind `y`
to the one before `z`. -/
def partSpan (y : Spanned Char) (body : List (Spanned Char)) (z : Spanned Char) : Span :=
  ⟨(body.headD z).span.file, (body.headD z).span.start, (body.getLastD y).span.stop⟩

/-- Which characters a part is read from, and its span. -/
theorem part_ok {s t : State Char} {p : Span} (h : part s = (some p, t)) :
    ∃ x y body z, Reads s t (x :: y :: (body ++ [z])) ∧ p = partSpan y body z := by
  obtain ⟨_, s₁, h₁, h⟩ := bind_ok h
  obtain ⟨b, s₂, h₂, h⟩ := bind_ok h
  obtain ⟨_, s₃, h₃, h⟩ := bind_ok h
  cases h
  obtain ⟨opening, ho, hvals⟩ := (Ensures.justAll ['\\', '(']).ensures h₁
  obtain ⟨x, _, rfl, -, hvals⟩ := List.map_eq_cons_iff.1 hvals
  obtain ⟨y, _, rfl, -, hvals⟩ := List.map_eq_cons_iff.1 hvals
  obtain rfl := List.map_eq_nil_iff.1 hvals
  obtain ⟨body, hb⟩ := Tame.reads h₂
  obtain ⟨_, hz, z, rfl, -⟩ := (Ensures.just ')').ensures h₃
  refine ⟨x, y, body, z, (ho.trans hb).trans hz, ?_⟩
  have hspan : b.span = s₁.spanTo s₂ := by
    unfold spanned at h₂
    split at h₂
    · cases h₂
      rfl
    · cases h₂
  have hrest : s₁.rest = body ++ z :: t.rest := by
    rw [hb.rest_eq, hz.rest_eq]
    rfl
  have hlast : s₂.last = (body.getLastD y).span := by
    rw [hb.last_eq, ho.last_eq, List.getLastD_eq_getLast?]
    cases body.getLast? <;> rfl
  rw [hspan, State.spanTo, hrest, hlast]
  cases body <;> rfl

/-- The span of a part depends on the characters alone that it is read from. -/
theorem part_eq_of_reads {s t s' t' : State Char} {p p' : Span} {read : List (Spanned Char)}
    (h : part s = (some p, t)) (h' : part s' = (some p', t')) (hread : Reads s t read)
    (hread' : Reads s' t' read) : p = p' := by
  obtain ⟨x, y, body, z, hs, rfl⟩ := part_ok h
  obtain ⟨x', y', body', z', hs', rfl⟩ := part_ok h'
  obtain rfl := List.append_cancel_right (hread.rest_eq.symm.trans hs.rest_eq)
  have hsame := List.append_cancel_right (hread'.rest_eq.symm.trans hs'.rest_eq)
  obtain ⟨-, rfl, hbody⟩ : x = x' ∧ y = y' ∧ body ++ [z] = body' ++ [z'] := by simpa using hsame
  obtain ⟨rfl, hz⟩ := List.append_inj' hbody rfl
  cases hz
  rfl

/-- The body of a part fills the space between its parentheses. -/
theorem part_at : Ensures part fun read _ p => PartAt read p := by
  refine ⟨fun {s p t} h => ?_⟩
  obtain ⟨x, y, body, z, hread, rfl⟩ := part_ok h
  refine ⟨_, hread, x, y, body, z, rfl, fun F hF hcont => ?_⟩
  -- The next character starts where `(` ends, and the one before `)` ends where that starts.
  have hchain : Contiguous ((x :: y :: body) ++ [z]) := hcont
  obtain ⟨-, -, hjoin⟩ := List.isChain_append.1 hchain
  have hstop : (body.getLastD y).span.stop = z.span.start := by
    rw [List.getLastD_eq_getLast?]
    cases hl : body.getLast? with
    | none => exact hjoin y (by simp [List.getLast?_cons, hl]) z (by simp)
    | some w => exact hjoin w (by simp [List.getLast?_cons, hl]) z (by simp)
  have hnext := (List.isChain_cons_cons.1 hcont).2
  rw [partSpan, hstop]
  cases body with
  | nil =>
    have hy : y.span.stop = z.span.start := (List.isChain_cons_cons.1 hnext).1
    simp [hy, hF.file z (by simp)]
  | cons c body =>
    have hy : y.span.stop = c.span.start := (List.isChain_cons_cons.1 hnext).1
    simp [hy, hF.file c (by simp)]

/-- A part lies inside the characters it was read from, and does not reach their ends. -/
theorem PartAt.inside {F : FileId} {read : List (Spanned Char)} {p : Span} (h : PartAt read p)
    (hF : InOrder F read) (hc : Contiguous read) :
    p.file = F ∧ (cover read).start < p.start ∧ p.start ≤ p.stop ∧ p.stop < (cover read).stop := by
  obtain ⟨x, y, body, z, rfl, hp⟩ := h
  rw [hp F hF hc]
  have hyz : y.span.stop + body.length ≤ z.span.start :=
    (hF.sublist (List.sublist_cons_self _ _)).stop_add_le
  have hx := hF.start_le (x := y) (by simp)
  have hy := hF.nonempty y (by simp)
  have hz := hF.nonempty z (by simp)
  have hz' := hF.le_stop (x := z) (by simp)
  refine ⟨rfl, ?_, ?_, ?_⟩ <;> dsimp only <;> omega

/-- The parts of a string. -/
def parts : Token → List Span
  | .interp _ parts => parts
  | _ => []

/-- What a token is read from. -/
def TokenAt (read : List (Spanned Char)) (t : Token) : Prop :=
  read ≠ [] ∧ Spread 0 PartAt read t.parts

/-- The parts of a string come in order, apart from each other. -/
theorem turns_parts {plain : Rule Char Char} (hplain : Tame plain) :
    Ensures (many (choice [
      (do let p ← part; pure (some p)),
      (do escape; pure none),
      (do let _ ← plain; pure none)])) fun read _ ps => Spread 0 PartAt read (ps.filterMap id) := by
  have hnone : ∀ {β : Type} {r : Rule Char β}, Tame r →
      Ensures (do let _ ← r; pure none : Rule Char (Option Span)) fun read _ o =>
        ∀ p ∈ o, PartAt read p := by
    intro β r hr
    refine (hr.ensures.bind fun _ => .pure _).mono ?_
    rintro read rest o ⟨_, _, _, -, -, -, rfl⟩ p hp
    cases hp
  have hturn : Ensures (choice [
      (do let p ← part; pure (some p)),
      (do escape; pure none),
      (do let _ ← plain; pure none)]) fun read _ o => ∀ p ∈ o, PartAt read p := by
    refine .choice_cons ?_ (.choice_cons (hnone inferInstance)
      (.choice_cons (hnone hplain) .choice_nil))
    refine (part_at.bind fun _ => .pure _).mono ?_
    rintro read rest o ⟨xs, _, p, rfl, hp, rfl, rfl⟩ q hq
    cases hq
    simpa using hp
  refine hturn.many.mono fun {read rest ps} h => ?_
  induction h with
  | nil => exact .none _
  | @cons xs ys rest o os ho _ ih =>
    cases o with
    | none => simpa using ih.skipAll xs
    | some p => simpa using Spread.cons (g := []) (ho p rfl) (Nat.le_refl 0) ih

theorem quotedBy_parts {q : List Char} {plain : Rule Char Char} (hq : q ≠ []) (hplain : Tame plain) :
    Ensures (quotedBy q plain) fun read _ ps => read ≠ [] ∧ Spread 0 PartAt read ps := by
  have hopen := (Consumes.justAll hq).ensures
  refine (hopen.bind fun _ => (turns_parts hplain).bind fun _ => hopen.bind fun _ => .pure _).mono ?_
  rintro read rest ps ⟨xs, _, _, rfl, hxs, ys, _, os, rfl, hos, zs, _, _, rfl, -, rfl, rfl⟩
  exact ⟨by simp [hxs], by simpa using (hos.append zs).skipAll xs⟩

/-- A string is read from what its parts were read from, in this order. -/
theorem string_at : Ensures string fun read _ t => TokenAt read t := by
  have hsingle : ∀ q, Ensures (singleLine q) fun read _ ps => read ≠ [] ∧ Spread 0 PartAt read ps :=
    fun q => quotedBy_parts (by simp) inferInstance
  have hmulti : ∀ q, Ensures (multiLine q) fun read _ ps => read ≠ [] ∧ Spread 0 PartAt read ps :=
    fun q => quotedBy_parts (by simp) inferInstance
  have hchoice := (hmulti '"').choice_cons ((hmulti '\'').choice_cons
    ((hsingle '"').choice_cons ((hsingle '\'').choice_cons .choice_nil)))
  refine ⟨fun {s t u} h => ?_⟩
  unfold string at h
  split at h
  · rename_i ps v hv
    cases h
    obtain ⟨read, hread, hne, hspread⟩ := hchoice.ensures hv
    refine ⟨read, hread, hne, ?_⟩
    split
    · exact .none _
    · exact hspread
  · cases h

/-! ## Tokens -/

/-- A token other than a string with parts. -/
theorem plain_at {α : Type} {r : Rule Char α} [hr : Consumes r] {f : α → Token}
    (hf : ∀ a, (f a).parts = []) :
    Ensures (do let a ← r; pure (f a) : Rule Char Token) fun read _ t => TokenAt read t := by
  refine (hr.ensures.bind fun _ => .pure _).mono ?_
  rintro read rest t ⟨xs, _, a, rfl, hxs, rfl, rfl⟩
  refine ⟨by simpa using hxs, ?_⟩
  rw [hf a]
  exact .none _

theorem spelled_at {text : String} {t : Token} (htext : text.toList ≠ []) (ht : t.parts = []) :
    Ensures (spelled text t) fun read _ t => TokenAt read t := by
  have := Consumes.justAll htext
  exact plain_at fun _ => ht

theorem brokenString_at : Ensures brokenString fun read _ t => TokenAt read t := by
  have hline : Consumes (spanned (recognized do
      let _ ← oneOf ['"', '\'']
      many (noneOf ['\n']))) := inferInstance
  refine (hline.ensures.bind fun x => (Ensures.complain _ _).bind fun _ => .pure _).mono ?_
  rintro read rest t ⟨xs, _, x, rfl, hxs, _, _, _, rfl, rfl, rfl, rfl⟩
  exact ⟨by simpa using hxs, .none _⟩

instance : Consumes digits := by
  unfold digits
  infer_instance

theorem ofDecimal_parts (text : List Char) : (ofDecimal text).parts = [] := by
  unfold ofDecimal
  split
  · rfl
  · split <;> rfl

theorem sign_at : Ensures sign fun read _ t => TokenAt read t := by
  unfold sign
  repeat' first
    | exact .choice_nil
    | apply Ensures.choice_cons
    | exact spelled_at (by decide) rfl

theorem token_at : Ensures token fun read _ t => TokenAt read t := by
  refine .choice_cons (spelled_at (by decide) rfl) (.choice_cons (plain_at fun _ => rfl)
    (.choice_cons string_at (.choice_cons brokenString_at (.choice_cons (plain_at fun _ => rfl)
    (.choice_cons (plain_at ofDecimal_parts) (.choice_cons (spelled_at (by decide) rfl)
    (.choice_cons (plain_at fun _ => rfl) (.choice_cons sign_at .choice_nil))))))))

instance : Tame padding := by
  unfold padding
  dsimp only
  infer_instance

/-- What a token with its place is read from. -/
def PlacedAt (read : List (Spanned Char)) (t : Spanned Token) : Prop :=
  TokenAt read t.val ∧ t.span = cover read

/-- The tokens of a text come from separate stretches of it; `Q` holds of each token and its
stretch. -/
theorem tokens_spread {Q : List (Spanned Char) → Token → Prop}
    (htoken : Ensures token fun read _ t => read ≠ [] ∧ Q read t) :
    Ensures tokens fun read _ ts =>
      Spread 0 (fun m (t : Spanned Token) => (m ≠ [] ∧ Q m t.val) ∧ t.span = cover m) read ts := by
  have hpad : Tame padding := inferInstance
  have hone : Ensures (orSkip do
      let t ← spanned token
      padding
      pure t) fun read _ t =>
        ∃ pre m post, read = pre ++ m ++ post ∧ (m ≠ [] ∧ Q m t.val) ∧ t.span = cover m := by
    refine (htoken.spanned.bind fun _ => hpad.ensures.bind fun _ => .pure _).orSkip.mono ?_
    rintro read rest t ⟨skip, _, rfl, m, _, t', rfl, ⟨hm, hspan⟩, pad, _, _, rfl, -, rfl, rfl⟩
    exact ⟨skip, m, pad, by simp, hm, hspan hm.1⟩
  refine (hpad.ensures.bind fun _ => hone.many).mono ?_
  rintro read rest ts ⟨pad, xs, _, rfl, -, hts⟩
  refine Spread.skipAll ?_ pad
  induction hts with
  | nil => exact .none _
  | @cons _ ys rest t ts ht _ ih =>
    obtain ⟨pre, m, post, rfl, hm⟩ := ht
    rw [List.append_assoc, List.append_assoc]
    refine Spread.skipAll ?_ pre
    rw [← List.append_assoc]
    exact .cons hm (Nat.zero_le _) ih

theorem tokens_at : Ensures tokens fun read _ ts => Spread 0 PlacedAt read ts :=
  tokens_spread token_at

theorem dropIdleNewlines_sublist (ended : Bool) (ts : List (Spanned Token)) :
    (dropIdleNewlines ended ts).Sublist ts := by
  induction ts generalizing ended with
  | nil => exact .refl _
  | cons t ts ih =>
    unfold dropIdleNewlines
    split
    · exact (ih _).cons _
    · exact (ih _).cons_cons _

/-- Before idle newlines are dropped. -/
theorem tokenize_spread (file : FileId) (offset : Nat) (text : List Char) :
    ∃ ts, Spread 0 PlacedAt (characters file offset text) ts ∧
      (tokenize file offset text).1.Sublist ts := by
  unfold tokenize
  dsimp only
  generalize ho : (run (fun c => String.ofList [c]) tokens (characters file offset text) _).1 = o
  cases o with
  | none => exact ⟨[], .none _, dropIdleNewlines_sublist _ _⟩
  | some ts => exact ⟨ts, tokens_at.run ho, dropIdleNewlines_sublist _ _⟩

/-- The parts of a string lie in it, apart from each other. -/
structure Parted (span : Span) (ps : List Span) : Prop where
  inside : ∀ p ∈ ps, p ⊆ span ∧ p.start ≤ p.stop
  apart : ps.Pairwise fun p q => p.stop < q.start

/-- Tokens of one file in order, with the parts of strings in their places. -/
structure Lined (F : FileId) (ts : List (Spanned Token)) : Prop extends InOrder F ts where
  parts : ∀ t ∈ ts, Parted t.span t.val.parts

theorem Lined.sublist {F : FileId} {ts us : List (Spanned Token)} (h : Lined F ts)
    (hs : us.Sublist ts) : Lined F us :=
  ⟨h.toInOrder.sublist hs, fun t ht => h.parts t (hs.subset ht)⟩

theorem PartAt.ne_nil {read : List (Spanned Char)} {p : Span} (h : PartAt read p) : read ≠ [] := by
  obtain ⟨x, y, body, z, rfl, -⟩ := h
  simp

/-- The parts of a token lie in it, apart from each other. -/
theorem TokenAt.parted {F : FileId} {read : List (Spanned Char)} {t : Token} (h : TokenAt read t)
    (hF : InOrder F read) (hc : Contiguous read) : Parted (cover read) t.parts := by
  refine ⟨fun p hp => ?_, h.2.pairwise fun pre m g m' post p q hl _ hm hm' => ?_⟩
  · obtain ⟨pre, m, post, rfl, hm⟩ := h.2.mem hp
    obtain ⟨hf, h₁, h₂, h₃⟩ := hm.inside hF.left.right hc.left_of_append.right_of_append
    obtain ⟨hsf, hs₁, hs₂⟩ := hF.cover_subset (m := m) (by simp +contextual) hm.ne_nil
    refine ⟨⟨?_, ?_, ?_⟩, h₂⟩
    · rw [hf]
      exact hF.cover_file h.1
    · omega
    · omega
  · subst hl
    have hF' := hF.left.right
    have hc' : Contiguous (m ++ g ++ m') := hc.left_of_append.right_of_append
    have h₁ := hm.inside hF'.left.left hc'.left_of_append.left_of_append
    have h₂ := hm'.inside hF'.right hc'.right_of_append
    have h₃ := hF'.cover_add_le hm.ne_nil hm'.ne_nil
    omega

/-- Tokens from separate stretches of contiguous characters are not empty and come in order; the parts
of strings lie in them. -/
theorem lined_of_spread {F : FileId} {l : List (Spanned Char)} {ts : List (Spanned Token)}
    (h : Spread 0 PlacedAt l ts) (hF : InOrder F l) (hc : Contiguous l) : Lined F ts := by
  refine ⟨⟨fun t ht => ?_, fun t ht => ?_, ?_⟩, fun t ht => ?_⟩
  · obtain ⟨pre, m, post, rfl, hm⟩ := h.mem ht
    rw [hm.2]
    exact hF.left.right.cover_file hm.1.1
  · obtain ⟨pre, m, post, rfl, hm⟩ := h.mem ht
    rw [hm.2]
    exact hF.left.right.cover_start_le_stop hm.1.1
  · refine h.pairwise fun pre m g m' post t t' hl _ hm hm' => ?_
    rw [hl] at hF
    have := hF.left.right.cover_add_le hm.1.1 hm'.1.1
    rw [hm.2, hm'.2]
    omega
  · obtain ⟨pre, m, post, rfl, hm⟩ := h.mem ht
    rw [hm.2]
    exact hm.1.parted hF.left.right hc.left_of_append.right_of_append

/-- The tokens of a text are not empty and come in order; the parts of strings lie in them. -/
theorem tokenize_lined (file : FileId) (offset : Nat) (text : List Char) :
    Lined file (tokenize file offset text).1 := by
  obtain ⟨ts, hts, hsub⟩ := tokenize_spread file offset text
  exact (lined_of_spread hts (characters_inOrder _ _ _) (characters_contiguous _ _ _)).sublist hsub

/-- The tokens of a text lie in it. -/
theorem tokenize_within {file : FileId} {offset : Nat} {text : List Char} {t : Spanned Token}
    (ht : t ∈ (tokenize file offset text).1) :
    offset ≤ t.span.start ∧ t.span.stop ≤ offset + Text.byteLength text := by
  obtain ⟨ts, hts, hsub⟩ := tokenize_spread file offset text
  obtain ⟨pre, m, post, hl, hm⟩ := hts.mem (hsub.subset ht)
  have hmem : ∀ x ∈ m, x ∈ characters file offset text := fun x hx => by simp [hl, hx]
  obtain ⟨x, hx, hstart, -⟩ := exists_start hm.1.1
  obtain ⟨y, hy, hstop⟩ := exists_stop hm.1.1
  rw [hm.2, hstart, hstop]
  exact ⟨(characters_bounds (hmem x hx)).2.1, (characters_bounds (hmem y hy)).2.2.2⟩

end Token

end CueScope
