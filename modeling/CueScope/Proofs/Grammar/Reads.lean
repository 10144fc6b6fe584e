import CueScope.Grammar.Rule
import Mathlib.Data.List.Basic

/-!
# What rules read

A rule that succeeds has read a front part of the items that were left, whatever it tried before.

* `Rule.Ensures r Q`: where `r` succeeds, `Q` holds of the items it read, the items that are left
  and its value. There is one lemma for each way to build rules.
* `Rule.Tame`: nothing is said of the items and the value. Instances for all ways to build rules
  find this for every grammar.
* `Rule.Consumes`: at least one item is read.
* `Turns`: what a repetition reads.
-/

namespace CueScope.Grammar

variable {τ α β γ : Type}

/-- The state `t` comes after `s`, and `read` are the items between them. -/
structure Reads (s t : State τ) (read : List (Spanned τ)) : Prop where
  rest_eq : s.rest = read ++ t.rest
  last_eq : t.last = read.getLast?.elim s.last (·.span)

namespace Reads

variable {s t u : State τ} {xs ys : List (Spanned τ)}

theorem refl : Reads s s [] := ⟨rfl, rfl⟩

theorem trans (h : Reads s t xs) (h' : Reads t u ys) : Reads s u (xs ++ ys) := by
  refine ⟨by rw [h.rest_eq, h'.rest_eq, List.append_assoc], ?_⟩
  rw [h'.last_eq, h.last_eq, List.getLast?_append]
  cases ys.getLast? <;> rfl

/-- Only what is left and what was read last matters. -/
theorem congr {s' t' : State τ} (h : Reads s t xs) (hs : s'.rest = s.rest) (hsl : s'.last = s.last)
    (ht : t'.rest = t.rest) (htl : t'.last = t.last) : Reads s' t' xs :=
  ⟨by rw [hs, ht]; exact h.rest_eq, by rw [hsl, htl]; exact h.last_eq⟩

theorem left_le (h : Reads s t xs) : t.left ≤ s.left := by
  rw [s.left_eq, t.left_eq, h.rest_eq, List.length_append]
  exact Nat.le_add_left _ _

theorem left_lt (h : Reads s t xs) (hne : xs ≠ []) : t.left < s.left := by
  have hpos := List.length_pos_iff.2 hne
  rw [s.left_eq, t.left_eq, h.rest_eq, List.length_append]
  omega

/-- Going back gives the earlier state, as far as reading is concerned. -/
theorem of_back {v : State τ} (h : Reads (v.back s) t xs) : Reads s t xs :=
  h.congr rfl rfl rfl rfl

end Reads

/-- The range of items: from the start of the first to the end of the last. -/
def cover (l : List (Spanned τ)) : Span :=
  l.head?.elim default fun x => ⟨x.span.file, x.span.start, (l.getLast?.elim x.span (·.span)).stop⟩

/-- The span between two states is the range of the items read between them. -/
theorem Reads.spanTo_eq {s t : State τ} {read : List (Spanned τ)} (h : Reads s t read)
    (hne : read ≠ []) : s.spanTo t = cover read := by
  obtain ⟨y, ys, rfl⟩ := List.exists_cons_of_ne_nil hne
  simp only [State.spanTo, h.rest_eq, List.cons_append, h.last_eq, cover, List.head?_cons,
    Option.elim_some]
  rw [List.getLast?_cons]
  rfl

theorem Reads.readTo_eq {s t : State τ} {read : List (Spanned τ)} (h : Reads s t read) :
    s.readTo t = read.map (·.val) := by
  have hs := s.left_eq
  have ht := t.left_eq
  rw [h.rest_eq, List.length_append] at hs
  have hleft : s.left - t.left = read.length := by omega
  rw [State.readTo, hleft, h.rest_eq, List.take_left']
  rfl

namespace Rule

/-- Where `r` succeeds, `Q` holds of the items read, the items left and the value. -/
structure Ensures (r : Rule τ α) (Q : List (Spanned τ) → List (Spanned τ) → α → Prop) : Prop where
  ensures : ∀ {s : State τ} {a : α} {t : State τ}, r s = (some a, t) →
    ∃ read, Reads s t read ∧ Q read t.rest a

/-- Where `r` succeeds, it has read a front part of what was left. -/
class Tame (r : Rule τ α) : Prop where
  reads : ∀ {s : State τ} {a : α} {t : State τ}, r s = (some a, t) → ∃ read, Reads s t read

/-- Where `r` succeeds, it has read something. -/
class Consumes (r : Rule τ α) : Prop where
  reads : ∀ {s : State τ} {a : α} {t : State τ}, r s = (some a, t) →
    ∃ read, Reads s t read ∧ read ≠ []

variable {r : Rule τ α} {Q Q' : List (Spanned τ) → List (Spanned τ) → α → Prop}

theorem Ensures.mono (h : Ensures r Q) (hQ : ∀ {read rest a}, Q read rest a → Q' read rest a) :
    Ensures r Q' := by
  refine ⟨fun hr => ?_⟩
  obtain ⟨read, hread, hq⟩ := h.ensures hr
  exact ⟨read, hread, hQ hq⟩

/-- Two facts about what a rule reads are about the same items. -/
theorem Ensures.and (h : Ensures r Q) (h' : Ensures r Q') :
    Ensures r fun read rest a => Q read rest a ∧ Q' read rest a := by
  refine ⟨fun hr => ?_⟩
  obtain ⟨read, hread, hq⟩ := h.ensures hr
  obtain ⟨read', hread', hq'⟩ := h'.ensures hr
  obtain rfl := List.append_cancel_right (hread.rest_eq.symm.trans hread'.rest_eq)
  exact ⟨read, hread, hq, hq'⟩

theorem Tame.ensures (h : Tame r) : Ensures r fun _ _ _ => True :=
  ⟨fun hr => (h.reads hr).imp fun _ hread => ⟨hread, trivial⟩⟩

/-- After a rule that reads something, fewer items are left. -/
theorem Consumes.left_lt [h : Consumes r] {s t : State τ} {a : α} (hr : r s = (some a, t)) :
    t.left < s.left := by
  obtain ⟨read, hread, hne⟩ := h.reads hr
  exact hread.left_lt hne

theorem Consumes.ensures (h : Consumes r) : Ensures r fun read _ _ => read ≠ [] := ⟨h.reads⟩

theorem Ensures.tame (h : Ensures r Q) : Tame r :=
  ⟨fun hr => (h.ensures hr).imp fun _ hread => hread.1⟩

theorem Ensures.consumes (h : Ensures r fun read _ _ => read ≠ []) : Consumes r := ⟨h.ensures⟩

instance (priority := low) [h : Consumes r] : Tame r := h.ensures.tame

/-! ## Sequence -/

theorem lawfulMonad : LawfulMonad (Rule τ) := by
  refine .mk' _ (fun r => ?_) (fun _ _ => rfl) fun r f g => ?_
  · funext s
    change Rule.bind r (fun a => Pure.pure a) s = r s
    unfold Rule.bind
    cases r s with
    | mk o t => cases o <;> rfl
  · funext s
    change Rule.bind (Rule.bind r f) g s = Rule.bind r (fun a => Rule.bind (f a) g) s
    unfold Rule.bind
    cases r s with
    | mk o t => cases o <;> rfl

theorem Ensures.pure (a : α) : Ensures (pure a : Rule τ α) fun read _ b => read = [] ∧ b = a := by
  refine ⟨fun hr => ?_⟩
  cases hr
  exact ⟨[], .refl, rfl, rfl⟩

/-- What a sequence reads is what its rules read, one after the other. -/
theorem Ensures.bind {f : α → Rule τ β}
    {P : α → List (Spanned τ) → List (Spanned τ) → β → Prop}
    (hr : Ensures r Q) (hf : ∀ a, Ensures (f a) (P a)) :
    Ensures (r >>= f) fun read rest b =>
      ∃ xs ys a, read = xs ++ ys ∧ Q xs (ys ++ rest) a ∧ P a ys rest b := by
  refine ⟨fun {s b t} h => ?_⟩
  change Rule.bind r f s = (some b, t) at h
  unfold Rule.bind at h
  split at h
  · rename_i a u hu
    obtain ⟨xs, hxs, hq⟩ := hr.ensures hu
    obtain ⟨ys, hys, hp⟩ := (hf a).ensures h
    exact ⟨xs ++ ys, hxs.trans hys, xs, ys, a, rfl, hys.rest_eq ▸ hq, hp⟩
  · cases h

instance (a : α) : Tame (pure a : Rule τ α) := (Ensures.pure a).tame

instance {f : α → Rule τ β} [hr : Tame r] [hf : ∀ a, Tame (f a)] : Tame (r >>= f) :=
  (hr.ensures.bind fun a => (hf a).ensures).tame

instance {f : α → Rule τ β} [hr : Consumes r] [hf : ∀ a, Tame (f a)] : Consumes (r >>= f) := by
  refine ((hr.ensures.bind fun a => (hf a).ensures).mono ?_).consumes
  rintro read rest b ⟨xs, ys, a, rfl, hxs, -⟩
  simp [hxs]

instance {f : α → Rule τ β} [hr : Tame r] [hf : ∀ a, Consumes (f a)] : Consumes (r >>= f) := by
  refine ((hr.ensures.bind fun a => (hf a).ensures).mono ?_).consumes
  rintro read rest b ⟨xs, ys, a, rfl, -, hys⟩
  simp [hys]

instance {p : Prop} [Decidable p] {r' : Rule τ α} [h : Tame r] [h' : Tame r'] :
    Tame (if p then r else r') := by
  split
  · exact h
  · exact h'

/-! ## Single items -/

section items

variable [DecidableEq τ]

theorem item_of_nil {f : τ → Option α} {expected : List (Expectation τ)} {s : State τ}
    (hs : s.rest = []) : Rule.item expected f s = (none, s.fail s.finish none expected) := by
  unfold Rule.item
  split
  · rfl
  · rename_i h
    rw [hs] at h
    cases h

/-- An item is taken from the front or refused. -/
theorem item_of_cons {f : τ → Option α} {expected : List (Expectation τ)} {s : State τ}
    {x : Spanned τ} {xs : List (Spanned τ)} (hs : s.rest = x :: xs) :
    Rule.item expected f s = match f x.val with
      | some a => (some a, s.advance x xs hs)
      | none => (none, s.fail x.span (some x.val) expected) := by
  unfold Rule.item
  split
  · rename_i h
    rw [hs] at h
    cases h
  · rename_i y ys h
    obtain ⟨rfl, rfl⟩ := List.cons.inj (hs.symm.trans h)
    rfl

theorem Ensures.item (expected : List (Expectation τ)) (f : τ → Option α) :
    Ensures (item expected f) fun read _ a => ∃ x, read = [x] ∧ f x.val = some a := by
  refine ⟨fun {s a t} h => ?_⟩
  unfold Rule.item at h
  split at h
  · cases h
  · rename_i x xs hs
    split at h
    · rename_i b hb
      cases h
      exact ⟨[x], ⟨hs, rfl⟩, x, rfl, hb⟩
    · cases h

theorem Ensures.just (t : τ) :
    Ensures (just t) fun read _ _ => ∃ x, read = [x] ∧ x.val = t := by
  refine (Ensures.item _ _).mono ?_
  rintro read rest a ⟨x, hx, h⟩
  refine ⟨x, hx, ?_⟩
  by_contra hne
  simp [hne] at h

theorem Ensures.oneOf (ts : List τ) :
    Ensures (oneOf ts) fun read _ _ => ∃ x, read = [x] ∧ x.val ∈ ts := by
  refine (Ensures.item _ _).mono ?_
  rintro read rest a ⟨x, hx, h⟩
  refine ⟨x, hx, ?_⟩
  by_contra hne
  simp [hne] at h

theorem Ensures.noneOf (ts : List τ) :
    Ensures (noneOf ts) fun read _ _ => ∃ x, read = [x] ∧ x.val ∉ ts := by
  refine (Ensures.item _ _).mono ?_
  rintro read rest a ⟨x, hx, h⟩
  refine ⟨x, hx, fun hmem => ?_⟩
  simp [hmem] at h

theorem Ensures.select (f : τ → Option α) :
    Ensures (select f) fun read _ a => ∃ x, read = [x] ∧ f x.val = some a :=
  Ensures.item _ f

instance (expected : List (Expectation τ)) (f : τ → Option α) : Consumes (item expected f) := by
  refine ((Ensures.item expected f).mono ?_).consumes
  rintro read rest a ⟨x, rfl, -⟩
  simp

instance (t : τ) : Consumes (just t) := inferInstanceAs (Consumes (item _ _))

instance (ts : List τ) : Consumes (oneOf ts) := inferInstanceAs (Consumes (item _ _))

instance (ts : List τ) : Consumes (noneOf ts) := inferInstanceAs (Consumes (item _ _))

instance (f : τ → Option α) : Consumes (select f) := inferInstanceAs (Consumes (item _ _))

instance : Consumes (anyItem : Rule τ τ) := inferInstanceAs (Consumes (item _ _))

instance (p : τ → Bool) : Consumes (satisfy p) := by
  refine ⟨fun {s a t} h => ?_⟩
  unfold satisfy at h
  split at h
  · rename_i x u hu
    split at h
    · cases h
      exact Consumes.reads hu
    · cases h
  · cases h

theorem Ensures.endOfInput :
    Ensures (endOfInput : Rule τ Unit) fun read rest _ => read = [] ∧ rest = [] := by
  refine ⟨fun {s a t} h => ?_⟩
  unfold Rule.endOfInput at h
  split at h
  · rename_i hs
    cases h
    exact ⟨[], .refl, rfl, hs⟩
  · cases h

instance : Tame (endOfInput : Rule τ Unit) := Ensures.endOfInput.tame

theorem Ensures.justAll (ts : List τ) :
    Ensures (justAll ts) fun read _ _ => read.map (·.val) = ts := by
  induction ts with
  | nil => exact (Ensures.pure ()).mono fun h => by rw [h.1]; rfl
  | cons t ts ih =>
    refine ((Ensures.just t).bind fun _ => ih).mono ?_
    rintro read rest _ ⟨_, ys, _, rfl, ⟨x, rfl, rfl⟩, rfl⟩
    rfl

instance (ts : List τ) : Tame (justAll ts) := (Ensures.justAll ts).tame

theorem Consumes.justAll {ts : List τ} (h : ts ≠ []) : Consumes (justAll ts) := by
  refine ((Ensures.justAll ts).mono ?_).consumes
  rintro read rest _ rfl rfl
  exact h rfl

instance (t : τ) (ts : List τ) : Consumes (justAll (t :: ts)) := .justAll (by simp)

end items

/-! ## Alternatives and looking ahead -/

theorem Ensures.choice_nil : Ensures (choice [] : Rule τ α) Q := ⟨fun h => by cases h⟩

theorem Ensures.choice_cons {rs : List (Rule τ α)} (h : Ensures r Q)
    (hs : Ensures (choice rs) Q) : Ensures (choice (r :: rs)) Q := by
  refine ⟨fun {s a t} hr => ?_⟩
  unfold Rule.choice at hr
  split at hr
  · rename_i hu
    cases hr
    exact h.ensures hu
  · obtain ⟨read, hread, hq⟩ := hs.ensures hr
    exact ⟨read, hread.of_back, hq⟩

instance : Consumes (choice [] : Rule τ α) := Ensures.choice_nil.consumes

instance {rs : List (Rule τ α)} [h : Consumes r] [hs : Consumes (choice rs)] :
    Consumes (choice (r :: rs)) := (h.ensures.choice_cons hs.ensures).consumes

instance {rs : List (Rule τ α)} [h : Tame r] [hs : Tame (choice rs)] : Tame (choice (r :: rs)) :=
  (h.ensures.choice_cons hs.ensures).tame

theorem Tame.choice_map {f : β → Rule τ α} (hf : ∀ b, Tame (f b)) (bs : List β)
    {rs : List (Rule τ α)} (hs : Tame (choice rs)) : Tame (choice (bs.map f ++ rs)) := by
  induction bs with
  | nil => exact hs
  | cons b bs ih => exact inferInstanceAs (Tame (choice (f b :: (bs.map f ++ rs))))

/-- Either nothing is read or what the rule reads. -/
theorem Ensures.maybe (h : Ensures r Q) : Ensures (maybe r) fun read rest o =>
    (read = [] ∧ o = none) ∨ ∃ a, o = some a ∧ Q read rest a := by
  refine ⟨fun {s o t} hr => ?_⟩
  unfold Rule.maybe at hr
  split at hr
  · rename_i a u hu
    cases hr
    obtain ⟨read, hread, hq⟩ := h.ensures hu
    exact ⟨read, hread, .inr ⟨a, rfl, hq⟩⟩
  · cases hr
    exact ⟨[], ⟨rfl, rfl⟩, .inl ⟨rfl, rfl⟩⟩

instance [h : Tame r] : Tame (maybe r) := h.ensures.maybe.tame

theorem Ensures.ahead (h : Ensures r Q) : Ensures (ahead r) fun read rest a =>
    read = [] ∧ ∃ xs ys, rest = xs ++ ys ∧ Q xs ys a := by
  refine ⟨fun {s a t} hr => ?_⟩
  unfold Rule.ahead at hr
  split at hr
  · rename_i b u hu
    cases hr
    obtain ⟨xs, hxs, hq⟩ := h.ensures hu
    exact ⟨[], ⟨rfl, rfl⟩, rfl, xs, u.rest, hxs.rest_eq, hq⟩
  · cases hr

instance [h : Tame r] : Tame (ahead r) := h.ensures.ahead.tame

instance [DecidableEq τ] : Tame (notAhead r) := by
  refine ⟨fun {s a t} hr => ?_⟩
  unfold notAhead at hr
  split at hr
  · cases hr
    exact ⟨[], rfl, rfl⟩
  · dsimp only at hr
    split at hr <;> cases hr

theorem Ensures.andIs {r' : Rule τ β} (h : Ensures r Q) : Ensures (andIs r r') Q := by
  refine ⟨fun {s a t} hr => ?_⟩
  unfold Rule.andIs at hr
  split at hr
  · cases hr
  · rename_i x u hu
    split at hr
    · cases hr
      obtain ⟨read, hread, hq⟩ := h.ensures hu
      exact ⟨read, hread.congr rfl rfl rfl rfl, hq⟩
    · cases hr

instance {r' : Rule τ β} [h : Consumes r] : Consumes (andIs r r') := h.ensures.andIs.consumes

/-! ## Repetition and recursion -/

/-- `Turns Q read rest as`: the items `read` are those of turns whose values are `as`, one after the
other. -/
inductive Turns (Q : List (Spanned τ) → List (Spanned τ) → α → Prop) :
    List (Spanned τ) → List (Spanned τ) → List α → Prop
  | nil {rest} : Turns Q [] rest []
  | cons {xs ys rest a as} : Q xs (ys ++ rest) a → Turns Q ys rest as →
      Turns Q (xs ++ ys) rest (a :: as)

/-- If every turn reads something, there are at most as many as items are read. -/
theorem Turns.length_le {read rest : List (Spanned τ)} {as : List α} (h : Turns Q read rest as)
    (hQ : ∀ {read rest a}, Q read rest a → read ≠ []) : as.length ≤ read.length := by
  induction h with
  | nil => exact Nat.zero_le _
  | cons hq _ ih =>
    have hpos := List.length_pos_iff.2 (hQ hq)
    rw [List.length_cons, List.length_append]
    omega

/-- By induction on the fuel, what is read are turns. -/
theorem upTo_turns (h : Ensures r Q) (n : Nat) (s : State τ) :
    ∃ read, Reads s (upTo r n s).2 read ∧ Turns Q read (upTo r n s).2.rest (upTo r n s).1 := by
  induction n generalizing s with
  | zero => exact ⟨[], .refl, .nil⟩
  | succ n ih =>
    unfold upTo
    split
    · rename_i a t ht
      obtain ⟨xs, hxs, hq⟩ := h.ensures ht
      obtain ⟨ys, hys, hturns⟩ := ih t
      exact ⟨xs ++ ys, hxs.trans hys, .cons (hys.rest_eq ▸ hq) hturns⟩
    · exact ⟨[], ⟨rfl, rfl⟩, .nil⟩

theorem Ensures.many (h : Ensures r Q) : Ensures (many r) (Turns Q) := by
  refine ⟨fun {s as t} hr => ?_⟩
  cases hr
  exact upTo_turns h (s.left + 1) s

theorem Ensures.many1 (h : Ensures r Q) : Ensures (many1 r) fun read rest as =>
    ∃ xs ys b bs, read = xs ++ ys ∧ as = b :: bs ∧ Q xs (ys ++ rest) b ∧ Turns Q ys rest bs := by
  refine ⟨fun {s as t} hr => ?_⟩
  unfold Rule.many1 at hr
  split at hr
  · rename_i a u hu
    cases hr
    obtain ⟨xs, hxs, hq⟩ := h.ensures hu
    obtain ⟨ys, hys, hturns⟩ := upTo_turns h (s.left + 1) u
    exact ⟨xs ++ ys, hxs.trans hys, xs, ys, a, _, rfl, rfl, hys.rest_eq ▸ hq, hturns⟩
  · cases hr

instance [h : Tame r] : Tame (many r) := h.ensures.many.tame

instance Tame.skipMany [h : Tame r] : Tame (skipMany r) :=
  inferInstanceAs (Tame (many r >>= fun _ => pure ()))

instance [h : Tame r] : Tame (many1 r) := h.ensures.many1.tame

instance [h : Consumes r] : Consumes (many1 r) := by
  refine (h.ensures.many1.mono ?_).consumes
  rintro read rest as ⟨xs, ys, b, bs, rfl, -, hxs, -⟩
  simp [hxs]

theorem Ensures.recursive {f : Rule τ α → Rule τ α} (h : ∀ r, Ensures r Q → Ensures (f r) Q) :
    Ensures (recursive f) Q := by
  have hn : ∀ n, Ensures (unfold f n) Q := by
    intro n
    induction n with
    | zero => exact ⟨fun hr => by cases hr⟩
    | succ n ih => exact h _ ih
  exact ⟨fun hr => (hn _).ensures hr⟩

theorem Tame.recursive {f : Rule τ α → Rule τ α} (h : ∀ r, Tame r → Tame (f r)) :
    Tame (recursive f) :=
  (Ensures.recursive (Q := fun _ _ _ => True) fun r hr => (h r hr.tame).ensures).tame

theorem Consumes.recursive {f : Rule τ α → Rule τ α} (h : ∀ r, Consumes r → Consumes (f r)) :
    Consumes (recursive f) :=
  (Ensures.recursive fun r hr => (h r hr.consumes).ensures).consumes

/-- `Separated Q S read rest as`: the items `read` are those of turns, each a separator that `S`
holds of and then a value of `as`. A separator may trail. -/
inductive Separated (Q : List (Spanned τ) → List (Spanned τ) → α → Prop)
    (S : List (Spanned τ) → Prop) : List (Spanned τ) → List (Spanned τ) → List α → Prop
  | nil {rest} : Separated Q S [] rest []
  | trailing {xs rest} : S xs → Separated Q S xs rest []
  | cons {xs ys zs rest a as} : S xs → Q ys (zs ++ rest) a → Separated Q S zs rest as →
      Separated Q S (xs ++ ys ++ zs) rest (a :: as)

/-- By induction on the fuel, what is read are separators and items in turn. -/
theorem sepUpTo_separated {sep : Rule τ β} {S : List (Spanned τ) → Prop} (h : Ensures r Q)
    (hsep : Ensures sep fun read _ _ => S read) (n : Nat) (s : State τ) :
    ∃ read, Reads s (sepUpTo r sep n s).2 read ∧
      Separated Q S read (sepUpTo r sep n s).2.rest (sepUpTo r sep n s).1 := by
  induction n generalizing s with
  | zero => exact ⟨[], .refl, .nil⟩
  | succ n ih =>
    unfold sepUpTo
    split
    · exact ⟨[], ⟨rfl, rfl⟩, .nil⟩
    · rename_i b t ht
      obtain ⟨xs, hxs, hs⟩ := hsep.ensures ht
      split
      · rename_i a u hu
        obtain ⟨ys, hys, hq⟩ := h.ensures hu
        obtain ⟨zs, hzs, hsepd⟩ := ih u
        exact ⟨xs ++ ys ++ zs, (hxs.trans hys).trans hzs, .cons hs (hzs.rest_eq ▸ hq) hsepd⟩
      · exact ⟨xs, hxs.congr rfl rfl rfl rfl, .trailing hs⟩

/-- Items with separators between them, in front of them or after them. -/
theorem Ensures.sepBy {sep : Rule τ β} {S : List (Spanned τ) → Prop} (h : Ensures r Q)
    (hsep : Ensures sep fun read _ _ => S read) : Ensures (sepBy r sep) fun read rest as =>
      ∃ lead tail, read = lead ++ tail ∧ (as = [] ∨ ∃ xs ys b bs, tail = xs ++ ys ∧ as = b :: bs ∧
        Q xs (ys ++ rest) b ∧ Separated Q S ys rest bs) := by
  refine ⟨fun {s as t} hr => ?_⟩
  obtain ⟨lead, hlead⟩ : ∃ lead, Reads s (Rule.maybe sep s).2 lead := by
    unfold Rule.maybe
    split
    · rename_i b u hu
      exact (hsep.ensures hu).imp fun _ hx => hx.1
    · exact ⟨[], rfl, rfl⟩
  unfold Rule.sepBy at hr
  dsimp only at hr
  split at hr
  · cases hr
    exact ⟨lead, hlead.congr rfl rfl rfl rfl, lead, [], by simp, .inl rfl⟩
  · rename_i a u hu
    cases hr
    obtain ⟨xs, hxs, hq⟩ := h.ensures hu
    obtain ⟨ys, hys, hsepd⟩ := sepUpTo_separated h hsep (s.left + 1) u
    refine ⟨lead ++ (xs ++ ys), hlead.trans (hxs.trans hys), lead, xs ++ ys, rfl, .inr ?_⟩
    exact ⟨xs, ys, a, _, rfl, rfl, hys.rest_eq ▸ hq, hsepd⟩

instance {sep : Rule τ β} [h : Tame r] [hs : Tame sep] : Tame (sepBy r sep) :=
  (h.ensures.sepBy (S := fun _ => True) hs.ensures).tame

theorem Ensures.between {l : Rule τ β} {r' : Rule τ γ}
    {L : List (Spanned τ) → List (Spanned τ) → β → Prop}
    {R : List (Spanned τ) → List (Spanned τ) → γ → Prop} (hl : Ensures l L) (h : Ensures r Q)
    (hr : Ensures r' R) : Ensures (between l r r') fun read rest a =>
      ∃ xs ys zs b c, read = xs ++ ys ++ zs ∧ L xs (ys ++ zs ++ rest) b ∧ Q ys (zs ++ rest) a ∧
        R zs rest c := by
  refine (hl.bind fun _ => h.bind fun _ => hr.bind fun _ => .pure _).mono ?_
  rintro read rest a ⟨xs, _, b, rfl, hb, ys, _, a', rfl, ha, zs, _, c, rfl, hc, rfl, rfl⟩
  exact ⟨xs, ys, zs, b, c, by simp, by simpa using hb, by simpa using ha, by simpa using hc⟩

instance {l : Rule τ β} {r' : Rule τ γ} [Consumes l] [Tame r] [Tame r'] :
    Consumes (between l r r') :=
  inferInstanceAs (Consumes (l >>= fun _ => r >>= fun a => r' >>= fun _ => pure a))

instance {pad : Rule τ β} [Tame pad] [Tame r] : Tame (padded pad r) :=
  inferInstanceAs (Tame (pad >>= fun _ => r >>= fun a => pad >>= fun _ => pure a))

/-! ## Places and errors -/

theorem Ensures.spanned (h : Ensures r Q) : Ensures (spanned r) fun read rest x =>
    Q read rest x.val ∧ (read ≠ [] → x.span = cover read) := by
  refine ⟨fun {s x t} hr => ?_⟩
  unfold Rule.spanned at hr
  split at hr
  · rename_i a u hu
    cases hr
    obtain ⟨read, hread, hq⟩ := h.ensures hu
    exact ⟨read, hread, hq, hread.spanTo_eq⟩
  · cases hr

instance [h : Tame r] : Tame (spanned r) := h.ensures.spanned.tame

instance [h : Consumes r] : Consumes (spanned r) :=
  (h.ensures.spanned.mono fun hq => hq.1).consumes

theorem Ensures.recognized (h : Ensures r Q) :
    Ensures (recognized r) fun read rest _ => ∃ a, Q read rest a := by
  refine ⟨fun {s x t} hr => ?_⟩
  unfold Rule.recognized at hr
  split at hr
  · rename_i a u hu
    cases hr
    obtain ⟨read, hread, hq⟩ := h.ensures hu
    exact ⟨read, hread, a, hq⟩
  · cases hr

/-- The value is the items that were read. -/
theorem Ensures.recognized_eq (h : Tame r) :
    Ensures (Rule.recognized r) fun read _ text => text = read.map (·.val) := by
  refine ⟨fun {s x t} hr => ?_⟩
  unfold Rule.recognized at hr
  split at hr
  · rename_i a u hu
    cases hr
    obtain ⟨read, hread⟩ := h.reads hu
    exact ⟨read, hread, hread.readTo_eq⟩
  · cases hr

instance [h : Consumes r] : Consumes (recognized r) :=
  (h.ensures.recognized.mono fun ⟨_, hq⟩ => hq).consumes

instance (errors : List SyntaxError) : Tame (putAside errors : Rule τ Unit) :=
  ⟨fun hr => by cases hr; exact ⟨[], rfl, rfl⟩⟩

instance (span : Span) (reason : Complaint) : Tame (complain span reason : Rule τ Unit) :=
  ⟨fun hr => by cases hr; exact ⟨[], rfl, rfl⟩⟩

theorem Ensures.putAside (errors : List SyntaxError) :
    Ensures (putAside errors : Rule τ Unit) fun read _ _ => read = [] :=
  ⟨fun hr => by cases hr; exact ⟨[], ⟨rfl, rfl⟩, rfl⟩⟩

theorem Ensures.complain (span : Span) (reason : Complaint) :
    Ensures (complain span reason : Rule τ Unit) fun read _ _ => read = [] :=
  ⟨fun hr => by cases hr; exact ⟨[], ⟨rfl, rfl⟩, rfl⟩⟩

/-! ## Recovery -/

/-- A rule with a recovery reads what one of the two does. -/
theorem Ensures.orRecover {other : Rule τ α} (h : Ensures r Q) (ho : Ensures other Q) :
    Ensures (orRecover r other) Q := by
  refine ⟨fun {s a t} hr => ?_⟩
  unfold Rule.orRecover at hr
  split at hr
  · rename_i hu
    cases hr
    exact h.ensures hu
  · split at hr
    · rename_i hu
      cases hr
      obtain ⟨read, hread, hq⟩ := ho.ensures hu
      exact ⟨read, hread.congr rfl rfl rfl rfl, hq⟩
    · cases hr

instance {other : Rule τ α} [h : Tame r] [ho : Tame other] : Tame (orRecover r other) :=
  (h.ensures.orRecover ho.ensures).tame

instance {other : Rule τ α} [h : Consumes r] [ho : Consumes other] : Consumes (orRecover r other) :=
  (h.ensures.orRecover ho.ensures).consumes

/-- By induction on the number of attempts: some items are skipped, and then the rule reads. -/
theorem retry_reads [DecidableEq τ] (h : Ensures r Q) (n : Nat) {s t : State τ} {a : α}
    (hr : retry r n s = (some a, t)) :
    ∃ skip read, Reads s t (skip ++ read) ∧ Q read t.rest a := by
  induction n generalizing s with
  | zero => cases hr
  | succ n ih =>
    unfold retry at hr
    split at hr
    · cases hr
    · split at hr
      · cases hr
      · rename_i x u hu
        obtain ⟨xs, hxs, -⟩ := Consumes.reads hu
        have hagain : ∀ {v : State τ}, retry r n { v.back u with pending := none } = (some a, t) →
            ∃ skip read, Reads s t (skip ++ read) ∧ Q read t.rest a := by
          intro v hv
          obtain ⟨skip, read, hread, hq⟩ := ih hv
          refine ⟨xs ++ skip, read, ?_, hq⟩
          rw [List.append_assoc]
          exact hxs.of_back.trans (hread.congr rfl rfl rfl rfl)
        split at hr
        · rename_i hv
          split at hr
          · cases hr
            obtain ⟨read, hread, hq⟩ := h.ensures hv
            exact ⟨xs, read, hxs.of_back.trans hread, hq⟩
          · exact hagain hr
        · exact hagain hr

/-- Some items may be skipped before the rule reads. -/
theorem Ensures.orSkip [DecidableEq τ] (h : Ensures r Q) : Ensures (orSkip r) fun read rest a =>
    ∃ skip xs, read = skip ++ xs ∧ Q xs rest a := by
  refine ⟨fun {s a t} hr => ?_⟩
  unfold Rule.orSkip at hr
  split at hr
  · rename_i hu
    cases hr
    obtain ⟨read, hread, hq⟩ := h.ensures hu
    exact ⟨read, hread, [], read, rfl, hq⟩
  · split at hr
    · rename_i hu
      cases hr
      obtain ⟨skip, read, hread, hq⟩ := retry_reads h _ hu
      exact ⟨skip ++ read, hread.congr rfl rfl rfl rfl, skip, read, rfl, hq⟩
    · cases hr

/-! ## Whole inputs -/

section run

variable [DecidableEq τ] {name : τ → String} {items : List (Spanned τ)} {finish : Span}

/-- The rule, and then the end of the input. -/
def whole (r : Rule τ α) : Rule τ α := do
  let a ← r
  Rule.endOfInput
  Pure.pure a

theorem run_fst : (run name r items finish).1 = (whole r (State.start items finish)).1 := by
  unfold Rule.run whole
  dsimp only
  split <;> rename_i h <;> rw [h]

/-- The errors of a whole input: the faults, the furthest failure if there is no value, and what was
read aside. -/
theorem run_snd : (run name r items finish).2 =
    let (o, t) := whole r (State.start items finish)
    (t.faults ++ if o.isSome then [] else [t.pendingFault]).map (Fault.toError name) ++ t.aside := by
  unfold Rule.run whole
  dsimp only
  split <;> rename_i h <;> simp [h]

theorem Ensures.whole (h : Ensures r Q) :
    Ensures (whole r) fun read rest a => rest = [] ∧ Q read [] a := by
  have hwhole := h.bind fun a => Ensures.endOfInput.bind fun _ => Ensures.pure a
  refine Ensures.mono hwhole ?_
  rintro read rest a ⟨xs, _, a', rfl, ha, ys, _, _, rfl, ⟨rfl, hrest⟩, rfl, rfl⟩
  simp only [List.append_nil, List.nil_append] at ha hrest ⊢
  subst hrest
  exact ⟨rfl, ha⟩

/-- A value of a whole input is one that the rule has when it reads all items. -/
theorem Ensures.run {a : α} (h : Ensures r Q) (hr : (run name r items finish).1 = some a) :
    Q items [] a := by
  rw [run_fst] at hr
  obtain ⟨read, hread, hrest, hq⟩ := h.whole.ensures (Prod.ext hr rfl)
  have hall : items = read := hread.rest_eq.trans (by rw [hrest, List.append_nil])
  exact hall ▸ hq

end run

end Rule

end CueScope.Grammar
