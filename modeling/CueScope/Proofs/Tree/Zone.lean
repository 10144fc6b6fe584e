import CueScope.Proofs.Tree.Steady

/-!
# Balanced tokens before different ends

Two inputs start with the same balanced tokens and go on differently. As long as a rule reads no more
than these tokens, it does not notice.

* `Zone`: the two ways to go on. Between brackets the same closing bracket is next on both sides;
  outside of brackets a separator or nothing is.
* `Alike n r r'`: in every zone, the rules behave alike before fewer than `n` tokens.
* `bracket_alike`: what stands in brackets is a zone of its own, with fewer tokens.
-/

namespace CueScope

namespace Tree

open Grammar Rule

/-! ## Zones -/

/-- What follows balanced tokens on two sides; `free` tells whether there may be separators among them
outside of brackets. -/
structure Zone where
  free : Bool
  left : List (Spanned Token)
  right : List (Spanned Token)

namespace Zone

/-- The same balanced tokens are left on both sides, and then the ends of the zone. -/
def tokens (z : Zone) : Pairing Token := fun k a b =>
  ∃ m, a = m ++ z.left ∧ b = m ++ z.right ∧ m.length = k ∧ Balanced z.free (m.map (·.val))

/-- Between brackets: the same closing bracket is next. -/
structure Inside (z : Zone) (c : Token) : Prop where
  free : z.free = true
  closing : IsClosing c
  next : ∃ y us us', z.left = y :: us ∧ z.right = y :: us' ∧ y.val = c

/-- Outside of brackets: a separator is next, if anything is. -/
structure Outside (z : Zone) : Prop where
  free : z.free = false
  left : ∀ x ∈ z.left.head?, IsSeparator x
  right : ∀ x ∈ z.right.head?, IsSeparator x

/-- One of the two. -/
def Fits (z : Zone) : Prop := z.Outside ∨ ∃ c, z.Inside c

variable {z : Zone} {c : Token}

theorem Inside.fits (h : z.Inside c) : z.Fits := .inr ⟨c, h⟩

theorem exact_tokens (z : Zone) : z.tokens.Exact := by
  rintro k a b ⟨m, rfl, rfl, rfl, -⟩
  rw [List.take_left' rfl, List.take_left' rfl]

theorem le_length (z : Zone) (k : Nat) (a b : List (Spanned Token)) (h : z.tokens k a b) :
    k ≤ a.length ∧ k ≤ b.length := by
  obtain ⟨m, rfl, rfl, rfl, -⟩ := h
  simp

/-- What is next at the end of a zone is a separator or a closing bracket. -/
theorem Fits.ends (h : z.Fits) {x : Spanned Token} (hx : x ∈ z.left.head? ∨ x ∈ z.right.head?) :
    IsClosing x.val ∨ (z.free = false ∧ IsSeparator x) := by
  rcases h with h | ⟨c, h⟩
  · exact .inr ⟨h.free, hx.elim (h.left x) (h.right x)⟩
  · obtain ⟨y, us, us', hl, hr, rfl⟩ := h.next
    rw [hl, hr] at hx
    obtain rfl : y = x := by simpa using hx
    exact .inl h.closing

/-- A rule for an item that is no bracket stays in the zone. -/
theorem Fits.admits {α : Type} {f : Token → Option α} (h : z.Fits)
    (hbracket : ∀ t, IsBracket t → f t = none)
    (hsep : z.free = false → ∀ t, t = .comma ∨ t = .newline → f t = none) : z.tokens.Admits f := by
  rintro k a b ⟨m, rfl, rfl, rfl, hm⟩
  cases m with
  | nil =>
    have hnone : ∀ l : List (Spanned Token), (∀ x ∈ l.head?, x ∈ z.left.head? ∨ x ∈ z.right.head?) →
        l.head?.bind (f ·.val) = none := by
      intro l hl
      cases l with
      | nil => rfl
      | cons x l =>
        rcases h.ends (hl x rfl) with hx | ⟨hfree, hx⟩
        · exact hbracket _ (isBracket_of_isClosing hx)
        · exact hsep hfree _ hx
    exact .inl ⟨hnone _ fun _ => .inl, hnone _ fun _ => .inr⟩
  | cons y m =>
    generalize hts : (y :: m).map (·.val) = ts at hm
    cases hm with
    | nil => cases hts
    | @cons _ t ts _ _ hm =>
      obtain ⟨-, rfl⟩ := List.cons.inj hts
      exact .inr ⟨y, y, _, _, rfl, rfl, rfl, Nat.succ_pos _, m, rfl, rfl, rfl, hm⟩
    | @group _ l i r ts hp =>
      obtain ⟨rfl, -⟩ := List.cons.inj hts
      have hy : f y.val = none := hbracket _ ⟨_, hp, .inl rfl⟩
      exact .inl ⟨hy, hy⟩

end Zone

/-- In every zone the rules behave alike before fewer than `n` tokens. -/
def Alike {α : Type} (n : Nat) (r r' : Rule Token α) : Prop :=
  ∀ z : Zone, z.Fits → Parallel (z.tokens.under n) Eq r r'

/-- So they do between brackets, before the closing bracket `c`. -/
def AlikeIn {α : Type} (c : Token) (n : Nat) (r r' : Rule Token α) : Prop :=
  ∀ z : Zone, z.Inside c → Parallel (z.tokens.under n) Eq r r'

variable {α β γ : Type} {n : Nat} {c : Token} {r r' : Rule Token α}

theorem Alike.inside (h : Alike n r r') : AlikeIn c n r r' := fun z hz => h z hz.fits

theorem Alike.le {m : Nat} (h : Alike n r r') (hm : m ≤ n) : Alike m r r' :=
  fun z hz => (h z hz).under_le hm

/-! ## Brackets -/

/-- Both sides fail, or both leave the zone behind its closing bracket. -/
inductive Leaves (z : Zone) (k : Nat) (s s' : State Token) :
    Option β × State Token → Option β × State Token → Prop
  | fail (t t' : State Token) : Leaves z k s s' (none, t) (none, t')
  | ok {b : β} {t t' : State Token} : Steps (k + 1) s t s' t' → t.rest = z.left.tail →
      t'.rest = z.right.tail → Leaves z k s s' (some b, t) (some b, t')

/-- Both sides take the same tokens of a zone. -/
theorem takes_outcome {z : Zone} {k : Nat} {r r' : Rule Token α} {s s' : State Token}
    {m m₂ : List (Spanned Token)} {V : α → α → Prop} {P P' : α → Prop} [Tame r] [Tame r']
    (hk : k < n) (hs : s.rest = m ++ (m₂ ++ z.left)) (hs' : s'.rest = m ++ (m₂ ++ z.right))
    (hlen : k = m.length + m₂.length) (hm₂ : Balanced z.free (m₂.map (·.val)))
    (h : Takes r (m.map (·.val)) ((m₂ ++ z.left).map (·.val)) P)
    (h' : Takes r' (m.map (·.val)) ((m₂ ++ z.right).map (·.val)) P')
    (hV : ∀ a b, P a → P' b → V a b) :
    Outcome (z.tokens.under n) V k s s' (r s) (r' s') := by
  refine Takes.outcome h h' hs hs' (by omega) ⟨by omega, m₂, rfl, rfl, by omega, hm₂⟩ hV

/-- The tokens of a group with its zone. -/
theorem Zone.exists_group (z : Zone) {m : List (Spanned Token)} {l : Token} (hp : (l, c) ∈ brackets)
    (hm : Balanced z.free (m.map (·.val))) (hl : ∃ x ∈ m.head?, x.val = l) :
    ∃ x i y m₂, m = x :: (i ++ y :: m₂) ∧ x.val = l ∧ y.val = c ∧ Balanced true (i.map (·.val)) ∧
      Balanced z.free (m₂.map (·.val)) := by
  obtain ⟨x, hx, rfl⟩ := hl
  cases m with
  | nil => cases hx
  | cons x' m =>
    cases hx
    generalize hts : (x :: m).map (·.val) = ts at hm
    cases hm with
    | nil => cases hts
    | cons ht _ _ =>
      obtain ⟨rfl, -⟩ := List.cons.inj hts
      exact absurd ⟨_, hp, .inl rfl⟩ ht
    | @group _ _ i r ts hp' hi hts' =>
      obtain ⟨rfl, hrest⟩ := List.cons.inj hts
      obtain ⟨i, us, rfl, rfl, hus⟩ := List.map_eq_append_iff.1 hrest
      obtain ⟨y, m₂, rfl, rfl, rfl⟩ := List.map_eq_cons_iff.1 hus
      exact ⟨x, i, y, m₂, rfl, rfl, closing_unique hp' hp, hi, hts'⟩

theorem just_fails {l : Token} {s : State Token} (h : ∀ x ∈ s.rest.head?, x.val ≠ l) :
    (just l s).1 = none := by
  have hrefuses : Refuses (just l) s.ahead := .just fun t ht => by
    rw [State.ahead, List.head?_map] at ht
    obtain ⟨x, hx, rfl⟩ := Option.map_eq_some_iff.1 ht
    exact h x hx
  obtain ⟨t, ht, -⟩ := hrefuses.refuses s rfl
  rw [ht]

/-- Where no opening bracket is next in a zone, none is next behind its end. -/
theorem Zone.just_fails {z : Zone} (hz : z.Fits) {l : Token} (hp : (l, c) ∈ brackets)
    {m us : List (Spanned Token)} (hl : ¬ ∃ x ∈ m.head?, x.val = l) (hus : us = z.left ∨ us = z.right)
    {s : State Token} (hs : s.rest = m ++ us) : (just l s).1 = none := by
  refine Tree.just_fails fun x hx => ?_
  rw [hs] at hx
  cases m with
  | cons y m => exact fun hxl => hl ⟨x, hx, hxl⟩
  | nil =>
    rintro rfl
    have hend : x ∈ z.left.head? ∨ x ∈ z.right.head? := by
      rcases hus with rfl | rfl
      · exact .inl hx
      · exact .inr hx
    rcases hz.ends hend with hc | ⟨-, hsep⟩
    · exact not_isClosing_of_mem hp hc
    · exact not_separator_of_mem hp hsep

/-- What stands in brackets is a zone of its own. `q` reads it, and `f` the closing bracket. -/
theorem bracket_alike {l : Token} {q q' : Rule Token α} {f f' : α → Rule Token β}
    (hp : (l, c) ∈ brackets) (hq : AlikeIn c n q q')
    (hf : ∀ a (z : Zone), z.Inside c → ∀ k s₀ s s', q s₀ = (some a, s) → z.tokens k s.rest s'.rest →
      Leaves z k s s' (f a s) (f' a s')) :
    Alike (n + 1) (do let _ ← just l; let a ← q; f a) (do let _ ← just l; let a ← q'; f' a) := by
  rintro z hz
  refine ⟨fun {k} s s' hk => ?_⟩
  obtain ⟨hlt, m, hs, hs', rfl, hm⟩ := hk
  by_cases hl : ∃ x ∈ m.head?, x.val = l
  · obtain ⟨x, i, y, m₂, rfl, hx, hy, hi, hm₂⟩ := z.exists_group hp hm hl
    simp only [List.length_cons, List.length_append] at hlt
    let w : Zone := ⟨true, y :: (m₂ ++ z.left), y :: (m₂ ++ z.right)⟩
    have hw : w.Inside c := ⟨rfl, isClosing_of_mem hp, y, _, _, rfl, rfl, hy⟩
    have hopen : Outcome w.tokens Eq (i.length + 1) s s' (just l s) (just l s') :=
      item_outcome _ _ (.inr ⟨x, x, i ++ w.left, i ++ w.right, by simp [hs, w], by simp [hs', w],
        rfl, Nat.succ_pos _, i, rfl, rfl, rfl, hi⟩)
    change Outcome _ _ _ s s' (Rule.bind (just l) (fun _ => Rule.bind q f) s)
      (Rule.bind (just l) (fun _ => Rule.bind q' f') s')
    unfold Rule.bind
    generalize just l s = o, just l s' = o' at hopen ⊢
    cases hopen with
    | fail t t' => exact .fail t t'
    | @ok _ _ t t' n₁ hmoves _ =>
      have hle := hmoves.le
      have hinner := (hq w hw).run t t' ⟨by omega, hmoves.rest⟩
      dsimp only
      cases hqt : q t with
      | mk o u =>
      generalize q' t' = o' at hinner ⊢
      rw [hqt] at hinner
      cases hinner with
      | fail => exact .fail _ _
      | @ok a _ _ u' n₂ hmoves' hv =>
        have hle' := hmoves'.le
        obtain rfl := hv
        have hclose := hf a w hw _ t u u' hqt hmoves'.rest.2
        dsimp only
        generalize f a u = p, f' a u' = p' at hclose ⊢
        cases hclose with
        | fail v v' => exact .fail v v'
        | ok hsteps hv hv' =>
          have hall := (hmoves.toSteps.trans hmoves'.toSteps).trans hsteps
          refine .ok _ ⟨hall, ?_, ?_, m₂, hv, hv', ?_, hm₂⟩ rfl <;>
            simp only [List.length_cons, List.length_append] <;> omega
  · exact .of_fails (bind_fails (Zone.just_fails hz hp hl (.inl rfl) hs))
      (bind_fails (Zone.just_fails hz hp hl (.inr rfl) hs'))

end Tree

end CueScope
