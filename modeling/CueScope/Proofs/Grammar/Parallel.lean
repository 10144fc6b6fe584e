import CueScope.Proofs.Grammar.Reads
import CueScope.Proofs.Grammar.Takes
import Mathlib.Data.List.Forall2

/-!
# Two runs side by side

A rule is run on two inputs that correspond to each other as far as it looks.

* `Pairing`: how the items left on both sides correspond. A pairing is about a number of items at the
  front: what follows them may differ, and a rule may not read it.
* `Rule.Parallel P V r r'`: from corresponding places `r` and `r'` both fail, or both succeed with values
  that `V` relates, after the same number of items, and then their places correspond again. They
  report the same number of errors. There is one lemma for each way to build rules.
* `Parallel.many`, `Parallel.recursive`: repetition and recursion are bounded by the number of items
  left, which may differ on both sides. What reads something in every turn does not notice.
-/

namespace CueScope.Grammar

variable {τ α β γ δ : Type}

/-- How items left on two sides correspond: `P k a b` says so of the first `k` of each. -/
abbrev Pairing (τ : Type) := Nat → List (Spanned τ) → List (Spanned τ) → Prop

namespace Pairing

/-- Only fewer than `n` items correspond. -/
def under (P : Pairing τ) (n : Nat) : Pairing τ := fun k a b => k < n ∧ P k a b

/-- Corresponding items are equal. -/
def Exact (P : Pairing τ) : Prop := ∀ k a b, P k a b → a.take k = b.take k

/-- An item that `f` takes is next on both sides or on none. -/
def AdmitsAt (P : Pairing τ) (f : τ → Option α) (k : Nat) (a b : List (Spanned τ)) : Prop :=
  (a.head?.bind (f ·.val) = none ∧ b.head?.bind (f ·.val) = none) ∨
    ∃ x y as bs, a = x :: as ∧ b = y :: bs ∧ x.val = y.val ∧ 0 < k ∧ P (k - 1) as bs

/-- Wherever items correspond, one that `f` takes is next on both sides or on none. -/
def Admits (P : Pairing τ) (f : τ → Option α) : Prop := ∀ k a b, P k a b → P.AdmitsAt f k a b

theorem Exact.under {P : Pairing τ} (h : P.Exact) (n : Nat) : (P.under n).Exact :=
  fun k a b hk => h k a b hk.2

theorem Admits.under {P : Pairing τ} {f : τ → Option α} (h : P.Admits f) (n : Nat) :
    (P.under n).Admits f := by
  intro k a b hk
  rcases h k a b hk.2 with hnone | ⟨x, y, as, bs, ha, hb, hv, hpos, hrest⟩
  · exact .inl hnone
  · exact .inr ⟨x, y, as, bs, ha, hb, hv, hpos, Nat.lt_of_le_of_lt (Nat.sub_le _ _) hk.1, hrest⟩

end Pairing

/-- Both sides have read `n` items and met as many errors, from `s` to `t` and from `s'` to `t'`. -/
structure Steps (n : Nat) (s t s' t' : State τ) : Prop where
  left : ∃ read, Reads s t read ∧ read.length = n
  right : ∃ read, Reads s' t' read ∧ read.length = n
  faults : t.faults.length + s'.faults.length = t'.faults.length + s.faults.length

/-- Both sides have moved on by `n` items and correspond again. -/
structure Moves (P : Pairing τ) (k n : Nat) (s t s' t' : State τ) : Prop extends
    Steps n s t s' t' where
  le : n ≤ k
  rest : P (k - n) t.rest t'.rest

/-- Both sides fail, or both succeed and have moved on. -/
inductive Outcome (P : Pairing τ) (V : α → β → Prop) (k : Nat) (s s' : State τ) :
    Option α × State τ → Option β × State τ → Prop
  | fail (t t' : State τ) : Outcome P V k s s' (none, t) (none, t')
  | ok {a : α} {b : β} {t t' : State τ} (n : Nat) : Moves P k n s t s' t' → V a b →
      Outcome P V k s s' (some a, t) (some b, t')

section moves

variable {P : Pairing τ} {V W : α → β → Prop} {k n m : Nat} {s t u s' t' u' s₁ s₁' t₁ t₁' : State τ}
  {o : Option α × State τ} {o' : Option β × State τ}

theorem Steps.refl : Steps 0 s s s' s' := ⟨⟨[], .refl, rfl⟩, ⟨[], .refl, rfl⟩, Nat.add_comm _ _⟩

theorem Steps.trans (h : Steps n s t s' t') (h' : Steps m t u t' u') : Steps (n + m) s u s' u' := by
  obtain ⟨xs, hxs, rfl⟩ := h.left
  obtain ⟨xs', hxs', hn⟩ := h.right
  obtain ⟨ys, hys, rfl⟩ := h'.left
  obtain ⟨ys', hys', hm⟩ := h'.right
  have hf := h.faults
  have hf' := h'.faults
  exact ⟨⟨xs ++ ys, hxs.trans hys, List.length_append⟩,
    ⟨xs' ++ ys', hxs'.trans hys', by rw [List.length_append, hn, hm]⟩, by omega⟩

/-- Only what is left, what was read last and the number of errors matter. -/
structure State.Looks (s t : State τ) : Prop where
  rest : s.rest = t.rest
  last : s.last = t.last
  faults : s.faults.length = t.faults.length

theorem Steps.congr (h : Steps n s t s' t') (hs : s₁.Looks s) (ht : t₁.Looks t)
    (hs' : s₁'.Looks s') (ht' : t₁'.Looks t') : Steps n s₁ t₁ s₁' t₁' := by
  obtain ⟨xs, hxs, hn⟩ := h.left
  obtain ⟨xs', hxs', hn'⟩ := h.right
  refine ⟨⟨xs, hxs.congr hs.rest hs.last ht.rest ht.last, hn⟩,
    ⟨xs', hxs'.congr hs'.rest hs'.last ht'.rest ht'.last, hn'⟩, ?_⟩
  rw [ht.faults, hs'.faults, ht'.faults, hs.faults]
  exact h.faults

theorem Moves.refl (h : P k s.rest s'.rest) : Moves P k 0 s s s' s' := ⟨.refl, Nat.zero_le _, h⟩

theorem Moves.trans (h : Moves P k n s t s' t') (h' : Moves P (k - n) m t u t' u') :
    Moves P k (n + m) s u s' u' := by
  refine ⟨h.toSteps.trans h'.toSteps, ?_, ?_⟩
  · have := h.le
    have := h'.le
    omega
  · rw [← Nat.sub_sub]
    exact h'.rest

theorem Moves.congr (h : Moves P k n s t s' t') (hs : s₁.Looks s) (ht : t₁.Looks t)
    (hs' : s₁'.Looks s') (ht' : t₁'.Looks t') : Moves P k n s₁ t₁ s₁' t₁' := by
  refine ⟨h.toSteps.congr hs ht hs' ht', h.le, ?_⟩
  rw [ht.rest, ht'.rest]
  exact h.rest

/-- An error on both sides. -/
theorem Moves.report (h : Moves P k n s t s' t') (f f' : Fault τ) :
    Moves P k n s (t.report f) s' (t'.report f') := by
  obtain ⟨xs, hxs, hn⟩ := h.left
  obtain ⟨xs', hxs', hn'⟩ := h.right
  have hfaults := h.faults
  refine ⟨⟨⟨xs, hxs.congr rfl rfl rfl rfl, hn⟩, ⟨xs', hxs'.congr rfl rfl rfl rfl, hn'⟩, ?_⟩, h.le,
    h.rest⟩
  simp only [State.report, List.length_append, List.length_singleton]
  omega

/-- The items that an exact pairing lets both sides read are the same. -/
theorem Moves.reads_eq (hP : P.Exact) (hk : P k s.rest s'.rest) (h : Moves P k n s t s' t') :
    ∃ read, Reads s t read ∧ Reads s' t' read ∧ read.length = n := by
  obtain ⟨xs, hxs, hn⟩ := h.left
  obtain ⟨xs', hxs', hn'⟩ := h.right
  have hle := h.le
  have htake : s.rest.take n = s'.rest.take n := by
    have := congrArg (List.take n) (hP _ _ _ hk)
    rwa [List.take_take, List.take_take, Nat.min_eq_left hle] at this
  rw [hxs.rest_eq, hxs'.rest_eq, List.take_left' hn, List.take_left' hn'] at htake
  exact ⟨xs, hxs, htake ▸ hxs', hn⟩

theorem Outcome.mono (h : Outcome P V k s s' o o') (hV : ∀ a b, V a b → W a b) :
    Outcome P W k s s' o o' := by
  cases h with
  | fail t t' => exact .fail t t'
  | ok n hm hv => exact .ok n hm (hV _ _ hv)

theorem Outcome.congr (h : Outcome P V k s₁ s₁' o o') (hs : s₁.Looks s) (hs' : s₁'.Looks s') :
    Outcome P V k s s' o o' := by
  cases h with
  | fail t t' => exact .fail t t'
  | ok n hm hv =>
    have hback : ∀ {s t : State τ}, s.Looks t → t.Looks s :=
      fun h => ⟨h.rest.symm, h.last.symm, h.faults.symm⟩
    exact .ok n (hm.congr (hback hs) ⟨rfl, rfl, rfl⟩ (hback hs') ⟨rfl, rfl, rfl⟩) hv

theorem Outcome.of_fails (h : o.1 = none) (h' : o'.1 = none) : Outcome P V k s s' o o' := by
  obtain ⟨o, t⟩ := o
  obtain ⟨o', t'⟩ := o'
  obtain rfl : o = none := h
  obtain rfl : o' = none := h'
  exact .fail t t'

/-- What happens after both sides have moved on. -/
theorem Moves.andThen (hm : Moves P k n s t s' t') (h : Outcome P V (k - n) t t' o o') :
    Outcome P V k s s' o o' := by
  cases h with
  | fail t t' => exact .fail t t'
  | ok m hm' hv => exact .ok _ (hm.trans hm') hv

end moves

namespace Rule

/-- From corresponding places both rules fail, or both succeed alike. -/
structure Parallel (P : Pairing τ) (V : α → β → Prop) (r : Rule τ α) (r' : Rule τ β) : Prop where
  run : ∀ {k : Nat} (s s' : State τ), P k s.rest s'.rest → Outcome P V k s s' (r s) (r' s')

variable {P Q : Pairing τ} {V : α → β → Prop} {W : γ → δ → Prop} {r : Rule τ α} {r' : Rule τ β}

theorem Parallel.mono {V' : α → β → Prop} (h : Parallel P V r r') (hV : ∀ a b, V a b → V' a b) :
    Parallel P V' r r' :=
  ⟨fun s s' hk => (h.run s s' hk).mono hV⟩

/-- A rule does not notice a bound on the items that correspond. -/
theorem Parallel.under (h : Parallel P V r r') (n : Nat) : Parallel (P.under n) V r r' := by
  refine ⟨fun {k} s s' hk => ?_⟩
  have hrun := h.run s s' hk.2
  generalize r s = o, r' s' = o' at hrun ⊢
  cases hrun with
  | fail t t' => exact .fail t t'
  | ok m hm hv =>
    exact .ok m ⟨hm.toSteps, hm.le, Nat.lt_of_le_of_lt (Nat.sub_le _ _) hk.1, hm.rest⟩ hv

theorem Parallel.under_le {n m : Nat} (h : Parallel (P.under n) V r r') (hm : m ≤ n) :
    Parallel (P.under m) V r r' := by
  refine ⟨fun {k} s s' hk => ?_⟩
  have hrun := h.run s s' ⟨Nat.lt_of_lt_of_le hk.1 hm, hk.2⟩
  generalize r s = o, r' s' = o' at hrun ⊢
  cases hrun with
  | fail t t' => exact .fail t t'
  | ok l hl hv =>
    exact .ok l ⟨hl.toSteps, hl.le, Nat.lt_of_le_of_lt (Nat.sub_le _ _) hk.1, hl.rest.2⟩ hv

theorem Parallel.of_under (h : ∀ n, Parallel (P.under n) V r r') : Parallel P V r r' := by
  refine ⟨fun {k} s s' hk => ?_⟩
  have hrun := (h (k + 1)).run s s' ⟨Nat.lt_succ_self k, hk⟩
  generalize r s = o, r' s' = o' at hrun ⊢
  cases hrun with
  | fail t t' => exact .fail t t'
  | ok l hl hv => exact .ok l ⟨hl.toSteps, hl.le, hl.rest.2⟩ hv

/-! ## Sequence -/

theorem Parallel.pure {a : α} {b : β} (h : V a b) :
    Parallel P V (pure a : Rule τ α) (pure b : Rule τ β) :=
  ⟨fun _ _ hk => .ok 0 (.refl hk) h⟩

theorem bind_eq {f : α → Rule τ γ} {s t : State τ} {a : α} (h : r s = (some a, t)) :
    (r >>= f) s = f a t := by
  change Rule.bind r f s = _
  unfold Rule.bind
  rw [h]

theorem bind_fails {f : α → Rule τ γ} {s : State τ} (h : (r s).1 = none) :
    ((r >>= f) s).1 = none := by
  change (Rule.bind r f s).1 = none
  unfold Rule.bind
  split
  · rename_i ht
    rw [ht] at h
    cases h
  · rfl

/-- One rule after the other, where the right side may part with `T` at either of them. -/
theorem bind_outcome_or {T : Option δ × State τ → Prop} {k : Nat} {s s' : State τ}
    {f : α → Rule τ γ} {f' : β → Rule τ δ}
    (h : Outcome P V k s s' (r s) (r' s') ∨ T ((r' >>= f') s'))
    (hf : ∀ a b n t t', V a b → r s = (some a, t) → r' s' = (some b, t') → Moves P k n s t s' t' →
      Outcome P W (k - n) t t' (f a t) (f' b t') ∨ T (f' b t')) :
    Outcome P W k s s' ((r >>= f) s) ((r' >>= f') s') ∨ T ((r' >>= f') s') := by
  rcases h with h | h
  · cases hr : r s with
    | mk o t =>
    cases hr' : r' s' with
    | mk o' t' =>
    rw [hr, hr'] at h
    cases h with
    | fail => exact .inl (.of_fails (bind_fails (by rw [hr])) (bind_fails (by rw [hr'])))
    | ok n hm hv =>
      rw [bind_eq hr, bind_eq hr']
      exact (hf _ _ n t t' hv hr hr' hm).imp_left hm.andThen
  · exact .inr h

/-- One rule after the other, at one place. -/
theorem bind_outcome {k : Nat} {s s' : State τ} {f : α → Rule τ γ} {f' : β → Rule τ δ}
    (h : Outcome P V k s s' (r s) (r' s'))
    (hf : ∀ a b n t t', V a b → r s = (some a, t) → Moves P k n s t s' t' →
      Outcome P W (k - n) t t' (f a t) (f' b t')) :
    Outcome P W k s s' ((r >>= f) s) ((r' >>= f') s') :=
  (bind_outcome_or (T := fun _ => False) (.inl h) fun a b n t t' hv hr _ hm =>
    .inl (hf a b n t t' hv hr hm)).resolve_right id

theorem Parallel.bind {f : α → Rule τ γ} {f' : β → Rule τ δ} (h : Parallel P V r r')
    (hf : ∀ a b, V a b → Parallel P W (f a) (f' b)) : Parallel P W (r >>= f) (r' >>= f') :=
  ⟨fun s s' hk => bind_outcome (h.run s s' hk) fun a b _ t t' hv _ hm =>
    (hf a b hv).run t t' hm.rest⟩

/-- The items on the way of a rule that reads something. -/
theorem Consumes.ne_nil [hc : Consumes r] {s t : State τ} {a : α} {read : List (Spanned τ)}
    (hr : r s = (some a, t)) (hread : Reads s t read) : read ≠ [] := by
  obtain ⟨xs, hxs, hne⟩ := hc.reads hr
  rwa [List.append_cancel_right (hxs.rest_eq.symm.trans hread.rest_eq)] at hne

/-- After a rule that reads something, fewer items correspond. -/
theorem Parallel.bind_under [Consumes r] {n : Nat} {f : α → Rule τ γ} {f' : β → Rule τ δ}
    (h : Parallel (P.under (n + 1)) V r r')
    (hf : ∀ a b, V a b → Parallel (P.under n) W (f a) (f' b)) :
    Parallel (P.under (n + 1)) W (r >>= f) (r' >>= f') := by
  refine ⟨fun {k} s s' hk => bind_outcome (h.run s s' hk) fun a b m t t' hv hr hm => ?_⟩
  obtain ⟨read, hread, hlen⟩ := hm.left
  have hpos : 0 < m := hlen ▸ List.length_pos_iff.2 (Consumes.ne_nil hr hread)
  have hlt : k - m < n := by
    have := hk.1
    have := hm.le
    omega
  have hnext := (hf a b hv).run t t' ⟨hlt, hm.rest.2⟩
  generalize f a t = p, f' b t' = p' at hnext ⊢
  cases hnext with
  | fail u u' => exact .fail u u'
  | ok l hl hw =>
    exact .ok l ⟨hl.toSteps, hl.le, Nat.lt_succ_of_lt hl.rest.1, hl.rest.2⟩ hw

theorem Parallel.between {ε ζ : Type} {l : Rule τ γ} {l' : Rule τ δ} {e : Rule τ ε} {e' : Rule τ ζ}
    (hl : Parallel P (fun _ _ => True) l l') (h : Parallel P V r r')
    (he : Parallel P (fun _ _ => True) e e') : Parallel P V (between l r e) (between l' r' e') :=
  hl.bind fun _ _ _ => h.bind fun _ _ hv => he.bind fun _ _ _ => .pure hv

/-- The rule `r` gives and reads what `q` does, but may remember other failures. -/
def Mirrors (r q : Rule τ α) : Prop :=
  ∀ s, (r s).1 = (q s).1 ∧ ((r s).1.isSome → (r s).2.Looks (q s).2)

/-- Rules that mirror others run side by side as those do. -/
theorem Parallel.of_mirrors {q : Rule τ α} {q' : Rule τ β} (hr : Mirrors r q) (hr' : Mirrors r' q')
    (h : Parallel P V q q') : Parallel P V r r' := by
  refine ⟨fun {k} s s' hk => ?_⟩
  have hrun := h.run s s' hk
  obtain ⟨hval, hlooks⟩ := hr s
  obtain ⟨hval', hlooks'⟩ := hr' s'
  generalize r s = p, r' s' = p', q s = o, q' s' = o' at hrun hval hlooks hval' hlooks' ⊢
  obtain ⟨p, t₁⟩ := p
  obtain ⟨p', t₁'⟩ := p'
  cases hrun with
  | fail t t' =>
    obtain rfl : p = none := hval
    obtain rfl : p' = none := hval'
    exact .fail _ _
  | @ok a b t t' n hm hv =>
    obtain rfl : p = some a := hval
    obtain rfl : p' = some b := hval'
    exact .ok n (hm.congr ⟨rfl, rfl, rfl⟩ (hlooks rfl) ⟨rfl, rfl, rfl⟩ (hlooks' rfl)) hv

/-! ## Single items -/

section items

variable [DecidableEq τ] {f : τ → Option γ}

/-- Where the pairing admits the item, it is read on both sides or on none. -/
theorem item_outcome (e e' : List (Expectation τ)) {k : Nat} {s s' : State τ}
    (hP : P.AdmitsAt f k s.rest s'.rest) : Outcome P Eq k s s' (item e f s) (item e' f s') := by
  have hnone : ∀ {s : State τ} {e : List (Expectation τ)}, s.rest.head?.bind (f ·.val) = none →
      ∃ t, Rule.item e f s = (none, t) := by
    intro s e h
    unfold Rule.item
    split
    · exact ⟨_, rfl⟩
    · rename_i x xs hs
      simp only [hs, List.head?_cons, Option.bind_some] at h
      simp only [h]
      exact ⟨_, rfl⟩
  rcases hP with ⟨ha, hb⟩ | ⟨x, y, as, bs, ha, hb, hv, hpos, hrest⟩
  · obtain ⟨t, ht⟩ := hnone ha
    obtain ⟨t', ht'⟩ := hnone hb
    rw [ht, ht']
    exact .fail t t'
  · have hstep : ∀ {s : State τ} {e : List (Expectation τ)} {x : Spanned τ} {xs : List (Spanned τ)},
        s.rest = x :: xs → (f x.val = none ∧ ∃ t, Rule.item e f s = (none, t)) ∨
          ∃ c t, f x.val = some c ∧ Rule.item e f s = (some c, t) ∧ Reads s t [x] ∧ t.rest = xs ∧
            t.faults = s.faults := by
      intro s e x xs hs
      unfold Rule.item
      split
      · rename_i h
        rw [hs] at h
        cases h
      · rename_i z zs h
        rw [hs, List.cons.injEq] at h
        obtain ⟨rfl, rfl⟩ := h
        cases hf : f x.val with
        | none => exact .inl ⟨rfl, _, rfl⟩
        | some c => exact .inr ⟨c, _, rfl, rfl, ⟨hs, rfl⟩, rfl, rfl⟩
    rcases hstep (e := e) ha with ⟨hf, t, ht⟩ | ⟨c, t, hf, ht, hread, hrest₁, hfaults⟩ <;>
    rcases hstep (e := e') hb with ⟨hf', t', ht'⟩ | ⟨c', t', hf', ht', hread', hrest₂, hfaults'⟩ <;>
    rw [ht, ht'] <;> rw [hv, hf'] at hf
    · exact .fail t t'
    · cases hf
    · cases hf
    · refine .ok 1 ⟨⟨⟨[x], hread, rfl⟩, ⟨[y], hread', rfl⟩, ?_⟩, hpos, ?_⟩ (Option.some.inj hf).symm
      · rw [hfaults, hfaults', Nat.add_comm]
      · rw [hrest₁, hrest₂]
        exact hrest

theorem Parallel.item (e e' : List (Expectation τ)) (hP : P.Admits f) :
    Parallel P Eq (item e f) (item e' f) :=
  ⟨fun _ _ hk => item_outcome e e' (hP _ _ _ hk)⟩

theorem Parallel.just (t : τ) (hP : P.Admits fun x => if x = t then some x else none) :
    Parallel P Eq (just t) (just t) := .item _ _ hP

theorem Parallel.oneOf (ts : List τ) (hP : P.Admits fun x => if x ∈ ts then some x else none) :
    Parallel P Eq (oneOf ts) (oneOf ts) := .item _ _ hP

theorem Parallel.noneOf (ts : List τ) (hP : P.Admits fun x => if x ∈ ts then none else some x) :
    Parallel P Eq (noneOf ts) (noneOf ts) := .item _ _ hP

theorem Parallel.justAll {ts : List τ}
    (hP : ∀ t ∈ ts, P.Admits fun x => if x = t then some x else none) :
    Parallel P Eq (justAll ts) (justAll ts) := by
  induction ts with
  | nil => exact .pure rfl
  | cons t ts ih =>
    exact (Parallel.just t (hP t List.mem_cons_self)).bind fun _ _ _ =>
      ih fun u hu => hP u (List.mem_cons_of_mem _ hu)

/-- What `satisfy` gives and reads is what an item gives and reads; only the failures differ. -/
theorem satisfy_mirrors (p : τ → Bool) :
    Mirrors (satisfy p) (item [] fun x => if p x then some x else none) := by
  intro s
  unfold Rule.satisfy Rule.anyItem Rule.item
  split <;> rename_i h
  · split at h
    · cases h
    · rename_i x xs hs
      simp only [Prod.mk.injEq, Option.some.injEq] at h
      obtain ⟨rfl, rfl⟩ := h
      by_cases hp : p x.val
      · simp only [hp, if_true]
        exact ⟨trivial, fun _ => ⟨rfl, rfl, rfl⟩⟩
      · simp [hp]
  · split at h
    · exact ⟨rfl, by simp⟩
    · cases h

theorem Parallel.satisfy {p : τ → Bool}
    (hP : P.Admits fun x => if p x then some x else none) :
    Parallel P Eq (satisfy p) (satisfy p) :=
  .of_mirrors (satisfy_mirrors p) (satisfy_mirrors p) (.item [] [] hP)

/-- Both sides end together or not at all. -/
theorem Parallel.endOfInput (hP : ∀ k a b, P k a b → (a = [] ↔ b = [])) :
    Parallel P Eq (endOfInput : Rule τ Unit) endOfInput := by
  refine ⟨fun {k} s s' hk => ?_⟩
  have hiff := hP _ _ _ hk
  unfold Rule.endOfInput
  split <;> rename_i h <;> split <;> rename_i h'
  · exact .ok 0 (.refl hk) rfl
  · rw [h, h'] at hiff
    simp at hiff
  · rw [h, h'] at hiff
    simp at hiff
  · exact .fail _ _

end items

/-! ## Items that are taken -/

/-- What a rule takes is what it reads. -/
theorem Takes.reads {Q : α → Prop} {ts rest : List τ} [hr : Tame r] (h : Takes r ts rest Q)
    {s : State τ} {m us : List (Spanned τ)} (hs : s.rest = m ++ us) (hm : m.map (·.val) = ts)
    (hus : us.map (·.val) = rest) :
    ∃ a t, r s = (some a, t) ∧ Q a ∧ Reads s t m ∧ t.rest = us ∧ t.faults = s.faults := by
  obtain ⟨a, t, ht, ha, hrest, hsame⟩ := h.takes s (by rw [State.ahead, hs, List.map_append, hm, hus])
  obtain ⟨read, hread⟩ := hr.reads ht
  have hlen : t.rest.length = us.length := by
    have hmap := congrArg List.length (hrest.trans hus.symm)
    simpa [State.ahead] using hmap
  obtain ⟨rfl, hus⟩ := List.append_inj' (hread.rest_eq.symm.trans hs) hlen
  exact ⟨a, t, ht, ha, hread, hus, hsame.faults⟩

/-- Both sides take the same items. -/
theorem Takes.outcome {Q : α → Prop} {Q' : β → Prop} [Tame r] [Tame r'] {k : Nat} {s s' : State τ}
    {m us us' : List (Spanned τ)} (h : Takes r (m.map (·.val)) (us.map (·.val)) Q)
    (h' : Takes r' (m.map (·.val)) (us'.map (·.val)) Q') (hs : s.rest = m ++ us)
    (hs' : s'.rest = m ++ us') (hle : m.length ≤ k) (hrest : P (k - m.length) us us')
    (hV : ∀ a b, Q a → Q' b → V a b) : Outcome P V k s s' (r s) (r' s') := by
  obtain ⟨a, t, ht, ha, hread, htr, hfaults⟩ := h.reads hs rfl rfl
  obtain ⟨b, t', ht', hb, hread', htr', hfaults'⟩ := h'.reads hs' rfl rfl
  rw [ht, ht']
  refine .ok m.length ⟨⟨⟨m, hread, rfl⟩, ⟨m, hread', rfl⟩, ?_⟩, hle, ?_⟩ (hV a b ha hb)
  · rw [hfaults, hfaults', Nat.add_comm]
  · rw [htr, htr']
    exact hrest

/-! ## Alternatives and looking ahead -/

theorem Parallel.choice_nil : Parallel P V (choice [] : Rule τ α) (choice [] : Rule τ β) :=
  ⟨fun _ _ _ => .fail _ _⟩

/-- An alternative before others, where the right side may part with `T` at any of them. -/
theorem choice_outcome_or {T : Option β × State τ → Prop} {k : Nat} {s s' : State τ}
    {rs : List (Rule τ α)} {rs' : List (Rule τ β)}
    (h : Outcome P V k s s' (r s) (r' s') ∨ T (choice (r' :: rs') s'))
    (hs : ∀ t t', r s = (none, t) → r' s' = (none, t') →
      Outcome P V k (t.back s) (t'.back s') (choice rs (t.back s)) (choice rs' (t'.back s')) ∨
        T (choice rs' (t'.back s'))) :
    Outcome P V k s s' (choice (r :: rs) s) (choice (r' :: rs') s') ∨ T (choice (r' :: rs') s') := by
  rcases h with h | h
  · unfold Rule.choice
    cases hr : r s with
    | mk o t =>
    cases hr' : r' s' with
    | mk o' t' =>
    rw [hr, hr'] at h
    cases h with
    | fail =>
      exact (hs t t' hr hr').imp_left fun h => h.congr ⟨rfl, rfl, rfl⟩ ⟨rfl, rfl, rfl⟩
    | ok n hm hv => exact .inl (.ok n hm hv)
  · exact .inr h

/-- An alternative before others, at one place. -/
theorem choice_outcome_of {k : Nat} {s s' : State τ} {rs : List (Rule τ α)} {rs' : List (Rule τ β)}
    (h : Outcome P V k s s' (r s) (r' s')) (hs : ∀ t t', r s = (none, t) → r' s' = (none, t') →
      Outcome P V k (t.back s) (t'.back s') (choice rs (t.back s)) (choice rs' (t'.back s'))) :
    Outcome P V k s s' (choice (r :: rs) s) (choice (r' :: rs') s') :=
  (choice_outcome_or (T := fun _ => False) (.inl h) fun t t' hr hr' =>
    .inl (hs t t' hr hr')).resolve_right id

theorem choice_outcome {k : Nat} {s s' : State τ} {rs : List (Rule τ α)} {rs' : List (Rule τ β)}
    (hk : P k s.rest s'.rest) (h : Outcome P V k s s' (r s) (r' s'))
    (hs : Parallel P V (choice rs) (choice rs')) :
    Outcome P V k s s' (choice (r :: rs) s) (choice (r' :: rs') s') :=
  choice_outcome_of h fun t t' _ _ => hs.run (t.back s) (t'.back s') hk

theorem Parallel.choice_cons {rs : List (Rule τ α)} {rs' : List (Rule τ β)} (h : Parallel P V r r')
    (hs : Parallel P V (choice rs) (choice rs')) :
    Parallel P V (choice (r :: rs)) (choice (r' :: rs')) :=
  ⟨fun s s' hk => choice_outcome hk (h.run s s' hk) hs⟩

theorem Parallel.maybe (h : Parallel P V r r') :
    Parallel P (Option.Rel V) (maybe r) (maybe r') := by
  refine ⟨fun {k} s s' hk => ?_⟩
  unfold Rule.maybe
  have hrun := h.run s s' hk
  generalize r s = o, r' s' = o' at hrun ⊢
  cases hrun with
  | fail t t' => exact .ok 0 (.congr (.refl hk) ⟨rfl, rfl, rfl⟩ ⟨rfl, rfl, rfl⟩ ⟨rfl, rfl, rfl⟩
      ⟨rfl, rfl, rfl⟩) .none
  | ok n hm hv => exact .ok n hm (.some hv)

theorem Parallel.maybe_eq {q : Rule τ α} (h : Parallel P Eq r q) :
    Parallel P Eq (Rule.maybe r) (Rule.maybe q) :=
  h.maybe.mono fun _ _ hab => by
    cases hab with
    | none => rfl
    | some hab => rw [hab]

theorem Parallel.ahead (h : Parallel P V r r') : Parallel P V (ahead r) (ahead r') := by
  refine ⟨fun {k} s s' hk => ?_⟩
  unfold Rule.ahead
  have hrun := h.run s s' hk
  generalize r s = o, r' s' = o' at hrun ⊢
  cases hrun with
  | fail t t' => exact .fail t t'
  | ok n hm hv => exact .ok 0 (.congr (.refl hk) ⟨rfl, rfl, rfl⟩ ⟨rfl, rfl, rfl⟩ ⟨rfl, rfl, rfl⟩
      ⟨rfl, rfl, rfl⟩) hv

/-- Looking ahead for nothing succeeds on both sides or on none, and reads nothing. -/
theorem Parallel.notAhead [DecidableEq τ] (h : Parallel P V r r') :
    Parallel P Eq (notAhead r) (notAhead r') := by
  refine ⟨fun {k} s s' hk => ?_⟩
  unfold Rule.notAhead
  have hrun := h.run { s with pending := none } { s' with pending := none } hk
  generalize r { s with pending := none } = o, r' { s' with pending := none } = o' at hrun ⊢
  cases hrun with
  | fail t t' => exact .ok 0 (.congr (.refl hk) ⟨rfl, rfl, rfl⟩ ⟨rfl, rfl, rfl⟩ ⟨rfl, rfl, rfl⟩
      ⟨rfl, rfl, rfl⟩) rfl
  | ok n hm hv =>
    dsimp only
    split <;> split <;> exact .fail _ _

/-- Looking further ahead, at one place. -/
theorem andIs_outcome {q : Rule τ γ} {q' : Rule τ δ} {k : Nat} {s s' : State τ}
    (hk : P k s.rest s'.rest) (h : Outcome P V k s s' (r s) (r' s')) (hq : Parallel P W q q') :
    Outcome P V k s s' (andIs r q s) (andIs r' q' s') := by
  unfold Rule.andIs
  generalize r s = o, r' s' = o' at h ⊢
  cases h with
  | fail t t' => exact .fail t t'
  | @ok a b t t' n hm hv =>
    have hnext := hq.run (t.back s) (t'.back s') hk
    dsimp only
    generalize q (t.back s) = p, q' (t'.back s') = p' at hnext ⊢
    cases hnext with
    | fail u u' => exact .fail u u'
    | ok m _ _ =>
      exact .ok n (hm.congr ⟨rfl, rfl, rfl⟩ ⟨rfl, rfl, rfl⟩ ⟨rfl, rfl, rfl⟩ ⟨rfl, rfl, rfl⟩) hv

theorem Parallel.andIs {q : Rule τ γ} {q' : Rule τ δ} (h : Parallel P V r r')
    (hq : Parallel P W q q') : Parallel P V (andIs r q) (andIs r' q') :=
  ⟨fun s s' hk => andIs_outcome hk (h.run s s' hk) hq⟩

/-! ## Repetition -/

/-- What two repetitions give, after both sides have moved on. -/
structure Rounds (P : Pairing τ) (V : α → β → Prop) (k : Nat) (s s' : State τ)
    (p : List α × State τ) (p' : List β × State τ) : Prop where
  moves : ∃ n, Moves P k n s p.2 s' p'.2
  values : List.Forall₂ V p.1 p'.1

theorem Moves.rounds {k n : Nat} {s t s' t' : State τ} {p : List α × State τ}
    {p' : List β × State τ} (hm : Moves P k n s t s' t') (h : Rounds P V (k - n) t t' p p') :
    Rounds P V k s s' p p' := by
  obtain ⟨m, hm'⟩ := h.moves
  exact ⟨⟨_, hm.trans hm'⟩, h.values⟩

theorem Rounds.nil {k : Nat} {s s' t t' : State τ} (hk : P k s.rest s'.rest) :
    Rounds P V k s s' ([], t.back s) ([], t'.back s') :=
  ⟨⟨0, .congr (.refl hk) ⟨rfl, rfl, rfl⟩ ⟨rfl, rfl, rfl⟩ ⟨rfl, rfl, rfl⟩ ⟨rfl, rfl, rfl⟩⟩, .nil⟩

/-- A step of `Parallel.upTo`, whose rule reads something. -/
theorem upTo_parallel [hc : Consumes r] [hc' : Consumes r'] (h : Parallel P V r r') {n n' k : Nat}
    {s s' : State τ} (hn : s.left < n) (hn' : s'.left < n') (hk : P k s.rest s'.rest) :
    Rounds P V k s s' (upTo r n s) (upTo r' n' s') := by
  induction n generalizing n' k s s' with
  | zero => exact absurd hn (Nat.not_lt_zero _)
  | succ n ih =>
    obtain ⟨n', rfl⟩ : ∃ m, n' = m + 1 := Nat.exists_eq_add_one.2 (Nat.zero_lt_of_lt hn')
    unfold upTo
    have hrun := h.run s s' hk
    cases hr : r s with
    | mk o t =>
      cases hr' : r' s' with
      | mk o' t' =>
        rw [hr, hr'] at hrun
        cases hrun with
        | fail => exact .nil hk
        | ok m hm hv =>
          have hrounds := ih
            (Nat.lt_of_lt_of_le (hc.left_lt hr) (Nat.le_of_lt_succ hn))
            (Nat.lt_of_lt_of_le (hc'.left_lt hr') (Nat.le_of_lt_succ hn')) hm.rest
          obtain ⟨l, hl⟩ := (Moves.rounds hm hrounds).moves
          exact ⟨⟨l, hl⟩, .cons hv hrounds.values⟩

theorem Parallel.many [Consumes r] [Consumes r'] (h : Parallel P V r r') :
    Parallel P (List.Forall₂ V) (many r) (many r') := by
  refine ⟨fun {k} s s' hk => ?_⟩
  have hrounds := upTo_parallel h (Nat.lt_succ_self s.left) (Nat.lt_succ_self s'.left) hk
  obtain ⟨n, hm⟩ := hrounds.moves
  exact .ok n hm hrounds.values

theorem Parallel.many_eq {q : Rule τ α} [Consumes r] [Consumes q] (h : Parallel P Eq r q) :
    Parallel P Eq (Rule.many r) (Rule.many q) :=
  h.many.mono fun _ _ hab => List.forall₂_eq_eq_eq ▸ hab

theorem Parallel.skipMany [Consumes r] [Consumes r'] (h : Parallel P V r r') :
    Parallel P Eq (skipMany r) (skipMany r') :=
  h.many.bind fun _ _ _ => .pure rfl

theorem Parallel.many1 [hc : Consumes r] [hc' : Consumes r'] (h : Parallel P V r r') :
    Parallel P (List.Forall₂ V) (many1 r) (many1 r') := by
  refine ⟨fun {k} s s' hk => ?_⟩
  unfold Rule.many1
  have hrun := h.run s s' hk
  cases hr : r s with
  | mk o t =>
    cases hr' : r' s' with
    | mk o' t' =>
      rw [hr, hr'] at hrun
      cases hrun with
      | fail => exact .fail _ _
      | ok m hm hv =>
        have hrounds := upTo_parallel h (Nat.lt_succ_of_lt (hc.left_lt hr))
          (Nat.lt_succ_of_lt (hc'.left_lt hr')) hm.rest
        obtain ⟨l, hl⟩ := (Moves.rounds hm hrounds).moves
        exact .ok l hl (.cons hv hrounds.values)

theorem Tame.unfold {f : Rule τ α → Rule τ α} (h : ∀ r, Tame r → Tame (f r)) (n : Nat) :
    Tame (unfold f n) := by
  induction n with
  | zero => exact ⟨fun hr => by cases hr⟩
  | succ n ih => exact h _ ih

theorem Consumes.unfold {f : Rule τ α → Rule τ α} (h : ∀ r, Consumes r → Consumes (f r)) (n : Nat) :
    Consumes (unfold f n) := by
  induction n with
  | zero => exact ⟨fun hr => by cases hr⟩
  | succ n ih => exact h _ ih

section recursion

variable {f : Rule τ α → Rule τ α} {f' : Rule τ β → Rule τ β} {T : Rule τ α → Prop}
  {U : Rule τ β → Prop}

/-- By induction on the number of items that correspond, unfolded rules run side by side, each with
an unfolding deep enough for it. -/
theorem unfold_parallel {ι : Type} {P : ι → Pairing τ} (hT : ∀ n, T (unfold f n))
    (hU : ∀ n, U (unfold f' n))
    (h : ∀ n r r', T r → U r' → (∀ i, Parallel ((P i).under n) V r r') →
      ∀ i, Parallel ((P i).under (n + 1)) V (f r) (f' r'))
    (n n' m : Nat) (hn : m ≤ n) (hn' : m ≤ n') (i : ι) :
    Parallel ((P i).under m) V (unfold f n) (unfold f' n') := by
  induction m generalizing n n' i with
  | zero => exact ⟨fun _ _ hk => absurd hk.1 (Nat.not_lt_zero _)⟩
  | succ m ih =>
    obtain ⟨n, rfl⟩ : ∃ l, n = l + 1 :=
      Nat.exists_eq_add_one.2 (Nat.lt_of_lt_of_le (Nat.succ_pos m) hn)
    obtain ⟨n', rfl⟩ : ∃ l, n' = l + 1 :=
      Nat.exists_eq_add_one.2 (Nat.lt_of_lt_of_le (Nat.succ_pos m) hn')
    exact h m _ _ (hT n) (hU n')
      (ih n n' (Nat.le_of_succ_le_succ hn) (Nat.le_of_succ_le_succ hn')) i

/-- A recursive rule, which uses itself where fewer items correspond, maybe in another way. -/
theorem Parallel.recursive_family {ι : Type} {P : ι → Pairing τ}
    (hlen : ∀ i k a b, P i k a b → k ≤ a.length ∧ k ≤ b.length) (hT : ∀ n, T (unfold f n))
    (hU : ∀ n, U (unfold f' n))
    (h : ∀ n r r', T r → U r' → (∀ i, Parallel ((P i).under n) V r r') →
      ∀ i, Parallel ((P i).under (n + 1)) V (f r) (f' r')) (i : ι) :
    Parallel (P i) V (recursive f) (recursive f') := by
  refine ⟨fun {k} s s' hk => ?_⟩
  obtain ⟨hle, hle'⟩ := hlen i _ _ _ hk
  rw [← s.left_eq] at hle
  rw [← s'.left_eq] at hle'
  have hrun := (unfold_parallel hT hU h (s.left + 1) (s'.left + 1) (k + 1) (Nat.succ_le_succ hle)
    (Nat.succ_le_succ hle') i).run s s' ⟨Nat.lt_succ_self k, hk⟩
  unfold Rule.recursive
  generalize Rule.unfold f (s.left + 1) s = o, Rule.unfold f' (s'.left + 1) s' = o' at hrun ⊢
  cases hrun with
  | fail t t' => exact .fail t t'
  | ok n hm hv => exact .ok n ⟨hm.toSteps, hm.le, hm.rest.2⟩ hv

theorem Parallel.recursive (hlen : ∀ k a b, P k a b → k ≤ a.length ∧ k ≤ b.length)
    (hT : ∀ n, T (unfold f n)) (hU : ∀ n, U (unfold f' n))
    (h : ∀ n r r', T r → U r' → Parallel (P.under n) V r r' →
      Parallel (P.under (n + 1)) V (f r) (f' r')) :
    Parallel P V (recursive f) (recursive f') :=
  recursive_family (P := fun _ : Unit => P) (fun _ => hlen) hT hU
    (fun n r r' ht ht' hrun _ => h n r r' ht ht' (hrun ())) ()

end recursion

/-- Separators and items in turn, on both sides as often. -/
theorem sepUpTo_parallel [hc : Consumes r] [hc' : Consumes r'] {sep : Rule τ γ} {sep' : Rule τ δ}
    [ht : Tame sep] [ht' : Tame sep'] (h : Parallel P V r r') (hsep : Parallel P W sep sep')
    {n n' k : Nat} {s s' : State τ} (hn : s.left < n) (hn' : s'.left < n') (hk : P k s.rest s'.rest) :
    Rounds P V k s s' (sepUpTo r sep n s) (sepUpTo r' sep' n' s') := by
  induction n generalizing n' k s s' with
  | zero => exact absurd hn (Nat.not_lt_zero _)
  | succ n ih =>
    obtain ⟨n', rfl⟩ : ∃ m, n' = m + 1 := Nat.exists_eq_add_one.2 (Nat.zero_lt_of_lt hn')
    unfold sepUpTo
    have hrun := hsep.run s s' hk
    cases hs : sep s with
    | mk o t =>
    cases hs' : sep' s' with
    | mk o' t' =>
    rw [hs, hs'] at hrun
    cases hrun with
    | fail => exact .nil hk
    | ok m hm hv =>
      have hnext := h.run _ _ hm.rest
      dsimp only
      cases hr : r t with
      | mk p u =>
      cases hr' : r' t' with
      | mk p' u' =>
      rw [hr, hr'] at hnext
      cases hnext with
      | fail => exact Moves.rounds hm (.nil hm.rest)
      | ok l hl hv =>
        obtain ⟨xs, hxs⟩ := ht.reads hs
        obtain ⟨xs', hxs'⟩ := ht'.reads hs'
        have hrounds := ih
          (Nat.lt_of_lt_of_le (hc.left_lt hr) (Nat.le_trans hxs.left_le (Nat.le_of_lt_succ hn)))
          (Nat.lt_of_lt_of_le (hc'.left_lt hr') (Nat.le_trans hxs'.left_le (Nat.le_of_lt_succ hn')))
          hl.rest
        obtain ⟨i, hi⟩ := (Moves.rounds hm (Moves.rounds hl hrounds)).moves
        exact ⟨⟨i, hi⟩, .cons hv hrounds.values⟩

/-- Items with separators between them are the same on both sides, be they led or trailed by others.
-/
theorem Parallel.sepBy [hc : Consumes r] [hc' : Consumes r'] {sep : Rule τ γ} {sep' : Rule τ δ}
    [ht : Tame sep] [ht' : Tame sep'] (h : Parallel P V r r') (hsep : Parallel P W sep sep') :
    Parallel P (List.Forall₂ V) (sepBy r sep) (sepBy r' sep') := by
  refine ⟨fun {k} s s' hk => ?_⟩
  unfold Rule.sepBy
  have hmaybe := hsep.maybe.run s s' hk
  cases hs : Rule.maybe sep s with
  | mk o t =>
  cases hs' : Rule.maybe sep' s' with
  | mk o' t' =>
  rw [hs, hs'] at hmaybe
  have hmoves : ∃ n, Moves P k n s t s' t' := by
    cases hmaybe with
    | fail =>
      unfold Rule.maybe at hs
      split at hs <;> cases hs
    | ok n hm _ => exact ⟨n, hm⟩
  obtain ⟨n, hm⟩ := hmoves
  have hnext := h.run _ _ hm.rest
  dsimp only
  cases hr : r t with
  | mk p u =>
  cases hr' : r' t' with
  | mk p' u' =>
  rw [hr, hr'] at hnext
  cases hnext with
  | fail =>
    refine .ok n (hm.congr ⟨rfl, rfl, rfl⟩ ⟨rfl, rfl, rfl⟩ ⟨rfl, rfl, rfl⟩ ⟨rfl, rfl, rfl⟩) .nil
  | ok l hl hv =>
    obtain ⟨xs, hxs, -⟩ := hm.left
    obtain ⟨xs', hxs', -⟩ := hm.right
    obtain ⟨ys, hys, -⟩ := hc.reads hr
    obtain ⟨ys', hys', -⟩ := hc'.reads hr'
    have hrounds := sepUpTo_parallel h hsep (Nat.lt_succ_of_le (hxs.trans hys).left_le)
      (Nat.lt_succ_of_le (hxs'.trans hys').left_le) hl.rest
    obtain ⟨i, hi⟩ := (Moves.rounds hm (Moves.rounds hl hrounds)).moves
    exact .ok i hi (.cons hv hrounds.values)

theorem Parallel.sepBy_eq {q : Rule τ α} {sep : Rule τ γ} {sep' : Rule τ δ} [Consumes r] [Consumes q]
    [Tame sep] [Tame sep'] (h : Parallel P Eq r q) (hsep : Parallel P W sep sep') :
    Parallel P Eq (Rule.sepBy r sep) (Rule.sepBy q sep') :=
  (h.sepBy hsep).mono fun _ _ hab => List.forall₂_eq_eq_eq ▸ hab

/-! ## Places and errors -/

theorem Parallel.spanned_val (h : Parallel P V r r') :
    Parallel P (fun x y => V x.val y.val) (spanned r) (spanned r') := by
  refine ⟨fun {k} s s' hk => ?_⟩
  unfold Rule.spanned
  have hrun := h.run s s' hk
  generalize r s = o, r' s' = o' at hrun ⊢
  cases hrun with
  | fail t t' => exact .fail t t'
  | ok n hm hv => exact .ok n hm hv

/-- Where corresponding items are equal, so are the places of what is read. -/
theorem spanned_outcome [Consumes r] {k : Nat} {s s' : State τ} (hP : P.Exact)
    (hk : P k s.rest s'.rest) (h : Outcome P V k s s' (r s) (r' s')) :
    Outcome P (fun x y => V x.val y.val ∧ x.span = y.span) k s s' (spanned r s) (spanned r' s') := by
  unfold Rule.spanned
  cases hr : r s with
  | mk o t =>
    generalize r' s' = o' at h ⊢
    rw [hr] at h
    cases h with
    | fail => exact .fail _ _
    | ok n hm hv =>
      obtain ⟨read, hread, hread', -⟩ := hm.reads_eq hP hk
      have hne := Consumes.ne_nil hr hread
      exact .ok n hm ⟨hv, by rw [hread.spanTo_eq hne, hread'.spanTo_eq hne]⟩

theorem Parallel.spanned [Consumes r] (hP : P.Exact) (h : Parallel P V r r') :
    Parallel P (fun x y => V x.val y.val ∧ x.span = y.span) (spanned r) (spanned r') :=
  ⟨fun s s' hk => spanned_outcome hP hk (h.run s s' hk)⟩

theorem Parallel.spanned_eq {q : Rule τ α} [Consumes r] (hP : P.Exact) (h : Parallel P Eq r q) :
    Parallel P Eq (Rule.spanned r) (Rule.spanned q) :=
  (h.spanned hP).mono fun x y hxy => by
    obtain ⟨x, xs⟩ := x
    obtain ⟨y, ys⟩ := y
    obtain ⟨rfl, rfl⟩ := hxy
    rfl

/-- The items that are read, at one place. -/
theorem recognized_outcome {k : Nat} {s s' : State τ}
    (hP : ∀ k a b, P k a b → (a.take k).map (·.val) = (b.take k).map (·.val))
    (hk : P k s.rest s'.rest) (h : Outcome P V k s s' (r s) (r' s')) :
    Outcome P Eq k s s' (recognized r s) (recognized r' s') := by
  unfold Rule.recognized
  generalize r s = o, r' s' = o' at h ⊢
  cases h with
  | fail t t' => exact .fail t t'
  | ok n hm hv =>
    obtain ⟨xs, hxs, hn⟩ := hm.left
    obtain ⟨xs', hxs', hn'⟩ := hm.right
    refine .ok n hm ?_
    have htake := congrArg (List.take n) (hP _ _ _ hk)
    rw [← List.map_take, ← List.map_take, List.take_take, List.take_take, Nat.min_eq_left hm.le,
      hxs.rest_eq, hxs'.rest_eq, List.take_left' hn, List.take_left' hn'] at htake
    rw [hxs.readTo_eq, hxs'.readTo_eq, htake]

theorem Parallel.recognized
    (hP : ∀ k a b, P k a b → (a.take k).map (·.val) = (b.take k).map (·.val))
    (h : Parallel P V r r') : Parallel P Eq (recognized r) (recognized r') :=
  ⟨fun s s' hk => recognized_outcome hP hk (h.run s s' hk)⟩

theorem Parallel.complain (span span' : Span) (reason reason' : Complaint) :
    Parallel P Eq (complain span reason : Rule τ Unit) (complain span' reason') :=
  ⟨fun _ _ hk => .ok 0 ((Moves.refl hk).report _ _) rfl⟩

theorem Parallel.putAside (errors errors' : List SyntaxError) :
    Parallel P Eq (putAside errors : Rule τ Unit) (putAside errors') :=
  ⟨fun _ _ hk => .ok 0 (.congr (.refl hk) ⟨rfl, rfl, rfl⟩ ⟨rfl, rfl, rfl⟩ ⟨rfl, rfl, rfl⟩ ⟨rfl, rfl, rfl⟩)
    rfl⟩

/-! ## Recovery -/

/-- Where a rule fails, it does so on both sides, and what is tried in its place decides. -/
theorem Parallel.orRecover {q : Rule τ α} {q' : Rule τ β} (h : Parallel P V r r')
    (hq : Parallel P V q q') : Parallel P V (orRecover r q) (orRecover r' q') := by
  refine ⟨fun {k} s s' hk => ?_⟩
  unfold Rule.orRecover
  have hrun := h.run s s' hk
  generalize r s = o, r' s' = o' at hrun ⊢
  cases hrun with
  | fail t t' =>
    have hnext := hq.run { t.back s with pending := none } { t'.back s' with pending := none } hk
    dsimp only
    generalize q { t.back s with pending := none } = p,
      q' { t'.back s' with pending := none } = p' at hnext ⊢
    cases hnext with
    | fail u u' => exact .fail _ _
    | ok n hm hv =>
      exact .ok n ((hm.report _ _).congr ⟨rfl, rfl, rfl⟩ ⟨rfl, rfl, rfl⟩ ⟨rfl, rfl, rfl⟩
        ⟨rfl, rfl, rfl⟩) hv
  | ok n hm hv => exact .ok n hm hv

end Rule

end CueScope.Grammar
