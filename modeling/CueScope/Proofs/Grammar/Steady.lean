import CueScope.Proofs.Grammar.Parallel

/-!
# What a rule depends on

* `Rule.Steady`: what a rule reads and gives depends on the items that are left alone, not on what was
  read or went wrong before. Instances find this for every grammar whose rules read something
  wherever their place is asked for.
* `Rule.Paced`: how many items two rules read depends on what the items are alone, not on their places.
  Instances find this for every grammar that makes no use of the values it has read.
-/

namespace CueScope.Grammar

variable {τ α β γ δ : Type}

namespace Pairing

/-- The same items are left. -/
def same : Pairing τ := fun k a b => a = b ∧ a.length = k

/-- The same items are left, apart from their places. -/
def alike : Pairing τ := fun k a b => a.map (·.val) = b.map (·.val) ∧ a.length = k

theorem exact_same : (same : Pairing τ).Exact := fun _ _ _ h => by rw [h.1]

theorem admits_same (f : τ → Option α) : same.Admits f := by
  rintro k a b ⟨rfl, rfl⟩
  cases a with
  | nil => exact .inl ⟨rfl, rfl⟩
  | cons x as => exact .inr ⟨x, x, as, as, rfl, rfl, rfl, Nat.succ_pos _, rfl, rfl⟩

theorem length_eq_of_alike (k : Nat) (a b : List (Spanned τ)) (h : alike k a b) :
    a.length = b.length := by
  simpa using congrArg List.length h.1

theorem admits_alike (f : τ → Option α) : alike.Admits f := by
  rintro k a b ⟨h, rfl⟩
  cases a with
  | nil =>
    obtain rfl : b = [] := by simpa using h.symm
    exact .inl ⟨rfl, rfl⟩
  | cons x as =>
    obtain ⟨y, bs, rfl, hy, hbs⟩ := List.map_eq_cons_iff.1 h.symm
    exact .inr ⟨x, y, as, bs, rfl, rfl, hy.symm, Nat.succ_pos _, hbs.symm, rfl⟩

end Pairing

namespace Rule

variable {P : Pairing τ} {V : α → β → Prop} {r q : Rule τ α} {r' q' : Rule τ β}

/-! ## Inputs of the same length -/

section lengths

variable (hlen : ∀ k a b, P k a b → a.length = b.length)
include hlen

theorem left_eq_of_pairing {k : Nat} {s s' : State τ} (hk : P k s.rest s'.rest) :
    s'.left = s.left := by
  rw [s.left_eq, s'.left_eq, hlen _ _ _ hk]

/-- Repetitions take as many turns on both sides. -/
theorem Parallel.many_of_length (h : Parallel P V r r') :
    Parallel P (List.Forall₂ V) (Rule.many r) (Rule.many r') := by
  have hn : ∀ (n : Nat) {k : Nat} (s s' : State τ), P k s.rest s'.rest →
      Rounds P V k s s' (upTo r n s) (upTo r' n s') := by
    intro n
    induction n with
    | zero => exact fun s s' hk => ⟨⟨0, .refl hk⟩, .nil⟩
    | succ n ih =>
      intro k s s' hk
      unfold upTo
      have hrun := h.run s s' hk
      generalize r s = o, r' s' = o' at hrun ⊢
      cases hrun with
      | fail => exact .nil hk
      | ok m hm hv =>
        have hrounds := ih _ _ hm.rest
        obtain ⟨l, hl⟩ := (Moves.rounds hm hrounds).moves
        exact ⟨⟨l, hl⟩, .cons hv hrounds.values⟩
  refine ⟨fun {k} s s' hk => ?_⟩
  have hrounds := hn (s.left + 1) s s' hk
  obtain ⟨n, hm⟩ := hrounds.moves
  unfold Rule.many
  rw [left_eq_of_pairing hlen hk]
  exact .ok n hm hrounds.values

/-- Recursive rules are unfolded as often on both sides. -/
theorem Parallel.recursive_of_length {f : Rule τ α → Rule τ α} {f' : Rule τ β → Rule τ β}
    (h : ∀ n, Parallel P V (unfold f n) (unfold f' n)) :
    Parallel P V (Rule.recursive f) (Rule.recursive f') := by
  refine ⟨fun {k} s s' hk => ?_⟩
  unfold Rule.recursive
  rw [left_eq_of_pairing hlen hk]
  exact (h _).run s s' hk

end lengths

/-- By induction on the number of attempts: items are skipped on both sides until both rules
succeed. -/
theorem retry_parallel [DecidableEq τ] (hany : P.Admits (some : τ → Option τ))
    (hend : ∀ k a b, P k a b → (a = [] ↔ b = [])) (h : Parallel P V r r') (n : Nat) :
    Parallel P V (retry r n) (retry r' n) := by
  induction n with
  | zero => exact ⟨fun _ _ _ => .fail _ _⟩
  | succ n ih =>
    refine ⟨fun {k} s s' hk => ?_⟩
    unfold retry
    have hstop := (Parallel.endOfInput hend).run s s' hk
    generalize endOfInput s = o, endOfInput s' = o' at hstop ⊢
    cases hstop with
    | ok => exact .fail _ _
    | fail t t' =>
      have hitem := (Parallel.item [.any] [.any] hany).run (t.back s) (t'.back s') hk
      dsimp only
      change Outcome P Eq k _ _ (anyItem (t.back s)) (anyItem (t'.back s')) at hitem
      generalize anyItem (t.back s) = p, anyItem (t'.back s') = p' at hitem ⊢
      cases hitem with
      | fail => exact .fail _ _
      | @ok x x' u u' m hm _ =>
        have hm' : Moves P k m s u s' u' :=
          hm.congr ⟨rfl, rfl, rfl⟩ ⟨rfl, rfl, rfl⟩ ⟨rfl, rfl, rfl⟩ ⟨rfl, rfl, rfl⟩
        have hnext := h.run u u' hm.rest
        dsimp only
        generalize r u = w, r' u' = w' at hnext ⊢
        have hagain : ∀ v v' : State τ, Outcome P V k s s'
            (retry r n { v.back u with pending := none })
            (retry r' n { v'.back u' with pending := none }) := fun v v' =>
          hm'.andThen ((ih.run { v.back u with pending := none } { v'.back u' with pending := none }
            hm.rest).congr ⟨rfl, rfl, rfl⟩ ⟨rfl, rfl, rfl⟩)
        cases hnext with
        | fail v v' => exact hagain v v'
        | @ok a b v v' l hl hv =>
          -- an attempt counts on both sides or on none, as it reports as many errors
          have hiff : v.faults.length = u.faults.length ↔ v'.faults.length = u'.faults.length := by
            have := hl.faults
            omega
          dsimp only
          by_cases hq : v.faults.length = u.faults.length
          · rw [if_pos hq, if_pos (hiff.1 hq)]
            exact .ok _ (hm'.trans hl) hv
          · rw [if_neg hq, if_neg (mt hiff.2 hq)]
            exact hagain v v'

/-- Skipping ahead goes equally far on both sides, as equally many items are left. -/
theorem Parallel.orSkip [DecidableEq τ] (hany : P.Admits (some : τ → Option τ))
    (hlen : ∀ k a b, P k a b → a.length = b.length) (h : Parallel P V r r') :
    Parallel P V (orSkip r) (orSkip r') := by
  refine ⟨fun {k} s s' hk => ?_⟩
  unfold Rule.orSkip
  have hrun := h.run s s' hk
  generalize r s = o, r' s' = o' at hrun ⊢
  cases hrun with
  | ok n hm hv => exact .ok n hm hv
  | fail t t' =>
    have hleft := left_eq_of_pairing hlen hk
    have hend : ∀ k a b, P k a b → (a = [] ↔ b = []) := by
      intro k a b hk
      rw [← List.length_eq_zero_iff, hlen _ _ _ hk, List.length_eq_zero_iff]
    have hretry := (retry_parallel hany hend h (s.left + 1)).run { t.back s with pending := none }
      { t'.back s' with pending := none } hk
    dsimp only
    rw [hleft]
    generalize retry r (s.left + 1) _ = p, retry r' (s.left + 1) _ = p' at hretry ⊢
    cases hretry with
    | fail => exact .fail _ _
    | ok n hm hv =>
      exact .ok n ((hm.report _ _).congr ⟨rfl, rfl, rfl⟩ ⟨rfl, rfl, rfl⟩ ⟨rfl, rfl, rfl⟩
        ⟨rfl, rfl, rfl⟩) hv

/-! ## The items left -/

/-- What `r` reads and gives depends on the items left alone. -/
class Steady (r : Rule τ α) : Prop where
  parallel : Parallel .same Eq r r

namespace Steady

instance (a : α) : Steady (pure a : Rule τ α) := ⟨.pure rfl⟩

instance bind {f : α → Rule τ γ} [h : Steady r] [hf : ∀ a, Steady (f a)] : Steady (r >>= f) :=
  ⟨h.parallel.bind fun a _ hab => hab ▸ (hf a).parallel⟩

instance {p : Prop} [Decidable p] [h : Steady r] [h' : Steady q] : Steady (if p then r else q) := by
  split
  · exact h
  · exact h'

instance [DecidableEq τ] (e : List (Expectation τ)) (f : τ → Option α) : Steady (item e f) :=
  ⟨.item e e (Pairing.admits_same f)⟩

instance [DecidableEq τ] (t : τ) : Steady (just t) := inferInstanceAs (Steady (item _ _))

instance [DecidableEq τ] (ts : List τ) : Steady (oneOf ts) := inferInstanceAs (Steady (item _ _))

instance [DecidableEq τ] (ts : List τ) : Steady (noneOf ts) := inferInstanceAs (Steady (item _ _))

instance [DecidableEq τ] (f : τ → Option α) : Steady (select f) :=
  inferInstanceAs (Steady (item _ _))

instance [DecidableEq τ] : Steady (anyItem : Rule τ τ) := inferInstanceAs (Steady (item _ _))

instance [DecidableEq τ] : Steady (endOfInput : Rule τ Unit) :=
  ⟨.endOfInput fun _ _ _ h => by rw [h.1]⟩

instance : Steady (choice [] : Rule τ α) := ⟨.choice_nil⟩

instance {rs : List (Rule τ α)} [h : Steady r] [hs : Steady (choice rs)] :
    Steady (choice (r :: rs)) := ⟨h.parallel.choice_cons hs.parallel⟩

theorem choice_map {f : γ → Rule τ α} (hf : ∀ c, Steady (f c)) (cs : List γ) {rs : List (Rule τ α)}
    (hs : Steady (choice rs)) : Steady (choice (cs.map f ++ rs)) := by
  induction cs with
  | nil => exact hs
  | cons c cs ih => exact inferInstanceAs (Steady (choice (f c :: (cs.map f ++ rs))))

instance [h : Steady r] : Steady (maybe r) :=
  ⟨h.parallel.maybe_eq⟩

instance [h : Steady r] : Steady (ahead r) := ⟨h.parallel.ahead⟩

instance [DecidableEq τ] [h : Steady r] : Steady (notAhead r) := ⟨h.parallel.notAhead⟩

instance {p : Rule τ γ} [h : Steady r] [hp : Steady p] : Steady (andIs r p) :=
  ⟨h.parallel.andIs hp.parallel⟩

theorem length_eq (k : Nat) (a b : List (Spanned τ)) (h : Pairing.same k a b) :
    a.length = b.length := by rw [h.1]

instance [h : Steady r] : Steady (many r) :=
  ⟨(h.parallel.many_of_length length_eq).mono fun _ _ hab => List.forall₂_eq_eq_eq ▸ hab⟩

instance [Consumes r] [h : Steady r] : Steady (many1 r) :=
  ⟨h.parallel.many1.mono fun _ _ hab => List.forall₂_eq_eq_eq ▸ hab⟩

instance skipMany [Steady r] : Steady (skipMany r) :=
  inferInstanceAs (Steady (many r >>= fun _ => pure ()))

theorem recursive {f : Rule τ α → Rule τ α} {T : Rule τ α → Prop} (hT : ∀ n, T (unfold f n))
    (h : ∀ r, T r → Steady r → Steady (f r)) : Steady (recursive f) := by
  have hn : ∀ n, Steady (unfold f n) := by
    intro n
    induction n with
    | zero => exact ⟨⟨fun _ _ _ => .fail _ _⟩⟩
    | succ n ih => exact h _ (hT n) ih
  exact ⟨.recursive_of_length length_eq fun n => (hn n).parallel⟩

instance {sep : Rule τ γ} [Consumes r] [Tame sep] [h : Steady r] [hs : Steady sep] :
    Steady (sepBy r sep) :=
  ⟨h.parallel.sepBy_eq hs.parallel⟩

instance between {l : Rule τ γ} {e : Rule τ δ} [Steady l] [Steady r] [Steady e] :
    Steady (between l r e) :=
  inferInstanceAs (Steady (l >>= fun _ => r >>= fun a => e >>= fun _ => pure a))

instance {pad : Rule τ γ} [Steady pad] [Steady r] : Steady (padded pad r) :=
  inferInstanceAs (Steady (Rule.between pad r pad))

instance spanned [Consumes r] [h : Steady r] : Steady (spanned r) :=
  ⟨h.parallel.spanned_eq Pairing.exact_same⟩

instance (span : Span) (reason : Complaint) : Steady (complain span reason : Rule τ Unit) :=
  ⟨.complain span span reason reason⟩

instance (errors : List SyntaxError) : Steady (putAside errors : Rule τ Unit) :=
  ⟨.putAside errors errors⟩

instance [h : Steady r] [hq : Steady q] : Steady (orRecover r q) :=
  ⟨h.parallel.orRecover hq.parallel⟩

end Steady

/-! ## What the items are -/

/-- How many items are read depends on what the items are alone. -/
class Paced (r : Rule τ α) (r' : Rule τ β) : Prop where
  parallel : Parallel .alike (fun _ _ => True) r r'

namespace Paced

instance (a : α) (b : β) : Paced (pure a : Rule τ α) (pure b : Rule τ β) := ⟨.pure trivial⟩

instance bind {f : α → Rule τ γ} {f' : β → Rule τ δ} [h : Paced r r']
    [hf : ∀ a b, Paced (f a) (f' b)] : Paced (r >>= f) (r' >>= f') :=
  ⟨h.parallel.bind fun a b _ => (hf a b).parallel⟩

section items

variable [DecidableEq τ]

instance (e e' : List (Expectation τ)) (f : τ → Option α) : Paced (item e f) (item e' f) :=
  ⟨(Parallel.item e e' (Pairing.admits_alike f)).mono fun _ _ _ => trivial⟩

instance (t : τ) : Paced (just t) (just t) := inferInstanceAs (Paced (item _ _) (item _ _))

instance (ts : List τ) : Paced (oneOf ts) (oneOf ts) :=
  inferInstanceAs (Paced (item _ _) (item _ _))

instance (ts : List τ) : Paced (noneOf ts) (noneOf ts) :=
  inferInstanceAs (Paced (item _ _) (item _ _))

instance : Paced (anyItem : Rule τ τ) anyItem := inferInstanceAs (Paced (item _ _) (item _ _))

instance (p : τ → Bool) : Paced (satisfy p) (satisfy p) :=
  ⟨(Parallel.satisfy (Pairing.admits_alike _)).mono fun _ _ _ => trivial⟩

instance justAll (ts : List τ) : Paced (justAll ts) (justAll ts) := by
  induction ts with
  | nil => exact inferInstanceAs (Paced (pure ()) (pure ()))
  | cons t ts ih =>
    exact inferInstanceAs (Paced (just t >>= fun _ => Rule.justAll ts)
      (just t >>= fun _ => Rule.justAll ts))

instance [h : Paced r r'] : Paced (notAhead r) (notAhead r') :=
  ⟨h.parallel.notAhead.mono fun _ _ _ => trivial⟩

instance [h : Paced r r'] : Paced (orSkip r) (orSkip r') :=
  ⟨h.parallel.orSkip (Pairing.admits_alike _) Pairing.length_eq_of_alike⟩

end items

instance : Paced (choice [] : Rule τ α) (choice [] : Rule τ β) := ⟨.choice_nil⟩

instance {rs : List (Rule τ α)} {rs' : List (Rule τ β)} [h : Paced r r']
    [hs : Paced (choice rs) (choice rs')] : Paced (choice (r :: rs)) (choice (r' :: rs')) :=
  ⟨h.parallel.choice_cons hs.parallel⟩

instance [h : Paced r r'] : Paced (maybe r) (maybe r') :=
  ⟨h.parallel.maybe.mono fun _ _ _ => trivial⟩

instance {p : Rule τ γ} {p' : Rule τ δ} [h : Paced r r'] [hp : Paced p p'] :
    Paced (andIs r p) (andIs r' p') := ⟨h.parallel.andIs hp.parallel⟩

instance [h : Paced r r'] : Paced (many r) (many r') :=
  ⟨(h.parallel.many_of_length Pairing.length_eq_of_alike).mono fun _ _ _ => trivial⟩

instance [Consumes r] [Consumes r'] [h : Paced r r'] : Paced (many1 r) (many1 r') :=
  ⟨h.parallel.many1.mono fun _ _ _ => trivial⟩

instance skipMany [Paced r r'] : Paced (skipMany r) (skipMany r') :=
  inferInstanceAs (Paced (many r >>= fun _ => pure ()) (many r' >>= fun _ => pure ()))

instance between {ε ζ : Type} {l : Rule τ γ} {l' : Rule τ δ} {e : Rule τ ε} {e' : Rule τ ζ}
    [Paced l l'] [Paced r r'] [Paced e e'] : Paced (between l r e) (between l' r' e') :=
  inferInstanceAs (Paced (l >>= fun _ => r >>= fun a => e >>= fun _ => pure a)
    (l' >>= fun _ => r' >>= fun a => e' >>= fun _ => pure a))

instance [h : Paced r r'] : Paced (spanned r) (spanned r') := ⟨h.parallel.spanned_val⟩

instance [h : Paced r r'] : Paced (recognized r) (recognized r') :=
  ⟨(h.parallel.recognized fun _ _ _ hk => by
    rw [List.map_take, List.map_take, hk.1]).mono fun _ _ _ => trivial⟩

instance (span span' : Span) (reason reason' : Complaint) :
    Paced (complain span reason : Rule τ Unit) (complain span' reason') :=
  ⟨(Parallel.complain span span' reason reason').mono fun _ _ _ => trivial⟩

theorem recursive {f : Rule τ α → Rule τ α} {f' : Rule τ β → Rule τ β}
    (h : ∀ r r', Paced r r' → Paced (f r) (f' r')) : Paced (recursive f) (recursive f') := by
  have hn : ∀ n, Paced (unfold f n) (unfold f' n) := by
    intro n
    induction n with
    | zero => exact ⟨⟨fun _ _ _ => .fail _ _⟩⟩
    | succ n ih => exact h _ _ ih
  exact ⟨.recursive_of_length Pairing.length_eq_of_alike fun n => (hn n).parallel⟩

end Paced

/-- Inputs that differ in places only are read to the end on both sides or on none. -/
theorem run_alike [DecidableEq τ] (h : Parallel .alike V r r') {items items' : List (Spanned τ)}
    (hitems : items.map (·.val) = items'.map (·.val)) (name name' : τ → String)
    (finish finish' : Span) :
    Option.Rel V (Rule.run name r items finish).1 (Rule.run name' r' items' finish').1 := by
  have hend : ∀ (k : Nat) (a b : List (Spanned τ)), Pairing.alike k a b → (a = [] ↔ b = []) := by
    intro k a b hk
    rw [← List.length_eq_zero_iff, ← List.length_eq_zero_iff, Pairing.length_eq_of_alike _ _ _ hk]
  have hwhole : Parallel .alike V (whole r) (whole r') :=
    h.bind fun _ _ hv => (Parallel.endOfInput hend).bind fun _ _ _ => .pure hv
  have hrun := hwhole.run (.start items finish) (.start items' finish') ⟨hitems, rfl⟩
  rw [run_fst, run_fst]
  generalize whole r _ = o, whole r' _ = o' at hrun ⊢
  cases hrun with
  | fail => exact .none
  | ok _ _ hv => exact .some hv

end Rule

end CueScope.Grammar
