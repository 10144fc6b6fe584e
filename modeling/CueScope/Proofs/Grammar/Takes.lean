import CueScope.Proofs.Grammar.Reads

/-!
# Where rules succeed

* `Rule.Takes r ts rest P`: before the items `ts` and then `rest`, wherever they stand, the rule `r`
  reads `ts` without an error and yields a value that `P` holds of.
* `Rule.Refuses r rest`: before the items `rest`, the rule `r` fails.
* `TakesAll`, `TakesEach`: items that a repetition, or one with separators, reads turn by turn.

Errors that were met before are kept, those of failed attempts are forgotten; none are read aside.
-/

namespace CueScope.Grammar

variable {τ α β γ : Type}

/-- The items that are left, without their places. -/
def State.ahead (s : State τ) : List τ := s.rest.map (·.val)

/-- The state `t` comes after `s` without further errors. -/
structure State.Same (s t : State τ) : Prop where
  faults : t.faults = s.faults
  aside : t.aside = s.aside

namespace State.Same

variable {s t u : State τ}

theorem refl : s.Same s := ⟨rfl, rfl⟩

theorem trans (h : s.Same t) (h' : t.Same u) : s.Same u :=
  ⟨h'.faults.trans h.faults, h'.aside.trans h.aside⟩

end State.Same

theorem State.left_eq_ahead (s : State τ) : s.left = s.ahead.length := by
  rw [State.ahead, List.length_map, s.left_eq]

namespace Rule

/-- Before `ts` and `rest`, the rule reads `ts` and yields a value of which `P` holds. -/
structure Takes (r : Rule τ α) (ts rest : List τ) (P : α → Prop) : Prop where
  takes : ∀ s : State τ, s.ahead = ts ++ rest →
    ∃ a t, r s = (some a, t) ∧ P a ∧ t.ahead = rest ∧ s.Same t

/-- Before `rest` the rule fails. -/
structure Refuses (r : Rule τ α) (rest : List τ) : Prop where
  refuses : ∀ s : State τ, s.ahead = rest → ∃ t, r s = (none, t) ∧ t.aside = s.aside

variable {r : Rule τ α} {ts us rest : List τ} {P P' : α → Prop} {Q : β → Prop}

theorem Takes.mono (h : Takes r ts rest P) (hP : ∀ {a}, P a → P' a) : Takes r ts rest P' := by
  refine ⟨fun s hs => ?_⟩
  obtain ⟨a, t, hr, ha, ht⟩ := h.takes s hs
  exact ⟨a, t, hr, hP ha, ht⟩

/-! ## Sequence -/

theorem Takes.pure {a : α} (ha : P a) : Takes (pure a : Rule τ α) [] rest P :=
  ⟨fun s hs => ⟨a, s, rfl, ha, hs, .refl⟩⟩

theorem Takes.bind {f : α → Rule τ β} (h : Takes r ts (us ++ rest) P)
    (hf : ∀ a, P a → Takes (f a) us rest Q) : Takes (r >>= f) (ts ++ us) rest Q := by
  refine ⟨fun s hs => ?_⟩
  obtain ⟨a, t, hr, ha, ht, hsame⟩ := h.takes s (by rw [hs, List.append_assoc])
  obtain ⟨b, u, hu, hb, hrest, hsame'⟩ := (hf a ha).takes t ht
  refine ⟨b, u, ?_, hb, hrest, hsame.trans hsame'⟩
  change Rule.bind r f s = _
  simp only [Rule.bind, hr, hu]

/-- What comes second reads nothing. -/
theorem Takes.bind_nil {f : α → Rule τ β} (h : Takes r ts rest P)
    (hf : ∀ a, P a → Takes (f a) [] rest Q) : Takes (r >>= f) ts rest Q := by
  have hall : Takes (r >>= f) (ts ++ []) rest Q := .bind h hf
  rwa [List.append_nil] at hall

theorem Takes.map {f : α → β} (h : Takes r ts rest P) (hf : ∀ a, P a → Q (f a)) :
    Takes (do let a ← r; Pure.pure (f a)) ts rest Q :=
  h.bind_nil fun a ha => .pure (hf a ha)

theorem Refuses.bind {f : α → Rule τ β} (h : Refuses r rest) : Refuses (r >>= f) rest := by
  refine ⟨fun s hs => ?_⟩
  obtain ⟨t, hr, ht⟩ := h.refuses s hs
  refine ⟨t, ?_, ht⟩
  change Rule.bind r f s = _
  simp only [Rule.bind, hr]

theorem Refuses.bind_right {f : α → Rule τ β} (h : Takes r ts rest P)
    (hf : ∀ a, P a → Refuses (f a) rest) : Refuses (r >>= f) (ts ++ rest) := by
  refine ⟨fun s hs => ?_⟩
  obtain ⟨a, t, hr, ha, ht, hsame⟩ := h.takes s hs
  obtain ⟨u, hu, haside⟩ := (hf a ha).refuses t ht
  refine ⟨u, ?_, haside.trans hsame.aside⟩
  change Rule.bind r f s = _
  simp only [Rule.bind, hr, hu]

/-! ## Single items -/

section items

variable [DecidableEq τ]

theorem Takes.item {expected : List (Expectation τ)} {f : τ → Option α} {x : τ} {a : α}
    (hx : f x = some a) : Takes (item expected f) [x] rest (· = a) := by
  refine ⟨fun s hs => ?_⟩
  obtain ⟨y, ys, hrest, rfl, hys⟩ := List.map_eq_cons_iff.1 hs
  unfold Rule.item
  split
  · simp_all
  · rename_i z zs hz
    obtain ⟨rfl, rfl⟩ := List.cons.inj (hrest.symm.trans hz)
    rw [hx]
    exact ⟨a, _, rfl, rfl, hys, rfl, rfl⟩

theorem Refuses.item {expected : List (Expectation τ)} {f : τ → Option α}
    (h : ∀ x ∈ rest.head?, f x = none) : Refuses (item expected f) rest := by
  refine ⟨fun s hs => ?_⟩
  unfold Rule.item
  split
  · exact ⟨_, rfl, rfl⟩
  · rename_i x xs hx
    have hnone : f x.val = none := by
      refine h x.val ?_
      rw [← hs, State.ahead, hx]
      rfl
    rw [hnone]
    exact ⟨_, rfl, rfl⟩

theorem Takes.just (x : τ) : Takes (just x) [x] rest (· = x) := .item (by simp)

theorem Refuses.just {x : τ} (h : ∀ y ∈ rest.head?, y ≠ x) : Refuses (just x) rest :=
  .item fun y hy => by simp [h y hy]

theorem Takes.justAll (ts : List τ) : Takes (justAll ts) ts rest fun _ => True := by
  induction ts with
  | nil => exact .pure trivial
  | cons t ts ih => exact (Takes.just t).bind fun _ _ => ih

/-- By induction on the items, the first one that differs is refused. -/
theorem Refuses.justAll {ts : List τ} (h : ¬ ts <+: rest) : Refuses (justAll ts) rest := by
  induction ts generalizing rest with
  | nil => exact absurd List.nil_prefix h
  | cons t ts ih =>
    by_cases hhead : rest.head? = some t
    · obtain ⟨us, rfl⟩ := List.head?_eq_some_iff.1 hhead
      rw [List.cons_prefix_cons, and_iff_right rfl] at h
      show Refuses _ ([t] ++ us)
      exact .bind_right (Takes.just t) fun _ _ => ih h
    · refine (Refuses.just fun y hy => ?_).bind
      rintro rfl
      exact hhead hy

theorem Takes.oneOf {xs : List τ} {x : τ} (h : x ∈ xs) : Takes (oneOf xs) [x] rest (· = x) :=
  .item (by simp [h])

theorem Refuses.oneOf {xs : List τ} (h : ∀ y ∈ rest.head?, y ∉ xs) : Refuses (oneOf xs) rest :=
  .item fun y hy => by simp [h y hy]

theorem Takes.noneOf {xs : List τ} {x : τ} (h : x ∉ xs) : Takes (noneOf xs) [x] rest (· = x) :=
  .item (by simp [h])

theorem Refuses.noneOf {xs : List τ} (h : ∀ y ∈ rest.head?, y ∈ xs) : Refuses (noneOf xs) rest :=
  .item fun y hy => by simp [h y hy]

theorem Takes.select {f : τ → Option α} {x : τ} {a : α} (hx : f x = some a) :
    Takes (select f) [x] rest (· = a) := .item hx

theorem Refuses.select {f : τ → Option α} (h : ∀ x ∈ rest.head?, f x = none) :
    Refuses (select f) rest := .item h

theorem Refuses.satisfy {p : τ → Bool} (h : ∀ x ∈ rest.head?, p x = false) :
    Refuses (satisfy p) rest := by
  refine ⟨fun s hs => ?_⟩
  cases rest with
  | nil =>
    have hitem : Refuses (Rule.item [.any] some : Rule τ τ) [] := .item (by simp)
    obtain ⟨t, ht, haside⟩ := hitem.refuses s hs
    exact ⟨t, by rw [Rule.satisfy, Rule.anyItem, ht], haside⟩
  | cons x xs =>
    have hitem : Takes (Rule.item [.any] some) [x] xs (· = x) := .item rfl
    obtain ⟨y, t, ht, rfl, -, hsame⟩ := hitem.takes s hs
    refine ⟨t.fail (s.spanTo t) none [.somethingElse], ?_, hsame.aside⟩
    rw [Rule.satisfy, Rule.anyItem, ht]
    simp [h y rfl]

theorem Takes.anyItem {x : τ} : Takes anyItem [x] rest (· = x) := .item rfl

theorem Takes.endOfInput : Takes (endOfInput : Rule τ Unit) [] [] fun _ => True := by
  refine ⟨fun s hs => ⟨(), s, ?_, trivial, hs, .refl⟩⟩
  have hrest : s.rest = [] := List.map_eq_nil_iff.1 hs
  unfold Rule.endOfInput
  split
  · rfl
  · simp_all

end items

/-! ## Alternatives and looking ahead -/

theorem Takes.choice_head {rs : List (Rule τ α)} (h : Takes r ts rest P) :
    Takes (choice (r :: rs)) ts rest P := by
  refine ⟨fun s hs => ?_⟩
  obtain ⟨a, t, hr, ht⟩ := h.takes s hs
  exact ⟨a, t, by rw [choice, hr], ht⟩

theorem Takes.choice_tail {rs : List (Rule τ α)} (h : Refuses r (ts ++ rest))
    (hs : Takes (choice rs) ts rest P) : Takes (choice (r :: rs)) ts rest P := by
  refine ⟨fun s hahead => ?_⟩
  obtain ⟨t, hr, haside⟩ := h.refuses s hahead
  obtain ⟨a, u, hu, ha, hrest, hsame⟩ := hs.takes (t.back s) hahead
  exact ⟨a, u, by rw [choice, hr]; exact hu, ha, hrest, hsame.faults, hsame.aside.trans haside⟩

theorem Refuses.choice_nil : Refuses (choice [] : Rule τ α) rest := ⟨fun s _ => ⟨s, rfl, rfl⟩⟩

theorem Refuses.choice_cons {rs : List (Rule τ α)} (h : Refuses r rest)
    (hs : Refuses (choice rs) rest) : Refuses (choice (r :: rs)) rest := by
  refine ⟨fun s hahead => ?_⟩
  obtain ⟨t, hr, haside⟩ := h.refuses s hahead
  obtain ⟨u, hu, haside'⟩ := hs.refuses (t.back s) hahead
  exact ⟨u, by rw [choice, hr]; exact hu, haside'.trans haside⟩

theorem Takes.maybe (h : Takes r ts rest P) :
    Takes (maybe r) ts rest fun o => ∃ a, o = some a ∧ P a := by
  refine ⟨fun s hs => ?_⟩
  obtain ⟨a, t, hr, ha, ht⟩ := h.takes s hs
  exact ⟨some a, t, by rw [Rule.maybe, hr], ⟨a, rfl, ha⟩, ht⟩

theorem Takes.maybe_none (h : Refuses r rest) : Takes (Rule.maybe r) [] rest (· = none) := by
  refine ⟨fun s hs => ?_⟩
  obtain ⟨t, hr, haside⟩ := h.refuses s hs
  exact ⟨none, t.back s, by rw [Rule.maybe, hr], rfl, hs, rfl, haside⟩

theorem Takes.ahead (h : Takes r ts rest P) : Takes (ahead r) [] (ts ++ rest) P := by
  refine ⟨fun s hs => ?_⟩
  obtain ⟨a, t, hr, ha, -, hsame⟩ := h.takes s hs
  exact ⟨a, t.back s, by rw [Rule.ahead, hr], ha, hs, rfl, hsame.aside⟩

theorem Refuses.notAhead [DecidableEq τ] (h : Takes r ts rest P) :
    Refuses (notAhead r) (ts ++ rest) := by
  refine ⟨fun s hs => ?_⟩
  obtain ⟨a, t, hr, -, -, hsame⟩ := h.takes { s with pending := none } hs
  have haside : t.aside = s.aside := hsame.aside
  unfold Rule.notAhead
  rw [hr]
  dsimp only
  split <;> exact ⟨_, rfl, haside⟩

theorem Takes.notAhead [DecidableEq τ] (h : Refuses r rest) :
    Takes (notAhead r) [] rest fun _ => True := by
  refine ⟨fun s hs => ?_⟩
  obtain ⟨t, hr, haside⟩ := h.refuses { s with pending := none } hs
  refine ⟨(), { t.back s with pending := s.pending }, ?_, trivial, hs, rfl, haside⟩
  rw [Rule.notAhead, hr]

theorem Takes.andIs_ahead {r' : Rule τ β} {vs : List τ} (h : Takes r ts rest P)
    (h' : Takes r' us vs Q) (heq : ts ++ rest = us ++ vs) : Takes (andIs r r') ts rest P := by
  refine ⟨fun s hs => ?_⟩
  obtain ⟨a, t, ht, ha, hrest, hsame⟩ := h.takes s hs
  obtain ⟨b, u, hu, -, -, hsame'⟩ := h'.takes (t.back s) (hs.trans heq)
  refine ⟨a, u.back t, ?_, ha, hrest, hsame.faults, hsame'.aside.trans hsame.aside⟩
  rw [Rule.andIs, ht]
  dsimp only
  rw [hu]

theorem Takes.andIs {r' : Rule τ β} (h : Takes r ts rest P) (h' : Takes r' [] (ts ++ rest) Q) :
    Takes (andIs r r') ts rest P := h.andIs_ahead h' rfl

theorem Refuses.andIs_left {r' : Rule τ β} (h : Refuses r rest) : Refuses (andIs r r') rest := by
  refine ⟨fun s hs => ?_⟩
  obtain ⟨t, hr, haside⟩ := h.refuses s hs
  exact ⟨t, by rw [Rule.andIs, hr], haside⟩

/-- Where the second rule fails, it does not matter what the first one does. -/
theorem Refuses.andIs {r' : Rule τ β} (h : Refuses r' (ts ++ rest)) (hr : Takes r ts rest P) :
    Refuses (andIs r r') (ts ++ rest) := by
  refine ⟨fun s hs => ?_⟩
  obtain ⟨a, t, ht, -, -, hsame⟩ := hr.takes s hs
  obtain ⟨u, hu, haside⟩ := h.refuses (t.back s) hs
  exact ⟨u, by rw [Rule.andIs, ht]; dsimp only; rw [hu], haside.trans hsame.aside⟩

/-! ## Repetition and recursion -/

/-- `TakesAll r f rest ts bs`: before `rest`, the items `ts` are read turn by turn; `f` maps the values
to `bs`. -/
inductive TakesAll (r : Rule τ α) (f : α → β) (rest : List τ) : List τ → List β → Prop
  | nil : Refuses r rest → TakesAll r f rest [] []
  | cons {ts us b bs} : ts ≠ [] → Takes r ts (us ++ rest) (f · = b) → TakesAll r f rest us bs →
      TakesAll r f rest (ts ++ us) (b :: bs)

/-- By induction on the turns, with fuel for each of them. -/
theorem upTo_takes {f : α → β} {bs : List β} (h : TakesAll r f rest ts bs) {n : Nat} {s : State τ}
    (hs : s.ahead = ts ++ rest) (hn : ts.length < n) :
    ∃ as t, upTo r n s = (as, t) ∧ as.map f = bs ∧ t.ahead = rest ∧ s.Same t := by
  induction h generalizing n s with
  | nil hr =>
    obtain ⟨n, rfl⟩ : ∃ k, n = k + 1 := ⟨n - 1, by omega⟩
    obtain ⟨t, ht, haside⟩ := hr.refuses s hs
    exact ⟨[], t.back s, by rw [upTo, ht], rfl, hs, rfl, haside⟩
  | @cons ts us b bs hne hr _ ih =>
    obtain ⟨n, rfl⟩ : ∃ k, n = k + 1 := ⟨n - 1, by omega⟩
    have hpos := List.length_pos_of_ne_nil hne
    rw [List.length_append] at hn
    obtain ⟨a, t, ht, rfl, hrest, hsame⟩ := hr.takes s (by rw [hs, List.append_assoc])
    obtain ⟨as, u, hu, rfl, hrest', hsame'⟩ := ih (n := n) hrest (by omega)
    exact ⟨a :: as, u, by rw [upTo, ht]; dsimp only; rw [hu], rfl, hrest', hsame.trans hsame'⟩

theorem TakesAll.many {f : α → β} {bs : List β} (h : TakesAll r f rest ts bs) :
    Takes (many r) ts rest fun as => as.map f = bs := by
  refine ⟨fun s hs => ?_⟩
  have hlen : ts.length < s.left + 1 := by
    rw [s.left_eq_ahead, hs, List.length_append]
    omega
  obtain ⟨as, t, hup, hmap, hrest, hsame⟩ := upTo_takes h hs hlen
  exact ⟨as, t, by rw [Rule.many, hup], hmap, hrest, hsame⟩

theorem TakesAll.many1 {f : α → β} {bs : List β} (h : Takes r ts (us ++ rest) P)
    (hs : TakesAll r f rest us bs) : Takes (many1 r) (ts ++ us) rest fun _ => True := by
  refine ⟨fun s hahead => ?_⟩
  obtain ⟨a, t, ht, -, hrest, hsame⟩ := h.takes s (by rw [hahead, List.append_assoc])
  have hlen : us.length < s.left + 1 := by
    rw [s.left_eq_ahead, hahead, List.length_append, List.length_append]
    omega
  obtain ⟨as, u, hup, -, hrest', hsame'⟩ := upTo_takes hs hrest hlen
  exact ⟨a :: as, u, by rw [Rule.many1, ht]; dsimp only; rw [hup], trivial, hrest',
    hsame.trans hsame'⟩

theorem Refuses.many1 (h : Refuses r rest) : Refuses (many1 r) rest := by
  refine ⟨fun s hs => ?_⟩
  obtain ⟨t, hr, haside⟩ := h.refuses s hs
  exact ⟨t.back s, by rw [Rule.many1, hr], haside⟩

/-- Nothing is skipped where the rule fails. -/
theorem Takes.skipMany (h : Refuses r rest) : Takes (skipMany r) [] rest fun _ => True :=
  (TakesAll.nil (f := id) h).many.map fun _ _ => trivial

theorem Takes.recursive {f : Rule τ α → Rule τ α}
    (h : ∀ n, ts.length < n → Takes (unfold f n) ts rest P) : Takes (recursive f) ts rest P := by
  refine ⟨fun s hs => (h (s.left + 1) ?_).takes s hs⟩
  rw [s.left_eq_ahead, hs, List.length_append]
  omega

theorem Refuses.unfold {f : Rule τ α → Rule τ α} (h : ∀ r, Refuses (f r) rest) (n : Nat) :
    Refuses (unfold f n) rest := by
  cases n with
  | zero => exact ⟨fun s _ => ⟨s, rfl, rfl⟩⟩
  | succ n => exact h _

theorem Refuses.recursive {f : Rule τ α → Rule τ α} (h : ∀ r, Refuses (f r) rest) :
    Refuses (recursive f) rest := ⟨fun s hs => (Refuses.unfold h (s.left + 1)).refuses s hs⟩

/-- The rule is not used again where it always fails. -/
theorem Takes.recursive_once {f : Rule τ α → Rule τ α} (hf : ∀ r, Refuses (f r) us)
    (h : ∀ r, Refuses r us → Takes (f r) ts rest P) : Takes (Rule.recursive f) ts rest P :=
  ⟨fun s hs => (h _ (Refuses.unfold hf s.left)).takes s hs⟩

/-- `TakesEach r sep f rest ts bs`: before `rest`, the items `ts` are read turn by turn, each a
separator and a further item; `f` maps the values of the items to `bs`. -/
inductive TakesEach (r : Rule τ α) (sep : Rule τ γ) (f : α → β) (rest : List τ) :
    List τ → List β → Prop
  | nil : Refuses sep rest → TakesEach r sep f rest [] []
  | cons {x ts us b bs} : Takes sep [x] (ts ++ us ++ rest) (fun _ => True) →
      Takes r ts (us ++ rest) (f · = b) → TakesEach r sep f rest us bs →
      TakesEach r sep f rest (x :: (ts ++ us)) (b :: bs)

/-- By induction on the turns, each a separator and an item. -/
theorem sepUpTo_takes {sep : Rule τ γ} {f : α → β} {bs : List β} (h : TakesEach r sep f rest ts bs)
    {n : Nat} {s : State τ} (hs : s.ahead = ts ++ rest) (hn : ts.length < n) :
    ∃ as t, sepUpTo r sep n s = (as, t) ∧ as.map f = bs ∧ t.ahead = rest ∧ s.Same t := by
  induction h generalizing n s with
  | nil hr =>
    obtain ⟨n, rfl⟩ : ∃ k, n = k + 1 := ⟨n - 1, by omega⟩
    obtain ⟨t, ht, haside⟩ := hr.refuses s hs
    exact ⟨[], t.back s, by rw [sepUpTo, ht], rfl, hs, rfl, haside⟩
  | @cons x ts us b bs hsep hr _ ih =>
    obtain ⟨n, rfl⟩ : ∃ k, n = k + 1 := ⟨n - 1, by omega⟩
    rw [List.length_cons, List.length_append] at hn
    obtain ⟨_, t, ht, -, hrest, hsame⟩ := hsep.takes s (by rw [hs]; simp)
    obtain ⟨a, u, hu, rfl, hrest', hsame'⟩ := hr.takes t (by rw [hrest, List.append_assoc])
    obtain ⟨as, v, hv, rfl, hrest'', hsame''⟩ := ih (n := n) hrest' (by omega)
    refine ⟨a :: as, v, ?_, rfl, hrest'', (hsame.trans hsame').trans hsame''⟩
    rw [sepUpTo, ht]
    dsimp only
    rw [hu]
    dsimp only
    rw [hv]

/-- Items with separators between them only. -/
theorem TakesEach.sepBy {sep : Rule τ γ} {f : α → β} {b : β} {bs : List β}
    (hsep : Refuses sep (ts ++ us ++ rest)) (h : Takes r ts (us ++ rest) (f · = b))
    (hs : TakesEach r sep f rest us bs) :
    Takes (sepBy r sep) (ts ++ us) rest fun as => as.map f = b :: bs := by
  refine ⟨fun s hahead => ?_⟩
  obtain ⟨t, ht, haside⟩ := hsep.refuses s hahead
  obtain ⟨a, u, hu, rfl, hrest, hsame⟩ :=
    h.takes (t.back s) (by rw [← List.append_assoc]; exact hahead)
  have hlen : us.length < s.left + 1 := by
    rw [s.left_eq_ahead, hahead, List.length_append, List.length_append]
    omega
  obtain ⟨as, v, hv, rfl, hrest', hsame'⟩ := sepUpTo_takes hs hrest hlen
  have hstart : s.Same (t.back s) := ⟨rfl, haside⟩
  refine ⟨a :: as, v, ?_, rfl, hrest', (hstart.trans hsame).trans hsame'⟩
  unfold Rule.sepBy Rule.maybe
  rw [ht]
  dsimp only
  rw [hu]
  dsimp only
  rw [hv]

theorem Takes.sepBy_nil {sep : Rule τ γ} (hsep : Refuses sep rest) (h : Refuses r rest) :
    Takes (sepBy r sep) [] rest (· = []) := by
  refine ⟨fun s hs => ?_⟩
  obtain ⟨t, ht, haside⟩ := hsep.refuses s hs
  obtain ⟨u, hu, haside'⟩ := h.refuses (t.back s) hs
  refine ⟨[], u.back (t.back s), ?_, rfl, hs, rfl, haside'.trans haside⟩
  unfold Rule.sepBy Rule.maybe
  rw [ht]
  dsimp only
  rw [hu]

theorem Takes.between {l : Rule τ β} {r' : Rule τ γ} {x y : τ} (hl : Takes l [x] (ts ++ y :: rest) Q)
    (h : Takes r ts (y :: rest) P) (hr : Takes r' [y] rest fun _ => True) :
    Takes (between l r r') (x :: (ts ++ [y])) rest P := by
  have hl : Takes l [x] (ts ++ [y] ++ rest) Q := by simpa using hl
  have h : Takes r ts ([y] ++ rest) P := h
  exact hl.bind fun _ _ => h.bind fun _ ha => hr.map fun _ _ => ha

theorem Takes.padded {pad : Rule τ β} (hl : Takes pad [] (ts ++ rest) Q) (h : Takes r ts rest P)
    (hr : Takes pad [] rest Q) : Takes (padded pad r) ts rest P := by
  exact hl.bind fun _ _ => h.bind_nil fun a ha => hr.map (f := fun _ => a) fun _ _ => ha

/-! ## Places, recovery and whole inputs -/

theorem Takes.spanned (h : Takes r ts rest P) : Takes (spanned r) ts rest fun x => P x.val := by
  refine ⟨fun s hs => ?_⟩
  obtain ⟨a, t, hr, ha, ht⟩ := h.takes s hs
  exact ⟨⟨a, s.spanTo t⟩, t, by rw [Rule.spanned, hr], ha, ht⟩

theorem Refuses.spanned (h : Refuses r rest) : Refuses (spanned r) rest := by
  refine ⟨fun s hs => ?_⟩
  obtain ⟨t, hr, haside⟩ := h.refuses s hs
  exact ⟨t, by rw [Rule.spanned, hr], haside⟩

theorem Refuses.recognized (h : Refuses r rest) : Refuses (recognized r) rest := by
  refine ⟨fun s hs => ?_⟩
  obtain ⟨t, hr, haside⟩ := h.refuses s hs
  exact ⟨t, by rw [Rule.recognized, hr], haside⟩

theorem Takes.orRecover {other : Rule τ α} (h : Takes r ts rest P) :
    Takes (orRecover r other) ts rest P := by
  refine ⟨fun s hs => ?_⟩
  obtain ⟨a, t, hr, ht⟩ := h.takes s hs
  exact ⟨a, t, by rw [Rule.orRecover, hr], ht⟩

theorem Refuses.orRecover {other : Rule τ α} (h : Refuses r rest) (ho : Refuses other rest) :
    Refuses (orRecover r other) rest := by
  refine ⟨fun s hs => ?_⟩
  obtain ⟨t, hr, haside⟩ := h.refuses s hs
  obtain ⟨u, hu, haside'⟩ := ho.refuses { t.back s with pending := none } hs
  refine ⟨{ u.back s with pending := t.pending }, ?_, haside'.trans haside⟩
  rw [Rule.orRecover, hr]
  dsimp only
  rw [hu]

theorem Takes.orSkip [DecidableEq τ] (h : Takes r ts rest P) : Takes (orSkip r) ts rest P := by
  refine ⟨fun s hs => ?_⟩
  obtain ⟨a, t, hr, ht⟩ := h.takes s hs
  exact ⟨a, t, by rw [Rule.orSkip, hr], ht⟩

/-- At the end of the input there is nothing to skip. -/
theorem Refuses.orSkip [DecidableEq τ] (h : Refuses r []) : Refuses (orSkip r) [] := by
  refine ⟨fun s hs => ?_⟩
  obtain ⟨t, hr, haside⟩ := h.refuses s hs
  obtain ⟨_, u, hu, -, -, hsame⟩ := Takes.endOfInput.takes { t.back s with pending := none } hs
  refine ⟨{ u.back s with pending := t.pending }, ?_, hsame.aside.trans haside⟩
  rw [Rule.orSkip, hr]
  dsimp only
  rw [retry, hu]

/-- A rule that takes all items has a value for the whole input and no errors. -/
theorem Takes.run [DecidableEq τ] {name : τ → String} {items : List (Spanned τ)} {finish : Span}
    (h : Takes r (items.map (·.val)) [] P) :
    ∃ a, run name r items finish = (some a, []) ∧ P a := by
  have hwhole : Takes (whole r) (items.map (·.val)) [] P := h.bind_nil fun a ha =>
    (Takes.endOfInput (τ := τ)).map (f := fun _ => a) fun _ _ => ha
  obtain ⟨a, t, hr, ha, -, hsame⟩ :=
    hwhole.takes (State.start items finish) (by simp [State.ahead, State.start])
  have hfaults : t.faults = [] := hsame.faults
  have haside : t.aside = [] := hsame.aside
  refine ⟨a, Prod.ext ?_ ?_, ha⟩
  · rw [run_fst, hr]
  · rw [run_snd, hr]
    simp [hfaults, haside]

end Rule

end CueScope.Grammar
