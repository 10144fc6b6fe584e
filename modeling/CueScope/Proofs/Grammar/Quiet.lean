import CueScope.Proofs.Grammar.Reads

/-!
# Errors on the way

A rule only ever adds errors, and one that recovers adds at least one. So where reading ends without
an error, nothing was recovered from on the way there.

* `Quiet s t`: no error was added between two states.
* `Rule.Logs`: errors are only added. Instances for all ways to build rules find this for every
  grammar.
* `Rule.Gives D r Q`: where `r` succeeds without an error, `Q` holds of the items read, the items left
  and the value; if `D` holds, then also where there are errors. There is one lemma for each way to
  build rules.
* `many_stops`, `many1_stops`: a repetition ends where its rule fails. `choice_fails`, `notAhead_ok` and
  the lemmas after them say where the other rules fail.
-/

namespace CueScope.Grammar

variable {τ α β γ : Type}

/-- No error was added between `s` and `t`. -/
structure Quiet (s t : State τ) : Prop where
  faults : t.faults.length ≤ s.faults.length
  aside : t.aside.length ≤ s.aside.length

namespace Rule

/-- Errors are only added: those to report where the rule succeeds, those read aside always. -/
class Logs (r : Rule τ α) : Prop where
  aside : ∀ s, s.aside.length ≤ (r s).2.aside.length
  faults : ∀ {s : State τ} {a : α} {t : State τ}, r s = (some a, t) →
    s.faults.length ≤ t.faults.length

theorem Logs.aside_le {r : Rule τ α} (h : Logs r) {s t : State τ} {o : Option α}
    (hr : r s = (o, t)) : s.aside.length ≤ t.aside.length := by
  have := h.aside s
  rwa [hr] at this

/-- A quiet way is quiet up to every place on it. -/
theorem Logs.quiet_left {r : Rule τ α} (h : Logs r) {s t u : State τ} {a : α}
    (hr : r t = (some a, u)) (hq : Quiet s u) : Quiet s t :=
  ⟨Nat.le_trans (h.faults hr) hq.faults, Nat.le_trans (h.aside_le hr) hq.aside⟩

/-- A quiet way is quiet from every place on it. -/
theorem Logs.quiet_right {r : Rule τ α} (h : Logs r) {s t u : State τ} {a : α}
    (hr : r s = (some a, t)) (hq : Quiet s u) : Quiet t u :=
  ⟨Nat.le_trans hq.faults (h.faults hr), Nat.le_trans hq.aside (h.aside_le hr)⟩

/-- What was tried before on a quiet way was quiet, too. -/
theorem Logs.quiet_back {r : Rule τ α} (h : Logs r) {s t u : State τ} {o : Option α}
    (hr : r s = (o, t)) (hq : Quiet s u) : Quiet (t.back s) u := by
  have haside := h.aside_le hr
  exact ⟨hq.faults, Nat.le_trans hq.aside haside⟩

/-! ## Errors are only added -/

variable {r : Rule τ α}

theorem Logs.of_run {r : Rule τ α} (h : ∀ s, s.aside.length ≤ (r s).2.aside.length ∧
    ((r s).1.isSome → s.faults.length ≤ (r s).2.faults.length)) : Logs r := by
  refine ⟨fun s => (h s).1, fun {s a t} hr => ?_⟩
  have := (h s).2
  rw [hr] at this
  exact this rfl

instance (a : α) : Logs (pure a : Rule τ α) :=
  .of_run fun _ => ⟨Nat.le_refl _, fun _ => Nat.le_refl _⟩

instance Logs.bind {f : α → Rule τ β} [hr : Logs r] [hf : ∀ a, Logs (f a)] : Logs (r >>= f) := by
  refine .of_run fun s => ?_
  change s.aside.length ≤ (Rule.bind r f s).2.aside.length ∧
    ((Rule.bind r f s).1.isSome → s.faults.length ≤ (Rule.bind r f s).2.faults.length)
  unfold Rule.bind
  split
  · rename_i a t ht
    refine ⟨Nat.le_trans (hr.aside_le ht) ((hf a).aside t), fun hs => ?_⟩
    obtain ⟨b, hb⟩ := Option.isSome_iff_exists.1 hs
    exact Nat.le_trans (hr.faults ht) ((hf a).faults (Prod.ext hb rfl))
  · rename_i t ht
    exact ⟨hr.aside_le ht, fun hs => by cases hs⟩

instance {p : Prop} [Decidable p] {r' : Rule τ α} [h : Logs r] [h' : Logs r'] :
    Logs (if p then r else r') := by
  split
  · exact h
  · exact h'

section items

variable [DecidableEq τ]

instance (expected : List (Expectation τ)) (f : τ → Option α) : Logs (item expected f) := by
  refine .of_run fun s => ?_
  unfold item
  split
  · exact ⟨Nat.le_refl _, fun hs => by cases hs⟩
  · split
    · exact ⟨Nat.le_refl _, fun _ => Nat.le_refl _⟩
    · exact ⟨Nat.le_refl _, fun hs => by cases hs⟩

instance (t : τ) : Logs (just t) := inferInstanceAs (Logs (item _ _))

instance (ts : List τ) : Logs (oneOf ts) := inferInstanceAs (Logs (item _ _))

instance (ts : List τ) : Logs (noneOf ts) := inferInstanceAs (Logs (item _ _))

instance (f : τ → Option α) : Logs (select f) := inferInstanceAs (Logs (item _ _))

instance : Logs (anyItem : Rule τ τ) := inferInstanceAs (Logs (item _ _))

instance (p : τ → Bool) : Logs (satisfy p) := by
  have hany : Logs (anyItem : Rule τ τ) := inferInstance
  refine .of_run fun s => ?_
  unfold satisfy
  split
  · rename_i x t ht
    have haside := hany.aside_le ht
    split
    · exact ⟨haside, fun _ => hany.faults ht⟩
    · exact ⟨haside, fun hs => by cases hs⟩
  · rename_i t ht
    exact ⟨hany.aside_le ht, fun hs => by cases hs⟩

instance Logs.justAll (ts : List τ) : Logs (justAll ts) := by
  induction ts with
  | nil => exact inferInstanceAs (Logs (pure ()))
  | cons t ts ih => exact inferInstanceAs (Logs (just t >>= fun _ => Rule.justAll ts))

instance : Logs (endOfInput : Rule τ Unit) := by
  refine .of_run fun s => ?_
  unfold endOfInput
  split
  · exact ⟨Nat.le_refl _, fun _ => Nat.le_refl _⟩
  · exact ⟨Nat.le_refl _, fun hs => by cases hs⟩

instance [h : Logs r] : Logs (notAhead r) := by
  refine .of_run fun s => ?_
  unfold notAhead
  split
  · rename_i t ht
    have haside := h.aside_le ht
    exact ⟨haside, fun _ => Nat.le_refl _⟩
  · rename_i a t ht
    have haside := h.aside_le ht
    dsimp only
    split <;> exact ⟨haside, fun hs => by cases hs⟩

end items

instance : Logs (choice [] : Rule τ α) := .of_run fun _ => ⟨Nat.le_refl _, fun hs => by cases hs⟩

instance {rs : List (Rule τ α)} [h : Logs r] [hs : Logs (choice rs)] : Logs (choice (r :: rs)) := by
  refine ⟨fun s => ?_, fun {s a t} hr => ?_⟩
  · unfold choice
    split
    · rename_i a t ht
      exact h.aside_le ht
    · rename_i t ht
      exact Nat.le_trans (h.aside_le ht) (hs.aside (t.back s))
  · unfold choice at hr
    split at hr
    · rename_i ht
      cases hr
      exact h.faults ht
    · have hfaults := hs.faults hr
      exact hfaults

theorem Logs.choice_map {f : β → Rule τ α} (hf : ∀ b, Logs (f b)) (bs : List β)
    {rs : List (Rule τ α)} (hs : Logs (choice rs)) : Logs (choice (bs.map f ++ rs)) := by
  induction bs with
  | nil => exact hs
  | cons b bs ih => exact inferInstanceAs (Logs (choice (f b :: (bs.map f ++ rs))))

instance [h : Logs r] : Logs (maybe r) := by
  refine .of_run fun s => ?_
  unfold maybe
  split
  · rename_i a t ht
    exact ⟨h.aside_le ht, fun _ => h.faults ht⟩
  · rename_i t ht
    have haside := h.aside_le ht
    exact ⟨haside, fun _ => Nat.le_refl _⟩

instance [h : Logs r] : Logs (ahead r) := by
  refine .of_run fun s => ?_
  unfold ahead
  split
  · rename_i a t ht
    have haside := h.aside_le ht
    exact ⟨haside, fun _ => Nat.le_refl _⟩
  · rename_i t ht
    exact ⟨h.aside_le ht, fun hs => by cases hs⟩

instance {r' : Rule τ β} [h : Logs r] [h' : Logs r'] : Logs (andIs r r') := by
  refine .of_run fun s => ?_
  unfold andIs
  split
  · rename_i t ht
    exact ⟨h.aside_le ht, fun hs => by cases hs⟩
  · rename_i x t ht
    have hback := h'.aside (t.back s)
    split
    · rename_i b u hu
      rw [hu] at hback
      have hfaults := h.faults ht
      exact ⟨Nat.le_trans (h.aside_le ht) hback, fun _ => hfaults⟩
    · rename_i u hu
      rw [hu] at hback
      exact ⟨Nat.le_trans (h.aside_le ht) hback, fun hs => by cases hs⟩

/-- Turn by turn, errors are only added. -/
theorem upTo_logs (h : Logs r) (n : Nat) (s : State τ) :
    s.aside.length ≤ (upTo r n s).2.aside.length ∧
      s.faults.length ≤ (upTo r n s).2.faults.length := by
  induction n generalizing s with
  | zero => exact ⟨Nat.le_refl _, Nat.le_refl _⟩
  | succ n ih =>
    unfold upTo
    split
    · rename_i a t ht
      exact ⟨Nat.le_trans (h.aside_le ht) (ih t).1, Nat.le_trans (h.faults ht) (ih t).2⟩
    · rename_i t ht
      have haside := h.aside_le ht
      exact ⟨haside, Nat.le_refl _⟩

instance [h : Logs r] : Logs (many r) :=
  .of_run fun s => ⟨(upTo_logs h (s.left + 1) s).1, fun _ => (upTo_logs h (s.left + 1) s).2⟩

instance [h : Logs r] : Logs (many1 r) := by
  refine .of_run fun s => ?_
  unfold many1
  split
  · rename_i a t ht
    have hmore := upTo_logs h (s.left + 1) t
    exact ⟨Nat.le_trans (h.aside_le ht) hmore.1, fun _ => Nat.le_trans (h.faults ht) hmore.2⟩
  · rename_i t ht
    have haside := h.aside_le ht
    exact ⟨haside, fun hs => by cases hs⟩

instance Logs.skipMany [h : Logs r] : Logs (skipMany r) :=
  inferInstanceAs (Logs (many r >>= fun _ => pure ()))

theorem Logs.recursive {f : Rule τ α → Rule τ α} (h : ∀ r, Logs r → Logs (f r)) :
    Logs (recursive f) := by
  have hn : ∀ n, Logs (unfold f n) := by
    intro n
    induction n with
    | zero => exact .of_run fun _ => ⟨Nat.le_refl _, fun hs => by cases hs⟩
    | succ n ih => exact h _ ih
  exact ⟨fun s => (hn (s.left + 1)).aside s, fun {s a t} hr => (hn (s.left + 1)).faults hr⟩

theorem sepUpTo_logs {sep : Rule τ β} (h : Logs r) (hsep : Logs sep) (n : Nat) (s : State τ) :
    s.aside.length ≤ (sepUpTo r sep n s).2.aside.length ∧
      s.faults.length ≤ (sepUpTo r sep n s).2.faults.length := by
  induction n generalizing s with
  | zero => exact ⟨Nat.le_refl _, Nat.le_refl _⟩
  | succ n ih =>
    unfold sepUpTo
    split
    · rename_i t ht
      have haside := hsep.aside_le ht
      exact ⟨haside, Nat.le_refl _⟩
    · rename_i b t ht
      have hs₁ := hsep.aside_le ht
      have hs₂ := hsep.faults ht
      split
      · rename_i a u hu
        have h₁ := h.aside_le hu
        have h₂ := h.faults hu
        have hmore := ih u
        dsimp only
        omega
      · rename_i u hu
        have haside := h.aside_le hu
        exact ⟨Nat.le_trans hs₁ haside, hs₂⟩

instance {sep : Rule τ β} [h : Logs r] [hsep : Logs sep] : Logs (sepBy r sep) := by
  refine .of_run fun s => ?_
  have hlead : Logs (maybe sep) := inferInstance
  have h₁ := hlead.aside s
  have h₂ : s.faults.length ≤ (maybe sep s).2.faults.length := by
    unfold maybe
    split
    · rename_i b t ht
      exact hsep.faults ht
    · exact Nat.le_refl _
  unfold sepBy
  dsimp only
  split
  · rename_i u hu
    have haside := h.aside_le hu
    exact ⟨Nat.le_trans h₁ haside, fun _ => h₂⟩
  · rename_i a u hu
    have hmore := sepUpTo_logs h hsep (s.left + 1) u
    have h₃ := h.aside_le hu
    have h₄ := h.faults hu
    refine ⟨?_, fun _ => ?_⟩ <;> dsimp only <;> omega

instance Logs.between {l : Rule τ β} {r' : Rule τ γ} [Logs l] [Logs r] [Logs r'] :
    Logs (between l r r') :=
  inferInstanceAs (Logs (l >>= fun _ => r >>= fun a => r' >>= fun _ => pure a))

instance {pad : Rule τ β} [Logs pad] [Logs r] : Logs (padded pad r) :=
  inferInstanceAs (Logs (between pad r pad))

instance Logs.spanned [h : Logs r] : Logs (spanned r) := by
  refine .of_run fun s => ?_
  unfold Rule.spanned
  split
  · rename_i a t ht
    exact ⟨h.aside_le ht, fun _ => h.faults ht⟩
  · rename_i t ht
    exact ⟨h.aside_le ht, fun hs => by cases hs⟩

instance [h : Logs r] : Logs (recognized r) := by
  refine .of_run fun s => ?_
  unfold recognized
  split
  · rename_i a t ht
    exact ⟨h.aside_le ht, fun _ => h.faults ht⟩
  · rename_i t ht
    exact ⟨h.aside_le ht, fun hs => by cases hs⟩

instance (span : Span) (reason : Complaint) : Logs (complain span reason : Rule τ Unit) :=
  .of_run fun s => ⟨Nat.le_refl _, fun _ => by simp [complain, State.report]⟩

instance (errors : List SyntaxError) : Logs (putAside errors : Rule τ Unit) :=
  .of_run fun s => ⟨by simp [putAside], fun _ => Nat.le_refl _⟩

instance {other : Rule τ α} [h : Logs r] [ho : Logs other] : Logs (orRecover r other) := by
  refine .of_run fun s => ?_
  unfold orRecover
  split
  · rename_i a t ht
    exact ⟨h.aside_le ht, fun _ => h.faults ht⟩
  · rename_i t ht
    have hstart := h.aside_le ht
    split
    · rename_i a u hu
      have h₁ := ho.aside_le hu
      have h₂ := ho.faults hu
      refine ⟨Nat.le_trans hstart h₁, fun _ => Nat.le_trans h₂ ?_⟩
      simp [State.report]
    · rename_i u hu
      have h₁ := ho.aside_le hu
      exact ⟨Nat.le_trans hstart h₁, fun hs => by cases hs⟩

instance Logs.retry [DecidableEq τ] [h : Logs r] (n : Nat) : Logs (retry r n) := by
  induction n with
  | zero => exact .of_run fun s => ⟨Nat.le_refl _, fun hs => by cases hs⟩
  | succ n ih =>
    have hend : Logs (endOfInput : Rule τ Unit) := inferInstance
    have hany : Logs (anyItem : Rule τ τ) := inferInstance
    refine .of_run fun s => ?_
    unfold Rule.retry
    split
    · rename_i t ht
      exact ⟨hend.aside_le ht, fun hs => by cases hs⟩
    · rename_i t ht
      have haside := hend.aside_le ht
      have h₁ : s.aside.length ≤ (t.back s).aside.length := haside
      split
      · rename_i u hu
        exact ⟨Nat.le_trans h₁ (hany.aside_le hu), fun hs => by cases hs⟩
      · rename_i x u hu
        have h₂ := Nat.le_trans h₁ (hany.aside_le hu)
        have hfaults := hany.faults hu
        have h₃ : s.faults.length ≤ u.faults.length := hfaults
        -- a further attempt starts from the state `u`, but for what was read aside
        have hagain : ∀ {v : State τ}, u.aside.length ≤ v.aside.length →
            s.aside.length ≤ (Rule.retry r n { v.back u with pending := none }).2.aside.length ∧
            ((Rule.retry r n { v.back u with pending := none }).1.isSome → s.faults.length ≤
              (Rule.retry r n { v.back u with pending := none }).2.faults.length) := by
          intro v hv
          have hmore := ih.aside { v.back u with pending := none }
          refine ⟨Nat.le_trans (Nat.le_trans h₂ hv) hmore, fun hs => ?_⟩
          obtain ⟨a, ha⟩ := Option.isSome_iff_exists.1 hs
          have hmore := ih.faults (Prod.ext ha rfl)
          exact Nat.le_trans h₃ hmore
        split
        · rename_i a v hv
          split
          · exact ⟨Nat.le_trans h₂ (h.aside_le hv), fun _ => Nat.le_trans h₃ (h.faults hv)⟩
          · exact hagain (h.aside_le hv)
        · rename_i v hv
          exact hagain (h.aside_le hv)

instance [DecidableEq τ] [h : Logs r] : Logs (orSkip r) := by
  refine .of_run fun s => ?_
  unfold orSkip
  split
  · rename_i a t ht
    exact ⟨h.aside_le ht, fun _ => h.faults ht⟩
  · rename_i t ht
    have hstart := h.aside_le ht
    have hretry : Logs (Rule.retry r (s.left + 1)) := inferInstance
    split
    · rename_i a u hu
      have h₁ := hretry.aside_le hu
      have h₂ := hretry.faults hu
      refine ⟨Nat.le_trans hstart h₁, fun _ => Nat.le_trans h₂ ?_⟩
      simp [State.report]
    · rename_i u hu
      have h₁ := hretry.aside_le hu
      exact ⟨Nat.le_trans hstart h₁, fun hs => by cases hs⟩

/-! ## What is read without errors -/

/-- Where `r` succeeds without an error, `Q` holds of the items read, the items left and the value. If
`D` holds, errors do not matter. -/
structure Gives (D : Prop) (r : Rule τ α) (Q : List (Spanned τ) → List (Spanned τ) → α → Prop) :
    Prop where
  gives : ∀ {s : State τ} {a : α} {t : State τ}, r s = (some a, t) → D ∨ Quiet s t →
    ∃ read, Reads s t read ∧ Q read t.rest a

variable {D : Prop} {Q Q' : List (Spanned τ) → List (Spanned τ) → α → Prop}

theorem Ensures.gives (h : Ensures r Q) : Gives D r Q := ⟨fun hr _ => h.ensures hr⟩

theorem Gives.ensures (h : Gives D r Q) (hD : D) : Ensures r Q := ⟨fun hr => h.gives hr (.inl hD)⟩

theorem Gives.mono (h : Gives D r Q) (hQ : ∀ {read rest a}, Q read rest a → Q' read rest a) :
    Gives D r Q' := by
  refine ⟨fun hr hq => ?_⟩
  obtain ⟨read, hread, hq⟩ := h.gives hr hq
  exact ⟨read, hread, hQ hq⟩

theorem Gives.pure (a : α) : Gives D (pure a : Rule τ α) fun read _ b => read = [] ∧ b = a :=
  (Ensures.pure a).gives

/-- In a sequence without errors none of its rules met one. -/
theorem Gives.bind {f : α → Rule τ β} {P : α → List (Spanned τ) → List (Spanned τ) → β → Prop}
    [hlr : Logs r] [hlf : ∀ a, Logs (f a)] (hr : Gives D r Q) (hf : ∀ a, Gives D (f a) (P a)) :
    Gives D (r >>= f) fun read rest b =>
      ∃ xs ys a, read = xs ++ ys ∧ Q xs (ys ++ rest) a ∧ P a ys rest b := by
  refine ⟨fun {s b t} h hq => ?_⟩
  change Rule.bind r f s = (some b, t) at h
  unfold Rule.bind at h
  split at h
  · rename_i a u hu
    obtain ⟨xs, hxs, hqx⟩ := hr.gives hu (hq.imp_right ((hlf a).quiet_left h))
    obtain ⟨ys, hys, hp⟩ := (hf a).gives h (hq.imp_right (hlr.quiet_right hu))
    exact ⟨xs ++ ys, hxs.trans hys, xs, ys, a, rfl, hys.rest_eq ▸ hqx, hp⟩
  · cases h

theorem Gives.choice_nil : Gives D (choice [] : Rule τ α) Q := Ensures.choice_nil.gives

theorem Gives.choice_cons {rs : List (Rule τ α)} [hl : Logs r] (h : Gives D r Q)
    (hs : Gives D (choice rs) Q) : Gives D (choice (r :: rs)) Q := by
  refine ⟨fun {s a t} hr hq => ?_⟩
  unfold Rule.choice at hr
  split at hr
  · rename_i hu
    cases hr
    exact h.gives hu hq
  · rename_i u hu
    obtain ⟨read, hread, hqr⟩ := hs.gives hr (hq.imp_right (hl.quiet_back hu))
    exact ⟨read, hread.of_back, hqr⟩

theorem Gives.maybe (h : Gives D r Q) : Gives D (maybe r) fun read rest o =>
    (read = [] ∧ o = none) ∨ ∃ a, o = some a ∧ Q read rest a := by
  refine ⟨fun {s o t} hr hq => ?_⟩
  unfold Rule.maybe at hr
  split at hr
  · rename_i a u hu
    cases hr
    obtain ⟨read, hread, hqr⟩ := h.gives hu hq
    exact ⟨read, hread, .inr ⟨a, rfl, hqr⟩⟩
  · cases hr
    exact ⟨[], ⟨rfl, rfl⟩, .inl ⟨rfl, rfl⟩⟩

/-- By induction on the turns: in a repetition without errors none of its turns met one. -/
theorem upTo_gives (hl : Logs r) (h : Gives D r Q) (n : Nat) {s : State τ}
    (hq : D ∨ Quiet s (upTo r n s).2) :
    ∃ read, Reads s (upTo r n s).2 read ∧ Turns Q read (upTo r n s).2.rest (upTo r n s).1 := by
  induction n generalizing s with
  | zero => exact ⟨[], .refl, .nil⟩
  | succ n ih =>
    unfold upTo at hq ⊢
    split
    · rename_i a t ht
      simp only [ht] at hq
      have hmore := upTo_logs hl n t
      obtain ⟨xs, hxs, hqx⟩ := h.gives ht (hq.imp_right fun hq =>
        ⟨Nat.le_trans hmore.2 hq.faults, Nat.le_trans hmore.1 hq.aside⟩)
      obtain ⟨ys, hys, hturns⟩ := ih (hq.imp_right (hl.quiet_right ht))
      exact ⟨xs ++ ys, hxs.trans hys, .cons (hys.rest_eq ▸ hqx) hturns⟩
    · exact ⟨[], ⟨rfl, rfl⟩, .nil⟩

theorem Gives.many [hl : Logs r] (h : Gives D r Q) : Gives D (many r) (Turns Q) := by
  refine ⟨fun {s as t} hr hq => ?_⟩
  cases hr
  exact upTo_gives hl h (s.left + 1) hq

theorem Gives.recursive {f : Rule τ α → Rule τ α} (hl : ∀ r, Logs r → Logs (f r))
    (h : ∀ r, Logs r → Gives D r Q → Gives D (f r) Q) : Gives D (recursive f) Q := by
  have hn : ∀ n, Logs (unfold f n) ∧ Gives D (unfold f n) Q := by
    intro n
    induction n with
    | zero => exact ⟨.of_run fun _ => ⟨Nat.le_refl _, fun hs => by cases hs⟩, ⟨fun hr => by cases hr⟩⟩
    | succ n ih => exact ⟨hl _ ih.1, h _ ih.1 ih.2⟩
  exact ⟨fun hr hq => (hn _).2.gives hr hq⟩

/-- The same for separators and items in turn. -/
theorem sepUpTo_gives {sep : Rule τ β} {S : List (Spanned τ) → Prop} (hl : Logs r)
    (hls : Logs sep) (h : Gives D r Q) (hsep : Ensures sep fun read _ _ => S read) (n : Nat)
    {s : State τ} (hq : D ∨ Quiet s (sepUpTo r sep n s).2) :
    ∃ read, Reads s (sepUpTo r sep n s).2 read ∧
      Separated Q S read (sepUpTo r sep n s).2.rest (sepUpTo r sep n s).1 := by
  induction n generalizing s with
  | zero => exact ⟨[], .refl, .nil⟩
  | succ n ih =>
    unfold sepUpTo at hq ⊢
    split
    · exact ⟨[], ⟨rfl, rfl⟩, .nil⟩
    · rename_i b t ht
      simp only [ht] at hq
      obtain ⟨xs, hxs, hs⟩ := hsep.ensures ht
      split
      · rename_i a u hu
        simp only [hu] at hq
        have hq := hq.imp_right (hls.quiet_right ht)
        have hmore := sepUpTo_logs hl hls n u
        obtain ⟨ys, hys, hqy⟩ := h.gives hu (hq.imp_right fun hq =>
          ⟨Nat.le_trans hmore.2 hq.faults, Nat.le_trans hmore.1 hq.aside⟩)
        obtain ⟨zs, hzs, hsepd⟩ := ih (hq.imp_right (hl.quiet_right hu))
        exact ⟨xs ++ ys ++ zs, (hxs.trans hys).trans hzs, .cons hs (hzs.rest_eq ▸ hqy) hsepd⟩
      · exact ⟨xs, hxs.congr rfl rfl rfl rfl, .trailing hs⟩

/-- Items with separators between them; the first separators may lead, and some may trail. -/
theorem Gives.sepBy {sep : Rule τ β} {S : List (Spanned τ) → Prop} [hl : Logs r] [hls : Logs sep]
    (h : Gives D r Q) (hsep : Ensures sep fun read _ _ => S read) :
    Gives D (sepBy r sep) fun read rest as =>
      ∃ lead tail, read = lead ++ tail ∧ (lead = [] ∨ S lead) ∧ (tail = [] ∧ as = [] ∨
        ∃ xs ys b bs, tail = xs ++ ys ∧ as = b :: bs ∧ Q xs (ys ++ rest) b ∧
          Separated Q S ys rest bs) := by
  refine ⟨fun {s as t} hr hq => ?_⟩
  obtain ⟨b, u, hu⟩ : ∃ b u, Rule.maybe sep s = (some b, u) := by
    unfold Rule.maybe
    split <;> exact ⟨_, _, rfl⟩
  have hlead : Logs (Rule.maybe sep) := inferInstance
  obtain ⟨lead, hread, hS⟩ := hsep.maybe.ensures hu
  have hS : lead = [] ∨ S lead := hS.imp And.left fun ⟨_, _, hS⟩ => hS
  unfold Rule.sepBy at hr
  simp only [hu] at hr
  split at hr
  · cases hr
    exact ⟨lead, hread.congr rfl rfl rfl rfl, lead, [], by simp, hS, .inl ⟨rfl, rfl⟩⟩
  · rename_i a v hv
    cases hr
    have hq := hq.imp_right (hlead.quiet_right hu)
    have hmore := sepUpTo_logs hl hls (s.left + 1) v
    obtain ⟨xs, hxs, hqx⟩ := h.gives hv (hq.imp_right fun hq =>
      ⟨Nat.le_trans hmore.2 hq.faults, Nat.le_trans hmore.1 hq.aside⟩)
    obtain ⟨ys, hys, hsepd⟩ :=
      sepUpTo_gives hl hls h hsep (s.left + 1) (hq.imp_right (hl.quiet_right hv))
    refine ⟨lead ++ (xs ++ ys), hread.trans (hxs.trans hys), lead, xs ++ ys, rfl, hS, .inr ?_⟩
    exact ⟨xs, ys, a, _, rfl, rfl, hys.rest_eq ▸ hqx, hsepd⟩

theorem Gives.between {l : Rule τ β} {r' : Rule τ γ}
    {L : List (Spanned τ) → List (Spanned τ) → β → Prop}
    {R : List (Spanned τ) → List (Spanned τ) → γ → Prop} [Logs l] [Logs r] [Logs r']
    (hl : Ensures l L) (h : Gives D r Q) (hr : Ensures r' R) :
    Gives D (between l r r') fun read rest a =>
      ∃ xs ys zs b c, read = xs ++ ys ++ zs ∧ L xs (ys ++ zs ++ rest) b ∧ Q ys (zs ++ rest) a ∧
        R zs rest c := by
  refine (hl.gives.bind fun _ => h.bind fun _ => hr.gives.bind fun _ => .pure _).mono ?_
  rintro read rest a ⟨xs, _, b, rfl, hb, ys, _, a', rfl, ha, zs, _, c, rfl, hc, rfl, rfl⟩
  exact ⟨xs, ys, zs, b, c, by simp, by simpa using hb, by simpa using ha, by simpa using hc⟩

theorem Gives.spanned (h : Gives D r Q) : Gives D (spanned r) fun read rest x =>
    Q read rest x.val ∧ (read ≠ [] → x.span = cover read) := by
  refine ⟨fun {s x t} hr hq => ?_⟩
  unfold Rule.spanned at hr
  split at hr
  · rename_i a u hu
    cases hr
    obtain ⟨read, hread, hqr⟩ := h.gives hu hq
    exact ⟨read, hread, hqr, hread.spanTo_eq⟩
  · cases hr

theorem Gives.complain (span : Span) (reason : Complaint) :
    Gives D (complain span reason : Rule τ Unit) fun read _ _ => read = [] ∧ D := by
  refine ⟨fun {s a t} hr hq => ?_⟩
  cases hr
  refine ⟨[], ⟨rfl, rfl⟩, rfl, hq.resolve_right fun hq => ?_⟩
  have := hq.faults
  simp only [State.report, List.length_append, List.length_singleton] at this
  omega

theorem Gives.putAside (errors : List SyntaxError) :
    Gives D (putAside errors : Rule τ Unit) fun read _ _ => read = [] ∧ (D ∨ errors = []) := by
  refine ⟨fun {s a t} hr hq => ?_⟩
  cases hr
  refine ⟨[], ⟨rfl, rfl⟩, rfl, hq.imp_right fun hq => ?_⟩
  have := hq.aside
  simp only [List.length_append] at this
  exact List.eq_nil_of_length_eq_zero (by omega)

/-- Recovering adds an error. -/
theorem Gives.orRecover {other : Rule τ α} [hlo : Logs other] (h : Gives D r Q)
    (ho : D → Ensures other Q) : Gives D (orRecover r other) Q := by
  refine ⟨fun {s a t} hr hq => ?_⟩
  unfold Rule.orRecover at hr
  split at hr
  · rename_i hu
    cases hr
    exact h.gives hu hq
  · split at hr
    · rename_i u _ b v hv
      cases hr
      have hD : D := hq.resolve_right fun hq => by
        have h₁ := hq.faults
        have h₂ := hlo.faults hv
        simp only [State.report, State.back, List.length_append, List.length_singleton] at h₁ h₂
        omega
      obtain ⟨read, hread, hqr⟩ := (ho hD).ensures hv
      exact ⟨read, hread.congr rfl rfl rfl rfl, hqr⟩
    · cases hr

/-- Skipping adds an error. -/
theorem Gives.orSkip [DecidableEq τ] [hl : Logs r] (h : Gives D r Q) :
    Gives D (orSkip r) fun read rest a =>
      ∃ skip xs, read = skip ++ xs ∧ (D ∨ skip = []) ∧ Q xs rest a := by
  refine ⟨fun {s a t} hr hq => ?_⟩
  by_cases hD : D
  · obtain ⟨read, hread, skip, xs, hxs, hqr⟩ := (h.ensures hD).orSkip.ensures hr
    exact ⟨read, hread, skip, xs, hxs, .inl hD, hqr⟩
  · unfold Rule.orSkip at hr
    split at hr
    · rename_i hu
      cases hr
      obtain ⟨read, hread, hqr⟩ := h.gives hu hq
      exact ⟨read, hread, [], read, rfl, .inr rfl, hqr⟩
    · rename_i u hu
      split at hr
      · rename_i v hv
        cases hr
        have h₁ := (hq.resolve_left hD).faults
        have h₂ := (Logs.retry (r := r) (s.left + 1)).faults hv
        simp only [State.report, State.back, List.length_append, List.length_singleton] at h₁ h₂
        omega
      · cases hr

/-! ## Whole inputs -/

section run

variable [DecidableEq τ] {name : τ → String} {items : List (Spanned τ)} {finish : Span} {a : α}

theorem Gives.whole [Logs r] (h : Gives D r Q) :
    Gives D (whole r) fun read rest a => rest = [] ∧ Q read [] a := by
  have hwhole := h.bind fun a => Ensures.endOfInput.gives.bind fun _ => Gives.pure a
  refine Gives.mono hwhole ?_
  rintro read rest a ⟨xs, _, a', rfl, ha, ys, _, _, rfl, ⟨rfl, hrest⟩, rfl, rfl⟩
  simp only [List.append_nil, List.nil_append] at ha hrest ⊢
  subst hrest
  exact ⟨rfl, ha⟩

/-- A value of a whole input is one that the rule has when it reads all items. -/
theorem Gives.run [Logs r] (h : Gives D r Q) (hr : (run name r items finish).1 = some a)
    (hq : D ∨ (run name r items finish).2 = []) : Q items [] a := by
  rw [run_fst] at hr
  rw [run_snd, List.append_eq_nil_iff, List.map_eq_nil_iff, List.append_eq_nil_iff] at hq
  have hquiet : D ∨ Quiet (State.start items finish) (Rule.whole r (State.start items finish)).2 :=
    hq.imp_right fun hq => ⟨by simp [hq.1.1], by simp [hq.2]⟩
  obtain ⟨read, hread, hrest, hqr⟩ := h.whole.gives (Prod.ext hr rfl) hquiet
  have hall : items = read := hread.rest_eq.trans (by rw [hrest, List.append_nil])
  exact hall ▸ hqr

/-- Without errors there is a value. -/
theorem exists_of_run_eq_nil (h : (run name r items finish).2 = []) :
    ∃ a, (run name r items finish).1 = some a := by
  rw [run_snd, List.append_eq_nil_iff, List.map_eq_nil_iff, List.append_eq_nil_iff] at h
  rw [run_fst, ← Option.isSome_iff_exists]
  by_contra hnone
  simp [hnone] at h

/-- A rule that has to read everything succeeds where the rule leaves nothing. -/
theorem whole_eq_iff {s t : State τ} : whole r s = (some a, t) ↔ r s = (some a, t) ∧ t.rest = [] := by
  change Rule.bind r (fun a => Rule.bind endOfInput fun _ => Rule.pure a) s = (some a, t) ↔ _
  unfold Rule.bind endOfInput Rule.pure
  cases r s with
  | mk o u =>
    cases o with
    | none => simp
    | some b =>
      cases hu : u.rest with
      | nil =>
        simp only [hu, Prod.mk.injEq, Option.some.injEq]
        exact ⟨fun h => ⟨h, h.2 ▸ hu⟩, And.left⟩
      | cons x xs =>
        simp only [hu, Prod.mk.injEq, reduceCtorEq, false_and, Option.some.injEq, false_iff]
        rintro ⟨⟨rfl, rfl⟩, h⟩
        rw [hu] at h
        cases h

/-- A whole input has a value where the rule leaves nothing of it. -/
theorem run_eq_some_iff : (run name r items finish).1 = some a ↔
    ∃ t, r (State.start items finish) = (some a, t) ∧ t.rest = [] := by
  simp only [← whole_eq_iff, run_fst]
  exact ⟨fun h => ⟨_, Prod.ext h rfl⟩, fun ⟨t, ht⟩ => by rw [ht]⟩

/-- Without errors the rule leaves nothing and has reported nothing. -/
theorem ok_of_run_eq_nil (h : (run name r items finish).2 = []) :
    ∃ a t, r (State.start items finish) = (some a, t) ∧ t.rest = [] ∧ t.faults = [] ∧ t.aside = [] := by
  obtain ⟨a, ha⟩ := exists_of_run_eq_nil h
  rw [run_fst] at ha
  obtain ⟨hr, hrest⟩ := whole_eq_iff.1 (Prod.ext ha rfl)
  rw [run_snd, List.append_eq_nil_iff, List.map_eq_nil_iff, List.append_eq_nil_iff] at h
  exact ⟨a, _, hr, hrest, h.1.1, h.2⟩

end run

/-- Where a rule fails, skipping reports an error or fails, too. -/
theorem orSkip_reports [DecidableEq τ] [hl : Logs r] {s u : State τ} {a : α} (hr : (r s).1 = none)
    (h : orSkip r s = (some a, u)) : s.faults.length < u.faults.length := by
  unfold orSkip at h
  split at h
  · rename_i ht
    rw [ht] at hr
    cases hr
  · split at h
    · rename_i t ht b v hv
      cases h
      have := (Logs.retry (r := r) (s.left + 1)).faults hv
      simp only [State.report, State.back, List.length_append, List.length_singleton] at this ⊢
      omega
    · cases h

/-! ## Where rules fail -/

/-- A rule fails where nothing it could read is ahead. -/
theorem Ensures.fails {s : State τ} (h : Ensures r Q)
    (hno : ∀ read rest a, s.rest = read ++ rest → ¬ Q read rest a) : (r s).1 = none := by
  by_contra hsome
  obtain ⟨a, ha⟩ := Option.ne_none_iff_exists'.1 hsome
  obtain ⟨read, hread, hQ⟩ := h.ensures (Prod.ext ha rfl)
  exact hno read _ a hread.rest_eq hQ

theorem bind_pure_fails {f : α → β} {s : State τ} (h : ((do let a ← r; pure (f a)) s).1 = none) :
    (r s).1 = none := by
  change (Rule.bind r (fun a => pure (f a)) s).1 = none at h
  unfold Rule.bind at h
  split at h
  · cases h
  · rename_i ht
    rw [ht]

/-- Where a choice fails, each of its rules fails at that place. -/
theorem choice_fails {rs : List (Rule τ α)} {s : State τ} (h : (choice rs s).1 = none)
    (hr : r ∈ rs) : ∃ u, u.rest = s.rest ∧ (r u).1 = none := by
  induction rs generalizing s with
  | nil => cases hr
  | cons r' rs ih =>
    unfold choice at h
    split at h
    · cases h
    · rename_i t ht
      rcases List.mem_cons.1 hr with rfl | hr
      · exact ⟨s, rfl, by rw [ht]⟩
      · obtain ⟨u, hu, hnone⟩ := ih h hr
        exact ⟨u, hu, hnone⟩

theorem many1_fails {s : State τ} (h : (many1 r s).1 = none) : (r s).1 = none := by
  unfold many1 at h
  split at h
  · cases h
  · rename_i ht
    rw [ht]

/-- Where a rule with a recovery fails, the recovery fails at the same place. -/
theorem orRecover_fails {other : Rule τ α} {s : State τ} (h : (orRecover r other s).1 = none) :
    ∃ u, u.rest = s.rest ∧ (other u).1 = none := by
  unfold orRecover at h
  split at h
  · cases h
  · rename_i t _
    split at h
    · cases h
    · rename_i hu
      exact ⟨{ t.back s with pending := none }, rfl, by rw [hu]⟩

theorem notAhead_ok [DecidableEq τ] {s t : State τ} {a : Unit} (h : notAhead r s = (some a, t)) :
    ∃ u, u.rest = s.rest ∧ (r u).1 = none := by
  unfold notAhead at h
  split at h
  · rename_i ht
    exact ⟨{ s with pending := none }, rfl, by rw [ht]⟩
  · dsimp only at h
    split at h <;> cases h

theorem notAhead_isSome [DecidableEq τ] {s : State τ}
    (h : ∀ u : State τ, u.rest = s.rest → (r u).1 = none) : (notAhead r s).1.isSome := by
  unfold notAhead
  have hnone := h { s with pending := none } rfl
  split
  · rfl
  · rename_i ht
    rw [ht] at hnone
    cases hnone

/-- Both rules have succeeded at the place, though what was remembered may differ. -/
theorem andIs_ok {r' : Rule τ β} {s t : State τ} {a : α} (h : andIs r r' s = (some a, t)) :
    ∃ u v w b, r s = (some a, u) ∧ v.rest = s.rest ∧ r' v = (some b, w) := by
  unfold andIs at h
  split at h
  · cases h
  · rename_i x u hu
    split at h
    · rename_i b w hw
      cases h
      exact ⟨u, u.back s, w, b, hu, rfl, hw⟩
    · cases h

theorem andIs_isSome {r' : Rule τ β} {s : State τ} (h : (r s).1.isSome)
    (h' : ∀ u : State τ, u.rest = s.rest → (r' u).1.isSome) : (andIs r r' s).1.isSome := by
  unfold andIs
  split
  · rename_i t ht
    rw [ht] at h
    cases h
  · rename_i x t ht
    have hsome := h' (t.back s) rfl
    split
    · rfl
    · rename_i u hu
      rw [hu] at hsome
      cases hsome

/-- With fuel to spare, a repetition ends where its rule fails. -/
theorem upTo_stops (h : Consumes r) {n : Nat} {s : State τ} (hn : s.left < n) :
    ∃ u, (r u).1 = none ∧ u.rest = (upTo r n s).2.rest := by
  induction n generalizing s with
  | zero => exact absurd hn (Nat.not_lt_zero _)
  | succ n ih =>
    unfold upTo
    split
    · rename_i a t ht
      exact ih (Nat.lt_of_lt_of_le (h.left_lt ht) (Nat.le_of_lt_succ hn))
    · rename_i t ht
      exact ⟨s, by rw [ht], rfl⟩

/-- A repetition ends where its rule fails. -/
theorem many_stops [h : Consumes r] {s t : State τ} {as : List α} (hr : many r s = (some as, t)) :
    ∃ u, (r u).1 = none ∧ u.rest = t.rest := by
  cases hr
  exact upTo_stops h (Nat.lt_succ_self _)

theorem many1_stops [h : Consumes r] {s t : State τ} {as : List α}
    (hr : many1 r s = (some as, t)) : ∃ u, (r u).1 = none ∧ u.rest = t.rest := by
  unfold many1 at hr
  split at hr
  · rename_i a u hu
    have hstop := upTo_stops h (Nat.lt_succ_of_lt (h.left_lt hu))
    revert hr hstop
    generalize upTo r (s.left + 1) u = more
    intro hr hstop
    cases hr
    exact hstop
  · cases hr

end Rule

end CueScope.Grammar
