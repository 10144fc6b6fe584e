import CueScope.Proofs.Grammar.Reads
import Mathlib.Data.List.Infix

/-!
# Where errors stand

* `Ground`: an input that is read, and what is known of errors from elsewhere.
* `Ground.Covers`: ranges of neighbouring items, and places at the end of the input.
* `Ground.Allows`: faults at such ranges. One kind of fault stands elsewhere: where looking ahead for a
  closing item finds one without reading it, the range goes from that item back to the end of the one
  before it.
* `Rule.Located`: only such faults are added. Instances for all ways to build rules find this for every
  grammar.
* `Rule.Located.run`: so the errors of a whole input are such faults, and errors that were read aside.
-/

namespace CueScope.Grammar

variable {τ α β γ : Type}

/-- An input: its items and the place of its end. Looking ahead may find `closing` items without reading
them, and the errors of texts read aside come in lists that are `told`. -/
structure Ground (τ : Type) where
  items : List (Spanned τ)
  finish : Span
  closing : τ → Prop
  told : List SyntaxError → Prop

namespace Ground

variable {G : Ground τ} {s t u : State τ} {read : List (Spanned τ)} {span : Span}

/-- The state is one within the input. -/
def Reaches (G : Ground τ) (s : State τ) : Prop :=
  ∃ read, Reads (State.start G.items G.finish) s read

theorem reaches_start (G : Ground τ) : G.Reaches (State.start G.items G.finish) := ⟨[], .refl⟩

theorem Reaches.next (h : G.Reaches s) (ht : Reads s t read) : G.Reaches t := by
  obtain ⟨pre, hpre⟩ := h
  exact ⟨pre ++ read, hpre.trans ht⟩

/-- Only what is left and what was read last matters. -/
theorem Reaches.congr (h : G.Reaches s) (hrest : t.rest = s.rest) (hlast : t.last = s.last) :
    G.Reaches t := by
  obtain ⟨pre, hpre⟩ := h
  exact ⟨pre, hpre.congr rfl rfl hrest hlast⟩

theorem Reaches.back (h : G.Reaches s) (t : State τ) : G.Reaches (t.back s) := h.congr rfl rfl

/-- The places errors are expected at. -/
inductive Covers (G : Ground τ) : Span → Prop
  | items {m} : m ≠ [] → m <:+: G.items → G.Covers (cover m)
  | behind {m} : m ≠ [] → m <:+: G.items →
      G.Covers ⟨(cover m).file, (cover m).stop, (cover m).stop⟩
  | whole {x} : G.items.head? = some x → G.Covers ⟨x.span.file, x.span.start, G.finish.stop⟩
  | finish : G.Covers G.finish

theorem Reaches.stretch (h : G.Reaches s) (ht : Reads s t read) : read <:+: G.items := by
  obtain ⟨pre, hpre⟩ := h
  refine ⟨pre, t.rest, ?_⟩
  rw [List.append_assoc, ← ht.rest_eq]
  exact hpre.rest_eq.symm

theorem Reaches.covers (h : G.Reaches s) (ht : Reads s t read) (hne : read ≠ []) :
    G.Covers (cover read) := .items hne (h.stretch ht)

theorem Reaches.covers_next {x : Spanned τ} {xs : List (Spanned τ)} (h : G.Reaches s)
    (hs : s.rest = x :: xs) : G.Covers x.span := by
  obtain ⟨pre, hpre⟩ := h
  refine .items (m := [x]) (by simp) ⟨pre, xs, ?_⟩
  rw [List.append_assoc]
  exact (hs ▸ hpre.rest_eq).symm

/-- The faults that reading may meet. -/
inductive Allows (G : Ground τ) : Fault τ → Prop
  | unexpected {span found expected} : G.Covers span → G.Allows (.unexpected span found expected)
  | complaint {span reason} : G.Covers span → G.Allows (.complaint span reason)
  | backward {t u more} : [t, u] <:+: G.items → G.closing u.val →
      G.Allows (.unexpected ⟨u.span.file, u.span.start, t.span.stop⟩ (some u.val)
        (.somethingElse :: more))

/-- New expectations come after the old ones. -/
theorem addExpected_eq [DecidableEq τ] (old new : List (Expectation τ)) :
    ∃ more, addExpected old new = old ++ more := by
  induction new generalizing old with
  | nil => exact ⟨[], (List.append_nil _).symm⟩
  | cons e new ih =>
    rw [addExpected, List.foldl_cons]
    split
    · exact ih old
    · obtain ⟨more, hmore⟩ := ih (old ++ [e])
      exact ⟨e :: more, hmore.trans (by simp)⟩

/-- Of two allowed faults that compete, the one that is remembered is allowed. -/
theorem Allows.further [DecidableEq τ] {old new : Failure τ} (h : G.Allows old.toFault)
    (h' : G.Allows new.toFault) : G.Allows (old.further new).toFault := by
  unfold Failure.further
  split
  · exact h'
  · split
    · exact h
    · obtain ⟨left, span, found, expected⟩ := old
      obtain ⟨more, hmore⟩ := addExpected_eq expected new.expected
      rw [hmore]
      cases h with
      | unexpected hspan => exact .unexpected hspan
      | backward htu hu => exact .backward htu hu

/-- What holds in every state: all faults are allowed, and what was read aside is told. -/
structure Holds (G : Ground τ) (s : State τ) : Prop where
  finish : s.finish = G.finish
  faults : ∀ f ∈ s.faults, G.Allows f
  pending : ∀ f ∈ s.pending, G.Allows f.toFault
  aside : ∃ blocks : List (List SyntaxError), s.aside = blocks.flatten ∧ ∀ b ∈ blocks, G.told b

theorem holds_start (G : Ground τ) : G.Holds (State.start G.items G.finish) :=
  ⟨rfl, fun _ h => (by cases h), fun _ h => (by cases h), [], rfl, fun _ h => (by cases h)⟩

theorem Holds.back (h : G.Holds t) (hs : G.Holds s) : G.Holds (t.back s) :=
  ⟨hs.finish, hs.faults, h.pending, h.aside⟩

theorem Holds.clear (h : G.Holds s) : G.Holds { s with pending := none } :=
  ⟨h.finish, h.faults, fun _ hf => (by cases hf), h.aside⟩

theorem Holds.remember (h : G.Holds s) (ht : G.Holds t) : G.Holds { s with pending := t.pending } :=
  ⟨h.finish, h.faults, ht.pending, h.aside⟩

theorem Holds.advance {x : Spanned τ} {xs : List (Spanned τ)} (h : G.Holds s) (hs : s.rest = x :: xs) :
    G.Holds (s.advance x xs hs) :=
  ⟨h.finish, h.faults, h.pending, h.aside⟩

/-- A failure that is allowed at its place keeps all that is remembered allowed. -/
theorem Holds.fail [DecidableEq τ] {found : Option τ} {expected : List (Expectation τ)}
    (h : G.Holds s) (hf : G.Allows (.unexpected span found expected)) :
    G.Holds (s.fail span found expected) := by
  refine ⟨h.finish, h.faults, fun f hf' => ?_, h.aside⟩
  have hpending := h.pending
  unfold State.fail at hf'
  obtain rfl := Option.some.inj hf'
  cases hold : s.pending with
  | none => exact hf
  | some old => exact (hpending old hold).further hf

theorem Holds.report {f : Fault τ} (h : G.Holds s) (hf : G.Allows f) : G.Holds (s.report f) := by
  refine ⟨h.finish, fun g hg => ?_, h.pending, h.aside⟩
  rcases List.mem_append.1 hg with hg | hg
  · exact h.faults g hg
  · exact List.mem_singleton.1 hg ▸ hf

theorem Holds.pendingFault (h : G.Holds s) : G.Allows s.pendingFault := by
  unfold State.pendingFault
  cases hp : s.pending with
  | none => exact .unexpected (h.finish ▸ .finish)
  | some f => exact h.pending f hp

end Ground

namespace Rule

variable {G : Ground τ} {r : Rule τ α}

/-- Only allowed faults are added. -/
class Located (G : Ground τ) (r : Rule τ α) : Prop where
  tame : Tame r
  holds : ∀ s, G.Reaches s → G.Holds s → G.Holds (r s).2

theorem Located.next (h : Located G r) {s t : State τ} {a : α} (hs : G.Reaches s)
    (hr : r s = (some a, t)) : G.Reaches t := by
  obtain ⟨read, hread⟩ := h.tame.reads hr
  exact hs.next hread

theorem Located.after (h : Located G r) {s t : State τ} {o : Option α} (hs : G.Reaches s)
    (hh : G.Holds s) (hr : r s = (o, t)) : G.Holds t := by
  have := h.holds s hs hh
  rwa [hr] at this

/-! ## Sequence -/

instance (a : α) : Located G (pure a : Rule τ α) := ⟨inferInstance, fun _ _ h => h⟩

/-- The second rule may rely on how the first one ended. -/
theorem Located.bind_of {f : α → Rule τ β} (hr : Located G r) (ht : ∀ a, Tame (f a))
    (hf : ∀ {s a t}, G.Reaches s → r s = (some a, t) → G.Holds t → G.Holds (f a t).2) :
    Located G (r >>= f) := by
  have := hr.tame
  refine ⟨inferInstance, fun s hs hh => ?_⟩
  change G.Holds (Rule.bind r f s).2
  unfold Rule.bind
  split
  · rename_i a t ht
    exact hf hs ht (hr.after hs hh ht)
  · rename_i t ht
    exact hr.after hs hh ht

instance Located.bind {f : α → Rule τ β} [hr : Located G r] [hf : ∀ a, Located G (f a)] :
    Located G (r >>= f) :=
  hr.bind_of (fun a => (hf a).tame) fun hs hrun hh => (hf _).holds _ (hr.next hs hrun) hh

instance {p : Prop} [Decidable p] {r' : Rule τ α} [h : Located G r] [h' : Located G r'] :
    Located G (if p then r else r') := by
  split
  · exact h
  · exact h'

/-! ## Single items -/

section items

variable [DecidableEq τ]

instance (expected : List (Expectation τ)) (f : τ → Option α) : Located G (item expected f) := by
  refine ⟨inferInstance, fun s hs hh => ?_⟩
  unfold item
  split
  · exact hh.fail (.unexpected (hh.finish ▸ .finish))
  · rename_i x xs hx
    split
    · exact hh.advance hx
    · exact hh.fail (.unexpected (hs.covers_next hx))

instance (t : τ) : Located G (just t) := inferInstanceAs (Located G (item _ _))

instance (ts : List τ) : Located G (oneOf ts) := inferInstanceAs (Located G (item _ _))

instance (ts : List τ) : Located G (noneOf ts) := inferInstanceAs (Located G (item _ _))

instance (f : τ → Option α) : Located G (select f) := inferInstanceAs (Located G (item _ _))

instance : Located G (anyItem : Rule τ τ) := inferInstanceAs (Located G (item _ _))

instance (p : τ → Bool) : Located G (satisfy p) := by
  have hany : Located G (anyItem : Rule τ τ) := inferInstance
  refine ⟨inferInstance, fun s hs hh => ?_⟩
  unfold satisfy
  split
  · rename_i x t ht
    have hafter := hany.after hs hh ht
    split
    · exact hafter
    · obtain ⟨read, hread, hne⟩ := Consumes.reads ht
      refine hafter.fail (.unexpected ?_)
      rw [hread.spanTo_eq hne]
      exact hs.covers hread hne
  · rename_i t ht
    exact hany.after hs hh ht

instance Located.justAll (ts : List τ) : Located G (justAll ts) := by
  induction ts with
  | nil => exact inferInstanceAs (Located G (pure ()))
  | cons t ts ih => exact inferInstanceAs (Located G (just t >>= fun _ => Rule.justAll ts))

instance : Located G (endOfInput : Rule τ Unit) := by
  refine ⟨inferInstance, fun s hs hh => ?_⟩
  unfold endOfInput
  split
  · exact hh
  · rename_i x xs hx
    exact hh.fail (.unexpected (hs.covers_next hx))

end items

/-! ## Looking ahead -/

/-- Where the rule succeeds without reading anything, it is at the end or before a closing item. -/
class Shuts (closing : τ → Prop) (r : Rule τ α) : Prop where
  shuts : ∀ {s : State τ} {a : α} {t : State τ}, r s = (some a, t) →
    ∃ read, Reads s t read ∧ (read ≠ [] ∨ ∀ x ∈ s.rest.head?, closing x.val)

instance (priority := low) {closing : τ → Prop} [h : Consumes r] : Shuts closing r :=
  ⟨fun hr => (h.reads hr).imp fun _ hread => ⟨hread.1, .inl hread.2⟩⟩

instance [DecidableEq τ] {closing : τ → Prop} : Shuts closing (endOfInput : Rule τ Unit) := by
  refine ⟨fun {s a t} hr => ?_⟩
  obtain ⟨read, hread, rfl, hrest⟩ := Ensures.endOfInput.ensures hr
  refine ⟨[], hread, .inr fun x hx => ?_⟩
  rw [hread.rest_eq, hrest] at hx
  cases hx

theorem Shuts.ahead_just [DecidableEq τ] {closing : τ → Prop} {c : τ} (hc : closing c) :
    Shuts closing (do let _ ← ahead (just c); pure () : Rule τ Unit) := by
  refine ⟨fun {s a t} hr => ?_⟩
  obtain ⟨read, hread, hq⟩ := ((Ensures.just c).ahead.bind fun _ => .pure ()).ensures hr
  obtain ⟨_, _, _, rfl, ⟨rfl, xs, ys, hrest, x, rfl, hx⟩, rfl, -⟩ := hq
  refine ⟨[], hread, .inr fun y hy => ?_⟩
  rw [List.nil_append] at hrest
  rw [hread.rest_eq, List.append_nil, List.nil_append, hrest] at hy
  cases hy
  exact hx ▸ hc

instance [DecidableEq τ] [h : Located G r] [hr : Shuts G.closing r] : Located G (notAhead r) := by
  refine ⟨inferInstance, fun s hs hh => ?_⟩
  have hclear : G.Reaches { s with pending := none } := hs.congr rfl rfl
  unfold notAhead
  split
  · rename_i t ht
    exact ((h.after hclear hh.clear ht).back hh).remember hh
  · rename_i a t ht
    have hback := ((h.after hclear hh.clear ht).back hh).remember hh
    obtain ⟨read, hread, hshut⟩ := hr.shuts ht
    have hread : Reads s t read := hread.congr rfl rfl rfl rfl
    dsimp only
    split
    · rename_i hx
      have hnil : s.rest = [] := hx
      refine hback.fail (.unexpected ?_)
      rw [State.spanTo, hnil]
      exact hh.finish ▸ .finish
    · rename_i x xs hx
      have hcons : s.rest = x :: xs := hx
      refine (hback.advance hx).fail ?_
      by_cases hne : read = []
      · -- nothing was read, so the range ends where the item before it does
        subst hne
        have hclosing : G.closing x.val := hshut.resolve_left (fun h => h rfl) x (by simp [hcons])
        have hspan : s.spanTo t = ⟨x.span.file, x.span.start, s.last.stop⟩ := by
          rw [State.spanTo, hcons, hread.last_eq]
          rfl
        obtain ⟨pre, hpre⟩ := hs
        have hitems : G.items = pre ++ x :: xs := hcons ▸ hpre.rest_eq
        rw [hspan, hpre.last_eq]
        rcases List.eq_nil_or_concat pre with rfl | ⟨init, y, rfl⟩
        · exact .unexpected (.whole (by rw [hitems]; rfl))
        · rw [List.concat_eq_append] at hitems ⊢
          rw [List.getLast?_concat]
          exact .backward ⟨init, xs, by simp [hitems]⟩ hclosing
      · rw [hread.spanTo_eq hne]
        exact .unexpected (hs.covers hread hne)

instance [h : Located G r] : Located G (ahead r) := by
  refine ⟨h.tame.ensures.ahead.tame, fun s hs hh => ?_⟩
  unfold ahead
  split
  · rename_i a t ht
    exact (h.after hs hh ht).back hh
  · rename_i t ht
    exact h.after hs hh ht

instance {r' : Rule τ β} [h : Located G r] [h' : Located G r'] : Located G (andIs r r') := by
  refine ⟨h.tame.ensures.andIs.tame, fun s hs hh => ?_⟩
  unfold andIs
  split
  · rename_i t ht
    exact h.after hs hh ht
  · rename_i x t ht
    have hleft := h.after hs hh ht
    have hright := h'.holds (t.back s) (hs.back t) (hleft.back hh)
    split
    · rename_i b u hu
      rw [hu] at hright
      exact hright.back hleft
    · rename_i u hu
      rwa [hu] at hright

/-! ## Alternatives, repetition and recursion -/

instance : Located G (choice [] : Rule τ α) := ⟨inferInstance, fun _ _ h => h⟩

instance {rs : List (Rule τ α)} [h : Located G r] [hs : Located G (choice rs)] :
    Located G (choice (r :: rs)) := by
  refine ⟨(h.tame.ensures.choice_cons hs.tame.ensures).tame, fun s hreach hh => ?_⟩
  unfold choice
  split
  · rename_i a t ht
    exact h.after hreach hh ht
  · rename_i t ht
    exact hs.holds (t.back s) (hreach.back t) ((h.after hreach hh ht).back hh)

theorem Located.choice_map {f : β → Rule τ α} (hf : ∀ b, Located G (f b)) (bs : List β)
    {rs : List (Rule τ α)} (hs : Located G (choice rs)) : Located G (choice (bs.map f ++ rs)) := by
  induction bs with
  | nil => exact hs
  | cons b bs ih => exact inferInstanceAs (Located G (choice (f b :: (bs.map f ++ rs))))

instance [h : Located G r] : Located G (maybe r) := by
  refine ⟨h.tame.ensures.maybe.tame, fun s hs hh => ?_⟩
  unfold maybe
  split
  · rename_i a t ht
    exact h.after hs hh ht
  · rename_i t ht
    exact (h.after hs hh ht).back hh

/-- Turn by turn, all that is remembered stays allowed. -/
theorem upTo_located (h : Located G r) (n : Nat) {s : State τ} (hs : G.Reaches s)
    (hh : G.Holds s) : G.Holds (upTo r n s).2 := by
  induction n generalizing s with
  | zero => exact hh
  | succ n ih =>
    unfold upTo
    split
    · rename_i a t hrun
      exact ih (h.next hs hrun) (h.after hs hh hrun)
    · rename_i t hrun
      exact (h.after hs hh hrun).back hh

instance [h : Located G r] : Located G (many r) :=
  ⟨h.tame.ensures.many.tame, fun s hs hh => upTo_located h (s.left + 1) hs hh⟩

instance [h : Located G r] : Located G (many1 r) := by
  refine ⟨h.tame.ensures.many1.tame, fun s hs hh => ?_⟩
  unfold many1
  split
  · rename_i a t hrun
    exact upTo_located h (s.left + 1) (h.next hs hrun) (h.after hs hh hrun)
  · rename_i t hrun
    exact (h.after hs hh hrun).back hh

instance Located.skipMany [Located G r] : Located G (skipMany r) :=
  inferInstanceAs (Located G (many r >>= fun _ => pure ()))

theorem Located.recursive {f : Rule τ α → Rule τ α} (h : ∀ r, Located G r → Located G (f r)) :
    Located G (recursive f) := by
  have hn : ∀ n, Located G (unfold f n) := by
    intro n
    induction n with
    | zero => exact ⟨⟨fun hr => by cases hr⟩, fun _ _ h => h⟩
    | succ n ih => exact h _ ih
  exact ⟨⟨fun {s a t} hr => (hn (s.left + 1)).tame.reads hr⟩, fun s => (hn (s.left + 1)).holds s⟩

/-- Separators and items in turn keep all that is remembered allowed. -/
theorem sepUpTo_located {sep : Rule τ β} (h : Located G r) (hsep : Located G sep) (n : Nat)
    {s : State τ} (hs : G.Reaches s) (hh : G.Holds s) : G.Holds (sepUpTo r sep n s).2 := by
  induction n generalizing s with
  | zero => exact hh
  | succ n ih =>
    unfold sepUpTo
    split
    · rename_i t hrun
      exact (hsep.after hs hh hrun).back hh
    · rename_i b t hrun
      have hreach := hsep.next hs hrun
      have hafter := hsep.after hs hh hrun
      split
      · rename_i a u hu
        exact ih (h.next hreach hu) (h.after hreach hafter hu)
      · rename_i u hu
        exact (h.after hreach hafter hu).back hafter

instance {sep : Rule τ β} [h : Located G r] [hsep : Located G sep] : Located G (sepBy r sep) := by
  refine ⟨(h.tame.ensures.sepBy (S := fun _ => True) hsep.tame.ensures).tame, fun s hs hh => ?_⟩
  obtain ⟨o, t, hlead⟩ : ∃ o t, maybe sep s = (some o, t) := by
    unfold maybe
    split <;> exact ⟨_, _, rfl⟩
  have hmaybe : Located G (maybe sep) := inferInstance
  have hreach := hmaybe.next hs hlead
  have hafter := hmaybe.after hs hh hlead
  unfold sepBy
  rw [hlead]
  dsimp only
  split
  · rename_i u hu
    exact (h.after hreach hafter hu).back hafter
  · rename_i a u hu
    exact sepUpTo_located h hsep (s.left + 1) (h.next hreach hu) (h.after hreach hafter hu)

instance Located.between {l : Rule τ β} {r' : Rule τ γ} [Located G l] [Located G r]
    [Located G r'] : Located G (between l r r') :=
  inferInstanceAs (Located G (l >>= fun _ => r >>= fun a => r' >>= fun _ => pure a))

instance {pad : Rule τ β} [Located G pad] [Located G r] : Located G (padded pad r) :=
  inferInstanceAs (Located G (Rule.between pad r pad))

/-! ## Places and errors -/

instance Located.spanned [h : Located G r] : Located G (spanned r) := by
  refine ⟨h.tame.ensures.spanned.tame, fun s hs hh => ?_⟩
  unfold Rule.spanned
  split
  · rename_i a t ht
    exact h.after hs hh ht
  · rename_i t ht
    exact h.after hs hh ht

instance [h : Located G r] : Located G (recognized r) := by
  refine ⟨h.tame.ensures.recognized.tame, fun s hs hh => ?_⟩
  unfold recognized
  split
  · rename_i a t ht
    exact h.after hs hh ht
  · rename_i t ht
    exact h.after hs hh ht

/-- A complaint is allowed where a range that was read is. -/
theorem holds_complain {s : State τ} {span : Span} {reason : Complaint} (hh : G.Holds s)
    (hspan : G.Covers span) : G.Holds (complain span reason s : Option Unit × State τ).2 :=
  hh.report (.complaint hspan)

theorem holds_putAside {s : State τ} {errors : List SyntaxError} (hh : G.Holds s)
    (htold : G.told errors) : G.Holds (putAside errors s : Option Unit × State τ).2 := by
  obtain ⟨blocks, haside, hblocks⟩ := hh.aside
  refine ⟨hh.finish, hh.faults, hh.pending, blocks ++ [errors], ?_, fun b hb => ?_⟩
  · change s.aside ++ errors = _
    rw [haside, List.flatten_append, List.flatten_singleton]
  · rcases List.mem_append.1 hb with hb | hb
    · exact hblocks b hb
    · exact List.mem_singleton.1 hb ▸ htold

/-- The range of what was read is one that errors are expected at. -/
theorem spanned_covers [hr : Consumes r] {s t : State τ} {x : Spanned α} (hs : G.Reaches s)
    (h : spanned r s = (some x, t)) : ∃ m, m ≠ [] ∧ m <:+: G.items ∧ x.span = cover m := by
  obtain ⟨read, hread, hne, hspan⟩ := (hr.ensures.spanned).ensures h
  exact ⟨read, hne, hs.stretch hread, hspan hne⟩

/-! ## Recovery -/

instance {other : Rule τ α} [h : Located G r] [ho : Located G other] :
    Located G (orRecover r other) := by
  refine ⟨(h.tame.ensures.orRecover ho.tame.ensures).tame, fun s hs hh => ?_⟩
  unfold orRecover
  split
  · rename_i a t ht
    exact h.after hs hh ht
  · rename_i t ht
    have hafter := h.after hs hh ht
    have hother := ho.holds { t.back s with pending := none } (hs.congr rfl rfl) (hafter.back hh).clear
    split
    · rename_i a u hu
      rw [hu] at hother
      exact hother.report hafter.pendingFault
    · rename_i u hu
      rw [hu] at hother
      exact (hother.back hh).remember hafter

/-- Each further attempt starts from a place that can be reached. -/
theorem retry_located [DecidableEq τ] (h : Located G r) (n : Nat) {s : State τ} (hs : G.Reaches s)
    (hh : G.Holds s) : G.Holds (retry r n s).2 := by
  have hend : Located G (endOfInput : Rule τ Unit) := inferInstance
  have hany : Located G (anyItem : Rule τ τ) := inferInstance
  induction n generalizing s with
  | zero => exact hh
  | succ n ih =>
    unfold retry
    split
    · rename_i t ht
      exact hend.after hs hh ht
    · rename_i t ht
      have hback := (hend.after hs hh ht).back hh
      split
      · rename_i u hu
        exact hany.after (hs.back t) hback hu
      · rename_i x u hu
        have hnext := hany.after (hs.back t) hback hu
        have hreach := hany.next (hs.back t) hu
        have hagain : ∀ {v : State τ}, G.Holds v →
            G.Holds (retry r n { v.back u with pending := none }).2 :=
          fun hv => ih (hreach.congr rfl rfl) (hv.back hnext).clear
        split
        · rename_i a v hv
          split
          · exact h.after hreach hnext hv
          · exact hagain (h.after hreach hnext hv)
        · rename_i v hv
          exact hagain (h.after hreach hnext hv)

instance [DecidableEq τ] [h : Located G r] : Located G (orSkip r) := by
  refine ⟨h.tame.ensures.orSkip.tame, fun s hs hh => ?_⟩
  unfold orSkip
  split
  · rename_i a t ht
    exact h.after hs hh ht
  · rename_i t ht
    have hafter := h.after hs hh ht
    have hretry := retry_located h (s.left + 1) (s := { t.back s with pending := none })
      (hs.congr rfl rfl) (hafter.back hh).clear
    split
    · rename_i a u hu
      rw [hu] at hretry
      exact hretry.report hafter.pendingFault
    · rename_i u hu
      rw [hu] at hretry
      exact (hretry.back hh).remember hafter

/-! ## Whole inputs -/

/-- The errors of a whole input are allowed faults in words, and then lists of errors that are told. -/
theorem Located.run [DecidableEq τ] [Located G r] (name : τ → String) :
    ∃ (faults : List (Fault τ)) (blocks : List (List SyntaxError)),
      (run name r G.items G.finish).2 = faults.map (·.toError name) ++ blocks.flatten ∧
      (∀ f ∈ faults, G.Allows f) ∧ ∀ b ∈ blocks, G.told b := by
  have hwhole : Located G (whole r) :=
    inferInstanceAs (Located G (do let a ← r; endOfInput; pure a : Rule τ α))
  have hh := hwhole.holds _ G.reaches_start G.holds_start
  obtain ⟨blocks, haside, hblocks⟩ := hh.aside
  refine ⟨_, blocks, by rw [run_snd, ← haside], fun f hf => ?_, hblocks⟩
  rcases List.mem_append.1 hf with hf | hf
  · exact hh.faults f hf
  · split at hf
    · cases hf
    · exact List.mem_singleton.1 hf ▸ hh.pendingFault

end Rule

end CueScope.Grammar
