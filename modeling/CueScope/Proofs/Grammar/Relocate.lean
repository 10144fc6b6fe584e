import CueScope.Proofs.Grammar.Reads
import CueScope.Proofs.Grammar.Takes
import Mathlib.Data.List.Forall2
import Mathlib.Data.Option.Basic

/-!
# Inputs in another place

The items of an input are moved to other places, and may name places themselves.

* `Relocation`: how places are moved and what becomes of an item. In front of some items a few bytes
  more may be put.
* `Relocation.States`: two states are the same but for their places. Where no bytes are put in front
  of items, this holds of their errors and of the furthest failure too; else of the number of
  errors.
* `Rule.Moved R V r r'`: from such states both rules fail, or both succeed with values that `V`
  relates, and end in such states again. There is one lemma for each way to build rules.
* `run_value_moved`, `run_errors_moved`: what a whole input is read as, and its errors, move with it.
-/

namespace CueScope

/-- The span whose ends are moved by `f`. -/
def Span.move (f : Nat → Nat) (s : Span) : Span := ⟨s.file, f s.start, f s.stop⟩

/-- The same error at the moved span. -/
def SyntaxError.move (f : Nat → Nat) (e : SyntaxError) : SyntaxError := ⟨e.span.move f, e.message⟩

/-- A map that keeps the order of bytes moves the range of two spans as a whole. -/
theorem Span.move_join {f : Nat → Nat} (hf : ∀ a b, a ≤ b → f a ≤ f b) (s t : Span) :
    (s.join t).move f = (s.move f).join (t.move f) := by
  have hmin : ∀ a b, f (min a b) = min (f a) (f b) := by
    intro a b
    rcases Nat.le_total a b with h | h
    · rw [Nat.min_eq_left h, Nat.min_eq_left (hf _ _ h)]
    · rw [Nat.min_eq_right h, Nat.min_eq_right (hf _ _ h)]
  have hmax : ∀ a b, f (max a b) = max (f a) (f b) := by
    intro a b
    rcases Nat.le_total a b with h | h
    · rw [Nat.max_eq_right h, Nat.max_eq_right (hf _ _ h)]
    · rw [Nat.max_eq_left h, Nat.max_eq_left (hf _ _ h)]
  simp only [Span.move, Span.join, hmin, hmax]

namespace Grammar

variable {τ α β γ δ : Type}

/-- How places are moved and what becomes of the items there. -/
structure Relocation (τ : Type) where
  place : Nat → Nat
  item : τ → τ
  /-- How many bytes more are put in front of an item. -/
  lead : τ → Nat
  /-- The items that may occur. -/
  admits : τ → Prop

/-- The failure at its moved place. -/
def Failure.move (R : Relocation τ) (f : Failure τ) : Failure τ :=
  { f with span := f.span.move R.place, found := f.found.map R.item }

/-- The error at its moved place. -/
def Fault.move (R : Relocation τ) : Fault τ → Fault τ
  | .unexpected span found expected =>
    .unexpected (span.move R.place) (found.map R.item) expected
  | .complaint span reason => .complaint (span.move R.place) reason

namespace Relocation

variable {R : Relocation τ}

/-- Nothing is put in front of items. -/
def Exact (R : Relocation τ) : Prop := ∀ t, R.lead t = 0

/-- Items are moved and stay as they are. -/
def along (f : Nat → Nat) : Relocation τ := ⟨f, id, fun _ => 0, fun _ => True⟩

theorem exact_along (f : Nat → Nat) : (along f : Relocation τ).Exact := fun _ => rfl

/-- What an item becomes. -/
structure Item (R : Relocation τ) (x y : Spanned τ) : Prop where
  admits : R.admits x.val
  val : y.val = R.item x.val
  span : y.span =
    ⟨x.span.file, R.place x.span.start + R.lead x.val, R.place x.span.stop⟩

theorem Item.span_eq {x y : Spanned τ} (h : R.Item x y) (hx : R.lead x.val = 0) :
    y.span = x.span.move R.place := by
  rw [h.span, hx]
  rfl

/-- Two states are the same but for their places. -/
structure States (R : Relocation τ) (s s' : State τ) : Prop where
  rest : List.Forall₂ R.Item s.rest s'.rest
  last : s'.last.stop = R.place s.last.stop
  finish : s'.finish = s.finish.move R.place
  aside : s'.aside = s.aside.map (SyntaxError.move R.place)
  count : s'.faults.length = s.faults.length
  faults : R.Exact → s'.faults = s.faults.map (Fault.move R)
  pending : R.Exact → s'.pending = s.pending.map (Failure.move R)

/-- Both rules failed, or both succeeded, in states that are the same but for their places. -/
inductive Ends (R : Relocation τ) (V : α → β → Prop) :
    Option α × State τ → Option β × State τ → Prop
  | fail {t t' : State τ} : R.States t t' → Ends R V (none, t) (none, t')
  | ok {a : α} {b : β} {t t' : State τ} : V a b → R.States t t' → Ends R V (some a, t) (some b, t')

theorem Ends.mono {V W : α → β → Prop} {o : Option α × State τ} {o' : Option β × State τ}
    (h : R.Ends V o o') (hV : ∀ a b, V a b → W a b) : R.Ends W o o' := by
  cases h with
  | fail ht => exact .fail ht
  | ok hv ht => exact .ok (hV _ _ hv) ht

/-! ## States -/

/-- Which of two failures is further does not depend on places. -/
theorem further_move [DecidableEq τ] (old new : Failure τ) :
    (old.further new).move R = (old.move R).further (new.move R) := by
  have hleft : ∀ f : Failure τ, (f.move R).left = f.left := fun _ => rfl
  simp only [Failure.further, hleft]
  by_cases hnew : new.left < old.left
  · rw [if_pos hnew, if_pos hnew]
  · by_cases hold : old.left < new.left
    · rw [if_neg hnew, if_neg hnew, if_pos hold, if_pos hold]
    · rw [if_neg hnew, if_neg hnew, if_neg hold, if_neg hold]
      simp [Failure.move, Option.map_or]

namespace States

variable {s s' t t' : State τ} {x y : Spanned τ} {xs ys : List (Spanned τ)}

theorem left (h : R.States s s') : s'.left = s.left := by
  rw [s.left_eq, s'.left_eq, h.rest.length_eq]

theorem back (ht : R.States t t') (hs : R.States s s') : R.States (t.back s) (t'.back s') :=
  ⟨hs.rest, hs.last, hs.finish, ht.aside, hs.count, hs.faults, ht.pending⟩

/-- Whatever was remembered as the furthest failure. -/
theorem pend (h : R.States s s') {p p' : Option (Failure τ)}
    (hp : R.Exact → p' = p.map (Failure.move R)) :
    R.States { s with pending := p } { s' with pending := p' } :=
  ⟨h.rest, h.last, h.finish, h.aside, h.count, h.faults, hp⟩

/-- Nothing is remembered. -/
theorem clear (h : R.States s s') :
    R.States { s with pending := none } { s' with pending := none } := h.pend fun _ => rfl

theorem advance (h : R.States s s') (hs : s.rest = x :: xs) (hs' : s'.rest = y :: ys) :
    R.States (s.advance x xs hs) (s'.advance y ys hs') := by
  have hrest := h.rest
  rw [hs, hs', List.forall₂_cons] at hrest
  exact ⟨hrest.2, by rw [State.advance, State.advance, hrest.1.span], h.finish, h.aside, h.count,
    h.faults, h.pending⟩

theorem fail [DecidableEq τ] (h : R.States s s') {span span' : Span} {found found' : Option τ}
    (expected : List (Expectation τ)) (hspan : R.Exact → span' = span.move R.place)
    (hfound : found' = found.map R.item) :
    R.States (s.fail span found expected) (s'.fail span' found' expected) := by
  refine h.pend fun hR => ?_
  rw [h.pending hR, h.left, hspan hR, hfound]
  cases hp : s.pending with
  | none => rfl
  | some f => exact congrArg some (further_move f ⟨s.left, span, found, expected⟩).symm

theorem report (h : R.States s s') {f f' : Fault τ} (hf : R.Exact → f' = f.move R) :
    R.States (s.report f) (s'.report f') := by
  refine ⟨h.rest, h.last, h.finish, h.aside, ?_, fun hR => ?_, h.pending⟩
  · simp only [State.report, List.length_append, h.count]
    rfl
  · simp only [State.report, List.map_append, h.faults hR, hf hR]
    rfl

theorem pendingFault (h : R.States s s') (hR : R.Exact) :
    s'.pendingFault = s.pendingFault.move R := by
  unfold State.pendingFault
  rw [h.pending hR, h.finish]
  cases s.pending <;> rfl

/-- What is read moves, unless bytes are put in front of its first item. -/
theorem spanTo (hs : R.States s s') (ht : R.States t t')
    (hlead : ∀ x ∈ s.rest.head?, R.lead x.val = 0) :
    s'.spanTo t' = (s.spanTo t).move R.place := by
  have hrest := hs.rest
  unfold State.spanTo
  cases h : s.rest with
  | nil =>
    rw [h, List.forall₂_nil_left_iff] at hrest
    rw [hrest]
    exact hs.finish
  | cons x xs =>
    rw [h] at hrest
    obtain ⟨y, ys, hxy, -, hs'⟩ := List.forall₂_cons_left_iff.1 hrest
    rw [hs']
    simp only [hxy.span, hlead x (by simp [h]), ht.last]
    rfl

/-- The items read between two moved states are those read before, moved. -/
theorem readTo (hs : R.States s s') (ht : R.States t t') :
    s'.readTo t' = (s.readTo t).map R.item := by
  have hvals : ∀ {xs ys : List (Spanned τ)}, List.Forall₂ R.Item xs ys →
      ys.map (·.val) = (xs.map (·.val)).map R.item := by
    intro xs ys h
    induction h with
    | nil => rfl
    | cons h _ ih => simp only [List.map_cons, h.val, ih]
  unfold State.readTo
  rw [hs.left, ht.left, List.map_take, List.map_take, hvals hs.rest, List.map_take]

theorem start {items items' : List (Spanned τ)} {finish finish' : Span}
    (h : List.Forall₂ R.Item items items') (hfinish : finish' = finish.move R.place) :
    R.States (.start items finish) (.start items' finish') :=
  ⟨h, by rw [State.start, State.start, hfinish]; rfl, hfinish, rfl, rfl, fun _ => rfl, fun _ => rfl⟩

end States

end Relocation

namespace Rule

/-- From states that are the same but for their places, both rules do the same. -/
structure Moved (R : Relocation τ) (V : α → β → Prop) (r : Rule τ α) (r' : Rule τ β) : Prop where
  run : ∀ {s s' : State τ}, R.States s s' → R.Ends V (r s) (r' s')

variable {R : Relocation τ} {V : α → β → Prop} {W : γ → δ → Prop} {r q : Rule τ α} {r' q' : Rule τ β}

theorem Moved.mono {V' : α → β → Prop} (h : Moved R V r r') (hV : ∀ a b, V a b → V' a b) :
    Moved R V' r r' := ⟨fun hs => (h.run hs).mono hV⟩

/-- The values do not matter. -/
theorem Moved.void (h : Moved R V r r') : Moved R (fun _ _ => True) r r' :=
  h.mono fun _ _ _ => trivial

/-! ## Sequence -/

theorem Moved.pure {a : α} {b : β} (h : V a b) : Moved R V (pure a) (pure b) :=
  ⟨fun hs => .ok h hs⟩

/-- A sequence moves with its items, if its rules do. -/
theorem Moved.bind {f : α → Rule τ γ} {f' : β → Rule τ δ} (h : Moved R V r r')
    (hf : ∀ a b, V a b → Moved R W (f a) (f' b)) : Moved R W (r >>= f) (r' >>= f') := by
  refine ⟨fun {s s'} hs => ?_⟩
  change R.Ends W (Rule.bind r f s) (Rule.bind r' f' s')
  unfold Rule.bind
  have hrun := h.run hs
  generalize r s = o, r' s' = o' at hrun ⊢
  cases hrun with
  | fail ht => exact .fail ht
  | ok hv ht => exact (hf _ _ hv).run ht

theorem Moved.map {g : α → γ} {g' : β → δ} (h : Moved R V r r') (hg : ∀ a b, V a b → W (g a) (g' b)) :
    Moved R W (do let a ← r; Pure.pure (g a)) (do let b ← r'; Pure.pure (g' b)) :=
  h.bind fun a b hab => .pure (hg a b hab)

theorem Moved.between {l : Rule τ γ} {l' : Rule τ γ} {e : Rule τ δ} {e' : Rule τ δ}
    {L : γ → γ → Prop} {E : δ → δ → Prop}
    (hl : Moved R L l l') (h : Moved R V r r') (he : Moved R E e e') :
    Moved R V (between l r e) (between l' r' e') :=
  hl.bind fun _ _ _ => h.bind fun _ _ hv => he.bind fun _ _ _ => .pure hv

theorem Moved.padded {pad : Rule τ γ} {L : γ → γ → Prop} (hpad : Moved R L pad pad)
    (h : Moved R V r r') : Moved R V (padded pad r) (padded pad r') := hpad.between h hpad

/-! ## Single items -/

section items

variable [DecidableEq τ]

/-- An item that is admitted is taken alike where it was moved to. -/
theorem Moved.item {f : τ → Option α} {f' : τ → Option β} (expected : List (Expectation τ))
    (hf : ∀ t, R.admits t → Option.Rel V (f t) (f' (R.item t))) :
    Moved R V (item expected f) (item expected f') := by
  refine ⟨fun {s s'} hs => ?_⟩
  have hrest := hs.rest
  cases h : s.rest with
  | nil =>
    rw [h, List.forall₂_nil_left_iff] at hrest
    rw [item_of_nil h, item_of_nil hrest]
    exact .fail (hs.fail _ (fun _ => hs.finish) rfl)
  | cons x xs =>
    rw [h] at hrest
    obtain ⟨y, ys, hxy, -, hs'⟩ := List.forall₂_cons_left_iff.1 hrest
    rw [item_of_cons h, item_of_cons hs']
    have hval := hf x.val hxy.admits
    rw [← hxy.val] at hval
    generalize f x.val = o, f' y.val = o' at hval ⊢
    cases hval with
    | none => exact .fail (hs.fail _ (fun hR => hxy.span_eq (hR _)) (congrArg some hxy.val))
    | some hv => exact .ok hv (hs.advance h hs')

/-- An item that stays as it is, and that no other becomes. -/
def Kept (R : Relocation τ) (t : τ) : Prop := ∀ u, R.item u = t ↔ u = t

theorem Moved.just {t : τ} (h : Kept R t) : Moved R (fun a b => a = t ∧ b = t) (just t) (just t) := by
  refine .item _ fun u _ => ?_
  by_cases hu : u = t
  · rw [if_pos hu, if_pos ((h u).2 hu)]
    exact .some ⟨hu, (h u).2 hu⟩
  · rw [if_neg hu, if_neg (mt (h u).1 hu)]
    exact .none

theorem Moved.justAll {ts : List τ} (h : ∀ t ∈ ts, Kept R t) :
    Moved R Eq (justAll ts) (justAll ts) := by
  induction ts with
  | nil => exact .pure rfl
  | cons t ts ih =>
    exact (Moved.just (h t List.mem_cons_self)).bind fun _ _ _ =>
      ih fun u hu => h u (List.mem_cons_of_mem _ hu)

omit [DecidableEq τ] in
theorem mem_iff_of_kept {ts : List τ} (h : ∀ t ∈ ts, Kept R t) (u : τ) : R.item u ∈ ts ↔ u ∈ ts := by
  constructor
  · intro hu
    have := (h _ hu u).1 rfl
    rwa [← this] at hu
  · intro hu
    rwa [(h u hu u).2 rfl]

theorem Moved.oneOf {ts : List τ} (h : ∀ t ∈ ts, Kept R t) :
    Moved R (fun a b => b = R.item a) (oneOf ts) (oneOf ts) := by
  refine .item _ fun u _ => ?_
  by_cases hu : u ∈ ts
  · rw [if_pos hu, if_pos ((mem_iff_of_kept h u).2 hu)]
    exact .some rfl
  · rw [if_neg hu, if_neg (mt (mem_iff_of_kept h u).1 hu)]
    exact .none

theorem Moved.noneOf {ts : List τ} (h : ∀ t ∈ ts, Kept R t) :
    Moved R (fun a b => b = R.item a) (noneOf ts) (noneOf ts) := by
  refine .item _ fun u _ => ?_
  by_cases hu : u ∈ ts
  · rw [if_pos hu, if_pos ((mem_iff_of_kept h u).2 hu)]
    exact .none
  · rw [if_neg hu, if_neg (mt (mem_iff_of_kept h u).1 hu)]
    exact .some rfl

theorem Moved.select {f : τ → Option α} {f' : τ → Option β}
    (hf : ∀ t, R.admits t → Option.Rel V (f t) (f' (R.item t))) :
    Moved R V (select f) (select f') := .item _ hf

theorem Moved.anyItem : Moved R (fun a b => b = R.item a) anyItem anyItem :=
  .item _ fun _ _ => .some rfl

theorem Moved.endOfInput : Moved R Eq (endOfInput : Rule τ Unit) endOfInput := by
  refine ⟨fun {s s'} hs => ?_⟩
  have hrest := hs.rest
  unfold Rule.endOfInput
  cases h : s.rest with
  | nil =>
    rw [h, List.forall₂_nil_left_iff] at hrest
    rw [hrest]
    exact .ok rfl hs
  | cons x xs =>
    rw [h] at hrest
    obtain ⟨y, ys, hxy, -, hs'⟩ := List.forall₂_cons_left_iff.1 hrest
    rw [hs']
    exact .fail (hs.fail _ (fun hR => hxy.span_eq (hR _)) (congrArg some hxy.val))

theorem Moved.satisfy {p : τ → Bool} (hp : ∀ t, p (R.item t) = p t) :
    Moved R (fun a b => b = R.item a) (satisfy p) (satisfy p) := by
  refine ⟨fun {s s'} hs => ?_⟩
  unfold Rule.satisfy
  have hrun := Moved.anyItem.run hs
  generalize Rule.anyItem s = o, Rule.anyItem s' = o' at hrun ⊢
  cases hrun with
  | fail ht => exact .fail ht
  | @ok a b t t' hv ht =>
    dsimp only
    rw [hv, hp]
    split
    · exact .ok rfl ht
    · exact .fail (ht.fail _ (fun hR => hs.spanTo ht fun x _ => hR x.val) rfl)

end items

/-! ## Alternatives and looking ahead -/

theorem Moved.choice_nil : Moved R V (choice []) (choice []) := ⟨fun hs => .fail hs⟩

theorem Moved.choice_cons {rs : List (Rule τ α)} {rs' : List (Rule τ β)} (h : Moved R V r r')
    (hs : Moved R V (choice rs) (choice rs')) : Moved R V (choice (r :: rs)) (choice (r' :: rs')) := by
  refine ⟨fun {s s'} hstates => ?_⟩
  unfold choice
  have hrun := h.run hstates
  generalize r s = o, r' s' = o' at hrun ⊢
  cases hrun with
  | fail ht => exact hs.run (ht.back hstates)
  | ok hv ht => exact .ok hv ht

theorem Moved.choice_map {g : γ → Rule τ α} {g' : γ → Rule τ β} {cs : List γ} {rs : List (Rule τ α)}
    {rs' : List (Rule τ β)} (h : ∀ c ∈ cs, Moved R V (g c) (g' c))
    (hs : Moved R V (choice rs) (choice rs')) :
    Moved R V (choice (cs.map g ++ rs)) (choice (cs.map g' ++ rs')) := by
  induction cs with
  | nil => exact hs
  | cons c cs ih =>
    exact (h c List.mem_cons_self).choice_cons (ih fun d hd => h d (List.mem_cons_of_mem _ hd))

theorem Moved.maybe (h : Moved R V r r') : Moved R (Option.Rel V) (maybe r) (maybe r') := by
  refine ⟨fun {s s'} hs => ?_⟩
  unfold Rule.maybe
  have hrun := h.run hs
  generalize r s = o, r' s' = o' at hrun ⊢
  cases hrun with
  | fail ht => exact .ok .none (ht.back hs)
  | ok hv ht => exact .ok (.some hv) ht

theorem Moved.ahead (h : Moved R V r r') : Moved R V (ahead r) (ahead r') := by
  refine ⟨fun {s s'} hs => ?_⟩
  unfold Rule.ahead
  have hrun := h.run hs
  generalize r s = o, r' s' = o' at hrun ⊢
  cases hrun with
  | fail ht => exact .fail ht
  | ok hv ht => exact .ok hv (ht.back hs)

/-- Looking ahead for nothing moves with the items. The span it remembers for a failure is moved,
too. -/
theorem Moved.notAhead [DecidableEq τ] (h : Moved R V r r') :
    Moved R Eq (notAhead r) (notAhead r') := by
  refine ⟨fun {s s'} hs => ?_⟩
  unfold Rule.notAhead
  have hrun := h.run hs.clear
  generalize r _ = o, r' _ = o' at hrun ⊢
  cases hrun with
  | fail ht => exact .ok rfl ((ht.back hs).pend hs.pending)
  | @ok a b t t' hv ht =>
    have hspan : R.Exact → s'.spanTo t' = (s.spanTo t).move R.place :=
      fun hR => hs.spanTo ht fun x _ => hR x.val
    have hback := (ht.back hs).pend hs.pending
    have hrest := hback.rest
    dsimp only
    split
    · rename_i hnil
      split
      · exact .fail (hback.fail _ hspan rfl)
      · rename_i y ys hcons
        rw [hnil, hcons] at hrest
        cases hrest
    · rename_i x xs hcons
      split
      · rename_i hnil
        rw [hcons, hnil] at hrest
        cases hrest
      · rename_i y ys hcons'
        rw [hcons, hcons', List.forall₂_cons] at hrest
        exact .fail ((hback.advance hcons hcons').fail _ hspan (congrArg some hrest.1.val))

theorem Moved.andIs {p : Rule τ γ} {p' : Rule τ δ} (h : Moved R V r r') (hp : Moved R W p p') :
    Moved R V (andIs r p) (andIs r' p') := by
  refine ⟨fun {s s'} hs => ?_⟩
  unfold Rule.andIs
  have hrun := h.run hs
  generalize r s = o, r' s' = o' at hrun ⊢
  cases hrun with
  | fail ht => exact .fail ht
  | @ok a b t t' hv ht =>
    have hnext := hp.run (ht.back hs)
    dsimp only
    generalize p _ = o, p' _ = o' at hnext ⊢
    cases hnext with
    | fail hu => exact .fail hu
    | ok _ hu => exact .ok hv (hu.back ht)

/-! ## Repetition and recursion -/

/-- By induction on the fuel, each turn moves with its items. -/
theorem upTo_moved (h : Moved R V r r') (n : Nat) {s s' : State τ} (hs : R.States s s') :
    List.Forall₂ V (upTo r n s).1 (upTo r' n s').1 ∧ R.States (upTo r n s).2 (upTo r' n s').2 := by
  induction n generalizing s s' with
  | zero => exact ⟨.nil, hs⟩
  | succ n ih =>
    unfold upTo
    have hrun := h.run hs
    generalize r s = o, r' s' = o' at hrun ⊢
    cases hrun with
    | fail ht => exact ⟨.nil, ht.back hs⟩
    | ok hv ht => exact ⟨.cons hv (ih ht).1, (ih ht).2⟩

theorem Moved.many (h : Moved R V r r') : Moved R (List.Forall₂ V) (many r) (many r') := by
  refine ⟨fun {s s'} hs => ?_⟩
  unfold Rule.many
  rw [hs.left]
  obtain ⟨hvals, hstates⟩ := upTo_moved h (s.left + 1) hs
  exact .ok hvals hstates

theorem Moved.many1 (h : Moved R V r r') : Moved R (List.Forall₂ V) (many1 r) (many1 r') := by
  refine ⟨fun {s s'} hs => ?_⟩
  unfold Rule.many1
  rw [hs.left]
  have hrun := h.run hs
  generalize r s = o, r' s' = o' at hrun ⊢
  cases hrun with
  | fail ht => exact .fail (ht.back hs)
  | ok hv ht =>
    obtain ⟨hvals, hstates⟩ := upTo_moved h (s.left + 1) ht
    exact .ok (.cons hv hvals) hstates

theorem Moved.skipMany (h : Moved R V r r') : Moved R Eq (skipMany r) (skipMany r') :=
  h.many.bind fun _ _ _ => .pure rfl

theorem Moved.unfold {f : Rule τ α → Rule τ α} {f' : Rule τ β → Rule τ β}
    (h : ∀ r r', Moved R V r r' → Moved R V (f r) (f' r')) (n : Nat) :
    Moved R V (unfold f n) (unfold f' n) := by
  induction n with
  | zero => exact ⟨fun hs => .fail hs⟩
  | succ n ih => exact h _ _ ih

theorem Moved.recursive {f : Rule τ α → Rule τ α} {f' : Rule τ β → Rule τ β}
    (h : ∀ r r', Moved R V r r' → Moved R V (f r) (f' r')) :
    Moved R V (recursive f) (recursive f') := by
  refine ⟨fun {s s'} hs => ?_⟩
  unfold Rule.recursive
  rw [hs.left]
  exact (Moved.unfold h _).run hs

/-- Separators and items in turn move with the items. -/
theorem sepUpTo_moved {sep : Rule τ γ} {sep' : Rule τ δ} (h : Moved R V r r')
    (hsep : Moved R W sep sep') (n : Nat) {s s' : State τ} (hs : R.States s s') :
    List.Forall₂ V (sepUpTo r sep n s).1 (sepUpTo r' sep' n s').1 ∧
      R.States (sepUpTo r sep n s).2 (sepUpTo r' sep' n s').2 := by
  induction n generalizing s s' with
  | zero => exact ⟨.nil, hs⟩
  | succ n ih =>
    unfold sepUpTo
    have hrun := hsep.run hs
    generalize sep s = o, sep' s' = o' at hrun ⊢
    cases hrun with
    | fail ht => exact ⟨.nil, ht.back hs⟩
    | @ok a b t t' _ ht =>
      have hnext := h.run ht
      dsimp only
      generalize r t = o, r' t' = o' at hnext ⊢
      cases hnext with
      | fail hu => exact ⟨.nil, hu.back ht⟩
      | ok hv hu => exact ⟨.cons hv (ih hu).1, (ih hu).2⟩

theorem Moved.sepBy {sep : Rule τ γ} {sep' : Rule τ δ} (h : Moved R V r r')
    (hsep : Moved R W sep sep') : Moved R (List.Forall₂ V) (sepBy r sep) (sepBy r' sep') := by
  refine ⟨fun {s s'} hs => ?_⟩
  unfold Rule.sepBy
  rw [hs.left]
  have hrun := hsep.maybe.run hs
  generalize Rule.maybe sep s = o, Rule.maybe sep' s' = o' at hrun ⊢
  have ht : R.States o.2 o'.2 := by cases hrun <;> assumption
  have hnext := h.run ht
  dsimp only
  generalize r o.2 = p, r' o'.2 = p' at hnext ⊢
  cases hnext with
  | fail hu => exact .ok .nil (hu.back ht)
  | ok hv hu => exact .ok (.cons hv (sepUpTo_moved h hsep _ hu).1) (sepUpTo_moved h hsep _ hu).2

/-! ## Places and errors -/

/-- A value and its place are moved. -/
def SpannedRel (R : Relocation τ) (V : α → β → Prop) (x : Spanned α) (y : Spanned β) : Prop :=
  V x.val y.val ∧ y.span = x.span.move R.place

/-- A rule never starts with an item in front of which bytes are put. -/
def Tight (R : Relocation τ) (r : Rule τ α) : Prop :=
  ∀ t us, R.lead t ≠ 0 → Refuses r (t :: us)

theorem Tight.of_exact (hR : R.Exact) (r : Rule τ α) : Tight R r :=
  fun t _ ht => absurd (hR t) ht

/-- A span moves with its items, as the rule never starts with an item in front of which bytes are
put. -/
theorem Moved.spanned (htight : Tight R r) (h : Moved R V r r') :
    Moved R (SpannedRel R V) (spanned r) (spanned r') := by
  refine ⟨fun {s s'} hs => ?_⟩
  unfold Rule.spanned
  have hrun := h.run hs
  cases hr : r s with
  | mk o t =>
    generalize r' s' = p' at hrun ⊢
    rw [hr] at hrun
    cases hrun with
    | fail ht => exact .fail ht
    | ok hv ht =>
      refine .ok ⟨hv, hs.spanTo ht fun x hx => ?_⟩ ht
      by_contra hlead
      obtain ⟨us, hus⟩ := List.head?_eq_some_iff.1 hx
      obtain ⟨u, hu, -⟩ := (htight x.val (us.map (·.val)) hlead).refuses s
        (by rw [State.ahead, hus]; rfl)
      cases hr.symm.trans hu

theorem Moved.recognized (h : Moved R V r r') :
    Moved R (fun a b => b = a.map R.item) (recognized r) (recognized r') := by
  refine ⟨fun {s s'} hs => ?_⟩
  unfold Rule.recognized
  have hrun := h.run hs
  generalize r s = o, r' s' = o' at hrun ⊢
  cases hrun with
  | fail ht => exact .fail ht
  | ok hv ht => exact .ok (hs.readTo ht) ht

theorem Moved.complain {span span' : Span} (h : span' = span.move R.place) (reason : Complaint) :
    Moved R Eq (complain span reason) (complain span' reason) :=
  ⟨fun hs => .ok rfl (hs.report fun _ => by rw [h]; rfl)⟩

theorem Moved.putAside {errors errors' : List SyntaxError}
    (h : errors' = errors.map (SyntaxError.move R.place)) :
    Moved R Eq (putAside errors) (putAside errors') := by
  refine ⟨fun hs => .ok rfl ?_⟩
  refine ⟨hs.rest, hs.last, hs.finish, ?_, hs.count, hs.faults, hs.pending⟩
  simp only [hs.aside, h, List.map_append]

/-! ## Recovery -/

theorem Moved.orRecover (h : Moved R V r r') (hq : Moved R V q q') :
    Moved R V (orRecover r q) (orRecover r' q') := by
  refine ⟨fun {s s'} hs => ?_⟩
  unfold Rule.orRecover
  have hrun := h.run hs
  generalize r s = o, r' s' = o' at hrun ⊢
  cases hrun with
  | ok hv ht => exact .ok hv ht
  | @fail t t' ht =>
    have hnext := hq.run (ht.back hs).clear
    dsimp only
    generalize q _ = o, q' _ = o' at hnext ⊢
    cases hnext with
    | fail hu => exact .fail ((hu.back hs).pend ht.pending)
    | ok hv hu => exact .ok hv (hu.report ht.pendingFault)

/-- By induction on the number of attempts, each of them moves with its items. -/
theorem retry_moved [DecidableEq τ] (h : Moved R V r r') (n : Nat) :
    Moved R V (retry r n) (retry r' n) := by
  induction n with
  | zero => exact ⟨fun hs => .fail hs⟩
  | succ n ih =>
    refine ⟨fun {s s'} hs => ?_⟩
    unfold retry
    have hend := Moved.endOfInput.run hs
    generalize Rule.endOfInput s = o, Rule.endOfInput s' = o' at hend ⊢
    cases hend with
    | ok _ ht => exact .fail ht
    | @fail t t' ht =>
      have hany := Moved.anyItem.run (ht.back hs)
      dsimp only
      generalize Rule.anyItem (t.back s) = o, Rule.anyItem (t'.back s') = o' at hany ⊢
      cases hany with
      | fail hu => exact .fail hu
      | @ok _ _ u u' _ hu =>
        have hagain : ∀ {v v' : State τ}, R.States v v' → R.Ends V
            (retry r n { v.back u with pending := none })
            (retry r' n { v'.back u' with pending := none }) :=
          fun hv => ih.run (hv.back hu).clear
        have hrun := h.run hu
        dsimp only
        generalize r u = o, r' u' = o' at hrun ⊢
        cases hrun with
        | fail hv => exact hagain hv
        | ok hval hv =>
          dsimp only
          rw [hv.count, hu.count]
          split
          · exact .ok hval hv
          · exact hagain hv

theorem Moved.orSkip [DecidableEq τ] (h : Moved R V r r') : Moved R V (orSkip r) (orSkip r') := by
  refine ⟨fun {s s'} hs => ?_⟩
  unfold Rule.orSkip
  rw [hs.left]
  have hrun := h.run hs
  generalize r s = o, r' s' = o' at hrun ⊢
  cases hrun with
  | ok hv ht => exact .ok hv ht
  | @fail t t' ht =>
    have hnext := (retry_moved h (s.left + 1)).run (ht.back hs).clear
    dsimp only
    generalize retry r _ _ = o, retry r' _ _ = o' at hnext ⊢
    cases hnext with
    | fail hu => exact .fail ((hu.back hs).pend ht.pending)
    | ok hv hu => exact .ok hv (hu.report ht.pendingFault)

/-! ## Items that name no places -/

theorem kept_along (f : Nat → Nat) (t : τ) : Kept (.along f) t := fun _ => Iff.rfl

/-- Wherever the input is, the rule gives the same value. -/
class Along (f : Nat → Nat) (r : Rule τ α) : Prop where
  moved : Moved (.along f) Eq r r

namespace Along

variable {f : Nat → Nat}

instance (a : α) : Along f (pure a : Rule τ α) := ⟨.pure rfl⟩

instance bind {g : α → Rule τ γ} [h : Along f r] [hg : ∀ a, Along f (g a)] : Along f (r >>= g) :=
  ⟨h.moved.bind fun a _ hab => hab ▸ (hg a).moved⟩

theorem of_item {a b : τ} (h : b = (Relocation.along f : Relocation τ).item a) : a = b := h.symm

section items

variable [DecidableEq τ]

instance (t : τ) : Along f (just t) :=
  ⟨(Moved.just (kept_along f t)).mono fun _ _ h => h.1.trans h.2.symm⟩

instance (ts : List τ) : Along f (justAll ts) := ⟨.justAll fun t _ => kept_along f t⟩

instance (ts : List τ) : Along f (oneOf ts) :=
  ⟨(Moved.oneOf fun t _ => kept_along f t).mono fun _ _ => of_item⟩

instance (ts : List τ) : Along f (noneOf ts) :=
  ⟨(Moved.noneOf fun t _ => kept_along f t).mono fun _ _ => of_item⟩

instance : Along f (anyItem : Rule τ τ) :=
  ⟨(show Moved (.along f) _ anyItem anyItem from .anyItem).mono fun _ _ => of_item⟩

instance (p : τ → Bool) : Along f (satisfy p) :=
  ⟨(Moved.satisfy fun _ => rfl).mono fun _ _ => of_item⟩

instance [h : Along f r] : Along f (notAhead r) := ⟨h.moved.notAhead⟩

end items

instance : Along f (choice [] : Rule τ α) := ⟨.choice_nil⟩

instance {rs : List (Rule τ α)} [h : Along f r] [hs : Along f (choice rs)] :
    Along f (choice (r :: rs)) := ⟨h.moved.choice_cons hs.moved⟩

instance [h : Along f r] : Along f (maybe r) :=
  ⟨h.moved.maybe.mono fun a b hab => by cases hab <;> simp_all⟩

instance {p : Rule τ γ} [h : Along f r] [hp : Along f p] : Along f (andIs r p) :=
  ⟨h.moved.andIs hp.moved⟩

instance [h : Along f r] : Along f (many r) :=
  ⟨h.moved.many.mono fun _ _ hab => List.forall₂_eq_eq_eq ▸ hab⟩

instance [h : Along f r] : Along f (many1 r) :=
  ⟨h.moved.many1.mono fun _ _ hab => List.forall₂_eq_eq_eq ▸ hab⟩

instance skipMany [h : Along f r] : Along f (skipMany r) := ⟨h.moved.skipMany⟩

instance between {l : Rule τ γ} {e : Rule τ δ} [hl : Along f l] [h : Along f r] [he : Along f e] :
    Along f (between l r e) := ⟨hl.moved.between h.moved he.moved⟩

instance [h : Along f r] : Along f (recognized r) :=
  ⟨h.moved.recognized.mono fun a _ hab => by
    rw [hab]
    exact (List.map_id a).symm⟩

theorem recursive {g : Rule τ α → Rule τ α} (h : ∀ r, Along f r → Along f (g r)) :
    Along f (recursive g) := by
  have hn : ∀ n, Along f (unfold g n) := by
    intro n
    induction n with
    | zero => exact ⟨⟨fun hs => .fail hs⟩⟩
    | succ n ih => exact h _ ih
  refine ⟨⟨fun {s s'} hs => ?_⟩⟩
  unfold Rule.recursive
  rw [hs.left]
  exact (hn _).moved.run hs

end Along

end Rule

/-! ## Whole inputs -/

theorem Fault.toError_move {R : Relocation τ} {name : τ → String}
    (hname : ∀ t, name (R.item t) = name t) (f : Fault τ) :
    (f.move R).toError name = (f.toError name).move R.place := by
  cases f with
  | complaint span reason => rfl
  | unexpected span found expected =>
    cases found with
    | none => rfl
    | some t => simp [Fault.move, Fault.toError, SyntaxError.move, hname]

section run

variable [DecidableEq τ] {R : Relocation τ} {V : α → β → Prop} {r : Rule τ α} {r' : Rule τ β}
  {items items' : List (Spanned τ)} {finish finish' : Span}

/-- What a rule makes of a whole input moves with the input. -/
theorem Rule.whole_moved (h : Moved R V r r') : Moved R V (whole r) (whole r') :=
  h.bind fun _ _ hv => Moved.endOfInput.bind fun _ _ _ => .pure hv

theorem Rule.run_value_moved (name : τ → String) (h : Moved R V r r')
    (hitems : List.Forall₂ R.Item items items') (hfinish : finish' = finish.move R.place) :
    Option.Rel V (Rule.run name r items finish).1 (Rule.run name r' items' finish').1 := by
  have hrun := (whole_moved h).run (.start hitems hfinish)
  rw [run_fst, run_fst]
  generalize whole r _ = o, whole r' _ = o' at hrun ⊢
  cases hrun with
  | fail => exact .none
  | ok hv _ => exact .some hv

/-- So do the errors, where no bytes are put in front of items. -/
theorem Rule.run_errors_moved (name : τ → String) (h : Moved R V r r')
    (hitems : List.Forall₂ R.Item items items') (hfinish : finish' = finish.move R.place) (hR : R.Exact)
    (hname : ∀ t, name (R.item t) = name t) :
    (Rule.run name r' items' finish').2 =
      (Rule.run name r items finish).2.map (SyntaxError.move R.place) := by
  have hrun := (whole_moved h).run (.start hitems hfinish)
  have hfaults : ∀ fs : List (Fault τ), (fs.map (Fault.move R)).map (·.toError name) =
      (fs.map (·.toError name)).map (SyntaxError.move R.place) := by
    intro fs
    simp only [List.map_map]
    exact List.map_congr_left fun f _ => Fault.toError_move hname f
  rw [run_snd, run_snd]
  generalize whole r _ = o, whole r' _ = o' at hrun ⊢
  cases hrun with
  | ok hv ht =>
    simp only [Option.isSome_some, if_true, List.append_nil]
    rw [ht.faults hR, ht.aside, hfaults, List.map_append]
  | @fail t t' ht =>
    have hlast : t'.faults ++ [t'.pendingFault] = (t.faults ++ [t.pendingFault]).map (Fault.move R) := by
      rw [ht.faults hR, ht.pendingFault hR, List.map_append]
      rfl
    simp only [Option.isSome_none, Bool.false_eq_true, if_false]
    rw [hlast, ht.aside, hfaults, ← List.map_append]

/-- In any case there are as many errors. -/
theorem Rule.run_length_moved (name : τ → String) (h : Moved R V r r')
    (hitems : List.Forall₂ R.Item items items') (hfinish : finish' = finish.move R.place) :
    (Rule.run name r' items' finish').2.length = (Rule.run name r items finish).2.length := by
  have hrun := (whole_moved h).run (.start hitems hfinish)
  rw [run_snd, run_snd]
  generalize whole r _ = o, whole r' _ = o' at hrun ⊢
  cases hrun with
  | ok hv ht => simp [ht.count, ht.aside]
  | fail ht => simp [ht.count, ht.aside]

end run

end Grammar

end CueScope
