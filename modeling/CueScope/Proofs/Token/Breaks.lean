import CueScope.Proofs.Token.Pace
import CueScope.Proofs.Token.Parts
import CueScope.Proofs.Token.Stops
import CueScope.Proofs.Token.Tiling

/-!
# Line breaks of one character and of two

The same text is written with line breaks `\n` and with line breaks `\r\n`.

* `Lines`: the characters of both texts, where a line break covers the same bytes on both sides.
* `toBreak`: up to the next line break both sides have the same characters.
* `part_outcome`, `string_outcome`, `rawString_outcome`: a literal that is read without a newline on the
  left is read on the right, too.
* `token_outcome`: so the same token is next on both sides.
-/

namespace CueScope.Token

open Grammar Rule

/-! ## Two texts with the same lines -/

/-- The newline `x` of one side stands where the carriage return `r` and the newline `y` of the other
one do. -/
structure Break (x r y : Spanned Char) : Prop where
  left : x.val = '\n'
  carriage : r.val = '\r'
  right : y.val = '\n'
  span : y.span = ⟨x.span.file, x.span.start + 1, x.span.stop⟩

/-- The same lines, with different line breaks. -/
inductive Lines : List (Spanned Char) → List (Spanned Char) → Prop
  | nil : Lines [] []
  | char {x xs ys} : x.val ≠ '\n' → Lines xs ys → Lines (x :: xs) (x :: ys)
  | newline {x r y xs ys} : Break x r y → Lines xs ys → Lines (x :: xs) (r :: y :: ys)

/-- Nothing of a line is left. -/
inductive LineEnd : List (Spanned Char) → List (Spanned Char) → Prop
  | nil : LineEnd [] []
  | newline {x r y xs ys} : Break x r y → Lines xs ys → LineEnd (x :: xs) (r :: y :: ys)

/-- The same characters up to the next line break. -/
def toBreak : Pairing Char := fun k a b =>
  ∃ m u v, a = m ++ u ∧ b = m ++ v ∧ m.length = k ∧ '\n' ∉ m.map (·.val) ∧ LineEnd u v

section pairing

variable {k : Nat} {a b u v m : List (Spanned Char)} {x : Spanned Char}

theorem Lines.exists_toBreak (h : Lines a b) : ∃ k, toBreak k a b := by
  induction h with
  | nil => exact ⟨0, [], [], [], rfl, rfl, rfl, by simp, .nil⟩
  | @char x xs ys hx _ ih =>
    obtain ⟨k, m, u, v, rfl, rfl, rfl, hm, huv⟩ := ih
    exact ⟨_, x :: m, u, v, rfl, rfl, rfl, by simpa using ⟨hx.symm, by simpa using hm⟩, huv⟩
  | newline hb hl => exact ⟨0, [], _, _, rfl, rfl, rfl, by simp, .newline hb hl⟩

theorem toBreak_zero : toBreak 0 a b ↔ LineEnd a b := by
  constructor
  · rintro ⟨m, u, v, rfl, rfl, hm, -, huv⟩
    obtain rfl := List.length_eq_zero_iff.1 hm
    exact huv
  · exact fun h => ⟨[], a, b, rfl, rfl, rfl, by simp, h⟩

theorem LineEnd.head (h : LineEnd u v) : ∀ x ∈ u.head?, x.val = '\n' := by
  cases h with
  | nil => simp
  | newline hb _ =>
    rintro x ⟨⟩
    exact hb.left

/-- Characters of the line are next on both sides. -/
theorem toBreak.drop (h : toBreak k (m ++ a) b) (hm : '\n' ∉ m.map (·.val)) :
    ∃ c, b = m ++ c ∧ m.length ≤ k ∧ toBreak (k - m.length) a c := by
  obtain ⟨m', u, v, hl, rfl, rfl, hm', huv⟩ := h
  rcases List.append_eq_append_iff.1 hl with ⟨l, rfl, rfl⟩ | ⟨l, rfl, rfl⟩
  · refine ⟨l ++ v, by simp, by simp, l, u, v, rfl, rfl, by simp, ?_, huv⟩
    exact fun hn => hm' (by simp [hn])
  · -- the line ends where `m` does
    have hl : l = [] := by
      cases l with
      | nil => rfl
      | cons y l =>
        have hy := huv.head y rfl
        exact absurd (by simp [hy]) hm
    subst hl
    exact ⟨v, by simp, by simp, by simpa [toBreak_zero] using huv⟩

theorem toBreak.drop_one (h : toBreak k (x :: a) b) (hx : x.val ≠ '\n') :
    ∃ c, b = x :: c ∧ 0 < k ∧ toBreak (k - 1) a c := by
  obtain ⟨c, hb, hk, hc⟩ := toBreak.drop (m := [x]) h (by simpa using hx.symm)
  exact ⟨c, hb, hk, hc⟩

theorem exact_toBreak : toBreak.Exact := by
  rintro k a b ⟨m, u, v, rfl, rfl, rfl, -, -⟩
  rw [List.take_left' rfl, List.take_left' rfl]

/-- Before the line break any character may be read. -/
theorem toBreak.admitsAt {α : Type} {f : Char → Option α} (h : toBreak k a b) (hk : 0 < k) :
    toBreak.AdmitsAt f k a b := by
  obtain ⟨m, u, v, rfl, rfl, rfl, hm, huv⟩ := h
  obtain ⟨y, m, rfl⟩ := List.exists_cons_of_length_pos hk
  exact .inr ⟨y, y, _, _, rfl, rfl, rfl, hk, m, u, v, rfl, rfl, rfl,
    fun hn => hm (List.mem_cons_of_mem _ hn), huv⟩

theorem stops_toBreak : Stops toBreak := by
  refine ⟨exact_toBreak, fun {α f} hn hr k a b h => ?_⟩
  rcases Nat.eq_zero_or_pos k with rfl | hk
  · cases toBreak_zero.1 h with
    | nil => exact .inl ⟨rfl, rfl⟩
    | newline hb _ => exact .inl ⟨by simpa [hb.left] using hn, by simpa [hb.carriage] using hr⟩
  · exact h.admitsAt hk

/-- Characters that are next on the right are next on the left, too, if each newline among them comes
after a backslash and they do not end with a carriage return. -/
theorem toBreak.drop_right (h : toBreak k a (m ++ b)) (hm : Escaped (m.map (·.val)))
    (hlast : ∀ x ∈ m.getLast?, x.val ≠ '\r') : ∃ c, a = m ++ c ∧ toBreak (k - m.length) c b := by
  obtain ⟨l, u, v, rfl, hl, rfl, hn, huv⟩ := h
  rcases List.append_eq_append_iff.1 hl with ⟨n, rfl, rfl⟩ | ⟨n, rfl, hv⟩
  · exact ⟨n ++ u, by simp, n, u, v, rfl, rfl, by simp, fun h => hn (by simp [h]), huv⟩
  · cases n with
    | nil =>
      obtain rfl : v = b := hv
      exact ⟨u, by simp, by simpa [toBreak_zero] using huv⟩
    | cons x n =>
      cases huv with
      | nil => cases hv
      | @newline _ r y _ ys hb _ =>
        obtain ⟨rfl, htail⟩ : r = x ∧ y :: ys = n ++ b := List.cons.inj hv
        cases n with
        | nil => exact absurd hb.carriage (hlast r (by simp))
        | cons z n =>
          obtain ⟨rfl, -⟩ : y = z ∧ ys = n ++ b := List.cons.inj htail
          -- the newline after the carriage return would come after a backslash
          rw [List.map_append, List.map_cons, List.map_cons] at hm
          have hpair := (List.isChain_cons_cons.1 hm.right_of_append).1 hb.right
          rw [hb.carriage] at hpair
          exact absurd hpair (by decide)

theorem toBreak.eq_nil (h : toBreak k [] b) : b = [] := by
  obtain ⟨m, u, v, hl, rfl, -, -, huv⟩ := h
  obtain ⟨rfl, rfl⟩ := List.append_eq_nil_iff.1 hl.symm
  cases huv
  rfl

end pairing

/-! ## Escapes and parts -/

/-- Where the rule succeeds, it reads no newline. -/
def Within {α : Type} (r : Rule Char α) (s : State Char) : Prop :=
  ∀ a t read, r s = (some a, t) → Reads s t read → '\n' ∉ read.map (·.val)

variable {k : Nat} {s s' : State Char}

/-- An escape within the line is the same on both sides, and there is none on the right where there
is none on the left. -/
theorem escape_outcome (hk : toBreak k s.rest s'.rest) (hs : Within escape s) :
    Outcome toBreak Eq k s s' (escape s) (escape s') := by
  cases hr : escape s with
  | mk o t =>
  cases o with
  | some a =>
    obtain ⟨read, hread, x, y, rfl, hx⟩ := escape_ensures.ensures hr
    obtain ⟨c, hc, hle, hrest⟩ := (hread.rest_eq ▸ hk).drop (hs _ _ _ hr hread)
    have htakes : ∀ us : List (Spanned Char), Takes escape ([x, y].map (·.val)) (us.map (·.val))
        fun _ => True := fun us => by simpa [hx] using escape_takes y.val (us.map (·.val))
    rw [← hr]
    exact (htakes _).outcome (htakes _) hread.rest_eq hc hle hrest fun _ _ _ _ => rfl
  | none =>
    refine .of_fails rfl ?_
    by_contra hne
    obtain ⟨a, ha⟩ := Option.ne_none_iff_exists'.1 hne
    obtain ⟨read, hread, x, y, rfl, hx⟩ := escape_ensures.ensures (Prod.ext ha rfl)
    obtain ⟨c, hc, hrest⟩ := toBreak.drop_right (m := [x]) (hread.rest_eq ▸ hk) (by simp [Escaped])
      (by simp [hx])
    cases c with
    | nil => exact absurd hrest.eq_nil (by simp)
    | cons z c =>
      obtain ⟨_, u, hu, -⟩ := (escape_takes z.val (c.map (·.val))).takes s (by simp [State.ahead, hc, hx])
      cases hr.symm.trans hu

/-- A part on the right is one on the left, too. -/
theorem part_eq_none (hk : toBreak k s.rest s'.rest) (hnone : (part s).1 = none) :
    (part s').1 = none := by
  by_contra hne
  obtain ⟨a, ha⟩ := Option.ne_none_iff_exists'.1 hne
  obtain ⟨read, hread, ws, hws, hval⟩ := part_ensures.ensures (Prod.ext ha rfl)
  have hescaped : Escaped (read.map (·.val)) := by
    rw [hval]
    exact .cons_cons nofun (hws.escaped (by decide) (.singleton _) _)
  have hlast : ∀ x ∈ read.getLast?, x.val ≠ '\r' := by
    intro x hx
    have hclose : (read.map (·.val)).getLast? = some x.val := by
      rw [List.getLast?_map, Option.mem_def.1 hx]
      rfl
    rw [hval] at hclose
    simp [List.getLast?_cons] at hclose
    simp [← hclose]
  obtain ⟨c, hc, -⟩ := (hread.rest_eq ▸ hk).drop_right hescaped hlast
  obtain ⟨_, u, hu, -⟩ := (hws.part_takes).takes s (by
    rw [State.ahead, hc, List.map_append, hval]
    rfl)
  rw [hu] at hnone
  cases hnone

/-- A part within the line is the same on both sides. -/
theorem part_outcome (hk : toBreak k s.rest s'.rest) (hs : Within part s) :
    Outcome toBreak Eq k s s' (part s) (part s') := by
  cases hr : part s with
  | mk o t =>
  cases o with
  | some p =>
    obtain ⟨read, hread, ws, hws, hval⟩ := part_ensures.ensures hr
    obtain ⟨c, hc, hle, hrest⟩ := (hread.rest_eq ▸ hk).drop (hs _ _ _ hr hread)
    rw [← hr]
    exact hws.part_outcome hval hread.rest_eq hc hle hrest
  | none => exact .of_fails rfl (part_eq_none hk (by rw [hr]))

/-! ## Repetitions within a line -/

theorem Within.of_eq_none {α : Type} {r : Rule Char α} (h : (r s).1 = none) : Within r s := by
  intro a t read hr
  rw [hr] at h
  cases h

theorem Within.of_reads {α : Type} {r : Rule Char α} {a : α} {t : State Char}
    {read : List (Spanned Char)} (hr : r s = (some a, t)) (hread : Reads s t read)
    (hline : '\n' ∉ read.map (·.val)) : Within r s := by
  intro b u read' hr' hread'
  cases hr.symm.trans hr'
  rwa [List.append_cancel_right (hread'.rest_eq.symm.trans hread.rest_eq)]

/-- Characters of a line are read in the same turns on both sides, up to another character of the
line. -/
theorem upTo_toBreak {α : Type} {r : Rule Char α} [hr : Consumes r]
    (hturn : ∀ {k : Nat} {s s' : State Char}, toBreak k s.rest s'.rest → 0 < k → Within r s →
      Outcome toBreak Eq k s s' (r s) (r s')) {n n' : Nat} (hn : s.left < n) (hn' : s'.left < n')
    (hk : toBreak k s.rest s'.rest) {read : List (Spanned Char)}
    (hread : Reads s (upTo r n s).2 read) (hline : '\n' ∉ read.map (·.val))
    (hnext : ∃ x ∈ (upTo r n s).2.rest.head?, x.val ≠ '\n') :
    Rounds toBreak Eq k s s' (upTo r n s) (upTo r n' s') := by
  induction n generalizing n' k s s' read with
  | zero => exact absurd hn (Nat.not_lt_zero _)
  | succ n ih =>
    obtain ⟨n', rfl⟩ : ∃ m, n' = m + 1 := Nat.exists_eq_add_one.2 (Nat.zero_lt_of_lt hn')
    have hpos : 0 < k := by
      obtain ⟨x, hx, hne⟩ := hnext
      obtain ⟨xs, hxs⟩ := List.head?_eq_some_iff.1 hx
      obtain ⟨c, -, -, hc⟩ := (hread.rest_eq ▸ hk).drop hline
      obtain ⟨d, -, hd, -⟩ := (hxs ▸ hc).drop_one hne
      omega
    unfold upTo at hread hnext ⊢
    cases hrun : r s with
    | mk o t =>
    rw [hrun] at hread hnext
    cases o with
    | none =>
      have hfails := hturn hk hpos (.of_eq_none (by rw [hrun]))
      rw [hrun] at hfails
      generalize r s' = o' at hfails ⊢
      cases hfails
      exact .nil hk
    | some a =>
      obtain ⟨ys, hys, hne⟩ := hr.reads hrun
      obtain ⟨zs, hzs⟩ := upTo_turns hr.ensures n t
      obtain rfl := List.append_cancel_right
        (hread.rest_eq.symm.trans (hys.trans hzs.1).rest_eq)
      rw [List.map_append, List.mem_append, not_or] at hline
      have hok := hturn hk hpos (.of_reads hrun hys hline.1)
      rw [hrun] at hok
      cases hrun' : r s' with
      | mk o' t' =>
      rw [hrun'] at hok
      cases hok with
      | ok m hm hv =>
        have hrounds := ih (Nat.lt_of_lt_of_le (hr.left_lt hrun) (Nat.le_of_lt_succ hn))
          (Nat.lt_of_lt_of_le (hr.left_lt hrun') (Nat.le_of_lt_succ hn')) hm.rest hzs.1 hline.2 hnext
        obtain ⟨l, hl⟩ := (Moves.rounds hm hrounds).moves
        exact ⟨⟨l, hl⟩, .cons hv hrounds.values⟩

/-! ## Strings -/

section within

variable {α β : Type} {r : Rule Char α} {rs : List (Rule Char α)} {f : α → β}

theorem Within.head (h : Within (choice (r :: rs)) s) : Within r s :=
  fun a t read hr => h a t read (by rw [choice, hr])

theorem Within.tail {t : State Char} (h : Within (choice (r :: rs)) s) (hr : r s = (none, t)) :
    Within (choice rs) (t.back s) :=
  fun a u read hu hread => h a u read (by rw [choice, hr]; exact hu) hread.of_back

theorem Within.map (h : Within (do let a ← r; pure (f a)) s) : Within r s := by
  intro a t read hr
  refine h (f a) t read ?_
  change Rule.bind r _ s = _
  simp only [Rule.bind, hr]
  rfl

end within

/-- On a line the rule does the same on both sides. -/
def InLine {α : Type} (r : Rule Char α) : Prop := ∀ {k : Nat} {s s' : State Char},
  toBreak k s.rest s'.rest → 0 < k → Within r s → Outcome toBreak Eq k s s' (r s) (r s')

theorem inLine_stringTurn {plain : Rule Char Char} (hplain : InLine plain) :
    InLine (stringTurn plain) := by
  intro k s s' hk hpos hs
  refine choice_outcome_of ?_ fun t t' ht _ => choice_outcome_of ?_ fun u u' hu _ =>
    choice_outcome_of ?_ fun _ _ _ _ => .fail _ _
  · exact bind_outcome (part_outcome hk hs.head.map) fun p p' _ _ _ hp _ hm =>
      .ok 0 (.refl hm.rest) (congrArg some hp)
  · exact bind_outcome (escape_outcome hk (hs.tail ht).head.map) fun _ _ _ _ _ _ _ hm =>
      .ok 0 (.refl hm.rest) rfl
  · exact bind_outcome (hplain hk hpos ((hs.tail ht).tail hu).head.map) fun _ _ _ _ _ _ _ hm =>
      .ok 0 (.refl hm.rest) rfl

/-- Characters between `open` and `close` quotes. -/
theorem quotes_outcome {α β : Type} {q : List Char} {r : Rule Char α} [hc : Consumes r] (hr : InLine r)
    (hq : '\n' ∉ q ∧ '\r' ∉ q) {l : List Char} (hl : '\n' ∉ l ∧ '\r' ∉ l) (hne : q ≠ [])
    {f : List α → β} {b : β} {t : State Char}
    (hk : toBreak k s.rest s'.rest)
    (hs : Within (do justAll l; let as ← many r; justAll q; pure (f as)) s)
    (hrun : (do justAll l; let as ← many r; justAll q; pure (f as) : Rule Char β) s = (some b, t)) :
    Outcome toBreak Eq k s s' (some b, t)
      ((do justAll l; let as ← many r; justAll q; pure (f as) : Rule Char β) s') := by
  obtain ⟨_, u, hopen, h⟩ := bind_ok hrun
  obtain ⟨as, v, hmany, h⟩ := bind_ok h
  obtain ⟨_, w, hclose, h⟩ := bind_ok h
  cases h
  obtain ⟨xs, hxs, -⟩ := (Ensures.justAll l).ensures hopen
  obtain ⟨ys, hys, -⟩ := hc.ensures.many.ensures hmany
  obtain ⟨zs, hzs, hval⟩ := (Ensures.justAll q).ensures hclose
  have hline := hs _ _ _ hrun (hxs.trans (hys.trans hzs))
  have hnext : ∃ x ∈ v.rest.head?, x.val ≠ '\n' := by
    obtain ⟨z, zs, rfl⟩ : ∃ z l, zs = z :: l := List.exists_cons_of_ne_nil (by
      rintro rfl
      exact hne hval.symm)
    refine ⟨z, by rw [hzs.rest_eq]; rfl, fun hz => hq.1 ?_⟩
    rw [← hval, ← hz]
    simp
  rw [← hrun]
  refine bind_outcome ((stops_toBreak.justAll hl).run s s' hk) fun _ _ n u₁ u' _ hu₁ hm => ?_
  cases hopen.symm.trans hu₁
  cases hmany
  have hrounds := upTo_toBreak hr (Nat.lt_succ_self u.left) (Nat.lt_succ_self u'.left) hm.rest hys
    (fun h => hline (by simp [h])) hnext
  obtain ⟨m, hm'⟩ := hrounds.moves
  have hturns : Outcome toBreak (List.Forall₂ Eq) (k - n) u u' (many r u) (many r u') :=
    .ok m hm' hrounds.values
  refine bind_outcome hturns fun as as' _ v v' has _ hm'' =>
    bind_outcome ((stops_toBreak.justAll hq).run v v' hm''.rest) fun _ _ _ _ _ _ _ hm =>
      .ok 0 (.refl hm.rest) ?_
  rw [List.forall₂_eq_eq_eq] at has
  rw [has]

theorem inLine_noneOf (cs : List Char) : InLine (noneOf cs) :=
  fun hk hpos _ => item_outcome _ _ (hk.admitsAt hpos)

theorem inLine_before {q : List Char} (hq : '\n' ∉ q ∧ '\r' ∉ q) :
    InLine (andIs anyItem (notAhead (justAll q))) :=
  fun hk hpos _ =>
    andIs_outcome hk (item_outcome _ _ (hk.admitsAt hpos)) (stops_toBreak.justAll hq).notAhead

/-- A string that its quotes open only where it is read. -/
theorem quotedBy_outcome {q : List Char} {plain : Rule Char Char} [Consumes plain] (hplain : InLine plain)
    (hq : '\n' ∉ q ∧ '\r' ∉ q) (hne : q ≠ []) (hk : toBreak k s.rest s'.rest)
    (hs : Within (quotedBy q plain) s) (hopen : (quotedBy q plain s).1 = none → ¬ q <+: s.ahead) :
    Outcome toBreak Eq k s s' (quotedBy q plain s) (quotedBy q plain s') := by
  have hturn : Consumes (stringTurn plain) := by
    unfold stringTurn
    infer_instance
  cases hrun : quotedBy q plain s with
  | mk o t =>
  cases o with
  | some ps => exact quotes_outcome (inLine_stringTurn hplain) hq hq hne hk hs hrun
  | none =>
    have hnone := justAll_eq_none_iff.2 (hopen (by rw [hrun]))
    have hright := (stops_toBreak.justAll hq).run s s' hk
    refine .of_fails rfl (bind_fails ?_)
    generalize justAll q s = o, justAll q s' = o' at hnone hright ⊢
    cases hright with
    | fail => rfl
    | ok => cases hnone

theorem quotedBy_fails {q : List Char} {plain : Rule Char Char} (h : ¬ q <+: s.ahead) :
    (quotedBy q plain s).1 = none := bind_fails (justAll_eq_none_iff.2 h)

/-- A string is read in the same way on both sides, if three quotes always open one of several lines
and one quote always opens a string. -/
theorem string_outcome (hk : toBreak k s.rest s'.rest) (hs : Within string s)
    (htriple : ∀ q ∈ ['"', '\''], ∀ u : State Char, u.rest = s.rest → (multiLine q u).1 = none →
      ¬ [q, q, q] <+: s.ahead)
    (hquote : (string s).1 = none → ∀ q ∈ ['"', '\''], ¬ [q] <+: s.ahead) :
    Outcome toBreak Eq k s s' (string s) (string s') := by
  have hwithin : Within (choice [multiLine '"', multiLine '\'', singleLine '"', singleLine '\'']) s := by
    intro ps t read hr
    exact hs _ _ _ (by unfold string; rw [hr])
  have hfails : ∀ {t u v}, multiLine '"' s = (none, t) → multiLine '\'' (t.back s) = (none, u) →
      singleLine '"' (u.back (t.back s)) = (none, v) →
      (singleLine '\'' (v.back (u.back (t.back s)))).1 = none → (string s).1 = none := by
    intro t u v ht hu hv hw
    unfold string
    simp only [choice, ht, hu, hv]
    generalize singleLine '\'' _ = o at hw ⊢
    obtain ⟨o, w⟩ := o
    obtain rfl : o = none := hw
    rfl
  have hchoice : Outcome toBreak Eq k s s'
      (choice [multiLine '"', multiLine '\'', singleLine '"', singleLine '\''] s)
      (choice [multiLine '"', multiLine '\'', singleLine '"', singleLine '\''] s') := by
    refine choice_outcome_of ?_ fun t t' ht _ => choice_outcome_of ?_ fun u u' hu _ =>
      choice_outcome_of ?_ fun v v' hv _ => choice_outcome_of ?_ fun _ _ _ _ => .fail _ _
    · exact quotedBy_outcome (inLine_before (by decide)) (by decide) (by decide) hk hwithin.head
        (htriple _ (by decide) s rfl)
    · exact quotedBy_outcome (inLine_before (by decide)) (by decide) (by decide) hk
        (hwithin.tail ht).head (htriple _ (by decide) _ rfl)
    · refine quotedBy_outcome (inLine_noneOf _) (by decide) (by decide) hk
        ((hwithin.tail ht).tail hu).head fun hv hpre => ?_
      -- then the other quote is not next
      have hother : ¬ ['\''] <+: s.ahead := by
        obtain ⟨rest, hrest⟩ := hpre
        rintro ⟨rest', hrest'⟩
        cases hrest.trans hrest'.symm
      exact hquote (hfails ht hu (Prod.ext hv rfl) (quotedBy_fails hother)) _ (by decide) hpre
    · refine quotedBy_outcome (inLine_noneOf _) (by decide) (by decide) hk
        (((hwithin.tail ht).tail hu).tail hv).head fun hw hpre => ?_
      exact hquote (hfails ht hu hv hw) _ (by decide) hpre
  unfold string
  generalize choice _ s = o, choice _ s' = o' at hchoice ⊢
  cases hchoice with
  | fail t t' => exact .fail t t'
  | ok n hm hv =>
    obtain ⟨read, hread, hread', -⟩ := hm.reads_eq exact_toBreak hk
    exact .ok n hm (by rw [hv, hread.readTo_eq, hread'.readTo_eq])

/-! ## Raw strings -/

/-- What may stand in a raw string. -/
abbrev rawTurn : Rule Char Char := andIs anyItem (notAhead (justAll ['"', '#']))

/-- A raw string, read as such. -/
def rawText : Rule Char Unit := do
  justAll ['#', '"']
  let _ ← many rawTurn
  justAll ['"', '#']
  pure ()

theorem rawString_eq :
    rawString = (do let text ← recognized rawText; pure (.str (String.ofList text))) := by
  have htext :
      (do justAll ['#', '"']; skipMany rawTurn; justAll ['"', '#'] : Rule Char Unit) = rawText := by
    have hlaws : LawfulMonad (Rule Char) := lawfulMonad
    unfold rawText skipMany
    simp
  rw [← htext]
  rfl

theorem rawTurn_ensures : Ensures rawTurn fun read rest _ =>
    ∃ x, read = [x] ∧ ¬ ['"', '#'] <+: (x :: rest).map (·.val) := by
  refine ⟨fun {s c t} h => ?_⟩
  obtain ⟨read, hread, x, rfl, -⟩ := (Ensures.item [.any] some).andIs.ensures h
  refine ⟨[x], hread, x, rfl, ?_⟩
  obtain ⟨_, v, _, _, -, hv, hahead⟩ := andIs_ok h
  obtain ⟨w, hw, hnone⟩ := notAhead_ok hahead
  have hclose := justAll_eq_none_iff.1 hnone
  rwa [State.ahead, hw, hv, hread.rest_eq] at hclose

theorem not_infix_of_turns {q : List Char} {read rest : List (Spanned Char)} {cs : List Char}
    (h : Turns (fun read rest _ => ∃ x, read = [x] ∧ ¬ q <+: (x :: rest).map (·.val)) read rest cs)
    (hrest : ¬ q <:+: rest.map (·.val)) : ¬ q <:+: (read ++ rest).map (·.val) := by
  induction h with
  | nil => exact hrest
  | cons hx _ ih =>
    obtain ⟨x, rfl, hx⟩ := hx
    rw [List.append_assoc]
    exact fun h => (List.infix_cons_iff.1 h).elim hx (ih hrest)

/-- Where the quotes of a raw string close further on, it is read. -/
theorem rawText_isSome {t : State Char} {a : Unit} (hopen : justAll ['#', '"'] s = (some a, t))
    (hclose : ['"', '#'] <:+: t.ahead) : (rawText s).1.isSome := by
  obtain ⟨as, u, hmany⟩ : ∃ as u, many rawTurn t = (some as, u) := ⟨_, _, rfl⟩
  have hahead : ['"', '#'] <+: u.ahead := by
    by_contra hno
    obtain ⟨read, hread, hturns⟩ := rawTurn_ensures.many.ensures hmany
    obtain ⟨v, hfail, hv⟩ := many_stops hmany
    -- the quotes are not ahead, so the turns end with the text
    have hnil : u.rest = [] := by
      cases hu : u.rest with
      | nil => rfl
      | cons x xs =>
        have hsome : (rawTurn v).1.isSome := andIs_isSome
          (by rw [anyItem, item_of_cons (hv.trans hu)]; rfl)
          fun w hw => notAhead_isSome fun z hz => justAll_eq_none_iff.2 (by
            rwa [State.ahead, hz, hw, hv])
        rw [hfail] at hsome
        cases hsome
    refine not_infix_of_turns hturns ?_ (hread.rest_eq ▸ hclose)
    simp [hnil]
  obtain ⟨b, w, hw⟩ : ∃ b w, justAll ['"', '#'] u = (some b, w) := by
    obtain ⟨_, w, hw, -⟩ := (Takes.justAll ['"', '#']).takes u hahead.choose_spec.symm
    exact ⟨_, w, hw⟩
  have hrun : rawText s = (some (), w) := by
    change Rule.bind _ _ s = _
    simp only [Rule.bind, hopen]
    change Rule.bind _ _ t = _
    simp only [Rule.bind, hmany]
    change Rule.bind _ _ u = _
    simp only [Rule.bind, hw]
    rfl
  rw [hrun]
  rfl

theorem toBreak.lines {a b : List (Spanned Char)} (h : toBreak k a b) : Lines a b := by
  obtain ⟨m, u, v, rfl, rfl, -, hm, huv⟩ := h
  induction m with
  | nil =>
    cases huv with
    | nil => exact .nil
    | newline hb hl => exact .newline hb hl
  | cons x m ih =>
    rw [List.map_cons, List.mem_cons, not_or] at hm
    exact .char (Ne.symm hm.1) (ih hm.2)

theorem toBreak.prefix_iff {l : List Char} (hl : '\n' ∉ l ∧ '\r' ∉ l) (hk : toBreak k s.rest s'.rest) :
    l <+: s.ahead ↔ l <+: s'.ahead := by
  have hrun := (stops_toBreak.justAll hl).run s s' hk
  refine not_iff_not.1 (justAll_eq_none_iff.symm.trans (Iff.trans ?_ justAll_eq_none_iff))
  generalize justAll l s = o, justAll l s' = o' at hrun ⊢
  cases hrun <;> simp

/-- Characters other than line breaks that follow each other on the right do so on the left. -/
theorem Lines.infix_of_right {a b : List (Spanned Char)} (h : Lines a b) {l : List Char} (hne : l ≠ [])
    (hl : '\n' ∉ l ∧ '\r' ∉ l) (hb : l <:+: b.map (·.val)) : l <:+: a.map (·.val) := by
  have hfirst : ∀ {x : Spanned Char} {xs : List (Spanned Char)}, x.val = '\n' ∨ x.val = '\r' →
      l <:+: (x :: xs).map (·.val) → l <:+: xs.map (·.val) := by
    intro x xs hx hxs
    refine (List.infix_cons_iff.1 hxs).resolve_left fun hpre => ?_
    obtain ⟨c, l, rfl⟩ := List.exists_cons_of_ne_nil hne
    obtain rfl := (List.cons_prefix_cons.1 hpre).1
    rcases hx with hx | hx
    · exact hl.1 (by simp [hx])
    · exact hl.2 (by simp [hx])
  induction h with
  | nil => exact hb
  | @char x xs ys hx hlines ih =>
    rcases List.infix_cons_iff.1 hb with hpre | hinf
    · obtain ⟨k, hk⟩ := (Lines.char hx hlines).exists_toBreak
      have hiff : l <+: (State.start (x :: xs) default).ahead ↔
          l <+: (State.start (x :: ys) default).ahead :=
        toBreak.prefix_iff hl hk
      exact (hiff.2 hpre).isInfix
    · exact List.infix_cons (ih hinf)
  | newline hbreak _ ih =>
    exact List.infix_cons (ih (hfirst (.inl hbreak.right) (hfirst (.inr hbreak.carriage) hb)))

/-- The text of a raw string within the line is the same on both sides. -/
theorem rawText_outcome (hk : toBreak k s.rest s'.rest) (hs : Within rawText s) :
    Outcome toBreak Eq k s s' (rawText s) (rawText s') := by
  cases hrun : rawText s with
  | mk o t =>
  cases o with
  | some a =>
    exact quotes_outcome (f := fun _ => ()) (inLine_before (by decide)) (by decide) (by decide)
      (by decide) hk hs hrun
  | none =>
    refine .of_fails rfl ?_
    by_contra hne
    obtain ⟨b, hb⟩ := Option.ne_none_iff_exists'.1 hne
    obtain ⟨_, u', hopen', h⟩ := bind_ok (Prod.ext hb rfl)
    obtain ⟨as, v, hmany, h⟩ := bind_ok h
    obtain ⟨_, w, hclose, -⟩ := bind_ok h
    obtain ⟨ys, hys⟩ := Tame.reads hmany
    obtain ⟨zs, hzs, hval⟩ := (Ensures.justAll _).ensures hclose
    have hinfix : ['"', '#'] <:+: u'.rest.map (·.val) := by
      rw [hys.rest_eq, hzs.rest_eq, List.map_append, List.map_append, hval]
      exact ⟨_, _, by rw [List.append_assoc]⟩
    -- the quotes open and close on the left, too
    have hright : Outcome toBreak Eq k s s' (justAll ['#', '"'] s) (justAll ['#', '"'] s') :=
      (stops_toBreak.justAll (by decide)).run s s' hk
    rw [hopen'] at hright
    cases hopen : justAll ['#', '"'] s with
    | mk o u =>
    rw [hopen] at hright
    cases hright with
    | ok n hm _ =>
      have hsome := rawText_isSome hopen (hm.rest.lines.infix_of_right (by decide) (by decide) hinfix)
      rw [hrun] at hsome
      cases hsome

theorem rawString_outcome (hk : toBreak k s.rest s'.rest) (hs : Within rawString s) :
    Outcome toBreak Eq k s s' (rawString s) (rawString s') := by
  rw [rawString_eq] at hs ⊢
  have hwithin : Within rawText s := by
    intro a t read hr
    exact hs.map _ _ _ (by rw [recognized, hr])
  have htext : Outcome toBreak Eq k s s' (recognized rawText s) (recognized rawText s') :=
    recognized_outcome (fun k a b h => by rw [exact_toBreak k a b h]) hk (rawText_outcome hk hwithin)
  exact bind_outcome htext fun _ _ _ _ _ hv _ hm => .ok 0 (.refl hm.rest) (by rw [hv])

/-! ## Tokens -/

/-- A string or bytes literal, with or without parts. -/
def isLiteral : Token → Bool
  | .str _ => true
  | .interp .. => true
  | _ => false

theorem rawString_isLiteral {a : Token} {t : State Char} (h : rawString s = (some a, t)) :
    a.isLiteral = true := by
  obtain ⟨_, u, -, h⟩ := bind_ok h
  cases h
  rfl

theorem rawString_spelt : Ensures rawString fun read _ a => Spelt read a :=
  recognized_spelt (f := fun text => .str (String.ofList text)) fun _ => String.toList_ofList

theorem string_isLiteral {a : Token} {t : State Char} (h : string s = (some a, t)) :
    a.isLiteral = true := by
  unfold string at h
  split at h
  · cases h
    split <;> rfl
  · cases h

/-- A literal without a newline in its text is read within a line. -/
theorem Within.of_spelt {r : Rule Char Token} (hspelt : Ensures r fun read _ a => Spelt read a)
    (hs : ∀ a t, r s = (some a, t) → a.isLiteral = true ∧ '\n' ∉ a.name.toList) : Within r s := by
  intro a t read hr hread
  obtain ⟨read', hread', hwritten⟩ := hspelt.ensures hr
  obtain rfl := List.append_cancel_right (hread'.rest_eq.symm.trans hread.rest_eq)
  obtain ⟨hliteral, hline⟩ := hs a t hr
  have hne : a ≠ .newline := by
    rintro rfl
    cases hliteral
  rwa [← show a.written = _ from hwritten, written_eq_name hne]

theorem fails_of_refuses {α : Type} {r : Rule Char α} (h : Refuses r s.ahead) : (r s).1 = none := by
  obtain ⟨t, ht, -⟩ := h.refuses s rfl
  rw [ht]

theorem brokenString_fails (h : ∀ q ∈ ['"', '\''], ¬ [q] <+: s.ahead) : (brokenString s).1 = none := by
  have hquote : Refuses (oneOf ['"', '\'']) s.ahead := .oneOf fun c hc hmem => by
    obtain ⟨cs, hcs⟩ := List.head?_eq_some_iff.1 hc
    exact h c hmem ⟨cs, hcs.symm⟩
  exact fails_of_refuses hquote.bind.recognized.spanned.bind

section choice

variable {α : Type} {r : Rule Char α} {rs : List (Rule Char α)} {t u : State Char} {a b : α}

theorem choice_cons_of_none (h : r s = (none, t)) : choice (r :: rs) s = choice rs (t.back s) := by
  rw [choice, h]

theorem eq_of_choice_cons (h : r s = (some b, u)) (hrun : choice (r :: rs) s = (some a, t)) :
    b = a := by
  rw [choice, h] at hrun
  cases hrun
  rfl

end choice

/-- On a line the same token is next on both sides: one that is not broken, whose text is within the
line if it is a literal, and where three quotes open a string of several lines. -/
theorem token_outcome {a : Token} {t : State Char} (hk : toBreak k s.rest s'.rest) (hpos : 0 < k)
    (hrun : token s = (some a, t)) (hline : a.isLiteral = true → '\n' ∉ a.name.toList)
    (hbroken : a.isBroken = false)
    (htriple : ∀ q ∈ ['"', '\''], ∀ u : State Char, u.rest = s.rest → (multiLine q u).1 = none →
      ¬ [q, q, q] <+: s.ahead) :
    Outcome toBreak Eq k s s' (token s) (token s') := by
  have hnewline : Outcome toBreak Eq k s s' (justAll ['\n'] s) (justAll ['\n'] s') :=
    bind_outcome (item_outcome _ _ (hk.admitsAt hpos)) fun _ _ _ _ _ _ _ hm =>
      .ok 0 (.refl hm.rest) rfl
  refine choice_outcome_of (bind_outcome hnewline fun _ _ _ _ _ _ _ hm => .ok 0 (.refl hm.rest) rfl)
    fun t₁ t₁' h₁ _ => ?_
  rw [token, choice_cons_of_none h₁] at hrun
  refine choice_outcome_of (rawString_outcome hk (.of_spelt rawString_spelt fun b u hb => ?_))
    fun t₂ t₂' h₂ _ => ?_
  · obtain rfl := eq_of_choice_cons hb hrun
    exact ⟨rawString_isLiteral hb, hline (rawString_isLiteral hb)⟩
  rw [choice_cons_of_none h₂] at hrun
  -- where quotes open no string, the rest of the line is a broken one
  have hquote : (string (t₂.back (t₁.back s))).1 = none → ∀ q ∈ ['"', '\''], ¬ [q] <+: s.ahead := by
    intro hnone q hq hpre
    obtain ⟨v, hv⟩ : ∃ v, string (t₂.back (t₁.back s)) = (none, v) := ⟨_, Prod.ext hnone rfl⟩
    rw [choice_cons_of_none hv] at hrun
    have hsome := brokenString_isSome (s := v.back (t₂.back (t₁.back s))) hq hpre
    obtain ⟨b, hb⟩ := Option.isSome_iff_exists.1 hsome
    obtain rfl := eq_of_choice_cons (Prod.ext hb rfl) hrun
    rw [brokenString_isBroken (Prod.ext hb rfl)] at hbroken
    cases hbroken
  refine choice_outcome_of (string_outcome hk (.of_spelt string_spelt fun b u hb => ?_) htriple hquote)
    fun t₃ t₃' h₃ _ => ?_
  · obtain rfl := eq_of_choice_cons hb hrun
    exact ⟨string_isLiteral hb, hline (string_isLiteral hb)⟩
  have hno := hquote (by rw [h₃])
  refine choice_outcome hk (.of_fails (brokenString_fails hno) (brokenString_fails fun q hq hpre =>
    hno q hq ((hk.prefix_iff ?_).2 hpre))) ?_
  · simp only [List.mem_cons, List.not_mem_nil, or_false] at hq
    rcases hq with rfl | rfl <;> decide
  · exact .choice_cons stops_toBreak.radixNumber (.choice_cons stops_toBreak.decimalNumber
      (.choice_cons (stops_toBreak.spelled _ (by decide)) (.choice_cons stops_toBreak.identifier
      (.choice_cons stops_toBreak.sign .choice_nil))))

end CueScope.Token
