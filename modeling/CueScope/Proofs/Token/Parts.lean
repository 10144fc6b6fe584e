import CueScope.Proofs.Grammar.Parallel
import CueScope.Proofs.Token.Layout

/-!
# The texts of string parts

* `Quoted`, `PartBody`: what may stand between the quotes of a string in a part, and between the
  parentheses of a part.
* `partBody_ensures`, `partBody_takes`: the body of a part is read from such a text, and every such text
  is read as a body if a closing parenthesis follows.
* `PartBody.escaped`: in such a text a newline comes right after a backslash.
-/

namespace CueScope.Token

open Grammar Rule

/-! ## Texts -/

/-- What may stand between the quotes of a string in a part. -/
inductive Quoted : List Char → Prop
  | nil : Quoted []
  | char {c cs} : c ∉ ['"', '\\', '\n'] → Quoted cs → Quoted (c :: cs)
  | escape {c cs} : Quoted cs → Quoted ('\\' :: c :: cs)

/-- What may stand between the parentheses of a part. -/
inductive PartBody : List Char → Prop
  | nil : PartBody []
  | char {c cs} : c ∉ ['(', ')', '"', '\n'] → PartBody cs → PartBody (c :: cs)
  | group {ds cs} : PartBody ds → PartBody cs → PartBody ('(' :: (ds ++ ')' :: cs))
  | quoted {qs cs} : Quoted qs → PartBody cs → PartBody ('"' :: (qs ++ '"' :: cs))

/-- The characters may be put in front of what has the property `B`. -/
def Leads (B : List Char → Prop) (read : List (Spanned Char)) : Prop :=
  ∀ cs, B cs → B (read.map (·.val) ++ cs)

theorem leads_turns {B : List Char → Prop} {α : Type} {read rest : List (Spanned Char)} {as : List α}
    (h : Turns (fun read _ _ => Leads B read) read rest as) : Leads B read := by
  induction h with
  | nil => exact fun cs hcs => hcs
  | cons hq _ ih =>
    intro cs hcs
    rw [List.map_append, List.append_assoc]
    exact hq _ (ih cs hcs)

/-! ## The rules for parts -/

/-- A character of a string in a part, or two. -/
def quotedTurn : Rule Char Unit :=
  choice [(do let _ ← noneOf ['"', '\\', '\n']; pure ()), escape]

/-- A string in a part. -/
def quoted : Rule Char Unit := do
  let _ ← just '"'
  skipMany quotedTurn
  let _ ← just '"'
  pure ()

/-- What the body of a part is read by, again and again. -/
def partTurn (body : Rule Char Unit) : Rule Char Unit :=
  choice [quoted, between (just '(') body (just ')'),
    (do let _ ← noneOf ['(', ')', '"', '\n']; pure ())]

theorem partBody_eq : partBody = recursive fun body => skipMany (partTurn body) := rfl

/-- What a string is read by, again and again. -/
def stringTurn (plain : Rule Char Char) : Rule Char (Option Span) :=
  choice [
    (do let p ← part; pure (some p)),
    (do escape; pure none),
    (do let _ ← plain; pure none)]

/-! ## What is read -/

theorem escape_ensures : Ensures escape fun read _ _ => ∃ x y, read = [x, y] ∧ x.val = '\\' := by
  refine ((Ensures.just '\\').bind fun _ => (Ensures.item [.any] some).bind fun _ => .pure ()).mono ?_
  rintro read rest _ ⟨_, _, _, rfl, ⟨x, rfl, hx⟩, _, _, _, rfl, ⟨y, rfl, -⟩, rfl, -⟩
  exact ⟨x, y, rfl, hx⟩

/-- A string in a part is read from quotes with what may stand between them. -/
theorem quoted_ensures : Ensures quoted fun read _ _ =>
    ∃ qs, Quoted qs ∧ read.map (·.val) = '"' :: (qs ++ ['"']) := by
  have hchar : Ensures (do let _ ← noneOf ['"', '\\', '\n']; pure () : Rule Char Unit)
      fun read _ _ => Leads Quoted read := by
    refine ((Ensures.noneOf _).bind fun _ => .pure ()).mono ?_
    rintro read rest _ ⟨_, _, _, rfl, ⟨x, rfl, hx⟩, rfl, -⟩ cs hcs
    exact .char hx hcs
  have hescape : Ensures escape fun read _ _ => Leads Quoted read := by
    refine escape_ensures.mono ?_
    rintro read rest _ ⟨x, y, rfl, hx⟩ cs hcs
    simp only [List.map_cons, hx]
    exact .escape hcs
  refine ((Ensures.just '"').bind fun _ => ((hchar.choice_cons (hescape.choice_cons
    .choice_nil)).many.bind fun _ => .pure ()).bind fun _ => (Ensures.just '"').bind fun _ =>
      .pure ()).mono ?_
  rintro read rest _ ⟨_, _, _, rfl, ⟨x, rfl, hx⟩, _, _, _, rfl, ⟨qs, _, us, rfl, hqs, rfl, -⟩,
    _, _, _, rfl, ⟨y, rfl, hy⟩, rfl, -⟩
  refine ⟨qs.map (·.val), ?_, by simp [hx, hy]⟩
  simpa using leads_turns hqs [] .nil

/-- The body of a part is read from characters that may stand in it, groups and strings balanced. -/
theorem partBody_ensures : Ensures partBody fun read _ _ => PartBody (read.map (·.val)) := by
  have hlead : Ensures partBody fun read _ _ => Leads PartBody read := by
    rw [partBody_eq]
    refine .recursive fun body hbody => ?_
    have hquoted : Ensures quoted fun read _ _ => Leads PartBody read := by
      refine quoted_ensures.mono ?_
      rintro read rest _ ⟨qs, hqs, hread⟩ cs hcs
      simpa [hread] using PartBody.quoted hqs hcs
    have hgroup : Ensures (between (just '(') body (just ')')) fun read _ _ =>
        Leads PartBody read := by
      refine ((Ensures.just '(').bind fun _ => hbody.bind fun _ => (Ensures.just ')').bind fun _ =>
        .pure ()).mono ?_
      rintro read rest _ ⟨_, _, _, rfl, ⟨x, rfl, hx⟩, ds, _, _, rfl, hds, _, _, _, rfl, ⟨y, rfl, hy⟩,
        rfl, -⟩ cs hcs
      simpa [hx, hy] using PartBody.group (by simpa using hds [] .nil) hcs
    have hchar : Ensures (do let _ ← noneOf ['(', ')', '"', '\n']; pure () : Rule Char Unit)
        fun read _ _ => Leads PartBody read := by
      refine ((Ensures.noneOf _).bind fun _ => .pure ()).mono ?_
      rintro read rest _ ⟨_, _, _, rfl, ⟨x, rfl, hx⟩, rfl, -⟩ cs hcs
      exact .char hx hcs
    refine ((hquoted.choice_cons (hgroup.choice_cons (hchar.choice_cons .choice_nil))).many.bind
      fun _ => .pure ()).mono ?_
    rintro read rest _ ⟨xs, _, us, rfl, hxs, rfl, -⟩
    rw [List.append_nil]
    exact leads_turns hxs
  exact hlead.mono fun h => by simpa using h [] .nil

/-! ## What is taken -/

theorem escape_takes (c : Char) (rest : List Char) :
    Takes escape (['\\'] ++ [c]) rest fun _ => True :=
  (Takes.just '\\').bind fun _ _ => Takes.anyItem.map fun _ _ => trivial

/-- Where the characters are next, they are read, and only there. -/
theorem justAll_eq_none_iff {s : State Char} {cs : List Char} :
    (justAll cs s).1 = none ↔ ¬ cs <+: s.ahead := by
  constructor
  · rintro hnone ⟨rest, hrest⟩
    obtain ⟨_, t, ht, -⟩ := (Takes.justAll cs).takes s hrest.symm
    rw [ht] at hnone
    cases hnone
  · intro hpre
    by_contra hne
    obtain ⟨a, ha⟩ := Option.ne_none_iff_exists'.1 hne
    obtain ⟨read, hread, rfl⟩ := (Ensures.justAll cs).ensures (Prod.ext ha rfl)
    exact hpre ⟨_, by rw [State.ahead, hread.rest_eq, List.map_append]⟩

theorem escape_refuses {rest : List Char} (h : ∀ c ∈ rest.head?, c ≠ '\\') : Refuses escape rest :=
  (Refuses.just h).bind

variable {qs cs ws rest : List Char}

/-- What may stand between quotes is read turn by turn up to the closing one. -/
theorem Quoted.takes (h : Quoted qs) : Takes quoted (['"'] ++ (qs ++ ['"'])) rest fun _ => True := by
  have hturns : ∃ us : List Unit, TakesAll quotedTurn id ('"' :: rest) qs us := by
    induction h with
    | nil =>
      refine ⟨[], .nil (.choice_cons (.bind (.noneOf ?_)) (.choice_cons (escape_refuses ?_) .choice_nil))⟩
      · simp
      · simp
    | @char c cs hc _ ih =>
      obtain ⟨us, hus⟩ := ih
      refine ⟨() :: us, .cons (List.cons_ne_nil c []) (.choice_head ?_) hus⟩
      exact (Takes.noneOf hc).map fun _ _ => rfl
    | @escape c cs _ ih =>
      obtain ⟨us, hus⟩ := ih
      refine ⟨() :: us, .cons (List.cons_ne_nil '\\' [c]) (.choice_tail (.bind (.noneOf ?_))
        (.choice_head ((escape_takes c _).mono fun _ => rfl))) hus⟩
      simp
  obtain ⟨us, hus⟩ := hturns
  have hmany : Takes (skipMany quotedTurn) qs (['"'] ++ rest) fun _ => True :=
    hus.many.map fun _ _ => trivial
  exact (Takes.just '"').bind fun _ _ => hmany.bind fun _ _ => (Takes.just '"').map fun _ _ => trivial

/-- Where `c` is next, no string of a part and no group starts. -/
theorem partTurn_refuses {body : Rule Char Unit} {c : Char} (hc : c = ')' ∨ c = '\n') :
    Refuses (partTurn body) (c :: rest) := by
  have hmem : c ∈ ['(', ')', '"', '\n'] := by rcases hc with rfl | rfl <;> decide
  have hne : c ≠ '"' ∧ c ≠ '(' := by rcases hc with rfl | rfl <;> decide
  exact .choice_cons (.bind (.just (by simpa using hne.1))) (.choice_cons
    (.bind (.just (by simpa using hne.2))) (.choice_cons (.bind (.noneOf (by simpa using hmem)))
      .choice_nil))

/-- By induction on the body, with unfoldings for each nested group. -/
theorem PartBody.takesAll (h : PartBody ws) {n : Nat} (hn : ws.length ≤ n) :
    ∃ us : List Unit, TakesAll (partTurn (unfold (fun body => skipMany (partTurn body)) n)) id
      (')' :: rest) ws us := by
  induction h generalizing rest n with
  | nil => exact ⟨[], .nil (partTurn_refuses (.inl rfl))⟩
  | @char c cs hc _ ih =>
    obtain ⟨us, hus⟩ := @ih rest n (by simp at hn; omega)
    simp only [List.mem_cons, List.not_mem_nil, or_false, not_or] at hc
    refine ⟨() :: us, .cons (List.cons_ne_nil c []) (.choice_tail (.bind (.just (by simp [hc])))
      (.choice_tail (.bind (.just (by simp [hc]))) (.choice_head ?_))) hus⟩
    exact (Takes.noneOf (by simp [hc])).map fun _ _ => rfl
  | @group ds cs _ _ ihd ihc =>
    simp only [List.length_cons, List.length_append] at hn
    obtain ⟨n, rfl⟩ : ∃ m, n = m + 1 := ⟨n - 1, by omega⟩
    obtain ⟨us, hus⟩ := @ihc rest (n + 1) (by omega)
    obtain ⟨vs, hvs⟩ := @ihd (cs ++ ')' :: rest) n (by omega)
    have hbody : Takes (unfold (fun body => skipMany (partTurn body)) (n + 1)) ds
        (')' :: (cs ++ ')' :: rest)) (· = ()) := hvs.many.map fun _ _ => rfl
    have hgroup := (Takes.just '(').between hbody ((Takes.just ')').mono fun _ => trivial)
    have hsplit : '(' :: (ds ++ ')' :: cs) = '(' :: (ds ++ [')']) ++ cs := by simp
    rw [hsplit]
    exact ⟨() :: us, .cons (by simp) (.choice_tail (.bind (.just (by simp))) (.choice_head hgroup)) hus⟩
  | @quoted qs cs hq _ ih =>
    simp only [List.length_cons, List.length_append] at hn
    obtain ⟨us, hus⟩ := @ih rest n (by omega)
    have hsplit : '"' :: (qs ++ '"' :: cs) = '"' :: (qs ++ ['"']) ++ cs := by simp
    rw [hsplit]
    exact ⟨() :: us, .cons (by simp) (.choice_head (hq.takes.mono fun _ => rfl)) hus⟩

theorem PartBody.takes (h : PartBody ws) : Takes partBody ws (')' :: rest) fun _ => True := by
  rw [partBody_eq]
  refine .recursive fun n hn => ?_
  obtain ⟨n, rfl⟩ : ∃ m, n = m + 1 := ⟨n - 1, by omega⟩
  obtain ⟨us, hus⟩ := @takesAll _ rest h _ (Nat.le_of_lt_succ hn)
  exact hus.many.map fun _ _ => trivial

/-! ## Whole parts -/

/-- A part is read from a backslash and its body in parentheses. -/
theorem part_ensures : Ensures part fun read _ _ =>
    ∃ ws, PartBody ws ∧ read.map (·.val) = '\\' :: '(' :: (ws ++ [')']) := by
  refine ((Ensures.justAll _).bind fun _ => partBody_ensures.spanned.bind fun _ =>
    (Ensures.just ')').bind fun _ => .pure _).mono ?_
  rintro read rest p ⟨xs, _, _, rfl, hxs, ws, _, _, rfl, ⟨hws, -⟩, _, _, _, rfl, ⟨z, rfl, hz⟩, rfl, -⟩
  exact ⟨_, hws, by simp [hxs, hz]⟩

/-- Such characters are read as a part, whatever follows them. -/
theorem PartBody.part_takes {ws rest : List Char} (h : PartBody ws) :
    Takes part (['\\', '('] ++ (ws ++ [')'])) rest fun _ => True :=
  (Takes.justAll _).bind fun _ _ => h.takes.spanned.bind fun _ _ =>
    (Takes.just ')').map fun _ _ => trivial

/-- A part that is next on two sides is read in the same way. -/
theorem PartBody.part_outcome {P : Pairing Char} {k : Nat} {s s' : State Char}
    {m us us' : List (Spanned Char)} (h : PartBody ws)
    (hm : m.map (·.val) = '\\' :: '(' :: (ws ++ [')'])) (hs : s.rest = m ++ us)
    (hs' : s'.rest = m ++ us') (hle : m.length ≤ k) (hrest : P (k - m.length) us us') :
    Outcome P Eq k s s' (part s) (part s') := by
  have htakes : ∀ us : List Char, Takes part (m.map (·.val)) us fun _ => True := by
    intro us
    rw [hm]
    exact h.part_takes
  obtain ⟨p, t, ht, -, hread, hus, hfaults⟩ := (htakes _).reads hs rfl rfl
  obtain ⟨p', t', ht', -, hread', hus', hfaults'⟩ := (htakes _).reads hs' rfl rfl
  rw [ht, ht']
  refine .ok m.length ⟨⟨⟨m, hread, rfl⟩, ⟨m, hread', rfl⟩, ?_⟩, hle, ?_⟩
    (part_eq_of_reads ht ht' hread hread')
  · rw [hfaults, hfaults', Nat.add_comm]
  · rw [hus, hus']
    exact hrest

/-! ## Newlines in parts -/

/-- A newline comes right after a backslash. -/
abbrev Escaped (cs : List Char) : Prop := cs.IsChain fun c d => d = '\n' → c = '\\'

variable {d : Char} {ds : List Char}

theorem Quoted.escaped (h : Quoted qs) (hd : d ≠ '\n') (hds : Escaped (d :: ds)) (c : Char) :
    Escaped (c :: (qs ++ d :: ds)) := by
  induction h generalizing c with
  | nil => exact .cons_cons (fun h => absurd h hd) hds
  | @char e cs he _ ih =>
    refine .cons_cons (fun h => ?_) (ih e)
    simp [h] at he
  | @escape e cs _ ih => exact .cons_cons nofun (.cons_cons (fun _ => rfl) (ih e))

/-- By induction on the body: only an escape in a string of the part takes a newline. -/
theorem PartBody.escaped (h : PartBody ws) (hd : d ≠ '\n') (hds : Escaped (d :: ds)) (c : Char) :
    Escaped (c :: (ws ++ d :: ds)) := by
  induction h generalizing c d ds with
  | nil => exact .cons_cons (fun h => absurd h hd) hds
  | @char e cs he _ ih =>
    refine .cons_cons (fun h => ?_) (ih hd hds e)
    simp [h] at he
  | @group es cs _ _ ihe ihc =>
    rw [List.cons_append, List.append_assoc]
    exact .cons_cons nofun (ihe (by decide) (ihc hd hds _) _)
  | @quoted qs cs hq _ ih =>
    rw [List.cons_append, List.append_assoc]
    exact .cons_cons nofun (hq.escaped (by decide) (ih hd hds _) _)

/-- In front of a newline of a part there is a backslash. -/
theorem PartBody.getLast?_of_newline (h : PartBody ws) {cs ds : List Char}
    (hsplit : cs ++ '\n' :: ds = '\\' :: '(' :: (ws ++ [')'])) : cs.getLast? = some '\\' := by
  have hescaped : Escaped (cs ++ '\n' :: ds) := by
    rw [hsplit]
    exact .cons_cons nofun (h.escaped (by decide) (.singleton _) _)
  obtain ⟨-, -, hjoin⟩ := List.isChain_append.1 hescaped
  cases hlast : cs.getLast? with
  | none =>
    rw [List.getLast?_eq_none_iff.1 hlast, List.nil_append] at hsplit
    exact absurd (List.cons.inj hsplit).1 (by decide)
  | some c => rw [hjoin c hlast '\n' rfl rfl]

end CueScope.Token
