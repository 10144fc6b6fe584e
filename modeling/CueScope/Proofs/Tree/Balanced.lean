import CueScope.Proofs.Tree.Derivation
import CueScope.Proofs.Tree.RoundTrip

/-!
# Properly nested brackets

* `Balanced free ts`: the brackets among the tokens are properly nested. Outside of them there are
  separators only if `free`.
* `Derives.balanced`: what is read without damage is balanced.
* `group_takes`, `damagedInner_takes`, `skipUntil_takes`: skipping reads a balanced group as a whole and
  stops at the first separator outside of groups.
-/

namespace CueScope

namespace Tree

open Grammar Rule

/-! ## The relation -/

/-- An opening or a closing bracket. -/
def IsBracket (t : Token) : Prop := ∃ p ∈ brackets, t = p.1 ∨ t = p.2

/-- The brackets are properly nested. -/
inductive Balanced : Bool → List Token → Prop
  | nil {free} : Balanced free []
  | cons {free t ts} : ¬ IsBracket t → (t = .comma ∨ t = .newline → free = true) →
      Balanced free ts → Balanced free (t :: ts)
  | group {free l m r ts} : (l, r) ∈ brackets → Balanced true m → Balanced free ts →
      Balanced free (l :: (m ++ r :: ts))

variable {free : Bool} {l r t : Token} {m ts us rest : List Token}

theorem mem_brackets : (l, r) ∈ brackets ↔
    l = .lparen ∧ r = .rparen ∨ l = .lbrack ∧ r = .rbrack ∨ l = .lbrace ∧ r = .rbrace := by
  simp [brackets]

theorem isBracket_iff : IsBracket t ↔ t = .lparen ∨ t = .rparen ∨ t = .lbrack ∨ t = .rbrack ∨
    t = .lbrace ∨ t = .rbrace := by
  simp [IsBracket, brackets, or_assoc]

/-- A closing bracket. -/
def IsClosing (t : Token) : Prop := t = .rparen ∨ t = .rbrack ∨ t = .rbrace

theorem isClosing_of_mem (h : (l, r) ∈ brackets) : IsClosing r := by
  rcases mem_brackets.1 h with ⟨-, rfl⟩ | ⟨-, rfl⟩ | ⟨-, rfl⟩ <;> simp [IsClosing]

theorem not_isClosing_of_mem (h : (l, r) ∈ brackets) : ¬ IsClosing l := by
  rcases mem_brackets.1 h with ⟨rfl, -⟩ | ⟨rfl, -⟩ | ⟨rfl, -⟩ <;> simp [IsClosing]

theorem not_separator_of_mem (h : (l, r) ∈ brackets) : ¬ (l = .comma ∨ l = .newline) := by
  rcases mem_brackets.1 h with ⟨rfl, -⟩ | ⟨rfl, -⟩ | ⟨rfl, -⟩ <;> simp

theorem closing_unique {r' : Token} (h : (l, r) ∈ brackets) (h' : (l, r') ∈ brackets) : r = r' := by
  rcases mem_brackets.1 h with ⟨rfl, rfl⟩ | ⟨rfl, rfl⟩ | ⟨rfl, rfl⟩ <;>
    exact (by simpa [brackets] using h' : r' = _).symm

namespace Balanced

theorem toTrue (h : Balanced free ts) : Balanced true ts := by
  induction h with
  | nil => exact .nil
  | cons ht _ _ ih => exact .cons ht (fun _ => rfl) ih
  | group hp hm _ _ ih => exact .group hp hm ih

theorem append (h : Balanced free ts) (h' : Balanced free us) : Balanced free (ts ++ us) := by
  induction h with
  | nil => exact h'
  | cons ht hsep _ ih => exact .cons ht hsep (ih h')
  | group hp hm _ _ ih =>
    rw [List.cons_append, List.append_assoc, List.cons_append]
    exact .group hp hm (ih h')

theorem single (ht : ¬ IsBracket t) (hsep : t = .comma ∨ t = .newline → free = true) :
    Balanced free [t] := .cons ht hsep .nil

theorem separator_cons (h : Balanced true ts) (ht : t = .comma ∨ t = .newline) :
    Balanced true (t :: ts) := by
  refine .cons (fun hb => ?_) (fun _ => rfl) h
  rcases ht with rfl | rfl <;> simp [isBracket_iff] at hb

/-- No closing bracket comes first. -/
theorem not_isClosing (h : Balanced free (t :: ts)) : ¬ IsClosing t := by
  cases h with
  | cons ht _ _ =>
    intro hc
    refine ht (isBracket_iff.2 ?_)
    rcases hc with rfl | rfl | rfl <;> simp
  | group hp _ _ => exact not_isClosing_of_mem hp

/-- No separator comes first where there are none outside of brackets. -/
theorem not_separator (h : Balanced false (t :: ts)) : ¬ (t = .comma ∨ t = .newline) := by
  cases h with
  | cons _ hsep _ => exact fun ht => absurd (hsep ht) (by simp)
  | group hp _ _ => exact not_separator_of_mem hp

/-- The tokens up to the first separator outside of brackets. -/
theorem split (h : Balanced true ts) : ∃ m rest, ts = m ++ rest ∧ Balanced false m ∧
    (rest = [] ∨ ∃ x us, rest = x :: us ∧ (x = .comma ∨ x = .newline) ∧ Balanced true us) := by
  generalize hfree : true = free at h
  induction h with
  | nil => exact ⟨[], [], rfl, .nil, .inl rfl⟩
  | @cons _ t ts ht _ hts ih =>
    subst hfree
    by_cases hsep : t = .comma ∨ t = .newline
    · exact ⟨[], t :: ts, rfl, .nil, .inr ⟨t, ts, rfl, hsep, hts⟩⟩
    · obtain ⟨m, rest, rfl, hm, hrest⟩ := ih rfl
      exact ⟨t :: m, rest, rfl, .cons ht (fun h => absurd h hsep) hm, hrest⟩
  | @group _ l m r ts hp hm _ _ ih =>
    subst hfree
    obtain ⟨m', rest, rfl, hm', hrest⟩ := ih rfl
    exact ⟨l :: (m ++ r :: m'), rest, by simp, .group hp hm hm', hrest⟩

end Balanced

/-! ## What is read without damage -/

theorem Balanced.of_separator {t : Spanned Token} (h : IsSeparator t) : Balanced true [t.val] :=
  Balanced.nil.separator_cons h

/-- What is read without damage is balanced. -/
theorem Derives.balanced {bodies : Bodies} {ts : List (Spanned Token)} {p : Phrase}
    (h : Derives bodies False ts p) : Balanced true (ts.map (·.val)) := by
  have hone : ∀ {t : Spanned Token} {v : Token}, t.val = v → ¬ IsBracket v →
      Balanced true [t.val] := fun ht hv => .single (ht ▸ hv) fun _ => rfl
  have hbrackets : ∀ {l r : Spanned Token} {ts : List (Spanned Token)} {v w : Token}, l.val = v →
      r.val = w → (v, w) ∈ brackets → Balanced true (ts.map (·.val)) →
      Balanced true (([l] ++ ts ++ [r]).map (·.val)) := by
    rintro l r ts _ _ rfl rfl hp hts
    simpa using Balanced.group hp hts .nil
  induction h with
  | ident ht => exact hone ht (by simp [isBracket_iff])
  | @literal t l ht =>
    have hword := l.isWord_token
    refine hone ht fun hb => ?_
    rcases isBracket_iff.1 hb with h | h | h | h | h | h <;> rw [h] at hword <;> cases hword
  | interpolation ht => exact hone ht (by simp [isBracket_iff])
  | broken ht => exact hone ht (by simp [isBracket_iff])
  | struct hl _ hr ih => exact hbrackets hl hr (by simp [brackets]) ih
  | unclosed hD => exact hD.elim
  | list hl _ hr ih => exact hbrackets hl hr (by simp [brackets]) ih
  | paren hl _ hr ih => exact hbrackets hl hr (by simp [brackets]) ih
  | damaged hD => exact hD.elim
  | @selector m t n _ _ _ ht hn ih =>
    have hend := (hone ht (by simp [isBracket_iff])).append (hone hn (by simp [isBracket_iff]))
    simpa using ih.append hend
  | call _ hl _ hr ih ih' =>
    rw [List.map_append]
    exact ih.append (hbrackets hl hr (by simp [brackets]) ih')
  | index _ hl _ hr ih ih' =>
    rw [List.map_append]
    exact ih.append (hbrackets hl hr (by simp [brackets]) ih')
  | unary ht _ _ ih => exact (hone ht (by simp [isBracket_iff])).append ih
  | binary _ ht _ ih ih' =>
    rw [List.map_append, List.map_append]
    exact (ih.append (hone ht (by simp [isBracket_iff]))).append ih'
  | loosen _ ih => exact ih
  | padded hpre _ hpost ih =>
    have hnewlines : ∀ {l : List (Spanned Token)}, (∀ t ∈ l, t.val = .newline) →
        Balanced true (l.map (·.val)) := by
      intro l hl
      induction l with
      | nil => exact .nil
      | cons t l ih =>
        obtain ⟨ht, hl⟩ := List.forall_mem_cons.1 hl
        exact (Balanced.of_separator (.inr ht)).append (ih hl)
    rw [List.map_append, List.map_append]
    exact ((hnewlines hpre).append ih).append (hnewlines hpost)
  | ellipsis ht => exact hone ht (by simp [isBracket_iff])
  | typed ht _ ih => exact (hone ht (by simp [isBracket_iff])).append ih
  | elem _ ih => exact ih
  | elems_nil => exact .nil
  | elems_last _ ih => exact ih
  | elems_next _ ht _ ih ih' =>
    rw [List.map_append, List.map_append]
    exact (ih.append (.of_separator ht)).append ih'
  | elems_skip ht _ ih => exact (Balanced.of_separator ht).append ih
  | label_ident ht => exact hone ht (by simp [isBracket_iff])
  | label_string ht => exact hone ht (by simp [isBracket_iff])
  | label_dynamic _ ih => exact ih
  | value _ ih => exact ih
  | nested _ ih => exact ih
  | @field m q c m' _ isOptional _ _ hq hc _ ih ih' =>
    have hmark : Balanced true (q.map (·.val)) := by
      rw [hq]
      cases isOptional
      · exact .nil
      · exact .single (by simp [isBracket_iff]) fun _ => rfl
    rw [List.map_append, List.map_append, List.map_append]
    exact (ih.append (hmark.append (hone hc (by simp [isBracket_iff])))).append ih'
  | decl _ ih => exact ih
  | embed _ ih => exact ih
  | bad hD => exact hD.elim
  | decls_nil => exact .nil
  | decls_last _ ih => exact ih
  | decls_next _ ht _ ih ih' =>
    rw [List.map_append, List.map_append]
    exact (ih.append (.of_separator ht)).append ih'
  | decls_skip ht _ ih => exact (Balanced.of_separator ht).append ih

/-! ## Skipping -/

/-- A turn that reads a group as a whole and other tokens one by one reads balanced tokens. -/
theorem Balanced.takesAll {turn : Rule Token Unit} {n : Nat} (h : Balanced free m)
    (hn : m.length ≤ n) (hgroup : ∀ l i r us, (l, r) ∈ brackets → Balanced true i →
      i.length + 2 ≤ n → Takes turn (l :: (i ++ [r])) us fun _ => True)
    (hplain : ∀ t us, ¬ IsBracket t → (t = .comma ∨ t = .newline → free = true) →
      Takes turn [t] us fun _ => True)
    (hend : Refuses turn rest) : ∃ bs : List Unit, TakesAll turn id rest m bs := by
  induction h with
  | nil => exact ⟨[], .nil hend⟩
  | @cons _ t ts ht hsep _ ih =>
    rw [List.length_cons] at hn
    obtain ⟨bs, hbs⟩ := ih (by omega) hplain
    have hcons : TakesAll turn id rest ([t] ++ ts) (() :: bs) :=
      .cons (by simp) ((hplain t _ ht hsep).mono fun _ => rfl) hbs
    exact ⟨() :: bs, hcons⟩
  | @group _ l i r ts hp hi _ _ ih =>
    simp only [List.length_cons, List.length_append] at hn
    obtain ⟨bs, hbs⟩ := ih (by omega) hplain
    have hcons : TakesAll turn id rest (l :: (i ++ [r]) ++ ts) (() :: bs) :=
      .cons (by simp) ((hgroup l i r _ hp hi (by omega)).mono fun _ => rfl) hbs
    exact ⟨() :: bs, by simpa using hcons⟩

/-- One of several alternatives takes what the others refuse. -/
theorem Takes.choice_map {α γ : Type} {f : γ → Rule Token α} {c : γ} {cs : List γ}
    {rs : List (Rule Token α)} {P : α → Prop} (hc : c ∈ cs) (h : Takes (f c) ts rest P)
    (hno : ∀ d ∈ cs, d ≠ c → Refuses (f d) (ts ++ rest)) :
    Takes (choice (cs.map f ++ rs)) ts rest P := by
  induction cs with
  | nil => cases hc
  | cons d cs ih =>
    by_cases hd : d = c
    · subst hd
      exact .choice_head h
    · exact .choice_tail (hno d List.mem_cons_self hd)
        (ih ((List.mem_cons.1 hc).resolve_left (Ne.symm hd))
          fun e he => hno e (List.mem_cons_of_mem _ he))

/-- One of the groups, whatever is read between the brackets. -/
theorem bracketed_takes {inner : Token × Token → Rule Token Unit} {pairs : List (Token × Token)}
    {rs : List (Rule Token Unit)} {i : List Token}
    (hpairs : ∀ p ∈ pairs, p ∈ brackets) (hp : (l, r) ∈ pairs)
    (hi : Takes (inner (l, r)) i (r :: rest) fun _ => True) :
    Takes (choice (pairs.map (fun p => between (just p.1) (inner p) (just p.2)) ++ rs))
      (l :: (i ++ [r])) rest fun _ => True := by
  refine Takes.choice_map hp (.between (.just l) hi ((Takes.just r).mono fun _ => trivial)) ?_
  rintro ⟨l', r'⟩ hp' hne
  refine Refuses.bind (.just fun t ht => ?_)
  cases ht
  rintro rfl
  exact hne (by rw [closing_unique (hpairs _ hp') (hpairs _ hp)])

/-- A turn of `group`. -/
def groupTurn (group : Rule Token Unit) : Rule Token Unit :=
  choice [group, (do let _ ← noneOf (brackets.flatMap fun p => [p.1, p.2]); pure ())]

/-- A step of `group`. -/
def groupStep (group : Rule Token Unit) : Rule Token Unit :=
  choice (brackets.map (fun p => between (just p.1) (skipMany (groupTurn group)) (just p.2)) ++ [])

theorem group_eq : group = recursive groupStep := rfl

theorem mem_flatMap_brackets {pairs : List (Token × Token)} (hpairs : ∀ p, p ∈ pairs ↔ p ∈ brackets) :
    t ∈ pairs.flatMap (fun p => [p.1, p.2]) ↔ IsBracket t := by
  simp [IsBracket, List.mem_flatMap, hpairs]

/-- No group starts with these tokens. -/
def Unopened (rest : List Token) : Prop := ∀ t ∈ rest.head?, ∀ r, (t, r) ∉ brackets

theorem unopened_of_isClosing (h : ∀ t ∈ rest.head?, IsClosing t) : Unopened rest :=
  fun t ht _ hp => not_isClosing_of_mem hp (h t ht)

theorem unopened_cons (ht : ¬ IsBracket t) : Unopened (t :: rest) := by
  intro u hu r hp
  cases hu
  exact ht ⟨_, hp, .inl rfl⟩

/-- Where no bracket opens, rules for brackets fail, and what comes after them decides. -/
theorem bracketed_refuses {inner : Token × Token → Rule Token Unit} {pairs : List (Token × Token)}
    {rs : List (Rule Token Unit)} (hpairs : ∀ p ∈ pairs, p ∈ brackets) (h : Unopened rest)
    (hrs : Refuses (choice rs) rest) :
    Refuses (choice (pairs.map (fun p => between (just p.1) (inner p) (just p.2)) ++ rs)) rest := by
  induction pairs with
  | nil => exact hrs
  | cons p pairs ih =>
    refine .choice_cons (Refuses.bind (.just fun t ht => ?_))
      (ih fun q hq => hpairs q (List.mem_cons_of_mem _ hq))
    rintro rfl
    exact h _ ht _ (hpairs p List.mem_cons_self)

theorem groupStep_refuses (group : Rule Token Unit) (h : Unopened rest) :
    Refuses (groupStep group) rest := bracketed_refuses (fun _ hp => hp) h .choice_nil

theorem group_refuses (h : Unopened rest) : Refuses group rest :=
  .recursive fun group => groupStep_refuses group h

theorem isBracket_of_isClosing (h : IsClosing t) : IsBracket t := by
  rcases h with rfl | rfl | rfl <;> simp [isBracket_iff]

/-- Where no bracket opens, what is taken is taken by a rule after those for brackets. -/
theorem bracketed_skips {inner : Token × Token → Rule Token Unit} {pairs : List (Token × Token)}
    {rs : List (Rule Token Unit)} (hpairs : ∀ p ∈ pairs, p ∈ brackets) (h : Unopened (ts ++ rest))
    (hrs : Takes (choice rs) ts rest fun _ => True) :
    Takes (choice (pairs.map (fun p => between (just p.1) (inner p) (just p.2)) ++ rs)) ts rest
      fun _ => True := by
  induction pairs with
  | nil => exact hrs
  | cons p pairs ih =>
    refine .choice_tail (Refuses.bind (.just fun t ht => ?_))
      (ih fun q hq => hpairs q (List.mem_cons_of_mem _ hq))
    rintro rfl
    exact h _ ht _ (hpairs p List.mem_cons_self)

/-- A balanced group is read as a whole. -/
theorem group_takes (hp : (l, r) ∈ brackets) (hm : Balanced true m) :
    Takes group (l :: (m ++ [r])) rest fun _ => True := by
  have hn : ∀ n {l r : Token} {m rest : List Token}, (l, r) ∈ brackets → Balanced true m →
      m.length + 2 ≤ n → Takes (unfold groupStep n) (l :: (m ++ [r])) rest fun _ => True := by
    intro n
    induction n with
    | zero => omega
    | succ n ih =>
      intro l r m rest hp hm hlen
      have hrefuses : ∀ {us : List Token}, Unopened us → Refuses (unfold groupStep n) us :=
        fun hus => by
          cases n with
          | zero => exact ⟨fun s _ => ⟨s, rfl, rfl⟩⟩
          | succ n => exact groupStep_refuses _ hus
      have hclosing : ∀ t ∈ (r :: rest).head?, IsClosing t := fun t ht => by
        cases ht
        exact isClosing_of_mem hp
      have hend : Refuses (groupTurn (unfold groupStep n)) (r :: rest) :=
        .choice_cons (hrefuses (unopened_of_isClosing hclosing)) (.choice_cons
          (Refuses.noneOf fun t ht => (mem_flatMap_brackets fun _ => Iff.rfl).2
            (isBracket_of_isClosing (hclosing t ht))).bind .choice_nil)
      obtain ⟨bs, hbs⟩ := hm.takesAll (Nat.le_refl _)
        (fun l i r us hp hi hi' => .choice_head (ih hp hi (by omega)))
        (fun t us ht _ => .choice_tail (hrefuses (unopened_cons ht)) (.choice_head
          ((Takes.noneOf (mt (mem_flatMap_brackets fun _ => Iff.rfl).1 ht)).map fun _ _ => trivial)))
        hend
      exact bracketed_takes (fun _ h => h) hp (hbs.many.map fun _ _ => trivial)
  rw [group_eq]
  exact .recursive fun n hlen => hn n hp hm (by simp at hlen; omega)

/-- A turn between the brackets of `damaged`. -/
def damagedTurn (pairs : List (Token × Token)) (inner : Rule Token Unit) : Rule Token Unit :=
  choice ((pairs.map fun p => between (just p.1) inner (just p.2)) ++
    [(do
      let _ ← andIs anyItem (noneOf (pairs.flatMap fun p => [p.1, p.2]))
      pure ())])

/-- What `damaged` reads between its brackets. -/
def damagedInner (pairs : List (Token × Token)) : Rule Token Unit :=
  recursive fun inner => skipMany (damagedTurn pairs inner)

theorem damaged_eq (l r : Token) (others : List (Token × Token)) :
    damaged l r others = (do
      let x ← spanned (between (just l) (damagedInner ((l, r) :: others)) (just r))
      pure (.bad x.span)) := rfl

/-- Balanced tokens in brackets are read as a whole, whatever is wrong with them. -/
theorem damagedInner_takes {pairs : List (Token × Token)} (hpairs : ∀ p, p ∈ pairs ↔ p ∈ brackets)
    (hm : Balanced true m) (hr : IsClosing r) :
    Takes (damagedInner pairs) m (r :: rest) fun _ => True := by
  have hclosing : ∀ {t : Token} {us : List Token}, IsClosing t → ∀ u ∈ (t :: us).head?,
      IsClosing u := fun ht u hu => by
    cases hu
    exact ht
  have hbracket : ∀ (c : Token) us, IsClosing c →
      Refuses (andIs anyItem (noneOf (pairs.flatMap fun p => [p.1, p.2]))) ([c] ++ us) :=
    fun c us hc => Refuses.andIs (Refuses.noneOf fun t ht => (mem_flatMap_brackets hpairs).2
      (isBracket_of_isClosing (hclosing hc t ht))) .anyItem
  have hn : ∀ n {m us : List Token} {c : Token}, Balanced true m → IsClosing c → m.length < n →
      Takes (unfold (fun inner => skipMany (damagedTurn pairs inner)) n) m (c :: us)
        fun _ => True := by
    intro n
    induction n with
    | zero => omega
    | succ n ih =>
      intro m us c hm hc hlen
      obtain ⟨bs, hbs⟩ : ∃ bs : List Unit, TakesAll (damagedTurn pairs
          (unfold (fun inner => skipMany (damagedTurn pairs inner)) n)) id (c :: us) m bs :=
        hm.takesAll (n := n) (by omega)
        (fun l i r us hp hi hi' => bracketed_takes (fun p hp => (hpairs p).1 hp) ((hpairs _).2 hp)
          (ih hi (isClosing_of_mem hp) (by omega)))
        (fun t us ht _ => bracketed_skips (fun p hp => (hpairs p).1 hp) (unopened_cons ht)
          (.choice_head ((Takes.anyItem.andIs_ahead
            (Takes.noneOf (mt (mem_flatMap_brackets hpairs).1 ht)) rfl).map fun _ _ => trivial)))
        (bracketed_refuses (fun p hp => (hpairs p).1 hp) (unopened_of_isClosing (hclosing hc))
          (.choice_cons (hbracket c us hc).bind .choice_nil))
      exact hbs.many.map fun _ _ => trivial
  exact .recursive fun n hlen => hn n hm hr hlen

section skip

variable {close : Rule Token Unit}

theorem skipOne_takes (ht : t ≠ .comma ∧ t ≠ .newline) (hclose : Refuses close (t :: rest)) :
    Takes (skipOne close) [t] rest fun _ => True := by
  have hsep : Refuses separator ([t] ++ rest) := separator_refuses fun u hu => by
    cases hu
    exact ht
  exact ((Takes.anyItem.andIs (.notAhead hsep)).andIs (.notAhead hclose)).map fun _ _ => trivial

theorem skipOne_refuses_nil : Refuses (skipOne close) [] :=
  (Refuses.andIs_left (Refuses.andIs_left (Refuses.item (by simp)))).bind

theorem skipOne_refuses_separator (ht : t = .comma ∨ t = .newline) :
    Refuses (skipOne close) (t :: rest) := by
  have hsep : Refuses (notAhead separator) ([t] ++ rest) :=
    Refuses.notAhead (separator_takes ht)
  exact (Refuses.andIs_left (Refuses.andIs hsep .anyItem)).bind

theorem skipOne_refuses_closed (ht : t ≠ .comma ∧ t ≠ .newline)
    (hclose : Takes close [] (t :: rest) fun _ => True) : Refuses (skipOne close) (t :: rest) := by
  have hsep : Refuses separator ([t] ++ rest) := separator_refuses fun u hu => by
    cases hu
    exact ht
  have hnot := Refuses.notAhead hclose
  have hno : Refuses (notAhead close) ([t] ++ rest) := hnot
  exact (Refuses.andIs hno (Takes.anyItem.andIs (.notAhead hsep))).bind

/-- Balanced tokens without separators outside of brackets are skipped, up to what is not. -/
theorem skipUntil_takes (hm : Balanced false m) (hne : m ≠ [])
    (hclose : ∀ t us, ¬ IsClosing t → Refuses close (t :: us)) (hopen : Unopened rest)
    (hend : Refuses (skipOne close) rest) : Takes (skipUntil close) m rest fun _ => True := by
  have hturn : Refuses (choice [group, skipOne close]) rest :=
    .choice_cons (group_refuses hopen) (.choice_cons hend .choice_nil)
  obtain ⟨bs, hbs⟩ := hm.takesAll (Nat.le_refl _)
    (fun l i r us hp hi _ => .choice_head (group_takes hp hi))
    (fun t us ht hsep => .choice_tail (group_refuses (unopened_cons ht)) (.choice_head
      (skipOne_takes (by simpa using hsep) (hclose t us (mt isBracket_of_isClosing ht)))))
    hturn
  rw [skipUntil_eq]
  cases hbs with
  | nil => exact absurd rfl hne
  | cons _ h hs => exact (hs.many1 h).map fun _ _ => trivial

theorem skipUntil_stays (hopen : Unopened rest) (hend : Refuses (skipOne close) rest) :
    Refuses (skipUntil close) rest :=
  (Refuses.choice_cons (group_refuses hopen) (.choice_cons hend .choice_nil)).many1.bind

end skip

end Tree

end CueScope
