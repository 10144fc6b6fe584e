import CueScope.Proofs.Editor.History
import Mathlib.Data.List.Induction

/-!
# Closed documents

Closing a document takes its name away and makes its handles expire. The document itself lives on
behind them, and a text that comes late through one of them makes a handle again.

* `Named`: what holds of every store on the way. No name stands for two documents, so the overlay
  has the texts of those documents only that are open under their name (`overlay_set`).
* `isOpen_perform`, `revoked_perform`, `new_perform`: what one action does to a document, as far as
  being open and having good handles goes.
* `life_after`: so a document is open until it is closed, and its present handle is good until then
  and again after a late text.
* `good_handle_open`: which handles are good. They are all of open documents unless a document got
  a late text, and then that document was compiled without it.
-/

namespace CueScope

namespace Store

variable {s : Store} {id : DocumentId} {d : Document}

/-! ## Names -/

/-- The document is open: its name stands for it. -/
def IsOpen (s : Store) (id : DocumentId) : Prop :=
  ∃ d, s.get? id = some d ∧ s.opened.lookup d.uri = some id

theorem not_isOpen_of_nil (h : s.opened = []) : ¬ s.IsOpen id := by
  rintro ⟨d, -, hlookup⟩
  simp [h] at hlookup

/-- What holds of every store that actions lead to, with what is needed about names. -/
structure Named (s : Store) : Prop extends s.Sound where
  /-- No name stands for two documents. -/
  names : (s.opened.map (·.1)).Nodup

theorem named_unused (disk : Disk) (load : Loader) (settings : Settings) :
    (unused disk load settings).Named :=
  { sound_unused disk load settings with names := List.nodup_nil }

/-- A name is listed once, and for a document that has it. -/
theorem Named.perform (hs : s.Named) (a : Action) : (s.perform a).2.Named := by
  refine { hs.toSound.perform a with names := ?_ }
  have hp := performs_perform s a
  generalize s.perform a = r at hp
  obtain ⟨answer, s'⟩ := r
  cases hp with
  | refused e ha => exact hs.names
  | @added uri _ _ _ _ _ hadd =>
    -- Only a document that is not open can be opened.
    have hnone := List.lookup_eq_none_iff.1 (add_eq hadd).1
    obtain ⟨-, e, rfl, -⟩ := add_ok hadd
    rw [List.map_append, List.nodup_append]
    refine ⟨hs.names, List.pairwise_singleton _ _, fun u hu v hv => ?_⟩
    obtain ⟨entry, hentry, rfl⟩ := List.mem_map.1 hu
    obtain rfl : v = uri := List.mem_singleton.1 hv
    rintro rfl
    simpa using hnone entry hentry
  | got hget => exact hs.names
  | replaced hrep =>
    obtain ⟨_, _, -, -, -, rfl, -⟩ := replace_ok hrep
    exact hs.names
  | removed hrem =>
    obtain ⟨_, -, rfl⟩ := remove_ok hrem
    exact hs.names.sublist (List.filter_sublist.map _)
  | ended => exact hs.names
  | configured ha root settings => exact hs.names

theorem Named.after (hs : s.Named) (as : List Action) : (s.after as).Named := by
  induction as generalizing s with
  | nil => exact hs
  | cons a as ih => exact ih (hs.perform a)

/-- A name stands for the document it is listed with. -/
theorem Named.lookup (hs : s.Named) {uri : Uri} (h : (uri, id) ∈ s.opened) :
    s.opened.lookup uri = some id := by
  obtain ⟨front, back, hsplit⟩ := List.append_of_mem h
  refine List.lookup_eq_some_iff.2 ⟨front, back, hsplit, fun entry hentry => ?_⟩
  have hnames := hs.names
  rw [hsplit, List.map_append, List.nodup_append] at hnames
  have hne := hnames.2.2 entry.1 (List.mem_map_of_mem hentry) uri (by simp)
  simpa using Ne.symm hne

/-- The open documents are those that are listed. -/
theorem Named.isOpen_iff (hs : s.Named) : s.IsOpen id ↔ ∃ uri, (uri, id) ∈ s.opened := by
  constructor
  · rintro ⟨d, -, hlookup⟩
    exact ⟨d.uri, mem_of_lookup hlookup⟩
  · rintro ⟨uri, hmem⟩
    obtain ⟨d, hd, huri, -⟩ := hs.opened (uri, id) hmem
    exact ⟨d, hd, by rw [huri]; exact hs.lookup hmem⟩

/-- Only open documents can be closed. -/
theorem Named.isOpen_of_removes (hs : s.Named) {a : Action} (h : Removes id s a) : s.IsOpen id := by
  obtain ⟨uri, -, hlookup⟩ := h
  exact hs.isOpen_iff.2 ⟨uri, mem_of_lookup hlookup⟩

/-- The text of a document that is not open does not get into the overlay. -/
theorem Named.overlay_set (hs : s.Named) (hclosed : ¬ s.IsOpen id) (d : Document) :
    ({ s with documents := s.documents.set id d } : Store).overlay = s.overlay := by
  unfold overlay
  congr 1
  refine List.filterMap_congr fun entry hentry => ?_
  have hne : id ≠ entry.2 := by
    rintro rfl
    exact hclosed (hs.isOpen_iff.2 ⟨entry.1, hentry⟩)
  exact congrArg (Option.map _) (List.getElem?_set_ne hne)

/-! ## One action -/

/-- A document is open until it is closed. -/
theorem Named.isOpen_perform (hs : s.Named) (hd : s.get? id = some d) (a : Action) :
    (s.perform a).2.IsOpen id ↔ s.IsOpen id ∧ ¬ Removes id s a := by
  rw [(hs.perform a).isOpen_iff, hs.isOpen_iff]
  have hp := performs_perform s a
  generalize s.perform a = r at hp
  obtain ⟨answer, s'⟩ := r
  cases hp with
  | refused e ha => simp [(ha.2 id).2]
  | added hadd =>
    obtain ⟨-, e, rfl, -⟩ := add_ok hadd
    -- The new document has another number than those that are there.
    have hlt : id < s.documents.length := (List.getElem?_eq_some_iff.1 hd).1
    simp [Removes, Nat.ne_of_lt hlt]
  | got hget => simp [Removes]
  | replaced hrep =>
    obtain ⟨_, _, -, -, -, rfl, -⟩ := replace_ok hrep
    simp [Removes]
  | @removed uri _ hrem =>
    obtain ⟨i, hi, rfl⟩ := remove_ok hrem
    constructor
    · rintro ⟨u, hu⟩
      obtain ⟨hmem, hne⟩ := List.mem_filter.1 hu
      refine ⟨⟨u, hmem⟩, ?_⟩
      rintro ⟨_, ha, hlookup⟩
      cases ha
      -- A document is open under its own name only.
      obtain ⟨e, he, heu, -⟩ := hs.opened _ hmem
      obtain ⟨e', he', heuri, -⟩ := hs.opened _ (mem_of_lookup hlookup)
      cases he.symm.trans he'
      exact absurd (heu.symm.trans heuri) (by simpa using hne)
    · rintro ⟨⟨u, hu⟩, hkeep⟩
      refine ⟨u, List.mem_filter.2 ⟨hu, ?_⟩⟩
      rw [decide_eq_true_eq]
      rintro rfl
      exact hkeep ⟨_, rfl, hs.lookup hu⟩
  | ended => simp [Removes]
  | configured ha root settings => simp [(ha.2 id).2]

/-- Closing a document makes its handles expire, and a text for it makes a good one. -/
theorem revoked_perform (hd : s.get? id = some d) (a : Action) :
    ∃ d', (s.perform a).2.get? id = some d' ∧
      (d'.revoked = true ↔ ¬ Replaces id s a ∧ (d.revoked = true ∨ Removes id s a)) := by
  by_cases hr : Replaces id s a
  · have hno := not_not_intro hr
    obtain ⟨h, text, version, rfl, rfl, ⟨h', s'⟩, hrep⟩ := hr
    obtain ⟨e, e', he, -, -, rfl, -, -, -, -, hrev, -⟩ := replace_ok hrep
    refine ⟨e', ?_, by simp [hno, hrev]⟩
    simp only [perform_replace, hrep]
    exact List.getElem?_set_self (List.getElem?_eq_some_iff.1 he).1
  · obtain ⟨d', hd', -, hkeep⟩ := get?_perform hd a
    exact ⟨d', hd', by simp [hr, (hkeep hr).2]⟩

/-- A new document is open, and its handle is good. -/
theorem Named.new_perform (hs : s.Named) (hnone : s.get? id = none) {a : Action}
    (hd : (s.perform a).2.get? id = some d) :
    (s.perform a).2.IsOpen id ∧ d.revoked = false := by
  rw [(hs.perform a).isOpen_iff]
  have hp := performs_perform s a
  generalize s.perform a = r at hp hd
  obtain ⟨answer, s'⟩ := r
  cases hp with
  | refused e ha => cases hnone.symm.trans hd
  | @added uri _ _ _ _ _ hadd =>
    obtain ⟨-, e, rfl, -, -, -, -, hrev, -⟩ := add_ok hadd
    have hle : s.documents.length ≤ id := List.getElem?_eq_none_iff.1 hnone
    have hlt := (List.getElem?_eq_some_iff.1 hd).1
    rw [List.length_append, List.length_singleton] at hlt
    obtain rfl : id = s.documents.length := Nat.le_antisymm (Nat.le_of_lt_succ hlt) hle
    cases hd.symm.trans List.getElem?_concat_length
    exact ⟨⟨uri, by simp⟩, hrev⟩
  | got hget => cases hnone.symm.trans hd
  | replaced hrep =>
    obtain ⟨_, _, -, -, -, rfl, -⟩ := replace_ok hrep
    have hlen := (List.getElem?_eq_some_iff.1 hd).1
    rw [List.length_set] at hlen
    exact absurd hlen (Nat.not_lt.2 (List.getElem?_eq_none_iff.1 hnone))
  | removed hrem =>
    obtain ⟨_, -, rfl⟩ := remove_ok hrem
    have hlen := (List.getElem?_eq_some_iff.1 hd).1
    rw [List.length_modify] at hlen
    exact absurd hlen (Nat.not_lt.2 (List.getElem?_eq_none_iff.1 hnone))
  | ended => cases hnone.symm.trans hd
  | configured ha root settings => cases hnone.symm.trans hd

/-! ## Whole histories -/

/-- The document gets a text after it was closed. -/
def Revived (id : DocumentId) (s : Store) (as : List Action) : Prop :=
  ∃ before later, as = before ++ later ∧ Happens (Removes id) s before ∧
    Happens (Replaces id) (s.after before) later

theorem Revived.removed {as : List Action} (h : Revived id s as) : Happens (Removes id) s as := by
  obtain ⟨before, later, rfl, hremoved, -⟩ := h
  exact happens_append.2 (.inl hremoved)

/-- A document is revived by the last action, or it was before. -/
theorem revived_concat {as : List Action} {a : Action} :
    Revived id s (as ++ [a]) ↔
      Revived id s as ∨ Happens (Removes id) s as ∧ Replaces id (s.after as) a := by
  constructor
  · rintro ⟨before, later, hsplit, hremoved, hreplaced⟩
    rcases List.eq_nil_or_concat later with rfl | ⟨later, b, rfl⟩
    · exact hreplaced.elim
    rw [List.concat_eq_append, ← List.append_assoc] at hsplit
    obtain ⟨rfl, hb⟩ := List.append_inj' hsplit rfl
    cases hb
    rw [List.concat_eq_append, happens_append, ← after_append] at hreplaced
    rcases hreplaced with hsooner | hlast
    · exact .inl ⟨before, later, rfl, hremoved, hsooner⟩
    · exact .inr ⟨happens_append.2 (.inl hremoved), hlast.resolve_right not_false⟩
  · rintro (⟨before, later, rfl, hremoved, hreplaced⟩ | ⟨hremoved, hreplaced⟩)
    · exact ⟨before, later ++ [a], List.append_assoc .., hremoved,
        happens_append.2 (.inl hreplaced)⟩
    · exact ⟨as, [a], rfl, hremoved, .inl hreplaced⟩

/-- What actions do to a document that was not there before: it is open until it is closed, and its
present handle is good until then and again after a late text. -/
theorem Named.life_after (hs : s.Named) (hnone : s.get? id = none) (as : List Action) :
    (Happens (Removes id) s as → ∃ d, (s.after as).get? id = some d) ∧
      ∀ d, (s.after as).get? id = some d →
        ((s.after as).IsOpen id ↔ ¬ Happens (Removes id) s as) ∧
        (d.revoked = true ↔ Happens (Removes id) s as ∧ ¬ Revived id s as) := by
  induction as using List.reverseRecOn with
  | nil => exact ⟨False.elim, fun d hd => by cases hnone.symm.trans hd⟩
  | append_singleton as a ih =>
    obtain ⟨hthere, hlife⟩ := ih
    have hnow := hs.after as
    rw [happens_append, after_append, revived_concat]
    simp only [Happens, or_false, Store.after]
    cases hold : (s.after as).get? id with
    | none =>
      -- The document comes with this action, if it comes at all.
      have hno : ¬ (Happens (Removes id) s as ∨ Removes id (s.after as) a) := by
        rintro (h | h)
        · obtain ⟨d, hd⟩ := hthere h
          cases hold.symm.trans hd
        · obtain ⟨d, hd, -⟩ := hnow.isOpen_of_removes h
          cases hold.symm.trans hd
      refine ⟨fun h => absurd h hno, fun d hd => ?_⟩
      obtain ⟨hopen, hrev⟩ := hnow.new_perform hold hd
      simp [hopen, hrev, hno]
    | some d =>
      obtain ⟨hopen, hrev⟩ := hlife d hold
      obtain ⟨d', hd', hrev'⟩ := revoked_perform hold a
      refine ⟨fun _ => ⟨d', hd'⟩, fun e he => ?_⟩
      cases hd'.symm.trans he
      rw [hnow.isOpen_perform hold, hopen, hrev', hrev, not_or, not_or]
      refine ⟨Iff.rfl, ?_⟩
      by_cases hr : Removes id (s.after as) a
      · -- An open document is closed, so it never was before.
        have hfirst : ¬ Happens (Removes id) s as := hopen.1 (hnow.isOpen_of_removes hr)
        have hlate : ¬ Revived id s as := fun h => hfirst h.removed
        have hno : ¬ Replaces id (s.after as) a := by
          obtain ⟨uri, rfl, -⟩ := hr
          simp [Replaces]
        simp [hr, hfirst, hlate, hno]
      · simp only [hr, or_false]
        grind

/-- A document that is not open gets a text. No compilation sees the text, not even the one that is
done for it. -/
theorem Named.replace_closed (hs : s.Named) {s' : Store} {h h' : Handle} {text : String}
    {version : Int} (hrep : s.replace h text version = .ok (h', s'))
    (hclosed : ¬ s.IsOpen h.document) :
    s'.overlay = s.overlay ∧ ∃ d, s.get? h.document = some d ∧ s'.get? h.document =
      some (s.compile { d with text, version, stamp := d.stamp + 1, revoked := false }) := by
  obtain ⟨d, hd, -, -, rfl⟩ := replace_eq hrep
  let next := { d with text, version, stamp := d.stamp + 1, revoked := false }
  have hcompile : ({ s with documents := s.documents.set h.document next } : Store).compile next =
      s.compile next := by
    simp only [compile, workspace, hs.overlay_set hclosed next]
  have hstore : ({ s with documents := s.documents.set h.document next } : Store).recompile
      h.document = { s with documents := s.documents.set h.document (s.compile next) } := by
    unfold recompile
    rw [modify_set, hcompile]
  rw [hstore]
  exact ⟨hs.overlay_set hclosed _, d, hd,
    List.getElem?_set_self (List.getElem?_eq_some_iff.1 hd).1⟩

/-- Which handles are good after any actions: until the end, those of the present text of a document
that is open or got a late text. So all good handles are of open documents exactly if the end has
come or no document got a late text. Any text that is accepted makes a handle that is good until the
end; if its document is not open, it stays so, and is compiled as if it had no text. -/
theorem good_handle_open (disk : Disk) (load : Loader) (settings : Settings) (as : List Action) :
    let start := unused disk load settings
    let s := start.after as
    (∀ h, s.isExpired h = false ↔ .shutdown ∉ as ∧ ∃ d, s.get? h.document = some d ∧
      d.stamp = h.stamp ∧ (s.IsOpen h.document ∨ Revived h.document start as)) ∧
    ((∀ h, s.isExpired h = false → s.IsOpen h.document) ↔
      .shutdown ∈ as ∨ ∀ id, ¬ Revived id start as) ∧
    ∀ h text version r, s.replace h text version = .ok r →
      (r.2.isExpired r.1 = false ↔ .shutdown ∉ as) ∧
      (r.2.IsOpen h.document ↔ s.IsOpen h.document) ∧
      (¬ s.IsOpen h.document → r.2.overlay = s.overlay ∧
        ∃ d, s.get? h.document = some d ∧ r.2.get? h.document =
          some (s.compile { d with text, version, stamp := d.stamp + 1, revoked := false })) := by
  intro start s
  have hs : s.Named := (named_unused disk load settings).after as
  have hlife := fun id =>
    (named_unused disk load settings).life_after (show start.get? id = none from rfl) as
  have hend : s.isShutdown = false ↔ .shutdown ∉ as := by
    rw [← Bool.not_eq_true, isShutdown_after]
    simp [start, unused]
  have hgood : ∀ h, s.isExpired h = false ↔ .shutdown ∉ as ∧ ∃ d, s.get? h.document = some d ∧
      d.stamp = h.stamp ∧ (s.IsOpen h.document ∨ Revived h.document start as) := by
    intro h
    rw [isExpired_eq_false_iff, hend]
    refine and_congr_right fun _ => exists_congr fun d => and_congr_right fun hd => ?_
    obtain ⟨hopen, hrev⟩ := (hlife h.document).2 d hd
    rw [← Bool.not_eq_true, hrev, hopen]
    tauto
  refine ⟨hgood, ⟨fun hall => ?_, ?_⟩,
    fun h text version r hrep => ⟨?_, ?_, hs.replace_closed hrep⟩⟩
  · by_contra hno
    rw [not_or] at hno
    obtain ⟨id, hid⟩ := not_forall_not.1 hno.2
    obtain ⟨d, hd⟩ := (hlife id).1 hid.removed
    have hopen := hall ⟨id, d.stamp⟩ ((hgood _).2 ⟨hno.1, d, hd, rfl, .inr hid⟩)
    exact ((hlife id).2 d hd).1.1 hopen hid.removed
  · rintro (hended | hnone) h hh
    · exact absurd hended ((hgood h).1 hh).1
    · obtain ⟨-, d, -, -, hopen⟩ := (hgood h).1 hh
      exact hopen.resolve_right (hnone _)
  · obtain ⟨d, d', hd, -, hr, hs', -, -, -, hstamp, hrev, -⟩ := replace_ok hrep
    rw [isExpired_eq_false_iff, hs', hr, ← hend]
    exact and_iff_left
      ⟨d', List.getElem?_set_self (List.getElem?_eq_some_iff.1 hd).1, hrev, hstamp⟩
  · obtain ⟨d, hd, -⟩ := replace_eq hrep
    have hstep := hs.isOpen_perform hd (.replace h text version)
    simp only [perform_replace, hrep] at hstep
    rw [hstep]
    simp [Removes]

/-- A document is opened and closed. -/
def openedAndClosed : List Action :=
  [.add ⟨"file", none, "/a.cue", none, none⟩ "cue" 1 "a: 1",
    .remove ⟨"file", none, "/a.cue", none, none⟩]

/-- A late text makes a good handle of a document that is not open. -/
theorem good_handle_open_late : ∃ r,
    ((unused {} Workspace.load {}).after openedAndClosed).replace ⟨0, 0⟩ "b: 2" 2 = .ok r ∧
      r.2.isExpired r.1 = false ∧ ¬ r.2.IsOpen 0 := by
  have hnone : ((unused {} Workspace.load {}).after openedAndClosed).opened = [] := by
    decide +kernel
  have haccepted : (((unused {} Workspace.load {}).after openedAndClosed).replace
      ⟨0, 0⟩ "b: 2" 2).toOption.isSome := by
    decide +kernel
  cases hrep : ((unused {} Workspace.load {}).after openedAndClosed).replace ⟨0, 0⟩ "b: 2" 2 with
  | error e => simp [hrep, Except.toOption] at haccepted
  | ok r =>
    obtain ⟨hgood, hopen, -⟩ :=
      (good_handle_open {} Workspace.load {} openedAndClosed).2.2 ⟨0, 0⟩ "b: 2" 2 r hrep
    exact ⟨r, rfl, hgood.2 (by simp [openedAndClosed]),
      fun h => not_isOpen_of_nil hnone (hopen.1 h)⟩

/-- A document is opened and closed, and gets another text through its old handle. -/
def revived : List Action := openedAndClosed ++ [.replace ⟨0, 0⟩ "b: 2" 2]

/-- A good handle whose document is not open, and what its text was compiled to. -/
theorem good_handle_revived :
    ((unused {} Workspace.load {}).after revived).isExpired ⟨0, 1⟩ = false ∧
      ¬ ((unused {} Workspace.load {}).after revived).IsOpen 0 ∧
      ∃ c, ((unused {} Workspace.load {}).after revived).compiled ⟨0, 1⟩ = .ok c := by
  have hnone : ((unused {} Workspace.load {}).after revived).opened = [] := by decide +kernel
  have hcompiled :
      (((unused {} Workspace.load {}).after revived).compiled ⟨0, 1⟩).toOption.isSome := by
    decide +kernel
  refine ⟨by decide +kernel, not_isOpen_of_nil hnone, ?_⟩
  cases hc : ((unused {} Workspace.load {}).after revived).compiled ⟨0, 1⟩ with
  | error e => simp [hc, Except.toOption] at hcompiled
  | ok c => exact ⟨c, rfl⟩

end Store

end CueScope
