import CueScope.Proofs.Editor.Steps
import Mathlib.Data.List.Basic

/-!
# What becomes of handles

A `Store` is used by one `Action` after the other. `perform` is one of them, `after` a list of
them; an action that is refused leaves the store as it was, as its step is atomic.

* `get?_perform`, `get?_after`: what an action, and a list of them, do to one document. It gets
  another stamp by a replacement and by nothing else.
* `Sound`: what holds of every store on the way. Open documents are not revoked, and what a
  document was compiled to is of its version.
* `handle_life`: a handle is good until the end, the next replacement or the closing of its
  document, whichever comes first, and it is never good again.
-/

namespace CueScope

/-- What the document was compiled to belongs to its version. -/
def Document.UpToDate (d : Document) : Prop := ∀ c, d.compiled = some c → c.version = d.version

theorem Document.supersede_eq_ok_iff {d : Document} {version : Int} {u : Unit} :
    d.supersede version = .ok u ↔ d.version < version := by
  unfold supersede
  split <;> rename_i h <;> simp [h]

namespace Store

/-! ## Actions -/

/-- What can be done with a store. -/
inductive Action where
  | add (uri : Uri) (language : String) (version : Int) (text : String)
  /-- Asks for the handle of an open document. -/
  | get (uri : Uri)
  /-- Gives another text to the document of a handle, whether that has expired or not. -/
  | replace (h : Handle) (text : String) (version : Int)
  | remove (uri : Uri)
  | shutdown
  | setRoot (root : Path)
  | setSettings (settings : Settings)

/-- The version and text that an action stores. -/
def Action.stored : Action → Option (Int × String)
  | .add _ _ version text | .replace _ text version => some (version, text)
  | _ => none

/-- The step that an action takes; its answer is a handle if there is one. -/
def Step.of : Action → Step (Option Handle)
  | .add uri language version text => some <$> Step.add uri language version text
  | .get uri => do
    let s ← get
    let h ← s.handle uri
    pure (some h)
  | .replace h text version => some <$> Step.replace h text version
  | .remove uri => do
    Step.remove uri
    pure none
  | .shutdown => do
    modify Store.shutdown
    pure none
  | .setRoot root => do
    modify (·.setRoot root)
    pure none
  | .setSettings settings => do
    modify (·.setSettings settings)
    pure none

/-- The answer to an action and the store after it. -/
def perform (s : Store) (a : Action) : Except DocumentError (Option Handle) × Store := (Step.of a).on s

/-- The store after actions. -/
def after (s : Store) : List Action → Store
  | [] => s
  | a :: as => (s.perform a).2.after as

/-- The action gives the document `id` another text. -/
def Replaces (id : DocumentId) (s : Store) (a : Action) : Prop :=
  ∃ h text version, a = .replace h text version ∧ h.document = id ∧ ∃ r, s.replace h text version = .ok r

/-- The action closes the document `id`. -/
def Removes (id : DocumentId) (s : Store) (a : Action) : Prop :=
  ∃ uri, a = .remove uri ∧ s.opened.lookup uri = some id

/-- The action closes the document `id` while it has the version `v`. -/
def RemovesAt (id : DocumentId) (v : Int) (s : Store) (a : Action) : Prop :=
  Removes id s a ∧ ∃ d, s.get? id = some d ∧ d.version = v

/-- One of the actions is such an event, in the store that it meets. -/
def Happens (event : Store → Action → Prop) (s : Store) : List Action → Prop
  | [] => False
  | a :: as => event s a ∨ Happens event (s.perform a).2 as

theorem after_append (s : Store) (as bs : List Action) : s.after (as ++ bs) = (s.after as).after bs := by
  induction as generalizing s with
  | nil => rfl
  | cons a as ih => exact ih _

/-! ## What the operations do -/

/-- Compiling a document changes what was compiled of it and its diagnostics only. -/
theorem compile_eq (s : Store) (d : Document) :
    ∃ compiled diagnostics, s.compile d = { d with compiled, diagnostics } ∧
      (s.compile d).UpToDate := by
  unfold compile
  split
  · split
    · exact ⟨_, _, rfl, fun c hc => by cases hc; rfl⟩
    · exact ⟨_, _, rfl, fun c hc => by cases hc⟩
  · exact ⟨_, _, rfl, fun c hc => by cases hc⟩

/-- One document is compiled again, and no other one changes. -/
theorem get?_recompile (s : Store) (id i : DocumentId) :
    (s.recompile id).get? i = (s.get? i).map fun d => if i = id then s.compile d else d := by
  unfold recompile get?
  by_cases hi : id = i
  · subst hi
    rw [List.getElem?_modify_eq]
    simp
  · rw [List.getElem?_modify_ne _ _ hi]
    simp [Ne.symm hi]

theorem modify_set {α : Type} (l : List α) (i : Nat) (a : α) (f : α → α) :
    (l.set i a).modify i f = l.set i (f a) := by
  apply List.ext_getElem?
  intro j
  by_cases hij : i = j
  · subst hij
    rw [List.getElem?_modify_eq, List.getElem?_set_self', List.getElem?_set_self']
    cases l[i]? <;> rfl
  · rw [List.getElem?_modify_ne _ _ hij, List.getElem?_set_ne hij, List.getElem?_set_ne hij]

theorem isNew_eq_ok_iff {s : Store} {uri : Uri} {u : Unit} :
    s.isNew uri = .ok u ↔ s.opened.lookup uri = none := by
  unfold isNew
  cases s.opened.lookup uri <;> simp

theorem add_eq {s s' : Store} {uri : Uri} {language text : String} {version : Int} {h : Handle}
    (hadd : s.add uri language version text = .ok (h, s')) :
    s.opened.lookup uri = none ∧ h = ⟨s.documents.length, 0⟩ ∧
      s' = ({ s with
        documents := s.documents ++ [{ uri, path := s.pathOf uri, language, text, version }]
        opened := s.opened ++ [(uri, s.documents.length)] } : Store).recompile
          s.documents.length := by
  have hon := Step.accepted_eq_ok_iff.1 hadd
  simp only [Step.add, Step.on_bind_eq_ok, Step.on_get, Step.on_lift, Step.on_set, Step.on_modify,
    Step.on_pure, Prod.mk.injEq, Except.ok.injEq] at hon
  obtain ⟨_, _, ⟨rfl, rfl⟩, _, _, ⟨-, rfl⟩, _, _, ⟨hnew, rfl⟩, _, _, ⟨-, rfl⟩, _, _, ⟨-, rfl⟩,
    rfl, rfl⟩ := hon
  exact ⟨isNew_eq_ok_iff.1 hnew, rfl, rfl⟩

/-- A new document is put at the end, and its handle is the first one for it. -/
theorem add_ok {s s' : Store} {uri : Uri} {language text : String} {version : Int} {h : Handle}
    (hadd : s.add uri language version text = .ok (h, s')) :
    h = ⟨s.documents.length, 0⟩ ∧ ∃ d : Document,
      s' = { s with
        documents := s.documents ++ [d]
        opened := s.opened ++ [(uri, s.documents.length)] } ∧
      d.uri = uri ∧ d.text = text ∧ d.version = version ∧ d.stamp = 0 ∧ d.revoked = false ∧
      d.UpToDate := by
  obtain ⟨-, hh, rfl⟩ := add_eq hadd
  refine ⟨hh, ?_⟩
  unfold recompile
  obtain ⟨compiled, diagnostics, he, hup⟩ := compile_eq
    { s with
      documents := s.documents ++ [{ uri, path := s.pathOf uri, language, text, version }]
      opened := s.opened ++ [(uri, s.documents.length)] }
    { uri, path := s.pathOf uri, language, text, version }
  refine ⟨_, ?_, ?_, ?_, ?_, ?_, ?_, hup⟩
  · rw [List.modify_eq_take_cons_drop (by simp)]
    simp
  all_goals rw [he]

/-- A text is replaced if it is newer, and the handle is renewed. -/
theorem replace_eq {s s' : Store} {h h' : Handle} {text : String} {version : Int}
    (hrep : s.replace h text version = .ok (h', s')) :
    ∃ d, s.get? h.document = some d ∧ d.version < version ∧ h' = ⟨h.document, d.stamp + 1⟩ ∧
      s' = ({ s with
        documents := s.documents.set h.document
          { d with text, version, stamp := d.stamp + 1, revoked := false } } : Store).recompile
            h.document := by
  have hon := Step.accepted_eq_ok_iff.1 hrep
  unfold Step.replace at hon
  rw [Step.on_bind, Step.on_get] at hon
  dsimp only at hon
  split at hon
  · cases hon
  · rename_i d hd
    simp only [Step.on_bind_eq_ok, Step.on_lift, Step.on_set, Step.on_modify, Step.on_pure,
      Prod.mk.injEq, Except.ok.injEq] at hon
    obtain ⟨_, _, ⟨hver, rfl⟩, _, _, ⟨-, rfl⟩, _, _, ⟨-, rfl⟩, _, _, ⟨-, rfl⟩, rfl, rfl⟩ := hon
    exact ⟨d, hd, Document.supersede_eq_ok_iff.1 hver, rfl, rfl⟩

theorem replace_ok {s s' : Store} {h h' : Handle} {text : String} {version : Int}
    (hrep : s.replace h text version = .ok (h', s')) :
    ∃ d d' : Document, s.get? h.document = some d ∧ d.version < version ∧
      h' = ⟨h.document, d.stamp + 1⟩ ∧
      s' = { s with documents := s.documents.set h.document d' } ∧
      d'.uri = d.uri ∧ d'.text = text ∧ d'.version = version ∧ d'.stamp = d.stamp + 1 ∧
      d'.revoked = false ∧ d'.UpToDate := by
  obtain ⟨d, hd, hlt, hh, rfl⟩ := replace_eq hrep
  let next := { d with text, version, stamp := d.stamp + 1, revoked := false }
  obtain ⟨compiled, diagnostics, he, hup⟩ :=
    compile_eq { s with documents := s.documents.set h.document next } next
  refine ⟨d, _, hd, hlt, hh, ?_, ?_, ?_, ?_, ?_, ?_, hup⟩
  · unfold recompile
    rw [modify_set]
  all_goals rw [he]

/-- A document is removed from the names and revoked, and stays in the list. -/
theorem remove_ok {s s' : Store} {uri : Uri} (hrem : s.remove uri = .ok s') :
    ∃ id, s.opened.lookup uri = some id ∧
      s' = { s with
        documents := s.documents.modify id fun d => { d with revoked := true }
        opened := s.opened.filter (·.1 ≠ uri) } := by
  unfold remove Step.accepted at hrem
  rw [Step.on_remove] at hrem
  cases hid : s.opened.lookup uri with
  | none =>
    rw [hid] at hrem
    cases hrem
  | some id =>
    rw [hid] at hrem
    cases hrem
    exact ⟨id, rfl, rfl⟩

/-- The action is none of those that end the life of a handle. -/
def Harmless (s : Store) (a : Action) : Prop :=
  a ≠ .shutdown ∧ ∀ id, ¬ Replaces id s a ∧ ¬ Removes id s a

/-- All that an action can do. -/
inductive Performs (s : Store) : Action → Except DocumentError (Option Handle) → Store → Prop
  | refused {a : Action} (e : DocumentError) (ha : Harmless s a) : Performs s a (.error e) s
  | added {uri : Uri} {language text : String} {version : Int} {h : Handle} {s' : Store}
      (hadd : s.add uri language version text = .ok (h, s')) :
      Performs s (.add uri language version text) (.ok (some h)) s'
  | got {uri : Uri} {h : Handle} (hget : s.handle uri = .ok h) :
      Performs s (.get uri) (.ok (some h)) s
  | replaced {h h' : Handle} {text : String} {version : Int} {s' : Store}
      (hrep : s.replace h text version = .ok (h', s')) :
      Performs s (.replace h text version) (.ok (some h')) s'
  | removed {uri : Uri} {s' : Store} (hrem : s.remove uri = .ok s') :
      Performs s (.remove uri) (.ok none) s'
  | ended : Performs s .shutdown (.ok none) s.shutdown
  | configured {a : Action} (ha : Harmless s a) (root : Option Path) (settings : Settings) :
      Performs s a (.ok none) { s with root, settings }

theorem perform_add (s : Store) (uri : Uri) (language : String) (version : Int) (text : String) :
    s.perform (.add uri language version text) =
      match s.add uri language version text with
      | .ok (h, s') => (.ok (some h), s')
      | .error e => (.error e, s) := by
  unfold perform Step.of add
  rw [Step.on_map, (Step.atomic_add uri language version text).on_eq s]
  cases (Step.add uri language version text).accepted s <;> rfl

theorem perform_get (s : Store) (uri : Uri) :
    s.perform (.get uri) =
      match s.handle uri with
      | .ok h => (.ok (some h), s)
      | .error e => (.error e, s) := by
  unfold perform Step.of
  simp only [Step.on_bind, Step.on_get, Step.on_lift, Step.on_pure]
  cases s.handle uri <;> rfl

theorem perform_replace (s : Store) (h : Handle) (text : String) (version : Int) :
    s.perform (.replace h text version) =
      match s.replace h text version with
      | .ok (h', s') => (.ok (some h'), s')
      | .error e => (.error e, s) := by
  unfold perform Step.of replace
  rw [Step.on_map, (Step.atomic_replace h text version).on_eq s]
  cases (Step.replace h text version).accepted s <;> rfl

theorem perform_remove (s : Store) (uri : Uri) :
    s.perform (.remove uri) =
      match s.remove uri with
      | .ok s' => (.ok none, s')
      | .error e => (.error e, s) := by
  unfold perform Step.of remove
  simp only [Step.on_bind, Step.on_pure]
  rw [(Step.atomic_remove uri).on_eq s]
  cases (Step.remove uri).accepted s <;> rfl

/-- An action does one of the things that actions do. -/
theorem performs_perform (s : Store) (a : Action) :
    Performs s a (s.perform a).1 (s.perform a).2 := by
  cases a with
  | add uri language version text =>
    rw [perform_add]
    cases hadd : s.add uri language version text with
    | error e => exact .refused e (by simp [Harmless, Replaces, Removes])
    | ok r => exact .added hadd
  | get uri =>
    rw [perform_get]
    cases hget : s.handle uri with
    | error e => exact .refused e (by simp [Harmless, Replaces, Removes])
    | ok h => exact .got hget
  | replace h text version =>
    rw [perform_replace]
    cases hrep : s.replace h text version with
    | error e =>
      refine .refused e ⟨by simp, fun id => ⟨?_, by simp [Removes]⟩⟩
      rintro ⟨_, _, _, ha, -, r, hr⟩
      cases ha
      cases hrep.symm.trans hr
    | ok r => exact .replaced hrep
  | remove uri =>
    rw [perform_remove]
    cases hrem : s.remove uri with
    | error e =>
      refine .refused e ⟨by simp, fun id => ⟨by simp [Replaces], ?_⟩⟩
      rintro ⟨_, ha, hid⟩
      cases ha
      unfold remove Step.accepted at hrem
      rw [Step.on_remove, hid] at hrem
      cases hrem
    | ok s' => exact .removed hrem
  | shutdown => exact .ended
  | setRoot root =>
    exact .configured (by simp [Harmless, Replaces, Removes]) (some root) s.settings
  | setSettings settings =>
    exact .configured (by simp [Harmless, Replaces, Removes]) s.root settings

/-- The step of an action is refused before it changes anything, or not at all. -/
theorem atomic_of (a : Action) : (Step.of a).Atomic := by
  cases a with
  | add uri language version text => exact (Step.atomic_add uri language version text).map some
  | get uri =>
    refine .bind Step.reads_get fun s => .bind (Step.reads_lift _) fun h => ?_
    exact (Step.certain_pure _).atomic
  | replace h text version => exact (Step.atomic_replace h text version).map some
  | remove uri => exact (Step.atomic_remove uri).bind_certain fun _ => Step.certain_pure _
  | shutdown | setRoot _ | setSettings _ =>
    exact (Step.Certain.bind (Step.certain_modify _) fun _ => Step.certain_pure _).atomic

/-- A refused action leaves the store as it was. -/
theorem perform_error {s : Store} {a : Action} {e : DocumentError}
    (h : (s.perform a).1 = .error e) : (s.perform a).2 = s :=
  atomic_of a s e h

/-- The end comes by a shutdown and by nothing else. -/
theorem isShutdown_perform (s : Store) (a : Action) :
    (s.perform a).2.isShutdown = true ↔ s.isShutdown = true ∨ a = .shutdown := by
  have hp := performs_perform s a
  generalize s.perform a = r at hp
  obtain ⟨answer, s'⟩ := r
  cases hp with
  | refused e ha => simp [ha.1]
  | added hadd =>
    obtain ⟨-, d, rfl, -⟩ := add_ok hadd
    simp
  | got hget => simp
  | replaced hrep =>
    obtain ⟨d, d', -, -, -, rfl, -⟩ := replace_ok hrep
    simp
  | removed hrem =>
    obtain ⟨id, -, rfl⟩ := remove_ok hrem
    simp
  | ended => simp
  | configured ha root settings => simp [ha.1]

/-! ## One document -/

/-- The document has the same text, version and outcome of compiling. -/
structure SameText (d d' : Document) : Prop where
  stamp : d'.stamp = d.stamp
  version : d'.version = d.version
  text : d'.text = d.text
  compiled : d'.compiled = d.compiled

theorem SameText.refl (d : Document) : SameText d d := ⟨rfl, rfl, rfl, rfl⟩

theorem SameText.trans {d d' d'' : Document} (h₁ : SameText d d') (h₂ : SameText d' d'') :
    SameText d d'' :=
  ⟨h₂.stamp.trans h₁.stamp, h₂.version.trans h₁.version, h₂.text.trans h₁.text,
    h₂.compiled.trans h₁.compiled⟩

/-- What an action does to a document: a replacement raises its stamp and version; anything else
leaves its text alone, and closing is what revokes it. -/
theorem get?_perform {s : Store} {id : DocumentId} {d : Document} (hd : s.get? id = some d)
    (a : Action) :
    ∃ d', (s.perform a).2.get? id = some d' ∧
      (Replaces id s a → d.stamp < d'.stamp ∧ d.version < d'.version) ∧
      (¬ Replaces id s a → SameText d d' ∧
        (d'.revoked = true ↔ d.revoked = true ∨ Removes id s a)) := by
  have hp := performs_perform s a
  generalize s.perform a = r at hp
  obtain ⟨answer, s'⟩ := r
  have hlt : id < s.documents.length := (List.getElem?_eq_some_iff.mp hd).1
  cases hp with
  | refused e ha =>
    exact ⟨d, hd, fun h => absurd h (ha.2 id).1, fun _ => ⟨.refl d, by simp [(ha.2 id).2]⟩⟩
  | added hadd =>
    obtain ⟨-, e, rfl, -⟩ := add_ok hadd
    refine ⟨d, ?_, by simp [Replaces], fun _ => ⟨.refl d, by simp [Removes]⟩⟩
    rw [← hd]
    exact List.getElem?_append_left hlt
  | got hget => exact ⟨d, hd, by simp [Replaces], fun _ => ⟨.refl d, by simp [Removes]⟩⟩
  | @replaced h h' text version s' hrep =>
    obtain ⟨e, e', he, hver, -, rfl, -, -, hversion, hstamp, -⟩ := replace_ok hrep
    by_cases hid : h.document = id
    · subst hid
      cases he.symm.trans hd
      refine ⟨e', List.getElem?_set_self hlt, fun _ => ⟨by omega, by omega⟩, fun hno => ?_⟩
      exact absurd ⟨h, text, version, rfl, rfl, _, hrep⟩ hno
    · refine ⟨d, ?_, ?_, fun _ => ⟨.refl d, by simp [Removes]⟩⟩
      · rw [← hd]
        exact List.getElem?_set_ne hid
      · rintro ⟨_, _, _, ha, hid', -⟩
        cases ha
        exact absurd hid' hid
  | @removed uri s' hrem =>
    obtain ⟨i, hi, rfl⟩ := remove_ok hrem
    by_cases hid : i = id
    · subst hid
      refine ⟨{ d with revoked := true }, ?_, by simp [Replaces],
        fun _ => ⟨⟨rfl, rfl, rfl, rfl⟩, by simp [Removes, hi]⟩⟩
      simp only [get?, List.getElem?_modify_eq] at hd ⊢
      rw [hd]
      rfl
    · refine ⟨d, ?_, by simp [Replaces], fun _ => ⟨.refl d, by simp [Removes, hi, hid]⟩⟩
      rw [← hd]
      exact List.getElem?_modify_ne _ _ hid
  | ended => exact ⟨d, hd, by simp [Replaces], fun _ => ⟨.refl d, by simp [Removes]⟩⟩
  | configured ha root settings =>
    exact ⟨d, hd, fun h => absurd h (ha.2 id).1, fun _ => ⟨.refl d, by simp [(ha.2 id).2]⟩⟩

/-! ## Whole histories -/

theorem isShutdown_after (s : Store) (as : List Action) :
    (s.after as).isShutdown = true ↔ s.isShutdown = true ∨ .shutdown ∈ as := by
  induction as generalizing s with
  | nil => simp [after]
  | cons a as ih =>
    rw [after, ih, isShutdown_perform, List.mem_cons, or_assoc, @eq_comm _ a]

/-- What actions do to a document: its stamp stays as long as it is not replaced, and so long its
text stays too, and it is revoked by closing it. -/
theorem get?_after {s : Store} {id : DocumentId} {d : Document} (hd : s.get? id = some d)
    (as : List Action) :
    ∃ d', (s.after as).get? id = some d' ∧
      (Happens (Replaces id) s as → d.stamp < d'.stamp) ∧
      (¬ Happens (Replaces id) s as → SameText d d' ∧
        (d'.revoked = true ↔ d.revoked = true ∨ Happens (RemovesAt id d.version) s as)) := by
  induction as generalizing s d with
  | nil => exact ⟨d, hd, False.elim, fun _ => ⟨.refl d, by simp [Happens]⟩⟩
  | cons a as ih =>
    obtain ⟨e, he, hrep, hkeep⟩ := get?_perform hd a
    obtain ⟨d', hd', hlater, hlater'⟩ := ih he
    refine ⟨d', hd', ?_, fun hno => ?_⟩
    · intro hhap
      -- A stamp never goes down, whether the first action raises it or a later one.
      have hle : e.stamp ≤ d'.stamp := by
        by_cases h : Happens (Replaces id) (s.perform a).2 as
        · exact Nat.le_of_lt (hlater h)
        · exact Nat.le_of_eq (hlater' h).1.stamp.symm
      by_cases ha : Replaces id s a
      · exact Nat.lt_of_lt_of_le (hrep ha).1 hle
      · rw [← (hkeep ha).1.stamp]
        exact hlater (hhap.resolve_left ha)
    · obtain ⟨hsame, hrev⟩ := hkeep fun h => hno (.inl h)
      obtain ⟨hsame', hrev'⟩ := hlater' fun h => hno (.inr h)
      refine ⟨hsame.trans hsame', ?_⟩
      rw [hrev', hrev, hsame.version, or_assoc, Happens]
      simp [RemovesAt, hd]

theorem happens_append {event : Store → Action → Prop} {s : Store} {as bs : List Action} :
    Happens event s (as ++ bs) ↔ Happens event s as ∨ Happens event (s.after as) bs := by
  induction as generalizing s with
  | nil => simp [Happens, after]
  | cons a as ih => rw [List.cons_append, Happens, ih, Happens, after, or_assoc]

theorem mem_of_lookup {s : Store} {uri : Uri} {id : DocumentId} (h : s.opened.lookup uri = some id) :
    (uri, id) ∈ s.opened := by
  obtain ⟨l₁, l₂, hl, -⟩ := List.lookup_eq_some_iff.mp h
  rw [hl]
  simp

/-! ## What holds on the way -/

/-- What holds of every store that actions lead to. -/
structure Sound (s : Store) : Prop where
  /-- Open documents are there under their name, and not revoked. -/
  opened : ∀ entry ∈ s.opened, ∃ d, s.get? entry.2 = some d ∧ d.uri = entry.1 ∧ d.revoked = false
  upToDate : ∀ d ∈ s.documents, d.UpToDate

/-- A new document has a name that is free, and a place of its own. -/
theorem Sound.add {s s' : Store} (hs : s.Sound) {uri : Uri} {language text : String} {version : Int}
    {h : Handle} (hadd : s.add uri language version text = .ok (h, s')) : s'.Sound := by
  obtain ⟨-, d, rfl, huri, -, -, -, hrev, hup⟩ := add_ok hadd
  constructor
  · intro entry hentry
    rcases List.mem_append.mp hentry with hold | hnew
    · obtain ⟨e, he, hrest⟩ := hs.opened entry hold
      refine ⟨e, ?_, hrest⟩
      rw [← he]
      exact List.getElem?_append_left (List.getElem?_eq_some_iff.mp he).1
    · rw [List.mem_singleton] at hnew
      subst hnew
      exact ⟨d, List.getElem?_concat_length, huri, hrev⟩
  · intro e he
    rcases List.mem_append.mp he with hold | hnew
    · exact hs.upToDate e hold
    · rw [List.mem_singleton.mp hnew]
      exact hup

/-- A replaced text keeps the name and the place of its document. -/
theorem Sound.replace {s s' : Store} (hs : s.Sound) {h h' : Handle} {text : String} {version : Int}
    (hrep : s.replace h text version = .ok (h', s')) : s'.Sound := by
  obtain ⟨d, d', hd, -, -, rfl, huri, -, -, -, hrev, hup⟩ := replace_ok hrep
  constructor
  · intro entry hentry
    obtain ⟨e, he, heuri, herev⟩ := hs.opened entry hentry
    by_cases hid : h.document = entry.2
    · rw [hid] at hd ⊢
      cases hd.symm.trans he
      exact ⟨d', List.getElem?_set_self (List.getElem?_eq_some_iff.mp hd).1, huri.trans heuri, hrev⟩
    · refine ⟨e, ?_, heuri, herev⟩
      rw [← he]
      exact List.getElem?_set_ne hid
  · intro e he
    rcases List.mem_or_eq_of_mem_set he with hold | rfl
    · exact hs.upToDate e hold
    · exact hup

/-- A removed document has no name any more. -/
theorem Sound.remove {s s' : Store} (hs : s.Sound) {uri : Uri} (hrem : s.remove uri = .ok s') :
    s'.Sound := by
  obtain ⟨id, hid, rfl⟩ := remove_ok hrem
  obtain ⟨d, hd, hduri, -⟩ := hs.opened (uri, id) (mem_of_lookup hid)
  constructor
  · intro entry hentry
    obtain ⟨hmem, hne⟩ := List.mem_filter.mp hentry
    obtain ⟨e, he, heuri, herev⟩ := hs.opened entry hmem
    refine ⟨e, ?_, heuri, herev⟩
    rw [← he]
    -- A document is open under its own name only, so another name is another document.
    apply List.getElem?_modify_ne
    rintro rfl
    cases hd.symm.trans he
    exact absurd (heuri.symm.trans hduri) (by simpa using hne)
  · intro e he
    obtain ⟨i, hi, rfl⟩ := List.getElem_of_mem he
    have hlt : i < s.documents.length := by simpa using hi
    have hold := hs.upToDate s.documents[i] (List.getElem_mem hlt)
    rw [List.getElem_modify]
    split
    · exact hold
    · exact hold

theorem Sound.perform {s : Store} (hs : s.Sound) (a : Action) : (s.perform a).2.Sound := by
  have hp := performs_perform s a
  generalize s.perform a = r at hp
  obtain ⟨answer, s'⟩ := r
  cases hp with
  | refused e ha => exact hs
  | added hadd => exact hs.add hadd
  | got hget => exact hs
  | replaced hrep => exact hs.replace hrep
  | removed hrem => exact hs.remove hrem
  | ended => exact ⟨hs.opened, hs.upToDate⟩
  | configured ha root settings => exact ⟨hs.opened, hs.upToDate⟩

theorem Sound.after {s : Store} (hs : s.Sound) (as : List Action) : (s.after as).Sound := by
  induction as generalizing s with
  | nil => exact hs
  | cons a as ih => exact ih (hs.perform a)

/-! ## Handles -/

theorem isExpired_eq_false_iff {s : Store} {h : Handle} :
    s.isExpired h = false ↔ s.isShutdown = false ∧
      ∃ d, s.get? h.document = some d ∧ d.revoked = false ∧ d.stamp = h.stamp := by
  unfold isExpired
  cases s.get? h.document <;> simp

/-- A handle is made for the text that its document has then, by an action that stores one for the
text that it stores. -/
theorem made_current {s : Store} (hs : s.Sound) {a : Action} {h : Handle}
    (hmade : (s.perform a).1 = .ok (some h)) :
    ∃ d, (s.perform a).2.get? h.document = some d ∧ d.stamp = h.stamp ∧ d.revoked = false ∧
      ∀ v text, a.stored = some (v, text) → d.version = v ∧ d.text = text := by
  have hp := performs_perform s a
  rw [hmade] at hp
  generalize (s.perform a).2 = s' at hp
  cases hp with
  | added hadd =>
    obtain ⟨rfl, d, rfl, -, htext, hver, hstamp, hrev, -⟩ := add_ok hadd
    refine ⟨d, List.getElem?_concat_length, hstamp, hrev, fun v t hst => ?_⟩
    simp only [Action.stored, Option.some.injEq, Prod.mk.injEq] at hst
    exact ⟨hver.trans hst.1, htext.trans hst.2⟩
  | @got uri _ hget =>
    unfold handle at hget
    split at hget
    · rename_i id hid
      obtain ⟨d, hd, -, hrev⟩ := hs.opened (uri, id) (mem_of_lookup hid)
      rw [hd] at hget
      cases hget
      exact ⟨d, hd, rfl, hrev, fun v t hst => by cases hst⟩
    · cases hget
  | replaced hrep =>
    obtain ⟨d, d', hd, -, rfl, rfl, -, htext, hver, hstamp, hrev, -⟩ := replace_ok hrep
    refine ⟨d', List.getElem?_set_self (List.getElem?_eq_some_iff.mp hd).1, hstamp, hrev, fun v t hst => ?_⟩
    simp only [Action.stored, Option.some.injEq, Prod.mk.injEq] at hst
    exact ⟨hver.trans hst.1, htext.trans hst.2⟩

/-- When a handle is still good. -/
theorem isExpired_after_iff {made : Store} {h : Handle} {d : Document}
    (hd : made.get? h.document = some d) (hstamp : d.stamp = h.stamp) (hrev : d.revoked = false)
    (later : List Action) :
    (made.after later).isExpired h = false ↔ made.isShutdown = false ∧ .shutdown ∉ later ∧
      ¬ Happens (Replaces h.document) made later ∧
      ¬ Happens (RemovesAt h.document d.version) made later := by
  obtain ⟨d', hd', hup, hsame⟩ := get?_after hd later
  rw [isExpired_eq_false_iff, ← Bool.not_eq_true, isShutdown_after, not_or, Bool.not_eq_true, hd',
    and_assoc]
  refine and_congr_right fun _ => and_congr_right fun _ => ?_
  by_cases hr : Happens (Replaces h.document) made later
  · have := hup hr
    simp only [Option.some.injEq, exists_eq_left', hr, not_true_eq_false, false_and, iff_false]
    omega
  · obtain ⟨hst, hrev'⟩ := hsame hr
    simp only [Option.some.injEq, exists_eq_left', hr, not_false_eq_true, true_and, hst.stamp, hstamp,
      and_true, ← Bool.not_eq_true, hrev', hrev, Bool.false_eq_true, false_or]

/-- What a good handle gives. -/
theorem document_of_good {s : Store} {h : Handle} {d : Document} (hd : s.get? h.document = some d)
    (hgood : s.isExpired h = false) : s.document h = .ok d := by
  simp [document, hd, hgood]

/-- An expired handle gives nothing. -/
theorem document_of_expired {s : Store} {h : Handle} (hexp : s.isExpired h = true) :
    s.document h = .error .expired := by
  unfold document
  cases s.get? h.document <;> simp [hexp]

/-- A store that nothing was done with. -/
def unused (disk : Disk) (load : Loader) (settings : Settings) : Store := { disk, load, settings }

theorem sound_unused (disk : Disk) (load : Loader) (settings : Settings) :
    (unused disk load settings).Sound :=
  ⟨fun _ h => by simp [unused] at h, fun _ h => by simp [unused] at h⟩

/-- The life of handles in a store that is used by any actions from the beginning. A handle that
`a` made after `before` is good after `later` unless the end has come, its document was given
another text or was closed while it had the handle's version. While it is good it gives the
version and text it was made for, and what that version was compiled to; once it has expired it
stays so and gives nothing. A text that is accepted raises the version, and an action that is
refused changes nothing. -/
theorem handle_life (disk : Disk) (load : Loader) (settings : Settings) :
    (∀ before a later h,
      (((unused disk load settings).after before).perform a).1 = .ok (some h) →
      ∃ made now d, made = (((unused disk load settings).after before).perform a).2 ∧
        now = made.after later ∧ made.get? h.document = some d ∧
        (∀ v text, a.stored = some (v, text) → d.version = v ∧ d.text = text) ∧
        (now.isExpired h = false ↔ .shutdown ∉ before ++ a :: later ∧
          ¬ Happens (Replaces h.document) made later ∧
          ¬ Happens (RemovesAt h.document d.version) made later) ∧
        (now.isExpired h = false →
          now.version h = .ok d.version ∧ now.content h = .ok d.text ∧
            ∀ c, now.compiled h = .ok c → c.version = d.version) ∧
        (now.isExpired h = true →
          (∀ more, (now.after more).isExpired h = true) ∧ now.version h = .error .expired ∧
            now.content h = .error .expired ∧ now.compiled h = .error .expired ∧
            now.diagnostics h = .error .expired)) ∧
    (∀ actions h text version r,
      ((unused disk load settings).after actions).replace h text version = .ok r →
      ∃ d d', ((unused disk load settings).after actions).get? h.document = some d ∧
        r.2.get? h.document = some d' ∧ d.version < d'.version) ∧
    (∀ actions a e, (((unused disk load settings).after actions).perform a).1 = .error e →
      (((unused disk load settings).after actions).perform a).2 =
        (unused disk load settings).after actions) := by
  refine ⟨fun before a later h hmade => ?_, fun actions h text version r hrep => ?_,
    fun actions a e he => perform_error he⟩
  · have hs := (sound_unused disk load settings).after before
    obtain ⟨d, hd, hstamp, hrev, hstored⟩ := made_current hs hmade
    have hs' := hs.perform a
    have hend : ((((unused disk load settings).after before).perform a).2.isShutdown = false ↔
        .shutdown ∉ before ++ [a]) := by
      rw [← Bool.not_eq_true, isShutdown_perform, isShutdown_after]
      simp [unused, @eq_comm _ Action.shutdown]
    refine ⟨_, _, d, rfl, rfl, hd, hstored, ?_, fun hgood => ?_, fun hexp => ⟨fun more => ?_, ?_⟩⟩
    · rw [isExpired_after_iff hd hstamp hrev later, hend]
      simp only [List.mem_append, List.mem_cons, List.not_mem_nil, or_false, not_or]
      tauto
    · -- A good handle's document was not replaced, so it still has the text it had.
      obtain ⟨-, -, hrep, -⟩ := (isExpired_after_iff hd hstamp hrev later).mp hgood
      obtain ⟨d', hd', -, hsame⟩ := get?_after hd later
      obtain ⟨hst, -⟩ := hsame hrep
      have hdoc := document_of_good hd' hgood
      simp only [Store.version, content, compiled, hdoc, bind, Except.bind, pure, Except.pure,
        hst.version, hst.text, true_and]
      intro c hc
      split at hc
      · rename_i c' hc'
        cases hc
        rw [← hst.version]
        exact (hs'.after later).upToDate d' (List.mem_of_getElem? hd') c hc'
      · cases hc
    · -- Were it good again, nothing would have ended it before either.
      rw [← Bool.not_eq_false] at hexp ⊢
      intro hgood
      rw [← after_append] at hgood
      rw [isExpired_after_iff hd hstamp hrev] at hexp hgood
      rw [happens_append, happens_append, List.mem_append, not_or, not_or, not_or] at hgood
      exact hexp ⟨hgood.1, hgood.2.1.1, hgood.2.2.1.1, hgood.2.2.2.1⟩
    · have hdoc := document_of_expired hexp
      simp only [Store.version, content, compiled, diagnostics, hdoc, bind, Except.bind, and_self]
  · obtain ⟨h', s'⟩ := r
    obtain ⟨d, d', hd, hlt, -, rfl, -, -, hver, -⟩ := replace_ok hrep
    refine ⟨d, d', hd, List.getElem?_set_self (List.getElem?_eq_some_iff.mp hd).1, ?_⟩
    rw [hver]
    exact hlt

/-- The handle of a document that was opened, closed, and given another text through that very
handle: it has expired, and its document lives on. -/
theorem handle_life_closed :
    (((unused {} Workspace.load {}).after []).perform
        (.add ⟨"file", none, "/a", none, none⟩ "text" 1 "a")).1 = .ok (some ⟨0, 0⟩) ∧
      (((unused {} Workspace.load {}).perform
        (.add ⟨"file", none, "/a", none, none⟩ "text" 1 "a")).2.after
        [.remove ⟨"file", none, "/a", none, none⟩, .replace ⟨0, 0⟩ "b" 2]).content ⟨0, 0⟩ =
          .error .expired := by
  have hmade : (((unused {} Workspace.load {}).after []).perform
      (.add ⟨"file", none, "/a", none, none⟩ "text" 1 "a")).1 = .ok (some ⟨0, 0⟩) := rfl
  obtain ⟨made, now, d, rfl, rfl, -, -, -, -, hexpired⟩ :=
    (handle_life {} Workspace.load {}).1 [] (.add ⟨"file", none, "/a", none, none⟩ "text" 1 "a")
      [.remove ⟨"file", none, "/a", none, none⟩, .replace ⟨0, 0⟩ "b" 2] ⟨0, 0⟩ hmade
  exact ⟨hmade, (hexpired rfl).2.2.1⟩

end Store

end CueScope
