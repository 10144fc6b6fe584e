import CueScope.Proofs.Editor.History
import CueScope.Session
import Mathlib.Data.List.Nodup

/-!
# What an editor shows

A list of diagnostics stays on display until another one is published for the same document. A
compilation reports on all files of a package and of those it imports, so that the documents with
diagnostics change from one text to the next.

* `Diagnostics.Proper`: diagnostics are listed once for each document, and no list is empty.
* `Steps`: all that a message can do to a session.
* `foldl_publications`: after a text was stored, its own diagnostics are on display in the document
  itself and in all documents that it reports on. Elsewhere nothing changes.
* `shown_iff`: so the diagnostics of the present text are what is on display exactly if each of the
  other documents that were ever reported on is reported on now, and nothing is on display after
  closing exactly if no other document was ever reported on.
-/

namespace CueScope

/-! ## Diagnostics by document -/

namespace Diagnostics

/-- Every document is listed once, with some diagnostics. -/
structure Proper (ds : Diagnostics) : Prop where
  nodup : (ds.map (·.1)).Nodup
  some : ∀ e ∈ ds, e.2 ≠ []

theorem mem_keys_insert {ds : Diagnostics} {uri u : Uri} {d : Diagnostic} :
    u ∈ (ds.insert uri d).map (·.1) ↔ u = uri ∨ u ∈ ds.map (·.1) := by
  induction ds with
  | nil => simp [insert]
  | cons e rest ih =>
    rw [insert]
    by_cases he : e.1 = uri
    · rw [if_pos he]
      simp only [List.map_cons, List.mem_cons, he]
      tauto
    · rw [if_neg he, List.map_cons, List.mem_cons, ih, List.map_cons, List.mem_cons]
      tauto

/-- Inserting a diagnostic keeps the names apart and no list empty. -/
theorem Proper.insert {ds : Diagnostics} (h : ds.Proper) (uri : Uri) (d : Diagnostic) :
    (ds.insert uri d).Proper := by
  induction ds with
  | nil => exact ⟨by simp [Diagnostics.insert], by simp [Diagnostics.insert]⟩
  | cons e rest ih =>
    obtain ⟨hfirst, hnodup⟩ := List.nodup_cons.1 h.nodup
    have hrest : Proper rest := ⟨hnodup, fun e he => h.some e (List.mem_cons_of_mem _ he)⟩
    rw [Diagnostics.insert]
    by_cases he : e.1 = uri
    · rw [if_pos he]
      refine ⟨h.nodup, fun e' he' => ?_⟩
      rcases List.mem_cons.1 he' with rfl | he'
      · simp
      · exact hrest.some e' he'
    · rw [if_neg he]
      obtain ⟨hnodup', hsome'⟩ := ih hrest
      refine ⟨List.nodup_cons.2 ⟨?_, hnodup'⟩, fun e' he' => ?_⟩
      · rw [mem_keys_insert, not_or]
        exact ⟨he, hfirst⟩
      · rcases List.mem_cons.1 he' with rfl | he'
        · exact h.some _ List.mem_cons_self
        · exact hsome' e' he'

/-- A document is listed if it is reported on. -/
theorem Proper.lookup_isSome {ds : Diagnostics} (h : ds.Proper) (uri : Uri) :
    (ds.lookup uri).isSome ↔ ds.of uri ≠ [] := by
  unfold Diagnostics.of
  cases hl : ds.lookup uri with
  | none => simp
  | some l =>
    obtain ⟨l₁, l₂, hsplit, -⟩ := List.lookup_eq_some_iff.1 hl
    simpa using h.some (uri, l) (by simp [hsplit])

end Diagnostics

/-- The diagnostics of a compilation are listed by name, each name once. -/
theorem Compilation.diagnostics_proper (c : Compilation) (uri : Uri) (path : Path) :
    (c.diagnostics uri path).Proper := by
  unfold diagnostics
  have hfold : ∀ (ps : List Problem) {ds : Diagnostics}, ds.Proper →
      (ps.foldl (fun ds p => ds.insert (c.graph.diagnose uri path p).1
        (c.graph.diagnose uri path p).2) ds).Proper := by
    intro ps
    induction ps with
    | nil => exact fun h => h
    | cons p ps ih => exact fun h => ih (h.insert _ _)
  exact hfold c.problems ⟨.nil, fun _ he => by cases he⟩

theorem Store.compile_proper (s : Store) (d : Document) : (s.compile d).diagnostics.Proper := by
  unfold compile
  split
  · split
    · exact Compilation.diagnostics_proper _ _ _
    · exact Compilation.diagnostics_proper _ _ _
  · exact ⟨.nil, fun _ he => by cases he⟩

/-! ## Notes -/

/-- The diagnostics of a document that are on display after a note, if `old` were before. -/
def Note.display (uri : Uri) (old : List Diagnostic) : Note → List Diagnostic
  | .publish u _ ds => if u = uri then ds else old
  | .showMessage .. | .logMessage .. => old

namespace Session

/-- The diagnostics of a document that are on display after notes. -/
def shown (notes : List Note) (uri : Uri) : List Diagnostic := notes.foldl (Note.display uri) []

/-- Publishing the text of a document puts its diagnostics on display, in the document itself and
where it reports something. -/
theorem foldl_publications {d : Document} (h : d.diagnostics.Proper) (uri : Uri)
    (old : List Diagnostic) :
    (publications d).foldl (Note.display uri) old =
      if uri = d.uri ∨ d.diagnostics.of uri ≠ [] then d.diagnostics.of uri else old := by
  -- what is published of listed documents, each of which is listed once
  have hlisted : ∀ (ds : Diagnostics) (old : List Diagnostic), (ds.map (·.1)).Nodup →
      (ds.map fun e => Note.publish e.1 (if e.1 = d.uri then some d.version else none) e.2).foldl
        (Note.display uri) old = (ds.lookup uri).getD old := by
    intro ds
    induction ds with
    | nil => exact fun _ _ => rfl
    | cons e rest ih =>
      intro old hnodup
      obtain ⟨hfirst, hrest⟩ := List.nodup_cons.1 hnodup
      rw [List.map_cons, List.foldl_cons, ih _ hrest, Note.display, List.lookup_cons]
      by_cases he : e.1 = uri
      · have hnone : rest.lookup uri = none := by
          rw [List.lookup_eq_none_iff]
          intro e' he'
          simpa using fun heq : uri = e'.1 =>
            hfirst (List.mem_map.2 ⟨e', he', heq.symm.trans he.symm⟩)
        simp [he, hnone]
      · have hne : (uri == e.1) = false := by simpa using Ne.symm he
        simp [he, hne]
  have hown := h.lookup_isSome uri
  unfold publications
  simp only [List.foldl_append, hlisted d.diagnostics _ h.nodup]
  cases hl : d.diagnostics.lookup uri with
  | some l =>
    rw [hl] at hown
    rw [if_pos (Or.inr (hown.1 rfl)), Diagnostics.of, hl]
    rfl
  | none =>
    have hnil : d.diagnostics.of uri = [] := by rw [Diagnostics.of, hl, Option.getD_none]
    rw [hnil, Option.getD_none]
    by_cases hu : uri = d.uri
    · subst hu
      simp [hl, Note.display]
    · have hu' : d.uri ≠ uri := Ne.symm hu
      split <;> simp [hu, hu', Note.display]

/-! ## Messages -/

/-- The session after messages. -/
def after (s : Session) : List Message → Session
  | [] => s
  | m :: ms => (s.step m).2.after ms

/-- What is sent to the editor in the course of messages. -/
def notes (s : Session) : List Message → List Note
  | [] => []
  | m :: ms => (s.step m).1.notes ++ (s.step m).2.notes ms

/-- The message opens or changes a document; the handle stands for the text that it gets. -/
inductive Stores (s : Session) : Message → Handle → Store → Prop
  | opened {uri : Uri} {language text : String} {version : Int} {h : Handle} {t : Store}
      (hrun : s.phase = .running) (hadd : s.store.add uri language version text = .ok (h, t)) :
      Stores s (.didOpen uri language version text) h t
  | changed {uri : Uri} {version : Int} {edits : List Edit} {h : Handle} {t : Store}
      (hrun : s.phase = .running) (hchange : s.store.change uri edits version = .ok (h, t)) :
      Stores s (.didChange uri version edits) h t

/-- The message closes a document. -/
inductive Closes (s : Session) : Message → Uri → Store → Prop
  | closed {uri : Uri} {t : Store} (hrun : s.phase = .running) (hrem : s.store.remove uri = .ok t) :
      Closes s (.didClose uri) uri t

/-- One of the messages gives a document a text that leads to diagnostics in `uri`. -/
def Reports (uri : Uri) (s : Session) : List Message → Prop
  | [] => False
  | m :: ms =>
    (∃ h t d, Stores s m h t ∧ t.get? h.document = some d ∧ d.diagnostics.of uri ≠ []) ∨
      Reports uri (s.step m).2 ms

/-- All that a message can do. -/
inductive Steps (s : Session) : Message → List Note → Session → Prop
  | stored {m : Message} {h : Handle} {t : Store} (hst : Stores s m h t) :
      Steps s m (publish t h) ⟨.running, t⟩
  | closed {m : Message} {uri : Uri} {t : Store} (hcl : Closes s m uri t) :
      Steps s m [.publish uri none []] ⟨.running, t⟩
  | entered {m : Message} (hwait : s.phase = .waiting) (root : Option Path) :
      Steps s m [] ⟨.running, enter s.store root⟩
  | ended (hrun : s.phase = .running) : Steps s .shutdown [] ⟨.ended, s.store.shutdown⟩
  | idle {m : Message} {notes : List Note} (hno : ∀ h t, ¬ Stores s m h t)
      (hnotes : ∀ uri old, notes.foldl (Note.display uri) old = old) : Steps s m notes s

theorem handle_didOpen (s : Store) (uri : Uri) (language : String) (version : Int)
    (text : String) :
    handle s (.didOpen uri language version text) =
      match s.add uri language version text with
      | .ok (h, t) => ({ notes := publish t h }, t)
      | .error e => ({ notes := [.showMessage .error e.message] }, s) := by
  unfold handle Store.add
  dsimp only
  rw [(Store.Step.atomic_add uri language version text).on_eq s]
  cases (Store.Step.add uri language version text).accepted s <;> rfl

theorem handle_didChange (s : Store) (uri : Uri) (version : Int) (edits : List Edit) :
    handle s (.didChange uri version edits) =
      match s.change uri edits version with
      | .ok (h, t) => ({ notes := publish t h }, t)
      | .error _ => ({}, s) := by
  unfold handle Store.change
  dsimp only
  rw [(Store.Step.atomic_change uri edits version).on_eq s]
  cases (Store.Step.change uri edits version).accepted s <;> rfl

theorem handle_didClose (s : Store) (uri : Uri) :
    handle s (.didClose uri) =
      match s.remove uri with
      | .ok t => ({ notes := [.publish uri none []] }, t)
      | .error _ => ({}, s) := by
  unfold handle Store.remove
  dsimp only
  rw [(Store.Step.atomic_remove uri).on_eq s]
  cases (Store.Step.remove uri).accepted s <;> rfl

theorem step_of_stores {s : Session} {m : Message} {h : Handle} {t : Store}
    (hst : Stores s m h t) : s.step m = ({ notes := publish t h }, ⟨.running, t⟩) := by
  obtain ⟨phase, store⟩ := s
  cases hst with
  | opened hrun hadd =>
    cases hrun
    simp only at hadd
    simp [step, handle_didOpen, hadd]
  | changed hrun hchange =>
    cases hrun
    simp only at hchange
    simp [step, handle_didChange, hchange]

theorem step_of_closes {s : Session} {m : Message} {uri : Uri} {t : Store}
    (hcl : Closes s m uri t) : s.step m = ({ notes := [.publish uri none []] }, ⟨.running, t⟩) := by
  obtain ⟨phase, store⟩ := s
  obtain ⟨hrun, hrem⟩ := hcl
  cases hrun
  simp only at hrem
  simp [step, handle_didClose, hrem]

theorem Stores.running {s : Session} {m : Message} {h : Handle} {t : Store} (hst : Stores s m h t) :
    s.phase = .running := by
  cases hst <;> assumption

/-- Case by case on the phase and the message: what a step publishes and where it leads. -/
theorem steps_step (s : Session) (m : Message) : Steps s m (s.step m).1.notes (s.step m).2 := by
  obtain ⟨phase, store⟩ := s
  cases phase with
  | waiting =>
    cases m with
    | handshake root folders => exact .entered rfl _
    | _ => exact .idle (fun _ _ hst => by cases hst.running) fun _ _ => rfl
  | ended =>
    refine .idle (fun _ _ hst => by cases hst.running) fun _ _ => ?_
    cases m <;> rfl
  | running =>
    cases m with
    | didOpen uri language version text =>
      cases hadd : store.add uri language version text with
      | ok r =>
        have hst : Stores ⟨.running, store⟩ _ r.1 r.2 := .opened rfl hadd
        rw [step_of_stores hst]
        exact .stored hst
      | error e =>
        simp only [step, handle_didOpen, hadd]
        refine .idle (fun h t hst => ?_) fun _ _ => rfl
        cases hst with
        | opened _ h => cases hadd.symm.trans h
    | didChange uri version edits =>
      cases hchange : store.change uri edits version with
      | ok r =>
        have hst : Stores ⟨.running, store⟩ _ r.1 r.2 := .changed rfl hchange
        rw [step_of_stores hst]
        exact .stored hst
      | error e =>
        simp only [step, handle_didChange, hchange]
        refine .idle (fun h t hst => ?_) fun _ _ => rfl
        cases hst with
        | changed _ h => cases hchange.symm.trans h
    | didClose uri =>
      cases hrem : store.remove uri with
      | ok t =>
        have hcl : Closes ⟨.running, store⟩ _ uri t := .closed rfl hrem
        rw [step_of_closes hcl]
        exact .closed hcl
      | error e =>
        simp only [step, handle_didClose, hrem]
        exact .idle (fun _ _ hst => by cases hst) fun _ _ => rfl
    | shutdown => exact .ended rfl
    | _ => exact .idle (fun _ _ hst => by cases hst) fun _ _ => rfl

/-! ## Sessions with one document -/

/-- What holds of every session in which only `own` is ever opened. -/
structure Single (own : Uri) (s : Session) : Prop where
  sound : s.store.Sound
  opened : ∀ e ∈ s.store.opened, e.1 = own
  live : s.phase ≠ .ended → s.store.isShutdown = false

end Session

namespace Store

/-- A change is a replacement through the handle of the open document. -/
theorem change_ok {s t : Store} {uri : Uri} {edits : List Edit} {version : Int} {h : Handle}
    (hchange : s.change uri edits version = .ok (h, t)) :
    ∃ id d text, s.opened.lookup uri = some id ∧ s.get? id = some d ∧
      s.replace ⟨id, d.stamp⟩ text version = .ok (h, t) := by
  have hon := Step.accepted_eq_ok_iff.1 hchange
  simp only [Step.change, Step.on_bind_eq_ok, Step.on_get, Step.on_lift, Prod.mk.injEq,
    Except.ok.injEq] at hon
  obtain ⟨_, _, ⟨rfl, rfl⟩, old, _, ⟨hold, rfl⟩, text, _, ⟨-, rfl⟩, hon⟩ := hon
  have hrep : s.replace old text version = .ok (h, t) := Step.accepted_eq_ok_iff.2 hon
  unfold handle at hold
  split at hold
  · rename_i id hid
    cases hold
    obtain ⟨d, hd, -⟩ := replace_eq hrep
    dsimp only at hd
    rw [hd] at hrep
    exact ⟨id, d, text, hid, hd, hrep⟩
  · cases hold

end Store

namespace Session

variable {s : Session} {own : Uri} {m : Message} {ms : List Message} {h : Handle} {t : Store}

/-- The diagnostics of a document that was just compiled are published. -/
theorem publish_recompile {s : Store} {h : Handle} {d : Document} (hlive : s.isShutdown = false)
    (hd : s.get? h.document = some d) (huri : d.uri = own) (hrev : d.revoked = false)
    (hstamp : d.stamp = h.stamp) :
    ∃ d', (s.recompile h.document).get? h.document = some d' ∧ d'.uri = own ∧
      d'.diagnostics.Proper ∧ ((s.recompile h.document).settings.diagnostics = true →
        publish (s.recompile h.document) h = publications d') := by
  have hget : (s.recompile h.document).get? h.document = some (s.compile d) := by
    rw [Store.get?_recompile, hd]
    simp
  obtain ⟨_, _, he, -⟩ := Store.compile_eq s d
  refine ⟨s.compile d, hget, by rw [he, huri], Store.compile_proper s d, fun hdiag => ?_⟩
  have hgood : (s.recompile h.document).isExpired h = false :=
    Store.isExpired_eq_false_iff.2 ⟨hlive, _, hget, by rw [he, hrev], by rw [he, hstamp]⟩
  rw [publish, Store.document_of_good hget hgood]
  simp [hdiag]

/-- Only `own` is opened by the messages. -/
def OpensOnly (own : Uri) (ms : List Message) : Prop :=
  ∀ uri language version text, .didOpen uri language version text ∈ ms → uri = own

/-- A text that is stored is that of the one document, and its diagnostics are published. -/
theorem Single.stores (hs : s.Single own) (hone : OpensOnly own [m]) (hst : Stores s m h t) :
    Single own ⟨.running, t⟩ ∧ t.settings = s.store.settings ∧
      ∃ d, t.get? h.document = some d ∧ d.uri = own ∧ d.diagnostics.Proper ∧
        (t.settings.diagnostics = true → publish t h = publications d) := by
  have hlive : s.store.isShutdown = false := hs.live (by simp [hst.running])
  cases hst with
  | @opened uri language text version h t hrun hadd =>
    have huri : uri = own := hone uri language version text (List.mem_singleton_self _)
    have hsound := hs.sound.add hadd
    obtain ⟨-, rfl, rfl⟩ := Store.add_eq hadd
    refine ⟨⟨hsound, fun e he => ?_, fun _ => hlive⟩, rfl, ?_⟩
    · rcases List.mem_append.1 he with he | he
      · exact hs.opened e he
      · rw [List.mem_singleton.1 he]
        exact huri
    · exact publish_recompile (h := ⟨_, 0⟩) hlive List.getElem?_concat_length huri rfl rfl
  | @changed uri version edits h t hrun hchange =>
    obtain ⟨id, d, text, hid, hd, hrep⟩ := Store.change_ok hchange
    have hsound := hs.sound.replace hrep
    obtain ⟨d₁, hd₁, -, rfl, rfl⟩ := Store.replace_eq hrep
    obtain ⟨d₂, hd₂, huri, -⟩ := hs.sound.opened _ (Store.mem_of_lookup hid)
    cases hd₁.symm.trans hd₂
    refine ⟨⟨hsound, hs.opened, fun _ => hlive⟩, rfl, ?_⟩
    exact publish_recompile (h := ⟨id, d₁.stamp + 1⟩) hlive
      (List.getElem?_set_self (List.getElem?_eq_some_iff.1 hd₁).1)
      (huri.trans (hs.opened _ (Store.mem_of_lookup hid))) rfl rfl

/-- A step keeps a session with a single document to that document. -/
theorem Single.step (hs : s.Single own) (hone : OpensOnly own [m]) : Single own (s.step m).2 := by
  have hp := steps_step s m
  generalize (s.step m).1.notes = notes at hp
  generalize (s.step m).2 = s' at hp ⊢
  cases hp with
  | stored hst => exact (hs.stores hone hst).1
  | closed hcl =>
    obtain ⟨hrun, hrem⟩ := hcl
    have hsound := hs.sound.remove hrem
    obtain ⟨id, -, rfl⟩ := Store.remove_ok hrem
    exact ⟨hsound, fun e he => hs.opened e (List.mem_filter.1 he).1,
      fun _ => hs.live (by simp [hrun])⟩
  | entered hwait root =>
    have hlive := hs.live (by simp [hwait])
    cases root with
    | none => exact ⟨hs.sound, hs.opened, fun _ => hlive⟩
    | some root => exact ⟨⟨hs.sound.opened, hs.sound.upToDate⟩, hs.opened, fun _ => hlive⟩
  | ended hrun =>
    exact ⟨⟨hs.sound.opened, hs.sound.upToDate⟩, hs.opened, fun h => absurd rfl h⟩
  | idle hno hnotes => exact hs

/-- Settings are read once, in the handshake. -/
theorem settings_step (hs : s.Single own) (hone : OpensOnly own [m]) (hphase : s.phase ≠ .waiting) :
    (s.step m).2.phase ≠ .waiting ∧ (s.step m).2.store.settings = s.store.settings := by
  have hp := steps_step s m
  generalize (s.step m).1.notes = notes at hp
  generalize (s.step m).2 = s' at hp ⊢
  cases hp with
  | stored hst => exact ⟨by simp, (hs.stores hone hst).2.1⟩
  | closed hcl =>
    obtain ⟨hrun, hrem⟩ := hcl
    obtain ⟨id, -, rfl⟩ := Store.remove_ok hrem
    exact ⟨by simp, rfl⟩
  | entered hwait root => exact absurd hwait hphase
  | ended hrun => exact ⟨by simp, rfl⟩
  | idle hno hnotes => exact ⟨hphase, rfl⟩

/-- Once the session has begun, its settings stay. -/
theorem settings_after (hs : s.Single own) (hone : OpensOnly own ms) (hphase : s.phase ≠ .waiting) :
    (s.after ms).store.settings = s.store.settings := by
  induction ms generalizing s with
  | nil => rfl
  | cons m ms ih =>
    have hone₁ : OpensOnly own [m] := fun u l v x hm =>
      hone u l v x (List.mem_singleton.1 hm ▸ List.mem_cons_self)
    obtain ⟨hphase', hsettings⟩ := settings_step hs hone₁ hphase
    have hone₂ : OpensOnly own ms := fun u l v x hm => hone u l v x (List.mem_cons_of_mem _ hm)
    rw [after, ih (hs.step hone₁) hone₂ hphase', hsettings]

/-! ## What is on display -/

theorem Stores.unique {h' : Handle} {t' : Store} (hst : Stores s m h t) (hst' : Stores s m h' t') :
    h' = h ∧ t' = t := by
  cases hst with
  | opened hrun hadd =>
    cases hst' with
    | opened _ hadd' => exact Prod.mk.inj (Except.ok.inj (hadd'.symm.trans hadd))
  | changed hrun hchange =>
    cases hst' with
    | changed _ hchange' => exact Prod.mk.inj (Except.ok.inj (hchange'.symm.trans hchange))

/-- What a message puts on display in another document: diagnostics of a text that it stores. -/
theorem display_step (hs : s.Single own) (hone : OpensOnly own [m])
    (hdiag : (s.step m).2.phase = .waiting ∨ (s.step m).2.store.settings.diagnostics = true)
    {uri : Uri} (huri : uri ≠ own) (old : List Diagnostic) :
    (s.step m).1.notes.foldl (Note.display uri) old ≠ [] ↔ old ≠ [] ∨
      ∃ h t d, Stores s m h t ∧ t.get? h.document = some d ∧ d.diagnostics.of uri ≠ [] := by
  have hp := steps_step s m
  generalize (s.step m).1.notes = notes at hp ⊢
  generalize (s.step m).2 = s' at hp hdiag
  have hnone : (∀ h t, ¬ Stores s m h t) → (old ≠ [] ↔ old ≠ [] ∨
      ∃ h t d, Stores s m h t ∧ t.get? h.document = some d ∧ d.diagnostics.of uri ≠ []) := by
    intro hno
    refine ⟨.inl, fun h => h.resolve_right ?_⟩
    rintro ⟨h, t, _, hst, -⟩
    exact hno h t hst
  cases hp with
  | stored hst =>
    obtain ⟨-, -, d, hd, hown, hproper, hpublish⟩ := hs.stores hone hst
    rw [hpublish (hdiag.resolve_left (by simp)), foldl_publications hproper, hown]
    have hreport : (∃ h t d, Stores s m h t ∧ t.get? h.document = some d ∧
        d.diagnostics.of uri ≠ []) ↔ d.diagnostics.of uri ≠ [] := by
      refine ⟨?_, fun hof => ⟨_, _, d, hst, hd, hof⟩⟩
      rintro ⟨h', t', d', hst', hd', hof⟩
      obtain ⟨rfl, rfl⟩ := hst.unique hst'
      cases hd.symm.trans hd'
      exact hof
    rw [hreport]
    by_cases hof : d.diagnostics.of uri = [] <;> simp [hof, huri]
  | closed hcl =>
    obtain ⟨hrun, hrem⟩ := hcl
    obtain ⟨id, hid, -⟩ := Store.remove_ok hrem
    have hown := hs.opened _ (Store.mem_of_lookup hid)
    rw [List.foldl_cons, List.foldl_nil, Note.display, if_neg fun h => huri (h.symm.trans hown)]
    exact hnone fun _ _ hst => by cases hst
  | entered hwait root => exact hnone fun _ _ hst => by cases hwait.symm.trans hst.running
  | ended hrun => exact hnone fun _ _ hst => by cases hst
  | idle hno hnotes =>
    rw [hnotes]
    exact hnone hno

/-- Another document has diagnostics on display once it was reported on. -/
theorem display_notes (hs : s.Single own) (hone : OpensOnly own ms)
    (hdiag : (s.after ms).store.settings.diagnostics = true) {uri : Uri} (huri : uri ≠ own)
    (old : List Diagnostic) :
    (s.notes ms).foldl (Note.display uri) old ≠ [] ↔ old ≠ [] ∨ Reports uri s ms := by
  induction ms generalizing s old with
  | nil => simp [notes, Reports]
  | cons m ms ih =>
    have hone₁ : OpensOnly own [m] := fun u l v x hm =>
      hone u l v x (List.mem_singleton.1 hm ▸ List.mem_cons_self)
    have hone₂ : OpensOnly own ms := fun u l v x hm => hone u l v x (List.mem_cons_of_mem _ hm)
    have hs' := hs.step hone₁
    have hdiag' : (s.step m).2.phase = .waiting ∨
        (s.step m).2.store.settings.diagnostics = true := by
      by_cases hphase : (s.step m).2.phase = .waiting
      · exact .inl hphase
      · rw [after, settings_after hs' hone₂ hphase] at hdiag
        exact .inr hdiag
    rw [notes, List.foldl_append, ih hs' hone₂ hdiag, display_step hs hone₁ hdiag' huri, Reports,
      or_assoc]

theorem after_concat (s : Session) (ms : List Message) (m : Message) :
    s.after (ms ++ [m]) = ((s.after ms).step m).2 := by
  induction ms generalizing s with
  | nil => rfl
  | cons a ms ih => exact ih _

theorem notes_concat (s : Session) (ms : List Message) (m : Message) :
    s.notes (ms ++ [m]) = s.notes ms ++ ((s.after ms).step m).1.notes := by
  induction ms generalizing s with
  | nil => simp [notes, after]
  | cons a ms ih => rw [List.cons_append, notes, ih, notes, after, List.append_assoc]

theorem Single.after (hs : s.Single own) (hone : OpensOnly own ms) : Single own (s.after ms) := by
  induction ms generalizing s with
  | nil => exact hs
  | cons m ms ih =>
    exact ih (hs.step fun u l v x hm => hone u l v x (List.mem_singleton.1 hm ▸ List.mem_cons_self))
      fun u l v x hm => hone u l v x (List.mem_cons_of_mem _ hm)

/-- A session before its first message. -/
def start (disk : Disk) : Session := { store := .unused disk Workspace.load {} }

/-- What is on display in a session in which only `own` is ever opened. After `own` got a text, the
diagnostics of that text are what is on display for every document exactly if each other document
that an earlier text reported on is reported on again. After `own` was closed, nothing is on
display exactly if no text ever reported on another document. -/
theorem shown_iff (disk : Disk) (own : Uri) (ms : List Message) (m : Message)
    (hone : OpensOnly own (ms ++ [m]))
    (hdiag : ((start disk).after (ms ++ [m])).store.settings.diagnostics = true) :
    (∀ h t, Stores ((start disk).after ms) m h t → ∃ d, t.get? h.document = some d ∧
      ((∀ u, shown ((start disk).notes (ms ++ [m])) u = d.diagnostics.of u) ↔
        ∀ u, u ≠ own → Reports u (start disk) ms → d.diagnostics.of u ≠ [])) ∧
    (∀ t, Closes ((start disk).after ms) m own t →
      ((∀ u, shown ((start disk).notes (ms ++ [m])) u = []) ↔
        ∀ u, u ≠ own → ¬ Reports u (start disk) ms)) := by
  have hone₁ : OpensOnly own ms := fun u l v x hm =>
    hone u l v x (List.mem_append.2 (.inl hm))
  have hone₂ : OpensOnly own [m] := fun u l v x hm =>
    hone u l v x (List.mem_append.2 (.inr hm))
  have hstart : (start disk).Single own :=
    ⟨Store.sound_unused disk _ _, (fun e he => by cases he), fun _ => rfl⟩
  have hs := hstart.after hone₁
  rw [after_concat] at hdiag
  -- what was on display in other documents before the last message
  have hbefore : (((start disk).after ms).phase = .running) → ∀ u, u ≠ own →
      (shown ((start disk).notes ms) u ≠ [] ↔ Reports u (start disk) ms) := by
    intro hrun u hu
    have hsettings := (settings_step hs hone₂ (by simp [hrun])).2
    rw [shown, display_notes hstart hone₁ (hsettings ▸ hdiag) hu]
    simp
  have hshown : ∀ u, shown ((start disk).notes (ms ++ [m])) u =
      (((start disk).after ms).step m).1.notes.foldl (Note.display u)
        (shown ((start disk).notes ms) u) := by
    intro u
    rw [notes_concat, shown, List.foldl_append]
    rfl
  constructor
  · intro h t hst
    obtain ⟨-, -, d, hd, hown, hproper, hpublish⟩ := hs.stores hone₂ hst
    have hstep := step_of_stores hst
    rw [hstep] at hdiag hshown
    dsimp only at hdiag hshown
    refine ⟨d, hd, ?_⟩
    simp only [hshown, hpublish hdiag, foldl_publications hproper, hown]
    constructor
    · intro hall u hu hrep hnil
      have := hall u
      rw [if_neg (by simp [hu, hnil]), hnil] at this
      exact (hbefore hst.running u hu).2 hrep this
    · intro hall u
      by_cases hu : u = own ∨ d.diagnostics.of u ≠ []
      · rw [if_pos hu]
      · rw [if_neg hu]
        obtain ⟨hne, hnil⟩ := not_or.1 hu
        rw [not_not.1 hnil]
        by_contra hold
        exact hnil (hall u hne ((hbefore hst.running u hne).1 hold))
  · intro t hcl
    have hrun : ((start disk).after ms).phase = .running := by
      cases hcl
      assumption
    rw [step_of_closes hcl] at hshown
    simp only [hshown, List.foldl_cons, List.foldl_nil, Note.display]
    constructor
    · intro hall u hu hrep
      have := hall u
      rw [if_neg (Ne.symm hu)] at this
      exact (hbefore hrun u hu).2 hrep this
    · intro hall u
      by_cases hu : u = own
      · rw [if_pos hu.symm]
      · rw [if_neg (Ne.symm hu)]
        by_contra hold
        exact hall u hu ((hbefore hrun u hu).1 hold)

/-- A disk with a module, in which a package refers to what it does not declare. -/
def faultyImport : Disk := .ofLists
  [([Text.toBytes "m", Text.toBytes "cue.mod", Text.toBytes "module.cue"], some "module: \"m\""),
    ([Text.toBytes "m", Text.toBytes "b", Text.toBytes "b.cue"], some "x: y")] []

/-- A document is opened that imports the package. -/
def importing : List Message :=
  [.handshake none [], .didOpen (.file "/m/a.cue") "cue" 1 "import \"m/b\""]

/-- The problem of the package stays on display when the document is closed. -/
theorem shown_iff_importing :
    ¬ ∀ u, shown ((start faultyImport).notes (importing ++ [.didClose (.file "/m/a.cue")])) u = [] := by
  have hone : OpensOnly (.file "/m/a.cue") (importing ++ [.didClose (.file "/m/a.cue")]) := by
    intro u l v x hm
    simp only [importing, List.cons_append, List.nil_append, List.mem_cons, List.not_mem_nil,
      Message.didOpen.injEq, reduceCtorEq, or_false, false_or] at hm
    exact hm.1
  have hreports : Reports (.file "/m/b/b.cue") (start faultyImport) importing :=
    .inr (.inl ⟨⟨0, 0⟩, _, _, .opened rfl rfl, rfl, by decide +kernel⟩)
  intro hall
  exact ((shown_iff faultyImport _ importing _ hone rfl).2 _ (.closed rfl rfl)).1 hall
    (.file "/m/b/b.cue") (by decide) hreports

/-- It also stays there when the document gets a text without the import, which reports nothing,
and when it is closed after that. -/
theorem faultyImport_stale :
    ∃ h t d, Stores ((start faultyImport).after importing)
        (.didChange (.file "/m/a.cue") 2 [⟨none, ""⟩]) h t ∧ t.get? h.document = some d ∧
      d.diagnostics.of (.file "/m/b/b.cue") = [] ∧
      shown ((start faultyImport).notes
          (importing ++ [.didChange (.file "/m/a.cue") 2 [⟨none, ""⟩]])) (.file "/m/b/b.cue") =
        [⟨⟨⟨0, 3⟩, ⟨0, 4⟩⟩, "unresolved reference y"⟩] ∧
      shown ((start faultyImport).notes
          (importing ++ [.didChange (.file "/m/a.cue") 2 [⟨none, ""⟩],
            .didClose (.file "/m/a.cue")])) (.file "/m/b/b.cue") =
        [⟨⟨⟨0, 3⟩, ⟨0, 4⟩⟩, "unresolved reference y"⟩] := by
  have hok : (((start faultyImport).after importing).store.change (.file "/m/a.cue")
      [⟨none, ""⟩] 2).toOption.bind (fun r => (r.2.get? r.1.document).map fun d =>
        d.diagnostics.of (.file "/m/b/b.cue")) = some [] := by decide +kernel
  cases hchange : ((start faultyImport).after importing).store.change (.file "/m/a.cue")
      [⟨none, ""⟩] 2 with
  | error e => simp [hchange, Except.toOption] at hok
  | ok r =>
    simp only [hchange, Except.toOption, Option.bind_some, Option.map_eq_some_iff] at hok
    obtain ⟨d, hd, hof⟩ := hok
    exact ⟨r.1, r.2, d, .changed rfl hchange, hd, hof, by decide +kernel, by decide +kernel⟩

end Session

end CueScope
