import CueScope.Proofs.Editor.History
import CueScope.Proofs.Graph.Find
import Mathlib.Data.List.Infix

/-!
# What is looked up is the present text

A position is turned into an offset in the text of the document, but the node there is searched in
a graph that was compiled earlier, from a snapshot of all open documents.

* `overlay_get?`: while open documents have different paths, the snapshot has the text of each.
* `compile_shown`: so a document that is compiled is in its graph with the text it has.
* `Current`: what holds of every store on the way. The graph of an open document has the document's
  present text wherever it has its path.
* `find_current`: what `find` answers is about the present text.
-/

namespace CueScope

/-! ## Overlays -/

namespace Overlay

variable {o : Overlay} {p q : Path} {text : String}

/-- Paths to one place have one text. -/
theorem get?_congr (h : (p == q) = true) : o.get? p = o.get? q := by
  simp only [get?, Path.beq_def, Path.beq_iff.1 h]

theorem insert_cons (e : Path × String) (es : List (Path × String)) (p : Path) (text : String) :
    (Overlay.mk (e :: es)).insert p text =
      if e.1 == p then ⟨(e.1, text) :: es⟩ else ⟨e :: ((Overlay.mk es).insert p text).entries⟩ := by
  unfold insert
  rw [List.findIdx?_cons]
  by_cases h : e.1 == p
  · simp [h]
  · cases es.findIdx? (·.1 == p) <;> simp [h]

theorem get?_insert (o : Overlay) (p q : Path) (text : String) :
    (o.insert p text).get? q = if p == q then some text else o.get? q := by
  obtain ⟨entries⟩ := o
  induction entries with
  | nil => by_cases h : p == q <;> simp [insert, get?, h]
  | cons e es ih =>
    rw [insert_cons]
    unfold get? at ih ⊢
    by_cases hp : e.1 == p
    · have hpq : (e.1 == q) = (p == q) := by rw [Path.beq_def, Path.beq_def, Path.beq_iff.1 hp]
      rw [if_pos hp, List.find?_cons, List.find?_cons, hpq]
      cases p == q <;> rfl
    · rw [if_neg hp, List.find?_cons, List.find?_cons]
      by_cases hq : e.1 == q
      · have hpq : (p == q) = false := by
          rw [← Bool.not_eq_true]
          intro h
          exact hp (Path.beq_iff.2 ((Path.beq_iff.1 hq).trans (Path.beq_iff.1 h).symm))
        simp [hq, hpq]
      · simpa [hq] using ih

/-- Texts that are put in under different paths are there. -/
theorem get?_ofList {entries : List (Path × String)} {e : Path × String}
    (h : entries.Pairwise fun a b => (a.1 == b.1) = false) (he : e ∈ entries) :
    (Overlay.ofList entries).get? e.1 = some e.2 := by
  have hkeep : ∀ (entries : List (Path × String)) {o : Overlay},
      (∀ b ∈ entries, (e.1 == b.1) = false) → o.get? e.1 = some e.2 →
      (entries.foldl (fun o e => o.insert e.1 e.2) o).get? e.1 = some e.2 := by
    intro entries
    induction entries with
    | nil => exact fun _ ho => ho
    | cons b bs ih =>
      intro o hb ho
      refine ih (fun c hc => hb c (List.mem_cons_of_mem _ hc)) ?_
      have hbe : (b.1 == e.1) = false := by
        rw [Path.beq_def, Bool.beq_comm, ← Path.beq_def]
        exact hb b List.mem_cons_self
      rw [get?_insert, hbe]
      exact ho
  obtain ⟨front, back, rfl⟩ := List.append_of_mem he
  unfold ofList
  rw [List.foldl_append, List.foldl_cons]
  refine hkeep back (List.pairwise_cons.1 (List.pairwise_append.1 h).2.1).1 ?_
  rw [get?_insert, if_pos (Path.beq_iff.2 rfl)]

end Overlay

/-! ## Documents in their graphs -/

/-- Wherever the document's graph has its path, it has its text. -/
def Document.Shown (d : Document) : Prop :=
  ∀ c, d.compiled = some c → ∀ f ∈ c.graph.sources.files, (f.path == d.path) = true → f.text = d.text

namespace Store

variable {s : Store} {d : Document} {id : DocumentId}

/-- The paths of open documents. -/
def openPaths (s : Store) : List Path := s.opened.filterMap fun e => (s.get? e.2).map (·.path)

/-- No two open documents are at one place. -/
def DistinctPaths (s : Store) : Prop := s.openPaths.Pairwise fun p q => (p == q) = false

instance (s : Store) : Decidable s.DistinctPaths := by
  unfold DistinctPaths
  infer_instance

/-- While open documents have different paths, the text of each is in the overlay. -/
theorem overlay_get? (h : s.DistinctPaths) {uri : Uri} (ho : (uri, id) ∈ s.opened)
    (hd : s.get? id = some d) : s.overlay.get? d.path = some d.text := by
  refine Overlay.get?_ofList (e := (d.path, d.text)) ?_ ?_
  · unfold DistinctPaths openPaths at h
    rw [List.pairwise_filterMap] at h ⊢
    refine h.imp fun {a b} hab x hx y hy => ?_
    obtain ⟨da, hda, rfl⟩ := Option.map_eq_some_iff.1 hx
    obtain ⟨db, hdb, rfl⟩ := Option.map_eq_some_iff.1 hy
    exact hab da.path (by rw [hda]; rfl) db.path (by rw [hdb]; rfl)
  · exact List.mem_filterMap.2 ⟨(uri, id), ho, congrArg (Option.map _) hd⟩

/-- A document whose text is in the overlay is compiled with that text. -/
theorem compile_shown (hload : s.load = Workspace.load)
    (ho : s.overlay.get? d.path = some d.text) : (s.compile d).Shown := by
  unfold compile
  split
  · split
    · rename_i c hc
      intro c' hc' f hf hpath
      cases hc'
      rw [hload] at hc
      have hsources := Workspace.sources_of_compile? hc
      have hread := ((s.workspace d.path).load_loaded [d.path]).texts f (hsources ▸ hf)
      have hover : (s.workspace d.path).overlay.get? f.path = some d.text :=
        (Overlay.get?_congr hpath).trans ho
      rw [Workspace.read?, hover] at hread
      exact (Option.some.inj hread).symm
    · exact fun c hc => by cases hc
  · exact fun c hc => by cases hc

/-- Compiling changes neither paths nor texts. -/
theorem map_recompile {α : Type} (f : Document → α) (hf : ∀ s d, f (compile s d) = f d) (s : Store)
    (id i : DocumentId) : ((s.recompile id).get? i).map f = (s.get? i).map f := by
  rw [get?_recompile, Option.map_map]
  congr 1
  funext d
  by_cases hi : i = id <;> simp [hi, hf]

theorem path_compile (s : Store) (d : Document) : (s.compile d).path = d.path := by
  obtain ⟨_, _, he, -⟩ := compile_eq s d
  rw [he]

theorem distinctPaths_recompile {id : DocumentId} :
    (s.recompile id).DistinctPaths ↔ s.DistinctPaths := by
  have hpaths : (s.recompile id).openPaths = s.openPaths :=
    List.filterMap_congr fun e _ => map_recompile (·.path) path_compile s id e.2
  unfold DistinctPaths
  rw [hpaths]

/-! ## Histories -/

/-- Open documents are in their graphs with their present texts. -/
structure Current (s : Store) : Prop where
  load_eq : s.load = Workspace.load
  shown : ∀ e ∈ s.opened, ∀ d, s.get? e.2 = some d → d.Shown

/-- A store stays current when the one document that is not shown yet is compiled. -/
theorem current_recompile (hload : s.load = Workspace.load) (hd : (s.recompile id).DistinctPaths)
    (hother : ∀ e ∈ s.opened, e.2 ≠ id → ∀ d, s.get? e.2 = some d → d.Shown) :
    (s.recompile id).Current := by
  refine ⟨hload, fun e he d hde => ?_⟩
  rw [get?_recompile] at hde
  obtain ⟨d₀, hd₀, rfl⟩ := Option.map_eq_some_iff.1 hde
  by_cases hid : e.2 = id
  · rw [if_pos hid]
    exact compile_shown hload (overlay_get? (distinctPaths_recompile.1 hd) he hd₀)
  · rw [if_neg hid]
    exact hother e he hid d₀ hd₀

/-- Case by case on the action: the compiled documents keep up with the texts as long as no two
documents share a path. -/
theorem Current.perform (h : s.Current) (hs : s.Sound) (a : Action)
    (hd : (s.perform a).2.DistinctPaths) : (s.perform a).2.Current := by
  have hp := performs_perform s a
  generalize s.perform a = r at hp hd ⊢
  obtain ⟨answer, s'⟩ := r
  cases hp with
  | refused e ha => exact h
  | added hadd =>
    obtain ⟨-, -, rfl⟩ := add_eq hadd
    refine current_recompile h.load_eq hd fun e he hne d hde => ?_
    rcases List.mem_append.1 he with he | he
    · obtain ⟨d', hd', -⟩ := hs.opened e he
      have hlt := (List.getElem?_eq_some_iff.1 hd').1
      refine h.shown e he d ?_
      rw [← hde]
      exact (List.getElem?_append_left hlt).symm
    · rw [List.mem_singleton.1 he] at hne
      exact absurd rfl hne
  | got hget => exact h
  | replaced hrep =>
    obtain ⟨d₀, -, -, -, rfl⟩ := replace_eq hrep
    refine current_recompile h.load_eq hd fun e he hne d hde => h.shown e he d ?_
    rw [← hde]
    exact (List.getElem?_set_ne hne.symm).symm
  | removed hrem =>
    obtain ⟨id, -, rfl⟩ := remove_ok hrem
    refine ⟨h.load_eq, fun e he d hde => ?_⟩
    simp only [get?, List.getElem?_modify] at hde
    obtain ⟨d₀, hd₀, hde⟩ := Option.map_eq_some_iff.1 hde
    have hshown := h.shown e (List.mem_filter.1 he).1 d₀ hd₀
    -- a revoked document has the text and the graph it had
    split at hde <;> subst hde <;> exact hshown
  | ended => exact ⟨h.load_eq, h.shown⟩
  | configured ha root settings => exact ⟨h.load_eq, h.shown⟩

/-- By induction on the history, if no two documents share a path at any time. -/
theorem Current.after (h : s.Current) (hs : s.Sound) {actions : List Action}
    (hd : ∀ front ∈ actions.inits, (s.after front).DistinctPaths) : (s.after actions).Current := by
  induction actions generalizing s with
  | nil => exact h
  | cons a as ih =>
    have hd' : ∀ front ∈ as.inits, ((s.perform a).2.after front).DistinctPaths := by
      intro front hfront
      exact hd (a :: front) (by simpa using hfront)
    exact ih (h.perform hs a (hd' [] (by simp))) (hs.perform a) hd'

end Store

/-! ## Looking something up -/

/-- A node that is found has the position. -/
theorem Graph.covers_of_findFrom {g : Graph} {pos : Pos} {depth : Nat} {a n : NodeId}
    (h : g.findFrom pos depth a = some n) : g.Covers n pos := by
  induction depth generalizing a with
  | zero => cases h
  | succ depth ih =>
    unfold findFrom at h
    split at h
    · cases h
    · rename_i k hk
      split at h
      · rcases Option.or_eq_some_iff.1 h with h | ⟨-, h⟩
        · obtain ⟨c, -, hc⟩ := List.exists_of_findSome?_eq_some h
          exact ih hc
        · split at h
          · rename_i hcovers
            cases h
            exact (covers_iff hk).1 hcovers
          · cases h
      · cases h

namespace Store

variable {s : Store} {uri : Uri} {p : Position} {hit : Hit}

/-- What is looked up on the way to an answer. -/
theorem find_ok (h : s.find uri p = .ok hit) :
    ∃ id c, s.opened.lookup uri = some id ∧ s.get? id = some hit.document ∧
      Position.toOffset? hit.document.text p = some hit.pos.offset ∧
      hit.document.compiled = some c ∧ hit.graph = c.graph ∧
      c.graph.sources.find? hit.document.path = some hit.pos.file ∧
      hit.node = c.graph.root.bind fun root => c.graph.find? (.node root) hit.pos := by
  unfold find at h
  simp only [bind, Except.bind, pure, Except.pure] at h
  split at h
  · cases h
  rename_i handle hhandle
  split at h
  · cases h
  rename_i d hd
  split at h
  · cases h
  rename_i offset hoffset
  split at h
  · cases h
  rename_i c hc
  split at h
  · cases h
  rename_i file hfile
  cases h
  refine ⟨handle.document, c, ?_, ?_, ?_, ?_, rfl, hfile, rfl⟩
  · unfold Store.handle at hhandle
    split at hhandle <;> cases hhandle
    assumption
  · unfold document at hd
    split at hd
    · rename_i d' hd'
      split at hd <;> cases hd
      exact hd'
    · cases hd
  · unfold Position.toOffset at hoffset
    split at hoffset <;> cases hoffset
    assumption
  · unfold compiled at hc
    simp only [hd, bind, Except.bind, pure, Except.pure] at hc
    split at hc <;> cases hc
    assumption

/-- What `find` answers is about the text that the document has now. After any actions in the course
of which open documents had different paths, it gives the open document of the name, a place in the
file of the graph whose text is that of the document, at the offset of the position, and a node with
a range around that place. -/
theorem find_current (disk : Disk) (settings : Settings) (actions : List Action)
    (hd : ∀ front ∈ actions.inits,
      ((unused disk Workspace.load settings).after front).DistinctPaths)
    (uri : Uri) (p : Position) (hit : Hit)
    (hfind : ((unused disk Workspace.load settings).after actions).find uri p = .ok hit) :
    ∃ id, ((unused disk Workspace.load settings).after actions).opened.lookup uri = some id ∧
      ((unused disk Workspace.load settings).after actions).get? id = some hit.document ∧
      (∃ f, hit.graph.sources.get? hit.pos.file = some f ∧ f.text = hit.document.text) ∧
      Position.toOffset? hit.document.text p = some hit.pos.offset ∧
      ∀ r, hit.node = some r → ∃ n, r = .node n ∧ hit.graph.Covers n hit.pos := by
  have hempty : (unused disk Workspace.load settings).Current :=
    ⟨rfl, fun e he => by simp [unused] at he⟩
  have hcurrent := hempty.after (sound_unused disk Workspace.load settings) hd
  obtain ⟨id, c, hid, hdoc, hoffset, hc, hgraph, hfile, hnode⟩ := find_ok hfind
  refine ⟨id, hid, hdoc, ?_, hoffset, ?_⟩
  · rw [hgraph]
    obtain ⟨hlt, hpath, -⟩ := List.findIdx?_eq_some_iff_getElem.1 hfile
    refine ⟨_, List.getElem?_eq_getElem hlt, ?_⟩
    exact hcurrent.shown (uri, id) (mem_of_lookup hid) _ hdoc c hc _ (List.getElem_mem hlt) hpath
  · intro r hr
    rw [hnode] at hr
    obtain ⟨root, -, hr⟩ := Option.bind_eq_some_iff.1 hr
    obtain ⟨n, hn, rfl⟩ := Option.map_eq_some_iff.1 hr
    exact ⟨n, rfl, hgraph ▸ Graph.covers_of_findFrom hn⟩

/-- Two documents are opened, and the first one is changed. -/
def reworded : List Action :=
  [.add ⟨"file", none, "/p/a.cue", none, none⟩ "cue" 1 "a: 1",
    .add ⟨"file", none, "/q/b.cue", none, none⟩ "cue" 1 "b: 2",
    .replace ⟨0, 0⟩ "a: 1\nb: a" 2]

/-- After one of two documents is changed, what is found is in its new text. -/
theorem find_current_reworded :
    ∃ hit, ((unused {} Workspace.load {}).after reworded).find
        ⟨"file", none, "/p/a.cue", none, none⟩ ⟨1, 3⟩ = .ok hit ∧
      hit.document.text = "a: 1\nb: a" ∧ hit.node.map hit.graph.describe = some "Reference(a)" ∧
      ∃ f, hit.graph.sources.get? hit.pos.file = some f ∧ f.text = hit.document.text := by
  obtain ⟨hit, hhit, htext, hnode⟩ : ∃ hit, ((unused {} Workspace.load {}).after reworded).find
      ⟨"file", none, "/p/a.cue", none, none⟩ ⟨1, 3⟩ = .ok hit ∧
        hit.document.text = "a: 1\nb: a" ∧
        hit.node.map hit.graph.describe = some "Reference(a)" := exists_ok (by decide +kernel)
  obtain ⟨_, -, -, hf, -⟩ := find_current {} {} reworded (by decide +kernel) _ _ hit hhit
  exact ⟨hit, hhit, htext, hnode, hf⟩

end Store

end CueScope
