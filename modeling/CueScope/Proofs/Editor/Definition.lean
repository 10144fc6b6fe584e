import CueScope.Proofs.Graph.Targets
import CueScope.Proofs.Instance.Registered
import CueScope.Proofs.Text.Conversion
import CueScope.Proofs.Uri.File
import Mathlib.Data.List.Forall2

/-!
# Definitions and the way back

The definition of a reference is shown at the labels of the declaration that it stands for. An editor
that opens one of these locations asks again, with the position that the location starts at.

* `Graph.place?`, `Graph.textAt?`: what an editor's position and the range of a location are in the
  source files.
* `location?_of_fits`: a range of a source file has a location that leads back to it.
* `label_located`: at the location of a label the label is found, and its text tells the name.
* `Workspace.definitionSites?_reference`: so every location of a definition leads to that definition
  again.
-/

namespace CueScope

namespace Graph

/-- The place in a source file that a position in a document is. -/
def place? (g : Graph) (uri : Uri) (p : Position) : Option Pos :=
  (uri.toPath?.bind g.sources.find?).bind fun file =>
    (g.sources.get? file).bind fun f =>
      (Position.toOffset? f.text p).map fun offset => ⟨file, offset⟩

/-- The text in the range of a location. -/
def textAt? (g : Graph) (loc : Location) : Option String :=
  (g.place? loc.uri loc.range.start).bind fun start =>
    (g.place? loc.uri loc.range.stop).bind fun stop =>
      g.sources.slice? ⟨start.file, start.offset, stop.offset⟩

/-- The location is that of the range of a node. -/
def Shows (g : Graph) (n : NodeId) (loc : Location) : Prop :=
  ∃ span, g.span? (.node n) = some span ∧ g.location? span = some loc

/-- At the start of the location, in the tree of `root`, something is found that stands for `d`, and
its definition is shown at the locations `locs`. -/
def LeadsTo (g : Graph) (root d : NodeId) (locs : List Location) (loc : Location) : Prop :=
  ∃ pos n, g.place? loc.uri loc.range.start = some pos ∧ g.find? (.node root) pos = some n ∧
    g.definition? n = some (.node d) ∧ g.definitionSites? n = some locs

/-- The text at the location is the name, or a string literal for it. -/
def Spells (g : Graph) (name : String) (loc : Location) : Prop :=
  ∃ text, g.textAt? loc = some text ∧ (text = name ∨ Text.unquote text = some name)

variable {g : Graph} {d : NodeId} {r : NodeRef}

theorem decl?_eq_some_iff {x : DeclNode} : g.decl? d = some x ↔ g.kind? d = some (.decl x) := by
  unfold decl?
  split <;> simp_all

theorem definitionSites?_of_definition? (hr : g.definition? r = some (.node d))
    (hsites : g.sites d ≠ []) : g.definitionSites? r = some (g.sites d) := by
  unfold definitionSites?
  simp only [hr]

theorem sites_decl {x : DeclNode} (hd : g.kind? d = some (.decl x)) :
    g.sites d = x.labels.filterMap fun l => (g.span? (.node l)).bind g.location? := by
  simp [sites, hd]

/-- A range of a source file has a location, whose ends are those of the range. -/
theorem location?_of_fits (hdistinct : g.sources.Distinct) {span : Span} {f : SourceFile}
    (hf : g.sources.get? span.file = some f) (habs : f.path.isAbsolute)
    (hfits : span.Fits span.file f.text) :
    ∃ loc, g.location? span = some loc ∧ g.place? loc.uri loc.range.start = some span.pos ∧
      g.place? loc.uri loc.range.stop = some span.endPos := by
  obtain ⟨u, q, hu, hq, hplace⟩ := Uri.toPath?_ofPath? habs
  have hfile : g.sources.find? q = some span.file :=
    hdistinct.find?_of_get? hf (Path.beq_iff.2 (Path.beq_iff.1 hplace).symm)
  obtain ⟨start, hstart⟩ := Position.isValid_iff_mem_boundaries.1 hfits.start
  obtain ⟨stop, hstop⟩ := Position.isValid_iff_mem_boundaries.1 hfits.stop
  refine ⟨⟨u, ⟨start, stop⟩⟩, ?_, ?_, ?_⟩
  · simp [location?, Sources.path?, Sources.range?, hf, hu, Position.ofOffset?_of_mem hstart,
      Position.ofOffset?_of_mem hstop]
  · simp [place?, hq, hfile, hf, Position.toOffset?_of_mem hstart, Span.pos]
  · simp [place?, hq, hfile, hf, Position.toOffset?_of_mem hstop, Span.endPos]

/-- The text at a location is that at the range. -/
theorem textAt?_eq {span : Span} {loc : Location}
    (hstart : g.place? loc.uri loc.range.start = some span.pos)
    (hstop : g.place? loc.uri loc.range.stop = some span.endPos) :
    g.textAt? loc = g.sources.slice? span := by
  rw [textAt?, hstart, hstop]
  rfl

end Graph

/-- If something is found for each of several items, then one for each, in order. -/
theorem exists_filterMap_eq {α β : Type} {f : α → Option β} {P : α → β → Prop} {l : List α}
    (h : ∀ a ∈ l, ∃ b, f a = some b ∧ P a b) : List.Forall₂ P l (l.filterMap f) := by
  induction l with
  | nil => exact .nil
  | cons a l ih =>
    obtain ⟨b, hb, hP⟩ := h a (by simp)
    rw [List.filterMap_cons_some hb]
    exact .cons hP (ih fun a ha => h a (List.mem_cons_of_mem _ ha))

/-! ## Labels -/

/-- In the file that the range is in, the text at the range tells the name. -/
def Sources.Tells (s : Sources) (span : Span) (name : String) : Prop :=
  ∃ f, s.get? span.file = some f ∧ span.Tells span.file f.text name

/-- Labels of loaded trees tell their names. -/
theorem Loaded.named {w : Workspace} {instances : Instances} (h : Loaded w instances) :
    ∀ j ∈ instances.all, ∀ t ∈ j.files, t.Named instances.sources.Tells := by
  intro j hj t ht
  obtain ⟨f, hf, -, htree⟩ := h.trees j hj t ht
  rw [htree]
  refine SourceTree.parse_named fun s name htells => ?_
  have hfile : s.file = t.file := htells.elim fun _ h => h.1.1.file
  refine ⟨f, ?_, ?_⟩
  · rw [hfile]
    exact hf
  · rw [hfile]
    exact htells

section labels

variable {instances : Instances} {root : InstanceId} {j : Instance} {d : NodeId} {x : DeclNode}

/-- The label of a declaration in the tree is found at its location, and tells its name there. -/
theorem label_located (hdistinct : instances.sources.Distinct)
    (habs : ∀ f ∈ instances.sources.files, f.path.isAbsolute) (h : instances.Proper)
    (hj : instances.get? root = some j) (hreach : (instances.compile root).graph.Reaches 0 d)
    (hd : (instances.compile root).graph.kind? d = some (.decl x)) {l : NodeId} (hl : l ∈ x.labels)
    (htells : (instances.compile root).graph.LabelOf instances.sources.Tells x.name l) :
    ∃ loc, ((instances.compile root).graph.span? (.node l)).bind
        (instances.compile root).graph.location? = some loc ∧
      (instances.compile root).graph.Shows l loc ∧
      ((instances.compile root).graph.sites d ≠ [] → (instances.compile root).graph.LeadsTo 0 d
        ((instances.compile root).graph.sites d) loc) ∧
      (instances.compile root).graph.Spells x.name loc := by
  obtain ⟨span, hk, f, hf, text, ⟨hfits, hslice⟩, hname⟩ := htells
  have hf' : (instances.compile root).graph.sources.get? span.file = some f := hf
  obtain ⟨loc, hloc, hstart, hstop⟩ := Graph.location?_of_fits
    (g := (instances.compile root).graph) hdistinct hf' (habs f (List.mem_of_getElem? hf)) hfits
  have hspan : (instances.compile root).graph.span? (.node l) = some span := by
    simp [Graph.span?, hk, NodeKind.span?]
  refine ⟨loc, by rw [hspan]; exact hloc, ⟨span, hspan, hloc⟩, fun hne => ?_, text, ?_, hname⟩
  · have hdef := compile_definition?_label hd hl hk
    have hpos : span.pos ∈ span := Span.mem_def.2 ⟨rfl, Nat.le_refl _, hfits.ordered⟩
    exact ⟨span.pos, .node l, hstart, find?_label h hj (.tail hreach (.label hd hl)) hk hpos, hdef,
      Graph.definitionSites?_of_definition? hdef hne⟩
  · rw [Graph.textAt?_eq hstart hstop, Sources.slice?, hf']
    exact hslice

end labels

/-! ## References -/

/-- A reference in the tree of a compiled package that stands for a declaration leads to one location
for each label of it, in order. Every one of them leads to the same declaration, and so to the same
locations, again; and if all parts of the reference were found, the text there is the last part, or a
string literal for it. -/
theorem Workspace.definitionSites?_reference {w : Workspace} {path : Path} {c : Compilation}
    {root id d : NodeId} {r : ReferenceNode} {x : DeclNode}
    (h : w.compile? Workspace.load path = .ok c)
    (habs : ∀ f ∈ c.graph.sources.files, f.path.isAbsolute) (hroot : c.graph.root = some root)
    (hreach : c.graph.Reaches root id) (hr : c.graph.reference? id = some r)
    (ht : r.target = some (.node d)) (hd : c.graph.decl? d = some x) :
    ∃ locs, c.graph.definitionSites? (.node id) = some locs ∧
      List.Forall₂ c.graph.Shows x.labels locs ∧
      (∀ loc ∈ locs, c.graph.LeadsTo root d locs loc) ∧
      ((∀ p ∈ c.graph.failure? id, p ∉ c.problems) →
        ∃ y, r.path.getLast? = some y ∧ ∀ loc ∈ locs, c.graph.Spells y.name loc) := by
  obtain ⟨start, hstart, rfl⟩ := Workspace.compile?_eq_ok h
  have hl := w.load_loaded [path]
  have hdistinct := w.load_distinct [path]
  generalize w.load [path] = instances at hl hdistinct hstart habs hroot hreach hr hd ⊢
  have hp := hl.proper
  obtain ⟨j, hj⟩ : ∃ j, instances.get? start = some j :=
    ⟨_, List.getElem?_eq_getElem (hl.roots start (List.mem_of_head? hstart))⟩
  obtain rfl : root = 0 := Option.some.inj (hroot.symm.trans (compile_root hj).1)
  rw [Graph.decl?_eq_some_iff] at hd
  have hreach' := compile_reaches_target hp hj hreach hr ht
  obtain ⟨hlabels, htells⟩ := compile_target_labels hl.named hr ht hd
  have hall := fun l hmem =>
    label_located (l := l) hdistinct habs hp hj hreach' hd hmem (htells l hmem)
  have hsites := exists_filterMap_eq hall
  rw [← Graph.sites_decl hd] at hsites
  have hne : (instances.compile start).graph.sites d ≠ [] := by
    intro hnil
    rw [hnil] at hsites
    exact hlabels (List.forall₂_nil_right_iff.1 hsites)
  have hdef : (instances.compile start).graph.definition? (.node id) = some (.node d) := by
    simp [Graph.definition?, Graph.reference?_eq_some_iff.1 hr, ht]
  -- every location is that of a label
  have hback : ∀ loc ∈ (instances.compile start).graph.sites d,
      ∃ l ∈ x.labels, ((instances.compile start).graph.sites d ≠ [] →
        (instances.compile start).graph.LeadsTo 0 d ((instances.compile start).graph.sites d) loc) ∧
      (instances.compile start).graph.Spells x.name loc := by
    intro loc hloc
    rw [Graph.sites_decl hd] at hloc
    obtain ⟨l, hl, hfound⟩ := List.mem_filterMap.1 hloc
    obtain ⟨loc', hfound', -, hrest⟩ := hall l hl
    cases hfound.symm.trans hfound'
    exact ⟨l, hl, hrest⟩
  refine ⟨_, Graph.definitionSites?_of_definition? hdef hne, hsites.imp fun _ _ h => h.1,
    fun loc hloc => ?_, fun hnone => ?_⟩
  · obtain ⟨-, -, hleads, -⟩ := hback loc hloc
    exact hleads hne
  · obtain ⟨y, -, hname, hlast⟩ := compile_target_name hr ht hd
    have hfailure : (instances.compile start).graph.failure? id = none := by
      refine Option.eq_none_iff_forall_ne_some.2 fun p hp' => ?_
      exact hnone p hp' (compile_failure_reported hr hp')
    refine ⟨y, hlast hfailure, fun loc hloc => ?_⟩
    obtain ⟨-, -, -, hspells⟩ := hback loc hloc
    rwa [← hname]

/-- A package that imports another one, where a name is declared twice, once quoted. -/
def Workspace.quotedImport : Workspace :=
  { dir := .ofText "/m"
    overlay := .ofList [(.ofText "/m/cue.mod/module.cue", "module: \"m\""),
      (.ofText "/m/x.cue", "import \"m/l\"\na: l.b"), (.ofText "/m/l/y.cue", "b: 2\n\"b\": int")] }

/-- A reference to a package that a quoted path imports leads to its declarations. -/
theorem Workspace.definitionSites?_reference_quotedImport :
    ∃ c r x locs, quotedImport.compile? Workspace.load (.ofText "/m/x.cue") = .ok c ∧
      c.graph.reference? 11 = some r ∧ c.graph.decl? 3 = some x ∧
      locs.map (·.range) = [⟨⟨0, 0⟩, ⟨0, 1⟩⟩, ⟨⟨1, 0⟩, ⟨1, 3⟩⟩] ∧
      c.graph.definitionSites? (.node 11) = some locs ∧ List.Forall₂ c.graph.Shows x.labels locs ∧
      (∀ loc ∈ locs, c.graph.LeadsTo 0 3 locs loc) ∧
      ∃ y, r.path.getLast? = some y ∧ ∀ loc ∈ locs, c.graph.Spells y.name loc := by
  obtain ⟨c, hc, hroot, habs, ⟨h₈, h₉, h₁₁⟩, htarget, hdecl, hfailure, hranges⟩ : ∃ c,
      quotedImport.compile? Workspace.load (.ofText "/m/x.cue") = .ok c ∧
        c.graph.root = some 0 ∧ (∀ f ∈ c.graph.sources.files, f.path.isAbsolute) ∧
        (8 ∈ c.graph.owned 0 ∧ 9 ∈ c.graph.owned 8 ∧ 11 ∈ c.graph.owned 9) ∧
        c.graph.target? 11 = some (.node 3) ∧ (c.graph.decl? 3).isSome ∧ c.graph.failure? 11 = none ∧
        (c.graph.definitionSites? (.node 11)).map (fun locs => locs.map (·.range)) =
          some [⟨⟨0, 0⟩, ⟨0, 1⟩⟩, ⟨⟨1, 0⟩, ⟨1, 3⟩⟩] := exists_ok (by decide +kernel)
  obtain ⟨r, hr, ht⟩ := Option.bind_eq_some_iff.1 htarget
  obtain ⟨x, hx⟩ := Option.isSome_iff_exists.1 hdecl
  have hreach : c.graph.Reaches 0 11 :=
    .tail (.tail (.tail .refl (Graph.Owns.child h₈)) (Graph.Owns.child h₉)) (Graph.Owns.child h₁₁)
  obtain ⟨locs, hlocs, hshows, hleads, hspells⟩ :=
    Workspace.definitionSites?_reference hc habs hroot hreach hr ht hx
  rw [hlocs] at hranges
  exact ⟨c, r, x, locs, hc, hr, hx, Option.some.inj hranges, hlocs, hshows, hleads,
    hspells (by simp [hfailure])⟩

end CueScope
