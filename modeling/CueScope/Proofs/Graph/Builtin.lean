import CueScope.Proofs.Graph.Cycles
import CueScope.Proofs.Instance.Exact
import CueScope.Proofs.Instance.Module

/-!
# Imports of builtin packages

Loading tells builtin packages from others by the form of the import path, so a module can hide
them.

* `Module.importDir?_builtin_iff`: the path of a builtin package leads into a module
  (`Module.Contains`) or nowhere.
* `Instances.ImportsWithin`: an instance imports a path that leads into its own module.
* `Workspace.load_builtins`: the edges that are labelled with the path of a builtin package are
  those of such imports. There are none unless a module is named like a builtin package, or
  `encoding`.
-/

namespace CueScope

/-! ## Paths of builtin packages -/

namespace Catalog

variable {path : String}

theorem exists_of_package? (h : (package? path).isSome) : ∃ b ∈ packages, b.id = path := by
  obtain ⟨b, hb⟩ := Option.isSome_iff_exists.1 h
  exact ⟨b, List.mem_of_find?_eq_some hb, by simpa using List.find?_some hb⟩

/-- The first element of a builtin package's path has no dot. -/
theorem not_dotted (h : (package? path).isSome) :
    (path.toList.takeWhile (· ≠ '/')).contains '.' = false := by
  obtain ⟨b, hb, rfl⟩ := exists_of_package? h
  exact (by decide +kernel : ∀ b ∈ packages,
    (b.id.toList.takeWhile (· ≠ '/')).contains '.' = false) b hb

/-- What comes before a slash in a builtin package's path is `encoding`. -/
theorem eq_encoding {own rest : String} (h : (package? (own ++ "/" ++ rest)).isSome) :
    own = "encoding" := by
  obtain ⟨b, hb, hid⟩ := exists_of_package? h
  have hcount : b.id.toList.count '/' ≤ 1 :=
    (by decide +kernel : ∀ b ∈ packages, b.id.toList.count '/' ≤ 1) b hb
  have hsplit : b.id.toList = own.toList ++ '/' :: rest.toList := by simp [hid]
  have hown : '/' ∉ own.toList := by
    rw [hsplit, List.count_append, List.count_cons_self] at hcount
    exact List.count_eq_zero.1 (by omega)
  have hfirst : b.id.toList.takeWhile (· ≠ '/') = own.toList := by
    rw [hsplit, List.takeWhile_append_of_pos]
    · simp
    · intro c hc
      have hne : c ≠ '/' := ne_of_mem_of_not_mem hc hown
      simpa using hne
  have hslash : '/' ∈ b.id.toList := by simp [hsplit]
  have hencoding : b.id.toList.takeWhile (· ≠ '/') = "encoding".toList :=
    (by decide +kernel : ∀ b ∈ packages, '/' ∈ b.id.toList →
      b.id.toList.takeWhile (· ≠ '/') = "encoding".toList) b hb hslash
  exact String.toList_inj.1 (hfirst.symm.trans hencoding)

end Catalog

/-! ## Paths that lead into a module -/

namespace Module

variable {m : Module} {path : String} {dir : Path}

/-- The path of a builtin package leads into the module or nowhere. -/
theorem importDir?_builtin_iff (hb : (Catalog.package? path).isSome) :
    m.importDir? path = some dir ↔ m.Contains path dir := by
  have hnone : m.vendored? path = none := by
    rw [vendored?, Catalog.not_dotted hb, if_neg Bool.false_ne_true]
  exact ⟨fun h => (contains_or_vendored? h).resolve_right (by simp [hnone]), Contains.importDir?⟩

/-- It leads there only if the module is named like a builtin package, or `encoding`. -/
theorem Contains.builtin (h : m.Contains path dir) (hb : (Catalog.package? path).isSome) :
    ∃ own, m.path? = some own ∧ (own = "encoding" ∨ (Catalog.package? own).isSome) := by
  cases h with
  | root h => exact ⟨_, h, .inr hb⟩
  | below h => exact ⟨_, h, .inl (Catalog.eq_encoding hb)⟩

end Module

/-! ## What is loaded for them -/

/-- The instance `u` imports a path that leads into its own module, to a directory with source
files. -/
structure Instances.ImportsWithin (w : Workspace) (paths : List Path) (i : Instances)
    (u : InstanceId) (path : String) (dir : Path) : Prop where
  stated : ∃ j, i.get? u = some j ∧ ∃ t ∈ j.files, ∃ spec ∈ t.imports, spec.path? = some path
  contained : ∃ m, w.ModuleFor paths u (some m) ∧ m.Contains path dir
  sources : ∃ p, Workspace.isSource p ∧ w.Lies dir p

namespace Workspace

variable {w : Workspace} {paths : List Path} {u v : InstanceId} {path : String} {dir : Path}

/-- An edge with the path of a builtin package goes into the module of the importing instance. -/
theorem importsWithin_of_edge (hb : (Catalog.package? path).isSome)
    (he : (⟨u, path, v⟩ : ImportEdge) ∈ (w.load paths).edges) :
    ∃ dir, (w.load paths).ImportsWithin w paths u path dir ∧ (w.load paths).find? dir = some v := by
  obtain ⟨j, hj, hpath⟩ := (w.load_joined paths).stated _ he
  obtain ⟨before, p, more, rfl, hle, hlt⟩ :=
    Load.exists_request (List.getElem?_eq_some_iff.1 hj).1
  obtain ⟨dir, htarget, hfound⟩ := load_leads he hle hlt
  obtain ⟨hdir, hlist⟩ := Load.importTarget?_eq_some.1 htarget
  obtain ⟨m, hm, hdir⟩ := Option.bind_eq_some_iff.1 hdir
  have hmodule : w.ModuleFor (before ++ p :: more) u (some m) :=
    ⟨before, p, more, rfl, hle, hlt, hm.symm⟩
  exact ⟨dir, ⟨⟨j, hj, Load.mem_importPaths.1 hpath⟩,
    ⟨m, hmodule, (Module.importDir?_builtin_iff hb).1 hdir⟩, list_ne_nil_iff.1 hlist⟩, hfound⟩

/-- An import into the module itself whose directory is an instance gives an edge. -/
theorem edge_of_importsWithin (h : (w.load paths).ImportsWithin w paths u path dir)
    (hfound : (w.load paths).find? dir = some v) :
    (⟨u, path, v⟩ : ImportEdge) ∈ (w.load paths).edges := by
  obtain ⟨m, ⟨before, p, more, rfl, hle, hlt, hm⟩, hcontains⟩ := h.contained
  have hdir : (w.moduleOf (before ++ [p])).bind (·.importDir? path) = some dir := by
    rw [← hm]
    exact hcontains.importDir?
  have hresolves : (w.load (before ++ p :: more)).Resolves w (w.moduleOf (before ++ [p])) u :=
    load_resolves hle hlt
  have hsome := (hresolves.isSome_iff path).2 ⟨h.stated, dir, hdir, h.sources⟩
  obtain ⟨t, ht⟩ := Option.isSome_iff_exists.1 hsome
  have he := Instances.exists_edge ht
  obtain ⟨dir', htarget, hfound'⟩ := load_leads he hle hlt
  cases hdir.symm.trans (Load.importTarget?_eq_some.1 htarget).1
  cases hfound.symm.trans hfound'
  exact he

/-- Where imports of builtin packages lead when instances are loaded. An edge is labelled with the
path of a builtin package exactly if the path leads into the module of the importer, to a directory
with source files. An instance is loaded for a request, or for an edge that is labelled with its
display path. So none is loaded for a builtin package unless a module has the path of one, or the
path `encoding`, which two of them are below. -/
theorem load_builtins (w : Workspace) (paths : List Path) :
    (∀ u path v, (Catalog.package? path).isSome →
      ((⟨u, path, v⟩ : ImportEdge) ∈ (w.load paths).edges ↔
        ∃ dir, (w.load paths).ImportsWithin w paths u path dir ∧
          (w.load paths).find? dir = some v)) ∧
    (∀ v < (w.load paths).all.length, v ∈ (w.load paths).roots ∨
      ∃ e ∈ (w.load paths).edges, e.target = v ∧
        ∃ j, (w.load paths).get? v = some j ∧ j.display = e.path) ∧
    ((∀ u m own, w.ModuleFor paths u (some m) → m.path? = some own →
        own ≠ "encoding" ∧ Catalog.package? own = none) →
      (w.load paths).Plain) := by
  refine ⟨fun u path v hb => ⟨importsWithin_of_edge hb, fun ⟨dir, h, hfound⟩ =>
    edge_of_importsWithin h hfound⟩, fun v hv => root_or_imported hv, fun hown e he => ?_⟩
  by_contra hb
  have hb : (Catalog.package? e.path).isSome := Option.isSome_iff_ne_none.2 hb
  obtain ⟨dir, h, -⟩ := importsWithin_of_edge hb he
  obtain ⟨m, hm, hcontains⟩ := h.contained
  obtain ⟨own, hpath, hnamed⟩ := hcontains.builtin hb
  obtain ⟨hne, hnone⟩ := hown e.importer m own hm hpath
  rcases hnamed with heq | hsome
  · exact hne heq
  · simp [hnone] at hsome

/-- A module with the path `encoding`, and a file in it that imports a builtin package. -/
def encodingModule : Workspace :=
  { dir := .ofText "/p"
    overlay := .ofList [(.ofText "/p/cue.mod/module.cue", "module: \"encoding\""),
      (.ofText "/p/a.cue", "import \"encoding/json\""), (.ofText "/p/json/j.cue", "x: y")] }

/-- The import leads into the module. -/
theorem load_builtins_encoding :
    (Catalog.package? "encoding/json").isSome ∧ ∃ dir,
      (encodingModule.load [.ofText "/p/a.cue"]).ImportsWithin encodingModule [.ofText "/p/a.cue"] 0
        "encoding/json" dir ∧
      (encodingModule.load [.ofText "/p/a.cue"]).find? dir = some 1 := by
  have hb : (Catalog.package? "encoding/json").isSome := by decide +kernel
  have he : (⟨0, "encoding/json", 1⟩ : ImportEdge) ∈
      (encodingModule.load [.ofText "/p/a.cue"]).edges := by decide +kernel
  exact ⟨hb, ((load_builtins encodingModule [.ofText "/p/a.cue"]).1 _ _ _ hb).1 he⟩

/-- The import is bound to the builtin package, but a directory is loaded for it as well, and a
problem in there is reported. -/
theorem load_builtins_hidden : ∃ c e f,
    encodingModule.compile? Workspace.load (.ofText "/p/a.cue") = .ok c ∧
      e ∈ (encodingModule.load [.ofText "/p/a.cue"]).edges ∧ (Catalog.package? e.path).isSome ∧
      f.imports = [("json", .package e.path)] ∧ c.graph.file? 6 = some f ∧
      c.problems = [.unresolved ⟨1, 3, 4⟩ "y"] := by
  have hb : (Catalog.package? "encoding/json").isSome := by decide +kernel
  have he : (⟨0, "encoding/json", 1⟩ : ImportEdge) ∈
      (encodingModule.load [.ofText "/p/a.cue"]).edges := by decide +kernel
  obtain ⟨c, hc, himports, hproblems⟩ : ∃ c,
      encodingModule.compile? Workspace.load (.ofText "/p/a.cue") = .ok c ∧
        (c.graph.file? 6).map (·.imports) = some [("json", .package "encoding/json")] ∧
        c.problems = [.unresolved ⟨1, 3, 4⟩ "y"] := exists_ok (by decide +kernel)
  obtain ⟨f, hf, himports⟩ := Option.map_eq_some_iff.1 himports
  exact ⟨c, _, f, hc, he, hb, himports, hf, hproblems⟩

end Workspace

end CueScope
