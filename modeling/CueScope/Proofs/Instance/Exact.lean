import CueScope.Proofs.Instance.Contents
import CueScope.Proofs.Instance.Course

/-!
# What loading comes to

* `Followed`, `Arrived`, `Answered`: all that following import paths, loading a directory and
  answering a request do. Each path that leads somewhere is linked to the instance of the directory
  it leads to, and so it is with the instances that are loaded on the way.
* `exists_request`: every instance is loaded for one of the requests, and imports what is found in
  the module known by then (`Workspace.moduleOf`).
* `Workspace.load_exact`: loading comes to an end. Instances have different directories, their files
  are those of the directory that are of their package, and what they look up is what they import.

The disk is any tree of files, but no links are in it and relative paths are not found there.
-/

namespace CueScope

namespace Instances

/-- What is loaded and registered stays so. -/
structure Within (i i' : Instances) : Prop where
  all : i.all <+: i'.all
  edges : i.edges <+: i'.edges
  roots : i.roots <+: i'.roots
  sources : i.sources.Within i'.sources

variable {i i' i'' : Instances} {u v : InstanceId} {dir : Path}

theorem Within.refl (i : Instances) : i.Within i :=
  ⟨List.prefix_refl _, List.prefix_refl _, List.prefix_refl _, fun _ _ hf => hf⟩

theorem Within.trans (h : i.Within i') (h' : i'.Within i'') : i.Within i'' :=
  ⟨h.all.trans h'.all, h.edges.trans h'.edges, h.roots.trans h'.roots, h.sources.trans h'.sources⟩

theorem Within.get?_of_lt (h : i.Within i') (hu : u < i.all.length) : i'.get? u = i.get? u := by
  obtain ⟨js, hjs⟩ := h.all
  unfold Instances.get?
  rw [← hjs, List.getElem?_append_left hu]

theorem Within.get? (h : i.Within i') {j : Instance} (hj : i.get? u = some j) :
    i'.get? u = some j := by
  rw [h.get?_of_lt (List.getElem?_eq_some_iff.1 hj).1, hj]

theorem Within.find? (h : i.Within i') (hv : i.find? dir = some v) : i'.find? dir = some v := by
  obtain ⟨js, hjs⟩ := h.all
  unfold Instances.find? at hv ⊢
  rw [← hjs, List.findIdx?_append, hv]
  rfl

theorem find?_eq_some (hv : i.find? dir = some v) : ∃ j, i.get? v = some j ∧ (j.dir == dir) = true := by
  obtain ⟨hlt, hdir, -⟩ := List.findIdx?_eq_some_iff_getElem.1 hv
  exact ⟨i.all[v], List.getElem?_eq_getElem hlt, hdir⟩

end Instances

namespace Load

variable {w : Workspace} {m? : Option Module} {dir : Path} {choice : PackageChoice}
  {display path : String} {paths : List String} {s t t' : State} {i i' : Instances}
  {id u v : InstanceId} {e : ImportEdge}

/-! ## Edges -/

/-- The instance has an edge for an import path if it leads somewhere. -/
def Linked (w : Workspace) (m? : Option Module) (i : Instances) (u : InstanceId) (path : String) :
    Prop :=
  ∀ dir, importTarget? w m? path = some dir → ∃ e ∈ i.edges, e.importer = u ∧ e.path = path

/-- The edge leads to the instance of the directory that its path leads to. -/
def Leads (w : Workspace) (m? : Option Module) (i : Instances) (e : ImportEdge) : Prop :=
  ∃ dir, importTarget? w m? e.path = some dir ∧ i.find? dir = some e.target

/-- The instance was made for an import. -/
def MadeFor (w : Workspace) (i : Instances) (v : InstanceId) (e : ImportEdge) : Prop :=
  e.target = v ∧ ∃ j, i.get? v = some j ∧ j.display = e.path ∧
    j.Made w i.sources (importChoice e.path)

theorem Linked.within (h : Linked w m? i u path) (hi : i.Within i') : Linked w m? i' u path := by
  intro dir hdir
  obtain ⟨e, he, hpath⟩ := h dir hdir
  exact ⟨e, hi.edges.subset he, hpath⟩

theorem Leads.within (h : Leads w m? i e) (hi : i.Within i') : Leads w m? i' e := by
  obtain ⟨dir, hdir, hfound⟩ := h
  exact ⟨dir, hdir, hi.find? hfound⟩

theorem MadeFor.within (h : MadeFor w i v e) (hi : i.Within i') : MadeFor w i' v e := by
  obtain ⟨htarget, j, hj, hdisplay, hmade⟩ := h
  exact ⟨htarget, j, hi.get? hj, hdisplay, hmade.within hi.sources⟩

theorem link_within (s : State) (e : ImportEdge) : s.found.Within (s.link e).found :=
  ⟨List.prefix_refl _, List.prefix_append _ _, List.prefix_refl _, fun _ _ hf => hf⟩

/-! ## Steps -/

/-- What following import paths of an instance comes to. -/
structure Followed (w : Workspace) (id : InstanceId) (paths : List String) (s t : State) : Prop where
  read : t.found.sources.ReadFrom w
  within : s.found.Within t.found
  module?_eq : t.module? = s.module?
  /-- The edges that are added are those of the instance and of further instances. -/
  edges : ∀ e ∈ t.found.edges, e ∈ s.found.edges ∨
    ((e.importer = id ∨ s.found.all.length ≤ e.importer) ∧ Leads w s.module? t.found e)
  linked : ∀ path ∈ paths, Linked w s.module? t.found id path
  /-- All that further instances import is followed too. -/
  more : ∀ u j, s.found.all.length ≤ u → t.found.get? u = some j →
    ∀ path ∈ importPaths j.files, Linked w s.module? t.found u path
  /-- Further instances are made for imports. -/
  made : ∀ v, s.found.all.length ≤ v → v < t.found.all.length →
    ∃ e ∈ t.found.edges, MadeFor w t.found v e

/-- What loading a directory comes to: it has the instance `id`. -/
structure Arrived (w : Workspace) (dir : Path) (choice : PackageChoice) (display : String)
    (s t : State) (id : InstanceId) : Prop where
  read : t.found.sources.ReadFrom w
  within : s.found.Within t.found
  module?_eq : t.module? = s.module?
  /-- The edges that are added are those of further instances. -/
  edges : ∀ e ∈ t.found.edges,
    e ∈ s.found.edges ∨ (s.found.all.length ≤ e.importer ∧ Leads w s.module? t.found e)
  /-- All that further instances import is followed. -/
  more : ∀ u j, s.found.all.length ≤ u → t.found.get? u = some j →
    ∀ path ∈ importPaths j.files, Linked w s.module? t.found u path
  found : t.found.find? dir = some id
  /-- The instance is made as wanted unless the directory was loaded before. -/
  first : s.found.find? dir = none → ∃ j, t.found.get? id = some j ∧ j.display = display ∧
    j.Made w t.found.sources choice
  /-- All other instances that are added are made for imports. -/
  made : ∀ v, s.found.all.length ≤ v → v < t.found.all.length →
    (v = id ∧ s.found.find? dir = none) ∨ ∃ e ∈ t.found.edges, MadeFor w t.found v e

theorem Followed.nil (h : s.found.sources.ReadFrom w) : Followed w id [] s s where
  read := h
  within := .refl _
  module?_eq := rfl
  edges _ he := .inl he
  linked := nofun
  more _ _ hu hj := absurd (List.getElem?_eq_some_iff.1 hj).1 (Nat.not_lt.2 hu)
  made _ hv hlt := absurd hlt (Nat.not_lt.2 hv)

/-- A path that leads nowhere is passed over. -/
theorem Followed.nowhere (hnone : importTarget? w s.module? path = none)
    (h : Followed w id paths s t) : Followed w id (path :: paths) s t :=
  { h with
    linked := by
      intro p hp
      rcases List.mem_cons.1 hp with rfl | hp
      · intro dir hdir
        rw [hnone] at hdir
        cases hdir
      · exact h.linked p hp }

/-- A directory that was loaded has its instance. -/
theorem Arrived.again (h : s.found.sources.ReadFrom w) (hfound : s.found.find? dir = some id) :
    Arrived w dir choice display s s id where
  read := h
  within := .refl _
  module?_eq := rfl
  edges _ he := .inl he
  more _ _ hu hj := absurd (List.getElem?_eq_some_iff.1 hj).1 (Nat.not_lt.2 hu)
  found := hfound
  first hnew := absurd (hfound.symm.trans hnew) nofun
  made _ hv hlt := absurd hlt (Nat.not_lt.2 hv)

/-- A directory that was not loaded has the instance made for it. -/
theorem Arrived.first_of (hread : s.found.sources.ReadFrom w) (hnew : s.found.find? dir = none)
    (h : Followed w s.found.all.length (instantiate w dir choice display s).1
      (instantiate w dir choice display s).2 t) :
    Arrived w dir choice display s t s.found.all.length := by
  obtain ⟨j, hall, hpaths, hdir, hdisplay, hmade⟩ :=
    instantiate_made dir choice display hread
  have hstart : s.found.Within (instantiate w dir choice display s).2.found :=
    ⟨List.prefix_append _ _, List.prefix_refl _, List.prefix_refl _, instantiate_within hread⟩
  have hmodule : (instantiate w dir choice display s).2.module? = s.module? := rfl
  have hedges : (instantiate w dir choice display s).2.found.edges = s.found.edges := rfl
  generalize instantiate w dir choice display s = r at *
  obtain ⟨paths, s₁⟩ := r
  dsimp only at *
  have hlen : s₁.found.all.length = s.found.all.length + 1 := by rw [hall]; simp
  have hj : s₁.found.get? s.found.all.length = some j := by
    rw [Instances.get?, hall]
    exact List.getElem?_concat_length
  have hfound : s₁.found.find? dir = some s.found.all.length := by
    unfold Instances.find? at hnew ⊢
    rw [hall, List.findIdx?_append, hnew]
    simp [List.findIdx?_cons, hdir, Path.beq_iff]
  have hread' := h.read
  have hwithin := h.within
  have hmodule' := h.module?_eq
  have hold := h.edges
  have hlinked := h.linked
  have hmore := h.more
  rw [hmodule] at hmodule' hold hlinked hmore
  refine ⟨h.read, hstart.trans hwithin, hmodule', fun e he => ?_, fun u k hu hk p hp => ?_,
    hwithin.find? hfound, fun _ => ⟨j, hwithin.get? hj, hdisplay, hmade.within hwithin.sources⟩,
    fun v hv hlt => ?_⟩
  · rcases hold e he with he | ⟨himporter, hleads⟩
    · exact .inl (hedges ▸ he)
    · have hle : s.found.all.length ≤ e.importer :=
        himporter.elim (fun hi => Nat.le_of_eq hi.symm) (Nat.le_trans (by omega))
      exact .inr ⟨hle, hleads⟩
  · rcases Nat.eq_or_lt_of_le hu with rfl | hu
    · cases (hwithin.get? hj).symm.trans hk
      exact hlinked p (hpaths ▸ hp)
    · exact hmore u k (by omega) hk p hp
  · rcases Nat.eq_or_lt_of_le hv with rfl | hv
    · exact .inl ⟨rfl, hnew⟩
    · exact .inr (h.made v (by omega) hlt)

/-- A path is linked to the instance of the directory it leads to. -/
theorem Followed.cons (hdir : importTarget? w s.module? path = some dir)
    (h : Arrived w dir (importChoice path) path s t v)
    (hmore : Followed w id paths (t.link ⟨id, path, v⟩) t') : Followed w id (path :: paths) s t' := by
  have hlast : t.found.Within t'.found := (link_within t _).trans hmore.within
  have hlink : (⟨id, path, v⟩ : ImportEdge) ∈ t'.found.edges :=
    hmore.within.edges.subset (List.mem_append_right _ List.mem_cons_self)
  have hle : s.found.all.length ≤ t.found.all.length := h.within.all.length_le
  have hmodule : (t.link ⟨id, path, v⟩).module? = s.module? := h.module?_eq
  have hmodule' := hmore.module?_eq
  have hedges := hmore.edges
  have hlinked := hmore.linked
  have hmore' := hmore.more
  rw [hmodule] at hmodule' hedges hlinked hmore'
  refine ⟨hmore.read, h.within.trans hlast, hmodule', fun e he => ?_, fun p hp => ?_,
    fun u k hu hk p hp => ?_, fun u hu hlt' => ?_⟩
  · rcases hedges e he with he | ⟨himporter, hleads⟩
    · rcases List.mem_append.1 he with he | he
      · exact (h.edges e he).imp_right fun ⟨hi, hleads⟩ => ⟨.inr hi, hleads.within hlast⟩
      · obtain rfl := List.mem_singleton.1 he
        exact .inr ⟨.inl rfl, dir, hdir, hlast.find? h.found⟩
    · exact .inr ⟨himporter.imp_right (Nat.le_trans hle), hleads⟩
  · rcases List.mem_cons.1 hp with rfl | hp
    · exact fun _ _ => ⟨_, hlink, rfl, rfl⟩
    · exact hlinked p hp
  · by_cases hlt : u < t.found.all.length
    · rw [hlast.get?_of_lt hlt] at hk
      exact (h.more u k hu hk p hp).within hlast
    · exact hmore' u k (Nat.le_of_not_lt hlt) hk p hp
  · by_cases hlt : u < t.found.all.length
    · rcases h.made u hu hlt with ⟨rfl, hnew⟩ | ⟨e, he, hmadeFor⟩
      · obtain ⟨j, hj⟩ := h.first hnew
        exact ⟨_, hlink, MadeFor.within ⟨rfl, j, hj⟩ hlast⟩
      · exact ⟨e, hlast.edges.subset he, hmadeFor.within hlast⟩
    · exact hmore.made u (Nat.le_of_not_lt hlt) hlt'

/-- Following imports links all that they lead to. -/
theorem Follows.followed (h : Follows w id paths s t) (hread : s.found.sources.ReadFrom w) :
    Followed w id paths s t := by
  induction h with
  | nil => exact .nil hread
  | nowhere hnone _ ih => exact (ih hread).nowhere hnone
  | again hdir hfound _ ih => exact .cons hdir (.again hread hfound) (ih hread)
  | first hdir hnew _ _ ih ihmore =>
    have h := ih (instantiate_read hread)
    exact .cons hdir (.first_of hread hnew h) (ihmore h.read)

theorem Arrives.arrived (h : Arrives w dir choice display s id t)
    (hread : s.found.sources.ReadFrom w) : Arrived w dir choice display s t id := by
  cases h with
  | again hfound => exact .again hread hfound
  | first hnew hfollows =>
    exact .first_of hread hnew (hfollows.followed (instantiate_read hread))

/-! ## Requests -/

/-- What answering the request for a path comes to. -/
structure Answered (w : Workspace) (path : Path) (s t : State) : Prop where
  read : t.found.sources.ReadFrom w
  within : s.found.Within t.found
  module?_eq : t.module? = s.module?.or (Module.discover? w (dirOf w path))
  edges : ∀ e ∈ t.found.edges,
    e ∈ s.found.edges ∨ (s.found.all.length ≤ e.importer ∧ Leads w t.module? t.found e)
  more : ∀ u j, s.found.all.length ≤ u → t.found.get? u = some j →
    ∀ path ∈ importPaths j.files, Linked w t.module? t.found u path
  /-- The root is the instance of the directory. It is made as wanted unless the directory was
  loaded before; all others that are added are made for imports. -/
  root : ∃ id, t.found.roots = s.found.roots ++ [id] ∧ t.found.find? (dirOf w path) = some id ∧
    (s.found.find? (dirOf w path) = none →
      ∃ j, t.found.get? id = some j ∧ j.Made w t.found.sources (wanted w path s).1) ∧
    ∀ v, s.found.all.length ≤ v → v < t.found.all.length →
      (v = id ∧ s.found.find? (dirOf w path) = none) ∨ ∃ e ∈ t.found.edges, MadeFor w t.found v e

/-- Reading the package clause of a file only registers it. -/
theorem packageOf_registers (w : Workspace) (path : Path) (s : State)
    (hread : s.found.sources.ReadFrom w) :
    (packageOf w path s).2.found.sources.ReadFrom w ∧ ∃ sources, s.found.sources.Within sources ∧
      (packageOf w path s).2 = { s with found := { s.found with sources } } := by
  unfold packageOf
  split
  · exact ⟨hread, _, fun _ _ hf => hf, rfl⟩
  · rename_i text htext
    obtain ⟨hread', hwithin, -⟩ := Sources.add_spec hread htext
    exact ⟨hread', _, hwithin, rfl⟩

theorem wanted_registers (w : Workspace) (path : Path) (s : State)
    (hread : s.found.sources.ReadFrom w) :
    (wanted w path s).2.found.sources.ReadFrom w ∧ ∃ sources, s.found.sources.Within sources ∧
      (wanted w path s).2 = { s with found := { s.found with sources } } := by
  unfold wanted
  dsimp only
  split
  · exact packageOf_registers w _ s hread
  · exact ⟨hread, _, fun _ _ hf => hf, rfl⟩

/-- Roots are not added on the way. -/
theorem Arrives.roots_eq (h : Arrives w dir choice display s id t) :
    t.found.roots = s.found.roots :=
  h.keeps (P := fun t => t.found.roots = s.found.roots) (fun h _ => h) (fun h => h) rfl

/-- A request is answered by a package of its directory, be it there already or new. -/
theorem request_answered (path : Path) (hread : s.found.sources.ReadFrom w) :
    Answered w path s (request w path s) := by
  obtain ⟨hread', sources, hsources, hwanted⟩ := wanted_registers w path s hread
  rw [request_eq_enter]
  have hasks := asks_iff.2 (rfl : enter w (dirOf w path) (wanted w path s).1 (wanted w path s).2 = _)
  generalize enter w (dirOf w path) (wanted w path s).1 (wanted w path s).2 = t at hasks ⊢
  rw [hwanted] at hread' hasks
  cases hasks with
  | @intro t id harrives =>
    have h := harrives.arrived hread'
    have hmodule : t.module? = s.module?.or (Module.discover? w (dirOf w path)) := h.module?_eq
    have hedges := h.edges
    have hmore := h.more
    rw [← h.module?_eq] at hedges hmore
    have hroots : (t.root id).found.roots = s.found.roots ++ [id] :=
      congrArg (· ++ [id]) harrives.roots_eq
    obtain ⟨hall, hold, -, hlater⟩ := h.within
    refine ⟨h.read, ⟨hall, hold, hroots ▸ List.prefix_append _ _, hsources.trans hlater⟩, hmodule,
      hedges, hmore, id, hroots, h.found, fun hnew => ?_, h.made⟩
    · obtain ⟨j, hj, -, hmade⟩ := h.first hnew
      exact ⟨j, hj, hmade⟩

/-! ## One request after the other -/

/-- The state after some requests. -/
def after (w : Workspace) (paths : List Path) : State :=
  paths.foldl (fun s path => request w path s) {}

theorem after_concat (w : Workspace) (paths : List Path) (path : Path) :
    after w (paths ++ [path]) = request w path (after w paths) := by
  rw [after, List.foldl_append]
  rfl

theorem answered (w : Workspace) (paths : List Path) (path : Path) :
    Answered w path (after w paths) (after w (paths ++ [path])) := by
  rw [after_concat]
  exact request_answered path (w.load_loaded paths).texts

/-- Later requests change nothing that was loaded. -/
theorem after_within (w : Workspace) (paths more : List Path) :
    (w.load paths).Within (w.load (paths ++ more)) := by
  induction more using List.reverseRecOn with
  | nil =>
    rw [List.append_nil]
    exact .refl _
  | append_singleton more path ih =>
    rw [← List.append_assoc]
    exact ih.trans (answered w (paths ++ more) path).within

/-- Later requests add no edges of instances that are there. -/
theorem mem_edges_of_lt {paths more : List Path} (he : e ∈ (w.load (paths ++ more)).edges)
    (hlt : e.importer < (w.load paths).all.length) : e ∈ (w.load paths).edges := by
  induction more using List.reverseRecOn with
  | nil => rwa [List.append_nil] at he
  | append_singleton more path ih =>
    rw [← List.append_assoc] at he
    rcases (answered w (paths ++ more) path).edges e he with he | ⟨hle, -⟩
    · exact ih he
    · have := (after_within w paths more).all.length_le
      exact absurd hlt (Nat.not_lt.2 (Nat.le_trans this hle))

/-- There is a root for each request. -/
theorem length_roots (w : Workspace) (paths : List Path) :
    (w.load paths).roots.length = paths.length := by
  induction paths using List.reverseRecOn with
  | nil => rfl
  | append_singleton paths path ih =>
    obtain ⟨id, hroots, -⟩ := (answered w paths path).root
    rw [List.length_append, ← ih]
    exact (congrArg List.length hroots).trans List.length_append

/-- Every instance is loaded for one of the requests. -/
theorem exists_request {paths : List Path} (hu : u < (w.load paths).all.length) :
    ∃ before path more, paths = before ++ path :: more ∧ (w.load before).all.length ≤ u ∧
      u < (w.load (before ++ [path])).all.length := by
  induction paths using List.reverseRecOn with
  | nil => exact absurd hu (Nat.not_lt_zero u)
  | append_singleton paths path ih =>
    by_cases hlt : u < (w.load paths).all.length
    · obtain ⟨before, p, more, rfl, h⟩ := ih hlt
      exact ⟨before, p, more ++ [path], by simp, h⟩
    · exact ⟨paths, path, [], rfl, Nat.le_of_not_lt hlt, hu⟩

end Load

/-! ## What is loaded -/

namespace Workspace

/-- The module that imports are resolved in after some requests: the first one that a directory
asked for is in. -/
def moduleOf (w : Workspace) (paths : List Path) : Option Module :=
  paths.findSome? fun path => Module.discover? w (Load.dirOf w path)

theorem module?_after (w : Workspace) (paths : List Path) :
    (Load.after w paths).module? = w.moduleOf paths := by
  induction paths using List.reverseRecOn with
  | nil => rfl
  | append_singleton paths path ih =>
    rw [(Load.answered w paths path).module?_eq, ih, moduleOf, moduleOf, List.findSome?_append,
      List.findSome?_singleton]

/-- The instance `u` is loaded for a path, when the module that imports are resolved in is `m?`. -/
def ModuleFor (w : Workspace) (paths : List Path) (u : InstanceId) (m? : Option Module) : Prop :=
  ∃ before path more, paths = before ++ path :: more ∧ (w.load before).all.length ≤ u ∧
    u < (w.load (before ++ [path])).all.length ∧ m? = w.moduleOf (before ++ [path])

/-- A directory has files to list exactly if some source file lies in it. -/
theorem list_ne_nil_iff {w : Workspace} {dir : Path} :
    w.list dir ≠ [] ↔ ∃ p, isSource p ∧ w.Lies dir p := by
  constructor
  · intro h
    obtain ⟨p, hp⟩ := List.exists_mem_of_ne_nil _ h
    exact ⟨p, mem_list hp⟩
  · rintro ⟨p, hsource, hlies⟩ hnil
    obtain ⟨q, hq, -⟩ := hlies.exists_mem_list hsource
    rw [hnil] at hq
    cases hq

/-- `w.Loads paths i`: answering the requests, however deep imports nest, comes to an end with the
instances `i`. -/
def Loads (w : Workspace) (paths : List Path) (i : Instances) : Prop :=
  ∃ s, Load.Answers w paths {} s ∧ s.found = i

end Workspace

namespace Instances

/-- What an instance looks up is what its files import, resolved in a module. -/
structure Resolves (w : Workspace) (m? : Option Module) (i : Instances) (u : InstanceId) : Prop where
  /-- A path is found exactly if a file imports it and it leads to a directory with source files. -/
  isSome_iff : ∀ path, (i.lookup? u path).isSome ↔
    (∃ j, i.get? u = some j ∧ ∃ t ∈ j.files, ∃ spec ∈ t.imports, spec.path? = some path) ∧
      ∃ dir, m?.bind (·.importDir? path) = some dir ∧ ∃ p, Workspace.isSource p ∧ w.Lies dir p
  /-- What is found has this directory, and the edge to it is the only one for the path. -/
  target : ∀ path v, i.lookup? u path = some v →
    (∃ dir j, m?.bind (·.importDir? path) = some dir ∧ i.get? v = some j ∧ (j.dir == dir) = true) ∧
      i.edges.filter (fun e => e.importer = u ∧ e.path = path) = [⟨u, path, v⟩]

/-- The instances are just what the paths ask for. -/
structure Exact (w : Workspace) (paths : List Path) (i : Instances) : Prop where
  /-- Instances have different directories. -/
  dirs : i.all.Pairwise fun j k => (j.dir == k.dir) = false
  /-- The files of an instance are those of the readable source files of its directory that are of
  its package. Each is parsed from the text registered under its number. -/
  files : ∀ j ∈ i.all, ∃ texts trees, w.Offers j.dir texts ∧ i.sources.Parsed texts trees ∧
    j.files = trees.filter (·.packageName = j.package)
  /-- Every instance is loaded for a path, and then there is a module or none. -/
  loaded : ∀ u < i.all.length, ∃ m?, w.ModuleFor paths u m?
  /-- Its imports are resolved in this module. -/
  imports : ∀ u m?, w.ModuleFor paths u m? → i.Resolves w m? u

variable {w : Workspace} {m? : Option Module} {i : Instances} {u v : InstanceId} {path : String}

theorem exists_edge (h : i.lookup? u path = some v) : (⟨u, path, v⟩ : ImportEdge) ∈ i.edges := by
  obtain ⟨e, he, rfl⟩ := Option.map_eq_some_iff.1 h
  have hmatch : e.importer = u ∧ e.path = path := by simpa using List.find?_some he
  obtain ⟨rfl, rfl⟩ := hmatch
  exact List.mem_of_find?_eq_some he

/-- There is one edge for a path. -/
theorem Joined.filter_eq (h : i.Joined) (he : (⟨u, path, v⟩ : ImportEdge) ∈ i.edges) :
    i.edges.filter (fun e => e.importer = u ∧ e.path = path) = [⟨u, path, v⟩] := by
  have hmem : (⟨u, path, v⟩ : ImportEdge) ∈
      i.edges.filter fun e => e.importer = u ∧ e.path = path := by simp [he]
  have hunique := h.unique.filter fun e => e.importer = u ∧ e.path = path
  have hmatch : ∀ e ∈ i.edges.filter (fun e => e.importer = u ∧ e.path = path),
      e.importer = u ∧ e.path = path := fun e he => by simpa using (List.mem_filter.1 he).2
  generalize i.edges.filter (fun e => e.importer = u ∧ e.path = path) = es at *
  rcases es with _ | ⟨e, _ | ⟨e', es⟩⟩
  · cases hmem
  · rw [List.mem_singleton.1 hmem]
  · have hne := (List.pairwise_cons.1 hunique).1 e' List.mem_cons_self
    obtain ⟨himporter, hpath⟩ := hmatch e List.mem_cons_self
    obtain ⟨himporter', hpath'⟩ := hmatch e' (List.mem_cons_of_mem _ List.mem_cons_self)
    exact absurd (hpath.trans hpath'.symm) (hne (himporter.trans himporter'.symm))

/-- Imports are resolved if paths that lead somewhere are linked, and edges lead there. -/
theorem Joined.resolves (h : i.Joined)
    (hlinked : ∀ j, i.get? u = some j → ∀ path ∈ Load.importPaths j.files,
      Load.Linked w m? i u path)
    (hleads : ∀ e ∈ i.edges, e.importer = u → Load.Leads w m? i e) : i.Resolves w m? u where
  isSome_iff := by
    intro path
    constructor
    · intro hsome
      obtain ⟨v, hv⟩ := Option.isSome_iff_exists.1 hsome
      obtain ⟨j, hj, hpath⟩ := h.stated _ (exists_edge hv)
      obtain ⟨dir, hdir, -⟩ := hleads _ (exists_edge hv) rfl
      obtain ⟨hdir, hlist⟩ := Load.importTarget?_eq_some.1 hdir
      exact ⟨⟨j, hj, Load.mem_importPaths.1 hpath⟩, dir, hdir, Workspace.list_ne_nil_iff.1 hlist⟩
    · rintro ⟨⟨j, hj, himport⟩, dir, hdir, hlist⟩
      obtain ⟨e, he, rfl, rfl⟩ := hlinked j hj path (Load.mem_importPaths.2 himport) dir
        (Load.importTarget?_eq_some.2 ⟨hdir, Workspace.list_ne_nil_iff.2 hlist⟩)
      rw [h.lookup?_eq he]
      rfl
  target := by
    intro path v hv
    have he := exists_edge hv
    obtain ⟨dir, hdir, hfound⟩ := hleads _ he rfl
    obtain ⟨j, hj, hsame⟩ := find?_eq_some hfound
    exact ⟨⟨dir, j, (Load.importTarget?_eq_some.1 hdir).1, hj, hsame⟩, h.filter_eq he⟩

end Instances

namespace Workspace

theorem loads_iff {w : Workspace} {paths : List Path} {i : Instances} :
    w.Loads paths i ↔ i = w.load paths := by
  unfold Loads
  constructor
  · rintro ⟨s, hs, rfl⟩
    rw [Load.answers_iff.1 hs]
    rfl
  · rintro rfl
    exact ⟨_, Load.answers_iff.2 rfl, rfl⟩

/-- An edge leads where its path leads in the module known when its importer is loaded. -/
theorem load_leads {w : Workspace} {before more : List Path} {path : Path} {e : ImportEdge}
    (he : e ∈ (w.load (before ++ path :: more)).edges)
    (hle : (w.load before).all.length ≤ e.importer)
    (hlt : e.importer < (w.load (before ++ [path])).all.length) :
    Load.Leads w (w.moduleOf (before ++ [path])) (w.load (before ++ path :: more)) e := by
  rw [List.append_cons before path more] at he ⊢
  have hedges := (Load.answered w before path).edges
  rw [module?_after] at hedges
  rcases hedges e (Load.mem_edges_of_lt he hlt) with he | ⟨-, hleads⟩
  · -- an edge that was there before would have its importer there
    obtain ⟨k, hk, -⟩ := (w.load_joined before).stated e he
    exact absurd (List.getElem?_eq_some_iff.1 hk).1 (Nat.not_lt.2 hle)
  · exact hleads.within (Load.after_within w (before ++ [path]) more)

/-- A new instance has resolved its imports by the module of the request that brought it. -/
theorem load_resolves {w : Workspace} {before more : List Path} {path : Path} {u : InstanceId}
    (hle : (w.load before).all.length ≤ u) (hlt : u < (w.load (before ++ [path])).all.length) :
    (w.load (before ++ path :: more)).Resolves w (w.moduleOf (before ++ [path])) u := by
  have hwithin := Load.after_within w (before ++ [path]) more
  rw [← List.append_cons before path more] at hwithin
  have hmore := (Load.answered w before path).more
  rw [module?_after] at hmore
  refine (w.load_joined _).resolves (fun j hj p hp => ?_) fun e he himporter => ?_
  · rw [hwithin.get?_of_lt hlt] at hj
    exact (hmore u j hle hj p hp).within hwithin
  · subst himporter
    exact load_leads he hle hlt

/-- The root for a path is made as the path wants, unless its directory was loaded before. All other
instances that are loaded for the path are made for imports. -/
theorem load_root (w : Workspace) (before more : List Path) (path : Path) :
    ∃ r, (w.load (before ++ path :: more)).roots[before.length]? = some r ∧
      (w.load (before ++ path :: more)).find? (Load.dirOf w path) = some r ∧
      ((w.load before).all.length ≤ r → ∃ j, (w.load (before ++ path :: more)).get? r = some j ∧
        j.Made w (w.load (before ++ path :: more)).sources
          (Load.wanted w path (Load.after w before)).1) ∧
      ∀ v, (w.load before).all.length ≤ v → v < (w.load (before ++ [path])).all.length →
        v = r ∨ ∃ e ∈ (w.load (before ++ path :: more)).edges,
          Load.MadeFor w (w.load (before ++ path :: more)) v e := by
  have hwithin := Load.after_within w (before ++ [path]) more
  rw [← List.append_cons] at hwithin
  obtain ⟨r, hroots, hfound, hfirst, hmade⟩ := (Load.answered w before path).root
  refine ⟨r, ?_, hwithin.find? hfound, fun hle => ?_, fun v hle hlt => ?_⟩
  · obtain ⟨ids, hids⟩ := hwithin.roots
    have hlen := Load.length_roots w before
    change (w.load (before ++ [path])).roots = (w.load before).roots ++ [r] at hroots
    rw [← hids, hroots, ← hlen, List.append_assoc, List.getElem?_append_right (Nat.le_refl _),
      Nat.sub_self]
    rfl
  · have hnew : (w.load before).find? (Load.dirOf w path) = none := by
      by_contra hsome
      obtain ⟨v, hv⟩ := Option.ne_none_iff_exists'.1 hsome
      cases ((Load.answered w before path).within.find? hv).symm.trans hfound
      exact absurd (List.findIdx?_eq_some_iff_getElem.1 hv).1 (Nat.not_lt.2 hle)
    obtain ⟨j, hj, hmade⟩ := hfirst hnew
    exact ⟨j, hwithin.get? hj, hmade.within hwithin.sources⟩
  · exact (hmade v hle hlt).imp And.left fun ⟨e, he, hmadeFor⟩ =>
      ⟨e, hwithin.edges.subset he, hmadeFor.within hwithin⟩

/-- An instance is that of a request, or it is loaded for an import. -/
theorem root_or_imported {w : Workspace} {paths : List Path} {v : InstanceId}
    (hv : v < (w.load paths).all.length) :
    v ∈ (w.load paths).roots ∨ ∃ e ∈ (w.load paths).edges, e.target = v ∧
      ∃ j, (w.load paths).get? v = some j ∧ j.display = e.path := by
  obtain ⟨before, path, more, rfl, hle, hlt⟩ := Load.exists_request hv
  obtain ⟨r, hr, -, -, hmade⟩ := w.load_root before more path
  rcases hmade v hle hlt with rfl | ⟨e, he, htarget, j, hj, hdisplay, -⟩
  · exact .inl (List.mem_of_getElem? hr)
  · exact .inr ⟨e, he, htarget, j, hj, hdisplay⟩

/-- Every instance was made from its directory. -/
theorem load_made {w : Workspace} {paths : List Path} {j : Instance}
    (hj : j ∈ (w.load paths).all) : ∃ choice, j.Made w (w.load paths).sources choice := by
  obtain ⟨u, hu, rfl⟩ := List.getElem_of_mem hj
  obtain ⟨before, path, more, rfl, hle, hlt⟩ := Load.exists_request hu
  have hhere := List.getElem?_eq_getElem hu
  obtain ⟨r, -, -, hroot, hmade⟩ := w.load_root before more path
  rcases hmade u hle hlt with rfl | ⟨e, -, -, k, hk, -, hmade⟩
  · obtain ⟨k, hk, hmade⟩ := hroot hle
    cases hk.symm.trans hhere
    exact ⟨_, hmade⟩
  · cases hk.symm.trans hhere
    exact ⟨_, hmade⟩

/-- Loading comes to an end, however imports nest, and the instances are just what was asked for.
A disk is a tree without links, in which only absolute paths lead somewhere (`Disk.locate?`). -/
theorem load_exact (w : Workspace) (paths : List Path) :
    (∀ i, w.Loads paths i ↔ i = w.load paths) ∧ (w.load paths).Exact w paths := by
  refine ⟨fun i => loads_iff, (w.load_loaded paths).dirs, fun j hj => ?_, fun u hu => ?_, ?_⟩
  · obtain ⟨choice, trees, hparsed, -, hfiles⟩ := load_made hj
    exact ⟨_, trees, w.offers_textsIn j.dir, hparsed, hfiles⟩
  · obtain ⟨before, path, more, rfl, hle, hlt⟩ := Load.exists_request hu
    exact ⟨_, before, path, more, rfl, hle, hlt, rfl⟩
  · rintro u m? ⟨before, path, more, rfl, hle, hlt, rfl⟩
    exact load_resolves hle hlt

end Workspace

end CueScope
