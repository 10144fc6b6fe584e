import CueScope.Proofs.Instance.Directory
import CueScope.Proofs.Instance.Exact
import CueScope.Proofs.Tree.Header

/-!
# Who comes first

A directory is loaded once, for the first request or import that reaches it. Others get the
instance it has by then, whatever package they ask for.

* `Selection`: what an instance is of, apart from the numbers and spellings of its files. It depends
  on the directory and the package alone (`Instance.Made.selection`).
* `Workspace.Requests`, `Workspace.Imports`: what a request or an import selects on its own.
* `Workspace.load_served`: every instance is what the one that it was loaded for selects on its own,
  and others get it only if they agree on the package.
-/

namespace CueScope

/-! ## Selections -/

/-- What is selected in a directory: a package, and the paths of its files. Spelling does not
count. -/
structure Selection where
  dir : List Path.Component
  package : Option String
  files : List (Option (List Path.Component))
deriving DecidableEq

/-- What an instance is of. -/
def Instances.selection? (i : Instances) (v : InstanceId) : Option Selection :=
  (i.get? v).map fun j => ⟨j.dir.components, j.package,
    j.files.map fun t => (i.sources.path? t.file).map Path.components⟩

namespace Workspace

variable {w : Workspace} {dir dir' : Path} {package : Option String} {choice : PackageChoice}

/-- The trees of the source files of a directory. -/
def treesIn (w : Workspace) (dir : Path) : List SourceTree :=
  (w.textsIn dir).map fun e => (SourceTree.parse 0 e.2).1

/-- The package that is chosen in a directory. -/
def choose (w : Workspace) (dir : Path) (choice : PackageChoice) : Option String :=
  choice.pick (w.treesIn dir)

/-- The files of a package in a directory. -/
def select (w : Workspace) (dir : Path) (package : Option String) : Selection :=
  ⟨dir.components, package,
    ((w.textsIn dir).filter fun e => (SourceTree.parse 0 e.2).1.packageName = package).map fun e =>
      some e.1.components⟩

theorem choose_congr (h : (dir == dir') = true) : w.choose dir choice = w.choose dir' choice := by
  have htrees : w.treesIn dir = w.treesIn dir' := by
    have htexts := w.textsIn_congr h
    unfold treesIn
    generalize w.textsIn dir = texts, w.textsIn dir' = texts' at htexts
    induction htexts with
    | nil => rfl
    | cons he _ ih => rw [List.map_cons, List.map_cons, he.2, ih]
  rw [choose, choose, htrees]

/-- A selection does not depend on how the directory is spelled. -/
theorem select_congr (h : (dir == dir') = true) : w.select dir package = w.select dir' package := by
  have htexts := w.textsIn_congr h
  unfold select
  rw [Path.beq_iff.1 h]
  congr 1
  generalize w.textsIn dir = texts, w.textsIn dir' = texts' at htexts
  induction htexts with
  | nil => rfl
  | cons he _ ih =>
    rw [List.filter_cons, List.filter_cons, he.2]
    split
    · rw [List.map_cons, List.map_cons, ih, Path.beq_iff.1 he.1]
    · exact ih

end Workspace

/-- The package picked depends on the packages of the files alone. -/
theorem PackageChoice.pick_congr {choice : PackageChoice} {trees trees' : List SourceTree}
    (h : trees.map (·.packageName) = trees'.map (·.packageName)) :
    choice.pick trees = choice.pick trees' := by
  have hnames : trees.filterMap (·.packageName) = trees'.filterMap (·.packageName) := by
    have hid := congrArg (List.filterMap id) h
    rwa [List.filterMap_map, List.filterMap_map] at hid
  unfold PackageChoice.pick
  rw [hnames]

/-- The package of a tree is that of its text, whatever number its file has. -/
theorem packageName_of_eq_parse {t : SourceTree} {text : String}
    (h : t = (SourceTree.parse t.file text).1) :
    t.packageName = (SourceTree.parse 0 text).1.packageName := by
  rw [h]
  exact SourceTree.packageName_parse _ _ _

section parsed

variable {s : Sources} {texts : List (Path × String)} {trees : List SourceTree}

/-- The packages of trees are those of their texts. -/
theorem Sources.Parsed.map_packageName (h : s.Parsed texts trees) :
    trees.map (·.packageName) =
      (texts.map fun e => (SourceTree.parse 0 e.2).1).map (·.packageName) := by
  have heach := h.each
  clear h
  induction heach with
  | nil => rfl
  | @cons e t _ _ ht _ ih =>
    rw [List.map_cons, List.map_cons, List.map_cons, packageName_of_eq_parse ht.2, ih]

/-- The files of a package are at the paths of their texts. -/
theorem Sources.Parsed.map_path? (h : s.Parsed texts trees) (package : Option String) :
    (trees.filter (·.packageName = package)).map (fun t => (s.path? t.file).map Path.components) =
      (texts.filter fun e => (SourceTree.parse 0 e.2).1.packageName = package).map fun e =>
        some e.1.components := by
  have heach := h.each
  clear h
  induction heach with
  | nil => rfl
  | @cons e t _ _ ht _ ih =>
    obtain ⟨f, hf, hpath, -⟩ := ht.1
    have hplace : (s.path? t.file).map Path.components = some e.1.components := by
      rw [Sources.path?, hf]
      exact congrArg some (Path.beq_iff.1 hpath)
    rw [List.filter_cons, List.filter_cons, packageName_of_eq_parse ht.2]
    split
    · rw [List.map_cons, List.map_cons, ih, hplace]
    · exact ih

end parsed

/-- An instance is what its package selects in its directory. -/
theorem Instance.Made.selection {w : Workspace} {i : Instances} {v : InstanceId} {j : Instance}
    {choice : PackageChoice} {dir : Path} (h : j.Made w i.sources choice) (hj : i.get? v = some j)
    (hdir : (j.dir == dir) = true) :
    i.selection? v = some (w.select dir (w.choose dir choice)) := by
  obtain ⟨trees, hparsed, hpackage, hfiles⟩ := h
  have hchoice : j.package = w.choose j.dir choice := by
    rw [hpackage]
    exact PackageChoice.pick_congr hparsed.map_packageName
  have hpaths := hparsed.map_path? j.package
  rw [← hfiles] at hpaths
  rw [← Workspace.select_congr hdir, ← Workspace.choose_congr hdir, ← hchoice, Instances.selection?, hj,
    Option.map_some, hpaths]
  rfl

/-! ## On its own -/

namespace Workspace

variable {w : Workspace} {paths : List Path} {path : Path} {e : ImportEdge}

/-- A request for the path alone selects `b`. -/
def Requests (w : Workspace) (path : Path) (b : Selection) : Prop :=
  ∃ r, (w.load [path]).roots = [r] ∧ (w.load [path]).selection? r = some b

/-- What is loaded of a directory for an import, if nothing was loaded before. -/
def alone (w : Workspace) (m? : Option Module) (dir : Path) (path : String) : Instances :=
  (Load.directory w (w.volume + 2) dir (Load.importChoice path) path { module? := m? }).2.found

/-- The import alone selects `b`, in the directory that its path leads to. -/
def Imports (w : Workspace) (paths : List Path) (e : ImportEdge) (b : Selection) : Prop :=
  ∃ m? dir, w.ModuleFor paths e.importer m? ∧ m?.bind (·.importDir? e.path) = some dir ∧
    (w.alone m? dir e.path).selection? 0 = some b ∧ b.dir = dir.components

/-- The package that a path asks for does not depend on what was loaded before. -/
theorem wanted_congr (w : Workspace) (path : Path) (s s' : Load.State) :
    (Load.wanted w path s).1 = (Load.wanted w path s').1 := by
  have hpackage : ∀ p, (Load.packageOf w p s).1 = (Load.packageOf w p s').1 := by
    intro p
    unfold Load.packageOf
    cases w.read? p with
    | none => rfl
    | some text =>
      dsimp only
      exact SourceTree.packageName_parse _ _ _
  unfold Load.wanted
  dsimp only
  split
  · rw [hpackage]
  · rfl

/-- A request asks for the package that its path names. -/
theorem requests (w : Workspace) (path : Path) : w.Requests path (w.select (Load.dirOf w path)
    (w.choose (Load.dirOf w path) (Load.wanted w path {}).1)) := by
  obtain ⟨r, hr, hfound, hmade, -⟩ := w.load_root [] [] path
  obtain ⟨j, hj, hmade⟩ := hmade (Nat.zero_le r)
  have hlen := Load.length_roots w [path]
  refine ⟨r, ?_, hmade.selection hj ?_⟩
  · obtain ⟨r', hr'⟩ := List.length_eq_one_iff.1 hlen
    have hone : (w.load [path]).roots[0]? = some r := hr
    rw [hr'] at hone ⊢
    rw [Option.some.inj hone]
  · obtain ⟨k, hk, hdir⟩ := Instances.find?_eq_some hfound
    cases hk.symm.trans hj
    exact hdir

theorem selection?_alone (w : Workspace) (m? : Option Module) (dir : Path) (path : String) :
    (w.alone m? dir path).selection? 0 =
      some (w.select dir (w.choose dir (Load.importChoice path))) := by
  have harrives : Load.Arrives w dir (Load.importChoice path) path { module? := m? } _ _ :=
    Load.arrives_directory (.volume w dir { module? := m? })
  unfold alone
  generalize (Load.directory w (w.volume + 2) dir (Load.importChoice path) path
    { module? := m? }).2 = t, (Load.directory w (w.volume + 2) dir (Load.importChoice path) path
    { module? := m? }).1 = id at harrives ⊢
  have h := harrives.arrived fun _ hf => nomatch hf
  obtain ⟨j, hj, -, hmade⟩ := h.first rfl
  obtain ⟨k, hk, hdir⟩ := Instances.find?_eq_some h.found
  cases hk.symm.trans hj
  cases harrives with
  | again hfound => cases hfound
  | first => exact hmade.selection hj hdir

/-- An edge leads to an instance of the package that its import selects. -/
theorem imports_of_mem (he : e ∈ (w.load paths).edges) : ∃ dir,
    (w.load paths).find? dir = some e.target ∧
      w.Imports paths e (w.select dir (w.choose dir (Load.importChoice e.path))) := by
  obtain ⟨k, hk, -⟩ := (w.load_joined paths).stated e he
  obtain ⟨before, path, more, rfl, hle, hlt⟩ :=
    Load.exists_request (List.getElem?_eq_some_iff.1 hk).1
  obtain ⟨dir, hdir, hfound⟩ := load_leads he hle hlt
  exact ⟨dir, hfound, _, dir, ⟨before, path, more, rfl, hle, hlt, rfl⟩,
    (Load.importTarget?_eq_some.1 hdir).1, w.selection?_alone _ dir e.path, rfl⟩

end Workspace

/-! ## First come, first served -/

/-- Instances are what the first request or import that reaches their directory selects. -/
structure Instances.Served (w : Workspace) (paths : List Path) (i : Instances) : Prop where
  /-- There is a root for each path. -/
  length_roots : i.roots.length = paths.length
  /-- The root for a path has the directory that is requested. It is what the path alone selects if
  it is loaded for the path, or of the same package. -/
  root : ∀ before path more, paths = before ++ path :: more → ∃ r a b,
    i.roots[before.length]? = some r ∧ i.selection? r = some a ∧ w.Requests path b ∧
      a.dir = b.dir ∧ ((w.load before).all.length ≤ r ∨ a.package = b.package → a = b)
  /-- The target of an edge has the directory that is imported. It is what the import alone selects
  if it is of the same package. -/
  edge : ∀ e ∈ i.edges, ∃ a b, i.selection? e.target = some a ∧ w.Imports paths e b ∧
    a.dir = b.dir ∧ (a.package = b.package → a = b)
  /-- Every instance is what a request or an import selects alone. The import is that by which it is
  shown. -/
  served : ∀ v < i.all.length, ∃ a, i.selection? v = some a ∧
    ((∃ before path more, paths = before ++ path :: more ∧ i.roots[before.length]? = some v ∧
        (w.load before).all.length ≤ v ∧ w.Requests path a) ∨
      ∃ e ∈ i.edges, e.target = v ∧ (∃ j, i.get? v = some j ∧ j.display = e.path) ∧
        w.Imports paths e a)

namespace Workspace

variable {w : Workspace} {paths : List Path} {dir : Path} {v : InstanceId}

/-- The instance of a directory is what some package selects there. -/
theorem exists_selection (h : (w.load paths).find? dir = some v) :
    ∃ package, (w.load paths).selection? v = some (w.select dir package) := by
  obtain ⟨j, hj, hdir⟩ := Instances.find?_eq_some h
  obtain ⟨choice, hmade⟩ := load_made (List.mem_of_getElem? hj)
  exact ⟨_, hmade.selection hj hdir⟩

/-- Loading serves whoever comes first. As everywhere, a disk is a tree without links, in which
only absolute paths lead somewhere (`Disk.locate?`). -/
theorem load_served (w : Workspace) (paths : List Path) : (w.load paths).Served w paths where
  length_roots := Load.length_roots w paths
  root := by
    rintro before path more rfl
    obtain ⟨r, hr, hfound, hmade, -⟩ := w.load_root before more path
    obtain ⟨package, hselection⟩ := exists_selection hfound
    refine ⟨r, _, _, hr, hselection, w.requests path, rfl, ?_⟩
    rintro (hle | hpackage)
    · obtain ⟨j, hj, hmade⟩ := hmade hle
      obtain ⟨k, hk, hdir⟩ := Instances.find?_eq_some hfound
      cases hk.symm.trans hj
      have hwanted := hmade.selection hj hdir
      rw [w.wanted_congr path _ {}] at hwanted
      exact Option.some.inj (hselection.symm.trans hwanted)
    · exact congrArg (w.select _) hpackage
  edge := by
    intro e he
    obtain ⟨dir, hfound, himports⟩ := imports_of_mem he
    obtain ⟨package, hselection⟩ := exists_selection hfound
    exact ⟨_, _, hselection, himports, rfl, fun hpackage => congrArg (w.select dir) hpackage⟩
  served := by
    intro v hv
    obtain ⟨before, path, more, rfl, hle, hlt⟩ := Load.exists_request hv
    obtain ⟨r, hr, hfound, hroot, hmade⟩ := w.load_root before more path
    rcases hmade v hle hlt with rfl | ⟨e, he, rfl, j, hj, hdisplay, hmade⟩
    · obtain ⟨j, hj, hmade⟩ := hroot hle
      obtain ⟨k, hk, hdir⟩ := Instances.find?_eq_some hfound
      cases hk.symm.trans hj
      have hwanted := hmade.selection hj hdir
      rw [w.wanted_congr path _ {}] at hwanted
      exact ⟨_, hwanted, .inl ⟨before, path, more, rfl, hr, hle, w.requests path⟩⟩
    · obtain ⟨dir, hfound, himports⟩ := imports_of_mem he
      obtain ⟨k, hk, hdir⟩ := Instances.find?_eq_some hfound
      cases hk.symm.trans hj
      exact ⟨_, hmade.selection hj hdir, .inr ⟨e, he, rfl, ⟨j, hj, hdisplay⟩, himports⟩⟩

/-- A directory with one file in it. -/
def oneFile : Workspace := ⟨.ofText "/p", ⟨[(.ofText "/p/b.cue", "package p")]⟩, {}⟩

/-- The file is not selected for its own request if one for a file that is not there comes first. -/
theorem load_oneFile_ne : ∃ r r',
    (oneFile.load [.ofText "/p/a.cue", .ofText "/p/b.cue"]).roots[1]? = some r ∧
      (oneFile.load [.ofText "/p/b.cue"]).roots = [r'] ∧
        (oneFile.load [.ofText "/p/a.cue", .ofText "/p/b.cue"]).selection? r ≠
          (oneFile.load [.ofText "/p/b.cue"]).selection? r' :=
  ⟨0, 0, by decide +kernel, by decide +kernel, by decide +kernel⟩

end Workspace

end CueScope
