import CueScope.Proofs.Instance.Depth

/-!
# Loading the same from two workspaces

Two workspaces may hold the same files in different ways: one has a text in its overlay, another has
it on the disk. What they load is alike.

* `Instances.Alike`: the same instances, edges, roots and syntax errors, with files that have the
  same numbers and texts. The path of a file may be spelled otherwise: the overlay and the disk each
  list a file in their own spelling.
* `Workspace.Agree D w w'`: the directories in `D` hold the same in `w` and `w'`.
* `directory_alike`: loading such a directory keeps states alike, if what is imported on the way are
  such directories too (`ImportsIn`). Both sides may have different bounds for the nesting of
  imports, as long as there is `Room`.
-/

namespace CueScope

/-! ## Source files -/

/-- The same text at the same path. -/
structure SourceFile.Alike (f f' : SourceFile) : Prop where
  path : (f.path == f'.path) = true
  text : f'.text = f.text

namespace Sources

/-- The same files in the same order. -/
def Alike (s s' : Sources) : Prop := List.Forall₂ SourceFile.Alike s.files s'.files

variable {s s' : Sources} {p q : Path}

/-- Alike states find the same instance in a directory, however it is spelt. -/
theorem Alike.find?_eq (h : s.Alike s') (hpq : (p == q) = true) : s'.find? q = s.find? p := by
  unfold Alike at h
  unfold find?
  generalize s.files = files, s'.files = files' at h
  induction h with
  | nil => rfl
  | @cons f f' fs fs' hf _ ih =>
    have hbeq : (f'.path == q) = (f.path == p) := by
      rw [Path.beq_def, Path.beq_def, Path.beq_iff.1 hf.path, Path.beq_iff.1 hpq]
    rw [List.findIdx?_cons, List.findIdx?_cons, hbeq, ih]

theorem Alike.add (h : s.Alike s') (hpq : (p == q) = true) (text : String) :
    (s'.add q text).1 = (s.add p text).1 ∧ (s.add p text).2.Alike (s'.add q text).2 := by
  unfold Sources.add
  rw [h.find?_eq hpq]
  split
  · exact ⟨rfl, h⟩
  · exact ⟨(List.Forall₂.length_eq h).symm, List.rel_append h (.cons ⟨hpq, rfl⟩ .nil)⟩

end Sources

/-- The same instances and edges. -/
structure Instances.Alike (i i' : Instances) : Prop where
  all : i'.all = i.all
  edges : i'.edges = i.edges
  roots : i'.roots = i.roots
  errors : i'.errors = i.errors
  sources : i.sources.Alike i'.sources

theorem Instances.Alike.find?_eq {i i' : Instances} (h : i.Alike i') (dir : Path) :
    i'.find? dir = i.find? dir := by
  rw [find?, find?, h.all]

/-! ## Workspaces that agree -/

/-- The same text at the same path. -/
def SameText (e e' : Path × String) : Prop := (e.1 == e'.1) = true ∧ e'.2 = e.2

/-- The texts of the source files in a directory. -/
def Workspace.textsIn (w : Workspace) (dir : Path) : List (Path × String) :=
  (w.list dir).filterMap fun path => (w.read? path).map fun text => (path, text)

/-- The directories in `D` hold the same, and are in the same modules. -/
structure Workspace.Agree (D : Path → Prop) (w w' : Workspace) : Prop where
  dir : w'.dir = w.dir
  texts : ∀ {d}, D d → List.Forall₂ SameText (w.textsIn d) (w'.textsIn d)
  isEmpty : ∀ {d}, D d → (w'.list d).isEmpty = (w.list d).isEmpty
  discover? : ∀ {d}, D d → Module.discover? w' d = Module.discover? w d

namespace Load

variable {D : Path → Prop} {w w' : Workspace} {dir : Path} {s s' : State}

/-- The same instances, imported in the same module. -/
structure State.Alike (s s' : State) : Prop where
  found : s.found.Alike s'.found
  module?_eq : s'.module? = s.module?

/-- The instances import directories in `D`. -/
def ImportsIn (D : Path → Prop) (m? : Option Module) (i : Instances) : Prop :=
  ∀ j ∈ i.all, ∀ path ∈ importPaths j.files, ∀ target,
    m?.bind (·.importDir? path) = some target → D target

theorem ImportsIn.mono {m? : Option Module} {i i' : Instances} (h : ImportsIn D m? i')
    (hall : i.all <+: i'.all) : ImportsIn D m? i := fun j hj => h j (hall.subset hj)

theorem packageOf_alike {path : Path} (hread : w'.read? path = w.read? path) (hs : s.Alike s') :
    (packageOf w' path s').1 = (packageOf w path s).1 ∧
      (packageOf w path s).2.Alike (packageOf w' path s').2 := by
  unfold packageOf
  rw [hread]
  split
  · exact ⟨rfl, hs⟩
  · rename_i text _
    have hf := hs.found
    obtain ⟨hid, hsources⟩ := hf.sources.add (p := path) (Path.beq_iff.2 rfl) text
    refine ⟨?_, ⟨hf.all, hf.edges, hf.roots, hf.errors, hsources⟩, hs.module?_eq⟩
    dsimp only
    rw [hid]

/-- Texts that are registered in alike states get the same numbers. -/
theorem register_alike {texts texts' : List (Path × String)} {src src' : Sources}
    (h : List.Forall₂ SameText texts texts') (hsrc : src.Alike src') :
    (register texts' src').1 = (register texts src).1 ∧
      (register texts src).2.Alike (register texts' src').2 := by
  induction h generalizing src src' with
  | nil => exact ⟨rfl, hsrc⟩
  | @cons e e' texts texts' he _ ih =>
    obtain ⟨p, text⟩ := e
    obtain ⟨q, text'⟩ := e'
    obtain ⟨hpq, rfl⟩ := he
    obtain ⟨hid, hadd⟩ := hsrc.add hpq text'
    obtain ⟨hids, hmore⟩ := ih hadd
    simp only [register]
    rw [hid, hids]
    exact ⟨rfl, hmore⟩

theorem instantiate_alike (h : w.Agree D w') (hs : s.Alike s') (hdir : D dir)
    (choice : PackageChoice) (display : String) :
    (instantiate w' dir choice display s').1 = (instantiate w dir choice display s).1 ∧
      (instantiate w dir choice display s).2.Alike (instantiate w' dir choice display s').2 := by
  have hf := hs.found
  obtain ⟨hentries, hsources⟩ := register_alike (h.texts hdir) hf.sources
  unfold Workspace.textsIn at hentries hsources
  unfold instantiate
  dsimp only
  rw [hentries, hf.all, hf.errors]
  exact ⟨rfl, ⟨rfl, hf.edges, hf.roots, rfl, hsources⟩, hs.module?_eq⟩

/-- Loading a directory in `D` keeps states alike, if neither side runs out of depth. -/
def KeepsAlike (D : Path → Prop) (w w' : Workspace) (depth depth' : Nat) : Prop :=
  ∀ {dir choice display s s'}, State.Alike s s' → D dir → Room w depth dir s →
    Room w' depth' dir s' →
    ImportsIn D s.module? (directory w depth dir choice display s).2.found →
    (directory w' depth' dir choice display s').1 = (directory w depth dir choice display s).1 ∧
      (directory w depth dir choice display s).2.Alike
        (directory w' depth' dir choice display s').2

variable {depth depth' : Nat} {id : InstanceId}

/-- Following an import keeps states alike, as it leads to the same directory from both. -/
theorem follow_alike (h : w.Agree D w') (hkeeps : KeepsAlike D w w' depth depth') {path : String}
    (hpath : Stated w path) (hpath' : Stated w' path) (hs : s.Alike s')
    (hin : ∀ target, s.module?.bind (·.importDir? path) = some target → D target)
    (hdepth : unmet w s < depth) (hdepth' : unmet w' s' < depth')
    (himports : ImportsIn D s.module? (follow w depth id s path).found) :
    (follow w depth id s path).Alike (follow w' depth' id s' path) := by
  unfold follow at himports ⊢
  have htarget' := hs.module?_eq
  rw [hs.module?_eq]
  cases htarget : s.module?.bind (·.importDir? path) with
  | none => exact hs
  | some target =>
    rw [htarget] at himports
    have hD := hin target htarget
    dsimp only at himports ⊢
    rw [h.isEmpty hD]
    split
    · exact hs
    · rename_i hne
      rw [if_neg hne] at himports
      obtain ⟨hid, ht⟩ := hkeeps hs hD (.imported hpath hdepth htarget)
        (.imported hpath' hdepth' (htarget' ▸ htarget)) himports
      have hf := ht.found
      refine ⟨⟨hf.all, ?_, hf.roots, hf.errors, hf.sources⟩, ht.module?_eq⟩
      dsimp only
      rw [hf.edges, hid]

/-- Following several imports keeps states alike. -/
theorem foldl_follow_alike (h : w.Agree D w') (hkeeps : KeepsAlike D w w' depth depth')
    {paths : List String} (hpaths : ∀ path ∈ paths, Stated w path ∧ Stated w' path)
    (hin : ∀ path ∈ paths, ∀ target, s.module?.bind (·.importDir? path) = some target → D target)
    (hs : s.Alike s') (hdepth : unmet w s < depth) (hdepth' : unmet w' s' < depth')
    (himports : ImportsIn D s.module? (paths.foldl (follow w depth id) s).found) :
    (paths.foldl (follow w depth id) s).Alike (paths.foldl (follow w' depth' id) s') := by
  induction paths generalizing s s' with
  | nil => exact hs
  | cons path paths ih =>
    rw [List.foldl_cons] at himports ⊢
    rw [List.foldl_cons]
    obtain ⟨hpath, hpath'⟩ := hpaths path List.mem_cons_self
    have hextends := follow_extends (w := w) (directory_extends depth)
    -- what is loaded for one path is still there in the end, so its imports are in `D` too
    have hhere := hextends id s path
    have hhere' := follow_extends (w := w') (directory_extends depth') id s' path
    have hlater := foldl_extends (hextends id) paths (follow w depth id s path)
    have hnext := follow_alike h hkeeps hpath hpath' hs (hin path List.mem_cons_self) hdepth hdepth'
      (himports.mono hlater.all)
    refine ih (fun p hp => hpaths p (List.mem_cons_of_mem _ hp)) (fun p hp => ?_) hnext
      (Nat.lt_of_le_of_lt hhere.unmet_le hdepth) (Nat.lt_of_le_of_lt hhere'.unmet_le hdepth') ?_
    · rw [hhere.module?_eq]
      exact hin p (List.mem_cons_of_mem _ hp)
    · rwa [hhere.module?_eq]

/-- By induction on the depth: both workspaces enter the same directories, and neither depth is met.
-/
theorem directory_alike (h : w.Agree D w') (depth depth' : Nat) :
    KeepsAlike D w w' depth depth' := by
  induction depth generalizing depth' with
  | zero =>
    intro dir choice display s s' _ _ hroom
    exact absurd hroom.pos (Nat.lt_irrefl 0)
  | succ depth ih =>
    intro dir choice display s s' hs hdir hroom hroom' himports
    obtain ⟨depth', rfl⟩ : ∃ n, depth' = n + 1 := Nat.exists_eq_add_one.2 hroom'.pos
    rw [directory_succ] at himports ⊢
    rw [directory_succ, hs.found.find?_eq, hs.found.all]
    split
    · exact ⟨rfl, hs⟩
    · rename_i hnew
      rw [hnew] at himports
      obtain ⟨hpaths, hs₁⟩ := instantiate_alike h hs hdir choice display
      refine ⟨rfl, ?_⟩
      dsimp only at himports ⊢
      have hnew' : s'.found.find? dir = none := by rw [hs.found.find?_eq, hnew]
      obtain ⟨j, hj, hstated⟩ : ∃ j ∈ (instantiate w dir choice display s).2.found.all,
          (instantiate w dir choice display s).1 = importPaths j.files :=
        ⟨_, List.mem_append_right _ List.mem_cons_self, rfl⟩
      have hextends := follow_extends (w := w) (directory_extends depth) s.found.all.length
      have hlater := foldl_extends hextends (instantiate w dir choice display s).1
        (instantiate w dir choice display s).2
      have hstates : ∀ path ∈ (instantiate w dir choice display s).1,
          Stated w path ∧ Stated w' path := fun path hpath =>
        ⟨stated_of_mem_imports hpath, stated_of_mem_imports (hpaths ▸ hpath)⟩
      rw [hpaths]
      refine foldl_follow_alike h (ih depth') hstates (fun path hpath => ?_) hs₁
        (hroom.instantiate hnew) (hroom'.instantiate hnew') himports
      exact himports.mono hlater.all j hj path (hstated ▸ hpath)

/-! ## Requests -/

theorem enter_extends (dir : Path) (choice : PackageChoice) (s : State) :
    s.found.all <+: (enter w dir choice s).found.all :=
  (directory_extends _ dir choice _ (inModule w dir s)).all

/-- Entering a directory keeps states alike. -/
theorem enter_alike (h : w.Agree D w') (hs : s.Alike s') (hdir : D dir) (choice : PackageChoice)
    (himports : ImportsIn D (inModule w dir s).module? (enter w dir choice s).found) :
    (enter w dir choice s).Alike (enter w' dir choice s') := by
  have hs₁ : (inModule w dir s).Alike (inModule w' dir s') := by
    refine ⟨hs.found, ?_⟩
    rw [inModule, inModule, hs.module?_eq, h.discover? hdir]
  unfold enter at himports ⊢
  dsimp only at himports ⊢
  rw [hs₁.module?_eq, h.dir]
  obtain ⟨hid, ht⟩ := directory_alike h (w.volume + 2) (w'.volume + 2) hs₁ hdir (.volume w dir _)
    (.volume w' dir _) himports
  have hf := ht.found
  refine ⟨⟨hf.all, hf.edges, ?_, hf.errors, hf.sources⟩, ht.module?_eq⟩
  exact congrArg₂ (fun roots id => roots ++ [id]) hf.roots hid

end Load

end CueScope
