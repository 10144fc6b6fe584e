import CueScope.Proofs.Instance.Exact
import CueScope.Proofs.Instance.Module

/-!
# How instances are shown

An instance that was asked for is shown by the way that leads to its directory. Any other is shown
by the import path that found it first.

* `Workspace.load_requested`: the instance that a single path asks for.
* `Workspace.importDir?_imported`: the others are shown by import paths of their directories.
* `Workspace.load_display`: in a module that declares its path, so is the instance that was asked
  for, unless the way to its directory is not a text.
-/

namespace CueScope

namespace Load

variable {w : Workspace} {dir : Path} {choice : PackageChoice} {display : String} {s t : State}
  {id : InstanceId}

/-- A directory that is loaded first gets an instance that is shown as wanted. -/
theorem Arrives.exists_first (h : Arrives w dir choice display s id t)
    (hread : s.found.sources.ReadFrom w) (hnew : s.found.find? dir = none) :
    ∃ j, t.found.get? id = some j ∧ j.dir = dir ∧ j.display = display := by
  cases h with
  | again hfound => exact absurd (hfound.symm.trans hnew) nofun
  | first _ hfollows =>
    obtain ⟨j, hall, -, hdir, hdisplay, -⟩ := instantiate_made dir choice display hread
    have hwithin := (hfollows.followed (instantiate_read hread)).within
    refine ⟨j, hwithin.get? ?_, hdir, hdisplay⟩
    rw [Instances.get?, hall]
    exact List.getElem?_concat_length

/-- A directory that is asked for first is shown as it lies in the module. -/
theorem Asks.exists_root (h : Asks w dir choice s t) (hread : s.found.sources.ReadFrom w)
    (hnew : s.found.find? dir = none) : ∃ id j, t.found.roots = s.found.roots ++ [id] ∧
    t.found.get? id = some j ∧ j.dir = dir ∧
    j.display = Module.display (s.module?.or (Module.discover? w dir)) w.dir dir := by
  cases h with
  | @intro t id harrives =>
    obtain ⟨j, hj, hdir, hdisplay⟩ := harrives.exists_first hread hnew
    exact ⟨id, j, congrArg (· ++ [id]) harrives.roots_eq, hj, hdir, hdisplay⟩

end Load

namespace Workspace

variable {w : Workspace} {path : Path} {m : Module} {own : String} {u : InstanceId} {j : Instance}

/-- The instance that a single path asks for is that of the directory, shown as it lies in the
module. -/
theorem load_requested (w : Workspace) (path : Path) : ∃ r j, (w.load [path]).roots = [r] ∧
    (w.load [path]).get? r = some j ∧ j.dir = Load.dirOf w path ∧
    j.display = Module.display (Module.discover? w j.dir) w.dir j.dir := by
  have hempty : ({} : Load.State).found.sources.ReadFrom w := nofun
  obtain ⟨hread, sources, -, hwanted⟩ := Load.wanted_registers w path {} hempty
  have hasks : Load.Asks w (Load.dirOf w path) (Load.wanted w path {}).1 (Load.wanted w path {}).2
      (Load.request w path {}) := Load.asks_iff.2 (Load.request_eq_enter w path {})
  have hnew : (Load.wanted w path {}).2.found.find? (Load.dirOf w path) = none := by
    rw [hwanted]
    rfl
  obtain ⟨r, j, hroots, hj, hdir, hdisplay⟩ := hasks.exists_root hread hnew
  rw [hwanted] at hroots hdisplay
  refine ⟨r, j, hroots, hj, hdir, ?_⟩
  rw [hdisplay, hdir, Option.none_or]

/-- An instance that was not asked for is shown by an import path that leads to its directory. -/
theorem importDir?_imported (hm : Module.discover? w (Load.dirOf w path) = some m)
    (hj : (w.load [path]).get? u = some j) (hu : u ∉ (w.load [path]).roots) :
    (m.importDir? j.display).any (· == j.dir) := by
  obtain ⟨e, he, rfl, k, hk, hdisplay⟩ :=
    (root_or_imported (List.getElem?_eq_some_iff.1 hj).1).resolve_left hu
  obtain rfl : k = j := Option.some.inj (hk.symm.trans hj)
  obtain ⟨i, hi, -⟩ := (w.load_joined [path]).stated e he
  have hleads : Load.Leads w (w.moduleOf ([] ++ [path])) (w.load ([] ++ path :: [])) e :=
    load_leads he (Nat.zero_le _) (List.getElem?_eq_some_iff.1 hi).1
  obtain ⟨dir, htarget, hfound⟩ := hleads
  have hmodule : w.moduleOf ([] ++ [path]) = some m := by simp [moduleOf, hm]
  have hdir := (Load.importTarget?_eq_some.1 htarget).1
  rw [hmodule, Option.bind_some] at hdir
  obtain ⟨k', hk', hsame⟩ := Instances.find?_eq_some hfound
  obtain rfl : k' = k := Option.some.inj (hk'.symm.trans hk)
  rw [hdisplay, hdir, Option.any_some, Path.beq_iff]
  exact (Path.beq_iff.1 hsame).symm

theorem isAbsolute_dirOf (h : path.isAbsolute) : (Load.dirOf w path).isAbsolute := by
  have hjoin : (w.dir.join path).isAbsolute := by
    rw [Path.isAbsolute_join, h, Bool.true_or]
  unfold Load.dirOf
  dsimp only
  split
  · cases hparent : (w.dir.join path).parent? with
    | none => exact hjoin
    | some dir => exact Path.isAbsolute_parent? hjoin hparent
  · exact hjoin

/-- Display paths are import paths. When a single absolute path is asked for, and it lies in a
module that declares its path, the display path of every instance leads to the directory of the
instance, whichever import found it first. The instance that was asked for is excepted exactly if
what its directory is called below the module is not a text: then no import path says it. -/
theorem load_display (habs : path.isAbsolute)
    (hm : Module.discover? w (Load.dirOf w path) = some m) (hown : m.path? = some own)
    (hj : (w.load [path]).get? u = some j) :
    (m.importDir? j.display).any (· == j.dir) ↔
      (u ∈ (w.load [path]).roots → ∃ below, j.dir.relativeTo? m.root = some (.ofText below)) := by
  by_cases hu : u ∈ (w.load [path]).roots
  · obtain ⟨r, k, hroots, hk, hdir, hdisplay⟩ := w.load_requested path
    obtain rfl : u = r := by simpa [hroots] using hu
    obtain rfl : k = j := Option.some.inj (hk.symm.trans hj)
    rw [← hdir] at hm
    have hdirabs : k.dir.isAbsolute := hdir ▸ isAbsolute_dirOf habs
    rw [hdisplay, hm, Module.importDir?_display_iff hown hdirabs (Module.root_mem_ancestors hm)]
    simp [hu]
  · exact iff_of_true (importDir?_imported hm hj hu) fun h => absurd h hu

/-- A module with two directories. A file in the one called `name` imports the other. -/
def twoDirectories (name : Path.Name) : Workspace :=
  { dir := .ofText "/p"
    overlay := .ofList [(.ofText "/p/cue.mod/module.cue", "module: \"m.x\""),
      ((Path.ofText "/p").join ⟨name⟩ ++ "a.cue", "import \"m.x/b\""),
      (.ofText "/p/b/b.cue", "x: 1")] }

/-- The file that imports. -/
def importingFile (name : Path.Name) : Path := (Path.ofText "/p").join ⟨name⟩ ++ "a.cue"

/-- The name `ä`. -/
def umlaut : Path.Name := [0xC3, 0xA4]

/-- Both directories are shown by import paths if the name is a text. -/
theorem load_display_umlaut :
    (importingFile umlaut).isAbsolute ∧
      Module.discover? (twoDirectories umlaut) (Load.dirOf (twoDirectories umlaut)
        (importingFile umlaut)) = some ⟨.ofText "/p", some "m.x"⟩ ∧
      ((twoDirectories umlaut).load [importingFile umlaut]).all.map (·.display) =
        ["m.x/ä", "m.x/b"] ∧
      ∀ u j, ((twoDirectories umlaut).load [importingFile umlaut]).get? u = some j →
        (Module.importDir? ⟨.ofText "/p", some "m.x"⟩ j.display).any (· == j.dir) := by
  have habs : (importingFile umlaut).isAbsolute := by decide
  have hm : Module.discover? (twoDirectories umlaut) (Load.dirOf (twoDirectories umlaut)
      (importingFile umlaut)) = some ⟨.ofText "/p", some "m.x"⟩ := by
    decide +kernel
  -- the three are decided together: the workspace is loaded once
  obtain ⟨hroots, hshown, hdir⟩ :
      ((twoDirectories umlaut).load [importingFile umlaut]).roots = [0] ∧
      ((twoDirectories umlaut).load [importingFile umlaut]).all.map (·.display) =
        ["m.x/ä", "m.x/b"] ∧
      (((twoDirectories umlaut).load [importingFile umlaut]).get? 0).map
        (·.dir.relativeTo? (.ofText "/p")) = some (some (.ofText "ä")) := by
    decide +kernel
  refine ⟨habs, hm, hshown, fun u j hj => (load_display habs hm rfl hj).2 fun hu => ?_⟩
  obtain rfl : u = 0 := by simpa [hroots] using hu
  rw [hj] at hdir
  exact ⟨"ä", Option.some.inj hdir⟩

/-- A directory whose name is no text is shown by the import path of another directory. -/
theorem load_display_misread : ¬ ∀ (w : Workspace) (path : Path) (m : Module), path.isAbsolute →
    Module.discover? w (Load.dirOf w path) = some m → m.path?.isSome →
    ∀ j ∈ (w.load [path]).all, (m.importDir? j.display).any (· == j.dir) := by
  intro h
  have hall := h (twoDirectories [0xFF]) (importingFile [0xFF]) ⟨.ofText "/p", some "m.x"⟩
    (by decide) (by decide +kernel) rfl
  have hnot : ¬ ∀ j ∈ ((twoDirectories [0xFF]).load [importingFile [0xFF]]).all,
      (Module.importDir? ⟨.ofText "/p", some "m.x"⟩ j.display).any (· == j.dir) := by
    decide +kernel
  exact hnot hall

end Workspace

end CueScope
