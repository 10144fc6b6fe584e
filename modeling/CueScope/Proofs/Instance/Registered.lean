import CueScope.Proofs.Instance.Course

/-!
# Numbers of registered files

* `Sources.Distinct`: no two registered files are at one place, so the number of a file is found by
  every path to it (`find?_of_get?`).
* `Workspace.load_distinct`: so it is of all files that are registered while instances are loaded.
-/

namespace CueScope

namespace Sources

/-- No two files are at one place. -/
def Distinct (s : Sources) : Prop := s.files.Pairwise fun f f' => (f.path == f'.path) = false

variable {s : Sources}

theorem Distinct.add (h : s.Distinct) (path : Path) (text : String) :
    (s.add path text).2.Distinct := by
  unfold Sources.add
  split
  · exact h
  · rename_i hnew
    refine List.pairwise_append.2 ⟨h, List.pairwise_singleton _ _, fun f hf f' hf' => ?_⟩
    obtain rfl := List.mem_singleton.1 hf'
    exact List.findIdx?_eq_none_iff.1 hnew f hf

/-- A file is found by every path to its place. -/
theorem Distinct.find?_of_get? (h : s.Distinct) {id : FileId} {f : SourceFile}
    (hf : s.get? id = some f) {path : Path} (hpath : (f.path == path) = true) :
    s.find? path = some id := by
  obtain ⟨hlt, rfl⟩ := List.getElem?_eq_some_iff.1 hf
  refine List.findIdx?_eq_some_iff_getElem.2 ⟨hlt, hpath, fun j hj hsame => ?_⟩
  have hne := List.pairwise_iff_getElem.1 h j id (Nat.lt_trans hj hlt) hlt hj
  rw [← Bool.not_eq_true, Path.beq_iff] at hne
  exact hne ((Path.beq_iff.1 hsame).trans (Path.beq_iff.1 hpath).symm)

end Sources

namespace Load

variable {w : Workspace} {s : State}

theorem register_distinct {sources : Sources} (h : sources.Distinct) (texts : List (Path × String)) :
    (register texts sources).2.Distinct := by
  induction texts generalizing sources with
  | nil => exact h
  | cons e texts ih => exact ih (h.add e.1 e.2)

theorem packageOf_distinct {path : Path} (h : s.found.sources.Distinct) :
    (packageOf w path s).2.found.sources.Distinct := by
  unfold packageOf
  split
  · exact h
  · exact h.add _ _

theorem instantiate_distinct (dir : Path) (choice : PackageChoice) (display : String)
    (h : s.found.sources.Distinct) :
    (instantiate w dir choice display s).2.found.sources.Distinct :=
  register_distinct h _

theorem enter_distinct {dir : Path} {choice : PackageChoice} (h : s.found.sources.Distinct) :
    (enter w dir choice s).found.sources.Distinct :=
  (arrives_directory (.volume w dir (inModule w dir s))).keeps
    (P := fun s => s.found.sources.Distinct) (fun h _ => instantiate_distinct _ _ _ h) (fun h => h) h

end Load

theorem Workspace.load_distinct (w : Workspace) (paths : List Path) :
    (w.load paths).sources.Distinct := by
  obtain ⟨s, hs, he⟩ := load_keeps (P := fun s => s.found.sources.Distinct) (w := w)
    Load.packageOf_distinct Load.enter_distinct .nil paths
  rw [he]
  exact hs

end CueScope
