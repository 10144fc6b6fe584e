import CueScope.Proofs.Instance.Written

/-!
# Loading from a saved overlay

A text in the overlay that is on the disk anyway makes no difference. Paths may go up here: they
never lead into the overlay, so both sides walk the disk for them.

* `Workspace.Saved`: every text of the overlay is on the disk.
* `Saved.agree`: then all directories hold the same without the overlay.
* `Saved.load_alike`: so the same is loaded.
-/

namespace CueScope

namespace Workspace

variable {w : Workspace} {p dir : Path}

/-- The texts of the overlay are those on the disk. -/
structure Saved (w : Workspace) : Prop where
  normal : w.NormalOverlay
  onDisk : ∀ e ∈ w.overlay.entries, w.disk.read? e.1 = some e.2

/-- The workspace without its overlay. -/
def bare (w : Workspace) : Workspace := { w with overlay := {} }

namespace Saved

theorem sameFiles (h : w.Saved) : w.SameFiles w.bare := by
  refine ⟨h.normal, nofun, fun q => ?_⟩
  have hbare : w.bare.written.disk.file? q = w.disk.file? q := rfl
  have hwritten : w.written.disk.file? q = (w.disk.writeAll w.overlay).file? q := rfl
  rw [hbare, hwritten, Disk.file?_writeAll]
  cases he : w.overlay.entries.find? (·.1.names = q) with
  | none => rfl
  | some e =>
    have hmem := List.mem_of_find?_eq_some he
    obtain rfl : e.1.names = q := by simpa using List.find?_some he
    have hnormal := h.normal e hmem
    have hread := h.onDisk e hmem
    rw [Disk.read?_of_straight hnormal.straight hnormal.trimmed, if_pos hnormal.1,
      Option.join_eq_some_iff] at hread
    exact hread

/-- A path in the overlay is straight. -/
theorem get?_of_not_straight (h : w.Saved) (hp : ¬ p.Straight) : w.overlay.get? p = none := by
  unfold Overlay.get?
  rw [Option.map_eq_none_iff, List.find?_eq_none]
  intro e he hbeq
  exact hp ((h.normal e he).straight.congr hbeq)

theorem read?_eq (h : w.Saved) (htrim : p.Trimmed) : w.bare.read? p = w.read? p := by
  by_cases hp : p.Straight
  · exact h.sameFiles.read?_eq (.refl hp htrim)
  · have hbare : w.bare.read? p = w.disk.read? p := rfl
    rw [hbare, read?, h.get?_of_not_straight hp, Option.none_or]

/-- No path of the overlay lies in a directory that is not straight. -/
theorem list_of_not_straight (h : w.Saved) (hdir : ¬ dir.Straight) :
    w.bare.list dir = w.list dir := by
  have hnone : (w.overlay.entries.map (·.1)).filter (fun p => p.parent?.any (· == dir)) = [] := by
    refine List.filter_eq_nil_iff.2 fun p hp hparent => ?_
    obtain ⟨e, he, rfl⟩ := List.mem_map.1 hp
    obtain ⟨d, hd, hbeq⟩ := (Option.any_eq_true _ _).1 hparent
    exact hdir (((h.normal e he).straight.parent? hd).congr hbeq)
  unfold list
  dsimp only
  rw [hnone]
  rfl

/-- Each directory has the same texts without the overlay. -/
theorem textsIn_alike (h : w.Saved) (dir : Path) :
    List.Forall₂ SameText (w.textsIn dir) (w.bare.textsIn dir) := by
  by_cases hdir : dir.Straight
  · exact h.sameFiles.textsIn_alike hdir
  · have hread : ∀ p ∈ w.list dir, w.bare.read? p = w.read? p := by
      intro p hp
      obtain ⟨-, ⟨name, hname, rfl⟩ | ⟨e, he, rfl, -⟩⟩ := mem_list hp
      · obtain ⟨habs, hproper⟩ := Disk.proper_of_mem_list hname
        exact h.read?_eq (Path.trimmed_join habs hproper)
      · exact h.read?_eq (h.normal e he).trimmed
    have heq : w.bare.textsIn dir = w.textsIn dir := by
      unfold textsIn
      rw [h.list_of_not_straight hdir]
      exact List.filterMap_congr fun p hp => by rw [hread p hp]
    rw [heq]
    exact List.forall₂_same.2 fun e _ => ⟨Path.beq_iff.2 rfl, rfl⟩

/-- The module around a directory is the same without the overlay. -/
theorem discover?_eq (h : w.Saved) (dir : Path) :
    Module.discover? w.bare dir = Module.discover? w dir := by
  have hmodule : ∀ root : Path, w.bare.read? (root ++ "cue.mod" ++ "module.cue") =
      w.read? (root ++ "cue.mod" ++ "module.cue") := by
    intro root
    by_cases habs : (root ++ "cue.mod").isAbsolute
    · exact h.read?_eq (Path.trimmed_join habs (by decide))
    · have hrel : ¬ (root ++ "cue.mod" ++ "module.cue").isAbsolute := by
        have hnot : (Path.ofText "module.cue").isAbsolute = false := by decide
        rw [show (root ++ "cue.mod" ++ "module.cue").isAbsolute = _ from Path.isAbsolute_join, hnot]
        simpa using habs
      rw [read?_relative h.normal hrel, read?_relative h.sameFiles.right hrel]
  unfold Module.discover?
  simp only [hmodule]

/-- All directories hold the same without the overlay. -/
theorem agree (h : w.Saved) : w.Agree (fun _ => True) w.bare := by
  refine ⟨rfl, fun {d} _ => h.textsIn_alike d, fun {d} _ => ?_, fun {d} _ => h.discover?_eq d⟩
  by_cases hdir : d.Straight
  · exact h.sameFiles.isEmpty_list hdir
  · rw [h.list_of_not_straight hdir]

/-! ## Requests -/

open Load in
/-- A request loads alike instances without the overlay. -/
theorem request_alike (h : w.Saved) {path : Path} {s s' : State} (hs : s.Alike s')
    (hpath : isSource (w.dir.join path) → (w.dir.join path).Trimmed) :
    (request w path s).Alike (request w.bare path s') := by
  have henter : ∀ {dir choice s s'}, State.Alike s s' →
      (enter w dir choice s).Alike (enter w.bare dir choice s') :=
    fun hs => enter_alike h.agree hs trivial _ fun _ _ _ _ _ _ => trivial
  rw [request_eq, request_eq, show w.bare.dir = w.dir from rfl]
  split
  · rename_i hsource
    obtain ⟨hpackage, hs₁⟩ := packageOf_alike (h.read?_eq (hpath hsource)) hs
    split
    · exact hs
    · rw [hpackage]
      exact henter hs₁
  · exact henter hs

/-- The same is loaded without the overlay. -/
theorem load_alike (h : w.Saved) {paths : List Path}
    (hpaths : ∀ path ∈ paths, isSource (w.dir.join path) → (w.dir.join path).Trimmed) :
    (w.load paths).Alike (w.bare.load paths) := by
  have hfold : ∀ {s s' : Load.State}, s.Alike s' →
      (paths.foldl (fun s path => Load.request w path s) s).Alike
        (paths.foldl (fun s path => Load.request w.bare path s) s') := by
    induction paths with
    | nil => exact fun hs => hs
    | cons path paths ih =>
      intro s s' hs
      obtain ⟨hpath, hpaths⟩ := List.forall_mem_cons.1 hpaths
      exact ih hpaths (h.request_alike hs hpath)
  exact (hfold .empty).found

end Saved

end Workspace

end CueScope
