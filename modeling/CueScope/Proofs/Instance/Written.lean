import CueScope.Proofs.Instance.Agree
import CueScope.Proofs.Instance.Module

/-!
# Loading from a written overlay

What is loaded does not depend on whether texts are in the overlay or on the disk.

* `Module.straight_of_importDir?`: import paths without `..` lead to straight directories.
* `Workspace.SameFiles.agree`: workspaces with the same files agree on straight directories.
* `Workspace.load_alike`: so the same is loaded when the overlay is written to the disk.
-/

namespace CueScope

/-! ## Modules -/

namespace Path

variable {p q : Path} {a b : String}

theorem Straight.append (hp : p.Straight) (ha : (ofText a).Straight) : (p ++ a).Straight :=
  hp.join ha

/-- What follows a slash in a straight path is straight. -/
theorem Straight.ofText_suffix (h : (ofText (a ++ "/" ++ b)).Straight) : (ofText b).Straight := by
  have hbytes : (ofText (a ++ "/" ++ b)).bytes = Text.toBytes a ++ slash :: Text.toBytes b := by
    have hslash : String.utf8EncodeChar '/' = [slash] := by decide
    simp [ofText, Text.toBytes, String.toList_append, hslash]
  rw [straight_iff] at h ⊢
  intro s hs
  refine h s ?_
  rw [segments_of_ne (by simp [hbytes]), hbytes, Text.pieces_append_cons (by simp)]
  refine List.mem_append_right _ ?_
  unfold segments at hs
  split at hs
  · cases hs
  · exact hs

end Path

namespace Module

variable {w : Workspace} {m : Module} {dir target : Path} {path : String}

theorem straight_of_discover? (hdir : dir.Straight) (h : discover? w dir = some m) :
    m.root.Straight :=
  hdir.of_mem_ancestors (root_mem_ancestors h)

theorem straight_of_vendored? (hm : m.root.Straight) (hpath : (Path.ofText path).Straight)
    (h : m.vendored? path = some target) : target.Straight := by
  unfold vendored? at h
  split at h
  · cases h
    exact ((hm.append (by decide)).append (by decide)).append hpath
  · cases h

/-- An import path without `..` leads to a straight directory. -/
theorem straight_of_importDir? (hm : m.root.Straight) (hpath : (Path.ofText path).Straight)
    (h : m.importDir? path = some target) : target.Straight := by
  rcases contains_or_vendored? h with hcontains | hvendored
  · cases hcontains with
    | root => exact hm
    | below => exact hm.append hpath.ofText_suffix
  · exact straight_of_vendored? hm hpath hvendored

end Module

/-! ## Workspaces with the same files -/

namespace Workspace.SameFiles

variable {w w' : Workspace} {dir : Path}

/-- The module file above a straight directory is the same. -/
theorem read?_module (h : w.SameFiles w') (hdir : dir.Straight) :
    w'.read? (dir ++ "cue.mod" ++ "module.cue") = w.read? (dir ++ "cue.mod" ++ "module.cue") := by
  by_cases habs : dir.isAbsolute
  · have habs' : (dir ++ "cue.mod").isAbsolute := by
      rw [show (dir ++ "cue.mod").isAbsolute = _ from Path.isAbsolute_join, habs, Bool.or_true]
    have hstraight : (dir ++ "cue.mod" ++ "module.cue").Straight :=
      (hdir.append (by decide)).append (by decide)
    exact h.read?_eq (.refl hstraight (Path.trimmed_join habs' (by decide)))
  · have hrel : ¬ (dir ++ "cue.mod" ++ "module.cue").isAbsolute := by
      rw [show (dir ++ "cue.mod" ++ "module.cue").isAbsolute = _ from Path.isAbsolute_join,
        show (dir ++ "cue.mod").isAbsolute = _ from Path.isAbsolute_join]
      have hnot : (Path.ofText "module.cue").isAbsolute = false ∧
        (Path.ofText "cue.mod").isAbsolute = false := by decide
      simpa [hnot.1, hnot.2] using habs
    rw [read?_relative h.left hrel, read?_relative h.right hrel]

/-- A straight directory is in the same module. -/
theorem discover?_eq (h : w.SameFiles w') (hdir : dir.Straight) :
    Module.discover? w' dir = Module.discover? w dir := by
  unfold Module.discover?
  have hancestors : ∀ d ∈ dir.ancestors, d.Straight := fun d hd => hdir.of_mem_ancestors hd
  generalize dir.ancestors = roots at hancestors
  induction roots with
  | nil => rfl
  | cons root roots ih =>
    rw [List.findSome?_cons, List.findSome?_cons,
      h.read?_module (hancestors root List.mem_cons_self),
      ih fun d hd => hancestors d (List.mem_cons_of_mem _ hd)]

/-- Each directory without `..` has the same texts. -/
theorem textsIn_alike (h : w.SameFiles w') (hdir : dir.Straight) :
    List.Forall₂ SameText (w.textsIn dir) (w'.textsIn dir) := by
  have hlist := h.list_respelled hdir
  unfold textsIn
  generalize w.list dir = ps, w'.list dir = qs at hlist
  induction hlist with
  | nil => exact .nil
  | @cons p q ps qs hpq _ ih =>
    have hread := h.read?_eq hpq
    simp only [List.filterMap_cons, hread]
    cases w.read? p with
    | none => exact ih
    | some text => exact .cons ⟨hpq.beq, rfl⟩ ih

theorem isEmpty_list (h : w.SameFiles w') (hdir : dir.Straight) :
    (w'.list dir).isEmpty = (w.list dir).isEmpty := by
  have hlength := (h.list_respelled hdir).length_eq
  rw [Bool.eq_iff_iff, List.isEmpty_iff_length_eq_zero, List.isEmpty_iff_length_eq_zero, hlength]

/-- Straight directories hold the same. -/
theorem agree (h : w.SameFiles w') (hdir : w'.dir = w.dir) : w.Agree Path.Straight w' :=
  ⟨hdir, h.textsIn_alike, h.isEmpty_list, h.discover?_eq⟩

end Workspace.SameFiles

/-! ## Requests -/

namespace Load

variable {w w' : Workspace} {dir path : Path} {s s' : State}

/-- The import paths of all instances are without `..`. -/
def StraightImports (i : Instances) : Prop :=
  ∀ j ∈ i.all, ∀ path ∈ importPaths j.files, (Path.ofText path).Straight

/-- The module lies in a straight directory. -/
def StraightModule (m? : Option Module) : Prop := ∀ m ∈ m?, m.root.Straight

theorem StraightImports.mono {i i' : Instances} (h : StraightImports i') (hall : i.all <+: i'.all) :
    StraightImports i := fun j hj => h j (hall.subset hj)

/-- Import paths without `..` lead from a straight module to straight directories. -/
theorem StraightImports.importsIn {i : Instances} {m? : Option Module} (h : StraightImports i)
    (hm : StraightModule m?) : ImportsIn Path.Straight m? i := by
  intro j hj path hpath target htarget
  obtain ⟨m, hmem, hdir⟩ := Option.bind_eq_some_iff.1 htarget
  exact Module.straight_of_importDir? (hm m hmem) (h j hj path hpath) hdir

/-- What a path asks for can be told from its steps: none of them is `..`, and a source file is not
asked for as if it were a directory. -/
structure PlainRequest (path : Path) : Prop where
  straight : path.Straight
  trimmed : Workspace.isSource path → path.Trimmed

theorem StraightModule.inModule (h : StraightModule s.module?) (hdir : dir.Straight) :
    StraightModule (inModule w dir s).module? := by
  intro m hm
  rcases Option.or_eq_some_iff.1 hm with hm | ⟨-, hm⟩
  · exact h m hm
  · exact Module.straight_of_discover? hdir hm

theorem module?_enter (dir : Path) (choice : PackageChoice) (s : State) :
    (enter w dir choice s).module? = (inModule w dir s).module? :=
  (directory_extends _ dir choice _ (inModule w dir s)).module?_eq

theorem module?_packageOf (path : Path) (s : State) :
    (packageOf w path s).2.module? = s.module? := by
  unfold packageOf
  split <;> rfl

theorem all_packageOf (path : Path) (s : State) :
    (packageOf w path s).2.found.all = s.found.all := by
  unfold packageOf
  split <;> rfl

theorem enter_straight (h : w.Agree Path.Straight w') (hs : s.Alike s') (hdir : dir.Straight)
    (hmodule : StraightModule s.module?) (choice : PackageChoice)
    (himports : StraightImports (enter w dir choice s).found) :
    (enter w dir choice s).Alike (enter w' dir choice s') ∧
      StraightModule (enter w dir choice s).module? := by
  have hmodule := StraightModule.inModule (w := w) hmodule hdir
  refine ⟨enter_alike h hs hdir choice (himports.importsIn hmodule), ?_⟩
  rwa [module?_enter]

/-- A request for a plain path keeps states alike. -/
theorem request_alike (h : w.SameFiles w') (hdir : w'.dir = w.dir) (hs : s.Alike s')
    (hmodule : StraightModule s.module?) (hpath : PlainRequest (w.dir.join path))
    (himports : StraightImports (request w path s).found) :
    (request w path s).Alike (request w' path s') ∧ StraightModule (request w path s).module? := by
  rw [request_eq] at himports ⊢
  rw [request_eq, hdir]
  have hagree := h.agree hdir
  split
  · rename_i hsource
    rw [if_pos hsource] at himports
    obtain ⟨hpackage, hs₁⟩ := packageOf_alike
      (h.read?_eq (.refl hpath.straight (hpath.trimmed hsource))) hs
    cases hparent : (w.dir.join path).parent? with
    | none => exact ⟨hs, hmodule⟩
    | some dir =>
      rw [hparent] at himports
      rw [← module?_packageOf (w := w) (w.dir.join path) s] at hmodule
      dsimp only at himports ⊢
      rw [hpackage]
      exact enter_straight hagree hs₁ (hpath.straight.parent? hparent) hmodule _ himports
  · rename_i hdirectory
    rw [if_neg hdirectory] at himports
    exact enter_straight hagree hs hpath.straight hmodule _ himports

theorem request_extends (path : Path) (s : State) :
    s.found.all <+: (request w path s).found.all := by
  refine request_keeps (P := fun t => s.found.all <+: t.found.all) ?_ ?_ (List.prefix_refl _)
  · intro path t h
    rwa [all_packageOf]
  · intro dir choice t h
    exact h.trans (enter_extends dir choice t)

theorem foldl_request_extends (paths : List Path) (s : State) :
    s.found.all <+: (paths.foldl (fun s path => request w path s) s).found.all := by
  induction paths generalizing s with
  | nil => exact List.prefix_refl _
  | cons path paths ih => exact (request_extends path s).trans (ih _)

/-- Requests one after the other keep states alike. -/
theorem foldl_request_alike (h : w.SameFiles w') (hdir : w'.dir = w.dir) {paths : List Path}
    (hs : s.Alike s') (hmodule : StraightModule s.module?)
    (hpaths : ∀ path ∈ paths, PlainRequest (w.dir.join path))
    (himports : StraightImports (paths.foldl (fun s path => request w path s) s).found) :
    (paths.foldl (fun s path => request w path s) s).Alike
      (paths.foldl (fun s path => request w' path s) s') := by
  induction paths generalizing s s' with
  | nil => exact hs
  | cons path paths ih =>
    obtain ⟨hs₁, hmodule₁⟩ := request_alike h hdir hs hmodule (hpaths path List.mem_cons_self)
      (himports.mono (foldl_request_extends paths _))
    exact ih hs₁ hmodule₁ (fun p hp => hpaths p (List.mem_cons_of_mem _ hp)) himports

theorem State.Alike.empty : State.Alike {} {} := ⟨⟨rfl, rfl, rfl, rfl, .nil⟩, rfl⟩

end Load

/-- The same is loaded when the overlay is written to the disk. -/
theorem Workspace.load_alike {w : Workspace} (h : w.NormalOverlay) {paths : List Path}
    (hpaths : ∀ path ∈ paths, Load.PlainRequest (w.dir.join path))
    (himports : Load.StraightImports (w.load paths)) :
    (w.load paths).Alike (w.written.load paths) :=
  (Load.foldl_request_alike (sameFiles_written h) rfl .empty nofun hpaths himports).found

end CueScope
