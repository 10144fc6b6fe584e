import CueScope.Proofs.Instance.Agree
import CueScope.Proofs.Place

/-!
# What an instance holds

* `Workspace.Offers`: the readable source files of a directory with their texts, described without
  the way they are listed. `Workspace.offers_textsIn`: they are what is read when a directory is
  loaded.
* `Instance.Made`: an instance holds the trees of these files that are of the chosen package.
  `instantiate_made`: so it is when it is made, and `Made.within`: registering further files does not
  change that.
-/

namespace CueScope

/-! ## The files of a directory -/

namespace Workspace

variable {w : Workspace} {dir p : Path}

/-- There is a file at the path in the directory: one on the disk, or one in the overlay. -/
def Lies (w : Workspace) (dir p : Path) : Prop :=
  (∃ name ∈ w.disk.list dir, p = dir.join ⟨name⟩) ∨
    ∃ e ∈ w.overlay.entries, p = e.1 ∧ e.1.parent?.any (· == dir)

/-- The readable source files of a directory with their texts, in the order of their paths and each
place once. The text in the overlay comes before that on the disk (`read?`). -/
structure Offers (w : Workspace) (dir : Path) (texts : List (Path × String)) : Prop where
  sorted : texts.Pairwise fun d e => d.1.before e.1
  sound : ∀ e ∈ texts, isSource e.1 ∧ w.Lies dir e.1 ∧ w.read? e.1 = some e.2
  complete : ∀ p text, isSource p → w.Lies dir p → w.read? p = some text →
    ∃ e ∈ texts, (e.1 == p) = true ∧ e.2 = text

/-- The texts in a directory are those of its source files that can be read. -/
theorem mem_textsIn {e : Path × String} :
    e ∈ w.textsIn dir ↔ e.1 ∈ w.list dir ∧ w.read? e.1 = some e.2 := by
  unfold textsIn
  rw [List.mem_filterMap]
  constructor
  · rintro ⟨path, hpath, he⟩
    obtain ⟨text, htext, rfl⟩ := Option.map_eq_some_iff.1 he
    exact ⟨hpath, htext⟩
  · rintro ⟨hpath, htext⟩
    exact ⟨e.1, hpath, by rw [htext]; rfl⟩

/-- The order of the texts is that of their paths. -/
theorem textsIn_pairwise {R : Path → Path → Prop} (h : (w.list dir).Pairwise R) :
    (w.textsIn dir).Pairwise fun d e => R d.1 e.1 := by
  unfold textsIn
  rw [List.pairwise_filterMap]
  refine h.imp fun {p q} hpq d hd e he => ?_
  obtain ⟨_, -, rfl⟩ := Option.map_eq_some_iff.1 hd
  obtain ⟨_, -, rfl⟩ := Option.map_eq_some_iff.1 he
  exact hpq

/-- A source file that lies in a directory is listed in some spelling. -/
theorem Lies.exists_mem_list (h : w.Lies dir p) (hsource : isSource p) :
    ∃ q ∈ w.list dir, (q == p) = true := by
  refine Workspace.exists_mem_list hsource (h.imp id ?_)
  rintro ⟨e, he, rfl, hdir⟩
  exact ⟨e, he, Path.beq_iff.2 rfl, hdir⟩

/-- What is readable in one spelling is readable in the one that is listed. -/
theorem read?_listed {q : Path} {text : String} (hlies : w.Lies dir p) (hq : q ∈ w.list dir)
    (hqp : (q == p) = true) (hread : w.read? p = some text) : w.read? q = some text := by
  have hoverlay : w.overlay.get? q = w.overlay.get? p := by
    simp only [Overlay.get?, Path.beq_def, Path.beq_iff.1 hqp]
  have hentry : ∀ e ∈ w.overlay.entries, (e.1 == p) = true → ∃ t, w.read? q = some t := by
    intro e he hep
    have hsome : (w.overlay.get? q).isSome := by
      rw [hoverlay, Overlay.get?, Option.isSome_map, List.find?_isSome]
      exact ⟨e, he, hep⟩
    obtain ⟨t, ht⟩ := Option.isSome_iff_exists.1 hsome
    exact ⟨t, by rw [read?, ht, Option.some_or]⟩
  -- either spelling is that of the overlay, or both are the same
  obtain ⟨t, ht⟩ : ∃ t, w.read? q = some t := by
    obtain ⟨-, ⟨name, hname, rfl⟩ | ⟨e, he, rfl, -⟩⟩ := mem_list hq
    · rcases hlies with ⟨name', hname', rfl⟩ | ⟨e, he, rfl, -⟩
      · obtain ⟨habs, hproper⟩ := Disk.proper_of_mem_list hname
        obtain ⟨-, hproper'⟩ := Disk.proper_of_mem_list hname'
        rw [Path.beq_iff, Path.components_join habs hproper, Path.components_join habs hproper'] at hqp
        obtain rfl : name = name' := by simpa using hqp
        exact ⟨text, hread⟩
      · exact hentry e he (Path.beq_iff.2 rfl)
    · exact hentry e he hqp
  rw [ht, Workspace.read?_eq hqp ht hread]

theorem offers_textsIn (w : Workspace) (dir : Path) : w.Offers dir (w.textsIn dir) where
  sorted := textsIn_pairwise ((w.list_sorted dir).imp (Path.before_iff _ _).2)
  sound := by
    intro e he
    obtain ⟨hlisted, hread⟩ := mem_textsIn.1 he
    obtain ⟨hsource, hlies⟩ := mem_list hlisted
    exact ⟨hsource, hlies, hread⟩
  complete := by
    intro p text hsource hlies hread
    obtain ⟨q, hq, hqp⟩ := hlies.exists_mem_list hsource
    exact ⟨(q, text), mem_textsIn.2 ⟨hq, read?_listed hlies hq hqp hread⟩, hqp, rfl⟩

theorem read?_of_mem_textsIn : ∀ e ∈ w.textsIn dir, w.read? e.1 = some e.2 :=
  fun _ he => (mem_textsIn.1 he).2

end Workspace

/-! ## Instances -/

/-- Trees of files with the texts: each is parsed from the text that is registered under its
number, and no number is used twice. -/
structure Sources.Parsed (s : Sources) (texts : List (Path × String)) (trees : List SourceTree) :
    Prop where
  each : List.Forall₂ (fun e t => s.Has t.file e.1 e.2 ∧ t = (SourceTree.parse t.file e.2).1)
    texts trees
  nodup : (trees.map (·.file)).Nodup

theorem Sources.Parsed.within {s s' : Sources} {texts : List (Path × String)}
    {trees : List SourceTree} (h : s.Parsed texts trees) (hs : s.Within s') :
    s'.Parsed texts trees :=
  ⟨h.each.imp fun _ _ ht => ⟨hs.has ht.1, ht.2⟩, h.nodup⟩

/-- The instance holds the trees of the chosen package, of those of all readable source files of
its directory. -/
def Instance.Made (w : Workspace) (s : Sources) (choice : PackageChoice) (j : Instance) : Prop :=
  ∃ trees, s.Parsed (w.textsIn j.dir) trees ∧ j.package = choice.pick trees ∧
    j.files = trees.filter (·.packageName = j.package)

theorem Instance.Made.within {w : Workspace} {s s' : Sources} {choice : PackageChoice}
    {j : Instance} (h : j.Made w s choice) (hs : s.Within s') : j.Made w s' choice := by
  obtain ⟨trees, hparsed, h⟩ := h
  exact ⟨trees, hparsed.within hs, h⟩

namespace Load

variable {w : Workspace} {dir : Path} {choice : PackageChoice} {display : String} {s : State}

/-- Every text is registered under a number of its own. -/
theorem register_forall₂ {texts : List (Path × String)} {sources : Sources}
    (h : sources.ReadFrom w) (htexts : ∀ e ∈ texts, w.read? e.1 = some e.2) :
    List.Forall₂ (fun e f => f.2 = e.2 ∧ (register texts sources).2.Has f.1 e.1 e.2) texts
      (register texts sources).1 := by
  induction texts generalizing sources with
  | nil => exact .nil
  | cons e texts ih =>
    obtain ⟨path, text⟩ := e
    have hmore := fun e he => htexts e (List.mem_cons_of_mem _ he)
    obtain ⟨hread, -, hhas⟩ := Sources.add_spec h (htexts (path, text) List.mem_cons_self)
    have hwithin := (register_spec hread hmore).2.1
    exact .cons ⟨rfl, hwithin.has hhas⟩ (ih hread hmore)

theorem instantiate_read (h : s.found.sources.ReadFrom w) :
    (instantiate w dir choice display s).2.found.sources.ReadFrom w :=
  (register_spec h Workspace.read?_of_mem_textsIn).1

/-- The sources that a directory adds keep those there are. -/
theorem instantiate_within (h : s.found.sources.ReadFrom w) :
    s.found.sources.Within (instantiate w dir choice display s).2.found.sources :=
  (register_spec h Workspace.read?_of_mem_textsIn).2.1

/-- The instance that is made for a directory. -/
theorem instantiate_made (dir : Path) (choice : PackageChoice) (display : String)
    (h : s.found.sources.ReadFrom w) : ∃ j : Instance,
    (instantiate w dir choice display s).2.found.all = s.found.all ++ [j] ∧
    (instantiate w dir choice display s).1 = importPaths j.files ∧
    j.dir = dir ∧ j.display = display ∧
    j.Made w (instantiate w dir choice display s).2.found.sources choice := by
  have htexts : ∀ e ∈ w.textsIn dir, w.read? e.1 = some e.2 := Workspace.read?_of_mem_textsIn
  have hentries := register_forall₂ h htexts
  have hnodup := (register_spec h htexts).2.2.2 (Workspace.textsIn_pairwise (w.list_pairwise dir))
  refine ⟨_, rfl, rfl, rfl, rfl, _, ⟨?_, ?_⟩, rfl, rfl⟩
  · rw [List.map_map, List.forall₂_map_right_iff]
    refine hentries.imp fun e f hf => ?_
    dsimp only [Function.comp_apply]
    rw [SourceTree.parse_file, hf.1]
    exact ⟨hf.2, rfl⟩
  · simp only [List.map_map, Function.comp_def, SourceTree.parse_file]
    exact hnodup

end Load

end CueScope
