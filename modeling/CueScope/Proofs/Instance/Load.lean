import CueScope.Instance.Load
import CueScope.Proofs.Path
import CueScope.Proofs.Tree.Spans

/-!
# What is loaded

* `Loaded`: the invariant of loading. Instances have different directories, and the trees of an
  instance are those of registered files in its directory, each once.
* `Workspace.load_loaded`: it holds of what is loaded for any paths.
-/

namespace CueScope

/-! ## Registered files -/

namespace Sources

variable {w : Workspace} {s s' : Sources} {path : Path} {text : String} {id : FileId}

/-- Every registered text is the one at its path. -/
def ReadFrom (w : Workspace) (s : Sources) : Prop := ∀ f ∈ s.files, w.read? f.path = some f.text

/-- The number is that of a file at the path, with the text. -/
def Has (s : Sources) (id : FileId) (path : Path) (text : String) : Prop :=
  ∃ f, s.get? id = some f ∧ (f.path == path) = true ∧ f.text = text

/-- Registered files keep their numbers. -/
def Within (s s' : Sources) : Prop := ∀ id f, s.get? id = some f → s'.get? id = some f

theorem Within.trans {s'' : Sources} (h : s.Within s') (h' : s'.Within s'') : s.Within s'' :=
  fun id f hf => h' id f (h id f hf)

theorem Within.has (h : s.Within s') (hid : s.Has id path text) : s'.Has id path text := by
  obtain ⟨f, hf, hpath⟩ := hid
  exact ⟨f, h id f hf, hpath⟩

/-- A text that is added to the sources is found under its number. -/
theorem add_spec (h : s.ReadFrom w) (hp : w.read? path = some text) :
    (s.add path text).2.ReadFrom w ∧ s.Within (s.add path text).2 ∧
      (s.add path text).2.Has (s.add path text).1 path text := by
  unfold add
  split
  · rename_i id hid
    obtain ⟨hlt, hpath, -⟩ := List.findIdx?_eq_some_iff_getElem.1 hid
    refine ⟨h, fun _ _ hf => hf, s.files[id], List.getElem?_eq_getElem hlt, hpath, ?_⟩
    exact Workspace.read?_eq hpath (h _ (List.getElem_mem hlt)) hp
  · refine ⟨?_, ?_, ⟨path, text⟩, ?_, ?_, rfl⟩
    · intro f hf
      rcases List.mem_append.1 hf with hf | hf
      · exact h f hf
      · rw [List.mem_singleton.1 hf]
        exact hp
    · intro id f hf
      obtain ⟨hlt, hf⟩ := List.getElem?_eq_some_iff.1 hf
      simp only [get?]
      rw [List.getElem?_append_left hlt, List.getElem?_eq_getElem hlt, hf]
    · simp [get?]
    · exact Path.beq_iff.2 rfl

end Sources

/-- By induction on the texts, each of them is found under its number. -/
theorem register_spec {w : Workspace} {texts : List (Path × String)} {s : Sources}
    (h : s.ReadFrom w) (hp : ∀ e ∈ texts, w.read? e.1 = some e.2) :
    let r := Load.register texts s
    r.2.ReadFrom w ∧ s.Within r.2 ∧ (∀ e ∈ r.1, ∃ path, (path, e.2) ∈ texts ∧ r.2.Has e.1 path e.2) ∧
      ((texts.Pairwise fun d e => (d.1 == e.1) = false) → (r.1.map (·.1)).Nodup) := by
  induction texts generalizing s with
  | nil => exact ⟨h, fun _ _ hf => hf, by simp [Load.register], by simp [Load.register]⟩
  | cons pt texts ih =>
    obtain ⟨path, text⟩ := pt
    obtain ⟨h₁, hw₁, hhas⟩ := Sources.add_spec h (hp (path, text) (by simp))
    obtain ⟨h₂, hw₂, hentries, hnodup⟩ := ih h₁ fun e he => hp e (by simp [he])
    simp only [Load.register]
    refine ⟨h₂, hw₁.trans hw₂, ?_, ?_⟩
    · intro e he
      rcases List.mem_cons.1 he with rfl | he
      · exact ⟨path, by simp, hw₂.has hhas⟩
      · obtain ⟨path', hmem, hhas'⟩ := hentries e he
        exact ⟨path', by simp [hmem], hhas'⟩
    · intro hpair
      obtain ⟨hfirst, hrest⟩ := List.pairwise_cons.1 hpair
      refine List.nodup_cons.2 ⟨?_, hnodup hrest⟩
      intro hmem
      obtain ⟨e, he, heq⟩ := List.mem_map.1 hmem
      obtain ⟨path', hmem', f', hf', hpath', -⟩ := hentries e he
      obtain ⟨f, hf, hpath, -⟩ := hw₂.has hhas
      -- one number is that of one path
      rw [heq, hf] at hf'
      cases hf'
      have := hfirst (path', e.2) hmem'
      rw [Path.beq_iff] at hpath hpath'
      rw [Path.beq_def, ← hpath, ← hpath'] at this
      simp at this

/-! ## Instances -/

/-- The instances were loaded from the workspace. -/
structure Loaded (w : Workspace) (i : Instances) : Prop where
  texts : i.sources.ReadFrom w
  trees : ∀ j ∈ i.all, ∀ t ∈ j.files, ∃ f, i.sources.get? t.file = some f ∧
    f.path.components.dropLast = j.dir.components ∧ t = (SourceTree.parse t.file f.text).1
  nodup : ∀ j ∈ i.all, (j.files.map (·.file)).Nodup
  dirs : i.all.Pairwise fun j k => (j.dir == k.dir) = false
  roots : ∀ r ∈ i.roots, r < i.all.length

namespace Load

variable {w : Workspace} {path : Path}

theorem packageOf_loaded {s : State} (h : Loaded w s.found) :
    Loaded w (packageOf w path s).2.found := by
  unfold packageOf
  split
  · exact h
  · rename_i text htext
    obtain ⟨htexts, hwithin, -⟩ := Sources.add_spec h.texts htext
    refine ⟨htexts, ?_, h.nodup, h.dirs, h.roots⟩
    intro j hj t ht
    obtain ⟨f, hf, htree⟩ := h.trees j hj t ht
    exact ⟨f, hwithin _ _ hf, htree⟩

/-- An instance for a new directory is put at the end, with files that were read from the workspace.
-/
theorem instantiate_loaded {dir : Path} (choice : PackageChoice) (display : String) {s : State}
    (h : Loaded w s.found) (hdir : s.found.find? dir = none) :
    Loaded w (instantiate w dir choice display s).2.found := by
  unfold instantiate
  generalize htexts : ((w.list dir).filterMap fun path =>
    (w.read? path).map fun text => (path, text)) = texts
  have hmem : ∀ e ∈ texts, e.1 ∈ w.list dir ∧ w.read? e.1 = some e.2 := by
    intro e he
    rw [← htexts] at he
    obtain ⟨path, hpath, he⟩ := List.mem_filterMap.1 he
    obtain ⟨text, htext, rfl⟩ := Option.map_eq_some_iff.1 he
    exact ⟨hpath, htext⟩
  have hpair : texts.Pairwise fun d e => (d.1 == e.1) = false := by
    rw [← htexts, List.pairwise_filterMap]
    refine (w.list_pairwise dir).imp fun {p q} hpq d hd e he => ?_
    obtain ⟨_, -, rfl⟩ := Option.map_eq_some_iff.1 hd
    obtain ⟨_, -, rfl⟩ := Option.map_eq_some_iff.1 he
    exact hpq
  obtain ⟨hread, hwithin, hentries, hnodup⟩ :=
    register_spec h.texts fun e he => (hmem e he).2
  simp only [List.map_map, Function.comp_def]
  generalize register texts s.found.sources = r at hread hwithin hentries hnodup ⊢
  -- the trees of the directory, before those of other packages are left out
  have htrees : ∀ t ∈ r.1.map fun e => (SourceTree.parse e.1 e.2).1,
      ∃ f, r.2.get? t.file = some f ∧ f.path.components.dropLast = dir.components ∧
        t = (SourceTree.parse t.file f.text).1 := by
    intro t ht
    obtain ⟨e, he, rfl⟩ := List.mem_map.1 ht
    obtain ⟨path, hpath, f, hf, hbeq, htext⟩ := hentries e he
    rw [SourceTree.parse_file]
    refine ⟨f, hf, ?_, by rw [htext]⟩
    rw [Path.beq_iff.1 hbeq]
    exact Workspace.dir_of_mem_list (hmem _ hpath).1
  refine ⟨hread, ?_, ?_, ?_, ?_⟩
  · intro j hj t ht
    rcases List.mem_append.1 hj with hj | hj
    · obtain ⟨f, hf, htree⟩ := h.trees j hj t ht
      exact ⟨f, hwithin _ _ hf, htree⟩
    · obtain rfl := List.mem_singleton.1 hj
      exact htrees t (List.mem_filter.1 ht).1
  · intro j hj
    rcases List.mem_append.1 hj with hj | hj
    · exact h.nodup j hj
    · obtain rfl := List.mem_singleton.1 hj
      refine (hnodup hpair).sublist ?_
      have hfile : r.1.map (·.1) =
          (r.1.map fun e => (SourceTree.parse e.1 e.2).1).map (·.file) := by
        simp only [List.map_map, Function.comp_def, SourceTree.parse_file]
      rw [hfile]
      exact List.filter_sublist.map _
  · refine List.pairwise_append.2 ⟨h.dirs, List.pairwise_singleton _ _, ?_⟩
    intro j hj k hk
    obtain rfl := List.mem_singleton.1 hk
    simpa using List.findIdx?_eq_none_iff.1 hdir j hj
  · intro r hr
    rw [List.length_append]
    exact Nat.lt_add_right _ (h.roots r hr)

/-- What loading a directory does: what was loaded stays so, and the instance is there. -/
theorem directory_loaded (depth : Nat) (dir : Path) (choice : PackageChoice) (display : String)
    {s : State} (h : Loaded w s.found) :
    let r := directory w depth dir choice display s
    Loaded w r.2.found ∧ s.found.all.length ≤ r.2.found.all.length ∧
      (0 < depth → r.1 < r.2.found.all.length) := by
  induction depth generalizing dir choice display s with
  | zero => exact ⟨h, Nat.le_refl _, fun h => absurd h (Nat.lt_irrefl 0)⟩
  | succ depth ih =>
    unfold directory
    split
    · rename_i id hid
      exact ⟨h, Nat.le_refl _, fun _ => (List.findIdx?_eq_some_iff_getElem.1 hid).1⟩
    · rename_i hdir
      have h₁ := instantiate_loaded choice display h hdir
      have hlen : s.found.all.length < (instantiate w dir choice display s).2.found.all.length := by
        simp [instantiate]
      generalize instantiate w dir choice display s = r at h₁ hlen
      obtain ⟨paths, s₁⟩ := r
      dsimp only at h₁ hlen ⊢
      -- the imports only add to what is there
      induction paths generalizing s₁ with
      | nil => exact ⟨h₁, Nat.le_of_lt hlen, fun _ => hlen⟩
      | cons path paths ihp =>
        rw [List.foldl_cons]
        split
        · exact ihp s₁ h₁ hlen
        · rename_i target _
          split
          · exact ihp s₁ h₁ hlen
          · obtain ⟨h₂, hlen₂, -⟩ := ih target
              (.prefer (some (ImportPath.lastElement path))) path h₁
            exact ihp _ ⟨h₂.texts, h₂.trees, h₂.nodup, h₂.dirs, h₂.roots⟩
              (Nat.lt_of_lt_of_le hlen hlen₂)

/-- The module is that of a directory, unless there is one already. -/
def inModule (w : Workspace) (dir : Path) (s : State) : State :=
  { s with module? := s.module?.or (Module.discover? w dir) }

/-- The instance of a directory is asked for. -/
def enter (w : Workspace) (dir : Path) (choice : PackageChoice) (s : State) : State :=
  let s := inModule w dir s
  let r := directory w (w.volume + 2) dir choice (Module.display s.module? w.dir dir) s
  { r.2 with found := { r.2.found with roots := r.2.found.roots ++ [r.1] } }

/-- A path asks for the package of a source file, or for a directory. -/
theorem request_eq (w : Workspace) (path : Path) (s : State) : request w path s =
    if Workspace.isSource (w.dir.join path) then
      match (w.dir.join path).parent? with
      | none => s
      | some dir => enter w dir (.exactly (packageOf w (w.dir.join path) s).1)
          (packageOf w (w.dir.join path) s).2
    else enter w (w.dir.join path) (.prefer (w.dir.join path).fileName?) s := by
  have hjoin : (if path.isAbsolute then path else w.dir.join path) = w.dir.join path := by
    unfold Path.join
    split <;> rfl
  unfold request
  rw [hjoin]
  rfl

/-- What reading a package clause and asking for a directory keep, a request keeps. -/
theorem request_keeps {P : State → Prop}
    (hpackage : ∀ {path s}, P s → P (packageOf w path s).2)
    (henter : ∀ {dir choice s}, P s → P (enter w dir choice s)) {s : State} (h : P s) :
    P (request w path s) := by
  rw [request_eq]
  split
  · split
    · exact h
    · exact henter (hpackage h)
  · exact henter h

theorem enter_loaded {dir : Path} {choice : PackageChoice} {s : State} (h : Loaded w s.found) :
    Loaded w (enter w dir choice s).found := by
  unfold enter
  dsimp only
  obtain ⟨hr, -, hroot⟩ := directory_loaded (w.volume + 2) dir choice
    (Module.display (inModule w dir s).module? w.dir dir) (s := inModule w dir s) h
  refine ⟨hr.texts, hr.trees, hr.nodup, hr.dirs, fun i hi => ?_⟩
  rcases List.mem_append.1 hi with hi | hi
  · exact hr.roots i hi
  · rw [List.mem_singleton.1 hi]
    exact hroot (Nat.succ_pos _)

end Load

/-- What the requests keep holds of all that is loaded. -/
theorem Workspace.load_keeps {w : Workspace} {P : Load.State → Prop}
    (hpackage : ∀ {path s}, P s → P (Load.packageOf w path s).2)
    (henter : ∀ {dir choice s}, P s → P (Load.enter w dir choice s)) (h : P {})
    (paths : List Path) : ∃ s, P s ∧ w.load paths = s.found := by
  have hfold : ∀ {s : Load.State}, P s →
      P (paths.foldl (fun s path => Load.request w path s) s) := by
    induction paths with
    | nil => exact fun h => h
    | cons path paths ih => exact fun h => ih (Load.request_keeps hpackage henter h)
  exact ⟨_, hfold h, rfl⟩

theorem Workspace.load_loaded (w : Workspace) (paths : List Path) : Loaded w (w.load paths) := by
  have hempty : Loaded w ({} : Load.State).found := by
    refine ⟨?_, ?_, ?_, .nil, ?_⟩
    all_goals
      intro x hx
      cases hx
  obtain ⟨s, hs, he⟩ := load_keeps (P := fun s => Loaded w s.found) Load.packageOf_loaded
    Load.enter_loaded hempty paths
  rw [he]
  exact hs

end CueScope
