import CueScope.Proofs.Instance.Depth

/-!
# The course of loading

* `Follows`, `Arrives`, `Answers`: what following import paths, loading a directory and answering
  requests come to, as relations. Nothing in them bounds how deep imports nest.
* `Workspace.answers_iff`: answering requests comes to an end, in one way, which is `Workspace.load`.
* `Follows.keeps`, `Arrives.keeps`: what making an instance and linking keep is kept.
-/

namespace CueScope

namespace Load

/-! ## Steps -/

/-- The directory that an import path leads to, if it has source files. -/
def importTarget? (w : Workspace) (m? : Option Module) (path : String) : Option Path :=
  (m?.bind (·.importDir? path)).filter fun dir => !(w.list dir).isEmpty

theorem importTarget?_eq_some {w : Workspace} {m? : Option Module} {path : String} {dir : Path} :
    importTarget? w m? path = some dir ↔
    m?.bind (·.importDir? path) = some dir ∧ w.list dir ≠ [] := by
  simp [importTarget?, Option.filter_eq_some_iff]

/-- The package that an import asks for is named like the last element of the path. -/
def importChoice (path : String) : PackageChoice := .prefer (some (ImportPath.lastElement path))

/-- An import is linked. -/
def State.link (s : State) (e : ImportEdge) : State :=
  { s with found := { s.found with edges := s.found.edges ++ [e] } }

/-- An instance was asked for. -/
def State.root (s : State) (id : InstanceId) : State :=
  { s with found := { s.found with roots := s.found.roots ++ [id] } }

/-- An import is followed into its directory, or it leads nowhere. -/
theorem follow_eq (w : Workspace) (depth : Nat) (id : InstanceId) (s : State) (path : String) :
    follow w depth id s path =
    match importTarget? w s.module? path with
    | none => s
    | some dir =>
      let r := directory w depth dir (importChoice path) path s
      r.2.link ⟨id, path, r.1⟩ := by
  unfold follow importTarget?
  cases s.module?.bind (·.importDir? path) with
  | none => rfl
  | some dir => cases hlist : (w.list dir).isEmpty <;> simp [Option.filter, hlist, State.link, importChoice]

/-- `Follows w id paths s t`: following the import paths of the instance `id` leads from `s` to
`t`. -/
inductive Follows (w : Workspace) : InstanceId → List String → State → State → Prop
  | nil {id : InstanceId} {s : State} : Follows w id [] s s
  | nowhere {id : InstanceId} {path : String} {paths : List String} {s t : State} :
      importTarget? w s.module? path = none → Follows w id paths s t →
      Follows w id (path :: paths) s t
  | again {id v : InstanceId} {path : String} {dir : Path} {paths : List String} {s t : State} :
      importTarget? w s.module? path = some dir → s.found.find? dir = some v →
      Follows w id paths (s.link ⟨id, path, v⟩) t → Follows w id (path :: paths) s t
  | first {id : InstanceId} {path : String} {dir : Path} {paths : List String} {s t u : State} :
      importTarget? w s.module? path = some dir → s.found.find? dir = none →
      Follows w s.found.all.length (instantiate w dir (importChoice path) path s).1
        (instantiate w dir (importChoice path) path s).2 t →
      Follows w id paths (t.link ⟨id, path, s.found.all.length⟩) u →
      Follows w id (path :: paths) s u

/-- `Arrives w dir choice display s id t`: loading a directory leads from `s` to `t`, and gives the
instance `id`. -/
inductive Arrives (w : Workspace) (dir : Path) (choice : PackageChoice) (display : String) :
    State → InstanceId → State → Prop
  | again {s : State} {id : InstanceId} : s.found.find? dir = some id →
      Arrives w dir choice display s id s
  | first {s t : State} : s.found.find? dir = none →
      Follows w s.found.all.length (instantiate w dir choice display s).1
        (instantiate w dir choice display s).2 t →
      Arrives w dir choice display s s.found.all.length t

variable {w : Workspace} {dir : Path} {choice : PackageChoice} {display path : String}
  {paths : List String} {s t t' u : State} {id id' v : InstanceId}

/-- A step of following import paths, with the directory loaded in either way. -/
theorem Follows.cons (hdir : importTarget? w s.module? path = some dir)
    (h : Arrives w dir (importChoice path) path s v t)
    (hmore : Follows w id paths (t.link ⟨id, path, v⟩) u) : Follows w id (path :: paths) s u := by
  cases h with
  | again hfound => exact .again hdir hfound hmore
  | first hnew hfollows => exact .first hdir hnew hfollows hmore

/-- Following import paths has one outcome. -/
theorem Follows.unique (h : Follows w id paths s t) (h' : Follows w id paths s t') : t' = t := by
  induction h generalizing t' with
  | nil =>
    cases h'
    rfl
  | nowhere hnone _ ih =>
    cases h' with
    | nowhere _ hmore => exact ih hmore
    | again hdir => rw [hnone] at hdir; cases hdir
    | first hdir => rw [hnone] at hdir; cases hdir
  | again hdir hfound _ ih =>
    cases h' with
    | nowhere hnone => rw [hdir] at hnone; cases hnone
    | again hdir' hfound' hmore =>
      cases hdir.symm.trans hdir'
      cases hfound.symm.trans hfound'
      exact ih hmore
    | first hdir' hnew =>
      cases hdir.symm.trans hdir'
      rw [hfound] at hnew
      cases hnew
  | first hdir hnew _ _ ih ihmore =>
    cases h' with
    | nowhere hnone => rw [hdir] at hnone; cases hnone
    | again hdir' hfound =>
      cases hdir.symm.trans hdir'
      rw [hnew] at hfound
      cases hfound
    | first hdir' _ hinner hmore =>
      cases hdir.symm.trans hdir'
      cases ih hinner
      exact ihmore hmore

/-- By induction on the first arrival, there is only one. -/
theorem Arrives.unique (h : Arrives w dir choice display s id t)
    (h' : Arrives w dir choice display s id' t') : id' = id ∧ t' = t := by
  cases h with
  | again hfound =>
    cases h' with
    | again hfound' => exact ⟨Option.some.inj (hfound'.symm.trans hfound), rfl⟩
    | first hnew => rw [hfound] at hnew; cases hnew
  | first hnew hfollows =>
    cases h' with
    | again hfound => rw [hnew] at hfound; cases hfound
    | first _ hfollows' => exact ⟨rfl, hfollows.unique hfollows'⟩

/-! ## The bound is not reached -/

/-- Where there is room, a directory is loaded as if imports could nest without a bound. -/
theorem arrives_directory {depth : Nat} (h : Room w depth dir s) :
    Arrives w dir choice display s (directory w depth dir choice display s).1
      (directory w depth dir choice display s).2 := by
  induction depth generalizing dir choice display s with
  | zero => exact absurd h.pos (Nat.lt_irrefl 0)
  | succ depth ih =>
    rw [directory_succ]
    split
    · rename_i id hid
      exact .again hid
    · rename_i hnew
      refine .first hnew ?_
      have hunmet : unmet w (instantiate w dir choice display s).2 < depth := h.instantiate hnew
      have hstated : ∀ path ∈ (instantiate w dir choice display s).1, Stated w path :=
        fun _ => stated_of_mem_imports
      generalize (instantiate w dir choice display s).1 = paths at hstated
      generalize (instantiate w dir choice display s).2 = s₁ at hunmet ⊢
      -- what is unmet only gets less on the way
      induction paths generalizing s₁ with
      | nil => exact .nil
      | cons path paths ihp =>
        have hmore := fun p hp => hstated p (List.mem_cons_of_mem _ hp)
        rw [List.foldl_cons]
        have hextends := follow_extends (w := w) (directory_extends depth) s.found.all.length s₁ path
        have hunmet' := Nat.lt_of_le_of_lt hextends.unmet_le hunmet
        cases htarget : importTarget? w s₁.module? path with
        | none =>
          rw [follow_eq, htarget] at hunmet' ⊢
          exact .nowhere htarget (ihp hmore _ hunmet')
        | some target =>
          rw [follow_eq, htarget] at hunmet' ⊢
          have hroom := Room.imported (hstated path List.mem_cons_self) hunmet
            (importTarget?_eq_some.1 htarget).1
          exact .cons htarget (ih hroom) (ihp hmore _ hunmet')

/-! ## Requests -/

/-- The directory that a path asks for. -/
def dirOf (w : Workspace) (path : Path) : Path :=
  let path := w.dir.join path
  if Workspace.isSource path then path.parent?.getD path else path

/-- The package that a path asks for, and the state after it was read off a source file. -/
def wanted (w : Workspace) (path : Path) (s : State) : PackageChoice × State :=
  let path := w.dir.join path
  if Workspace.isSource path then (.exactly (packageOf w path s).1, (packageOf w path s).2)
  else (.prefer path.fileName?, s)

/-- A source file lies in a directory. -/
theorem exists_parent {path : Path} (h : Workspace.isSource path) :
    ∃ dir, path.parent? = some dir := by
  unfold Workspace.isSource Path.extension? Path.lastName? at h
  unfold Path.parent?
  split at h
  · rename_i name hname
    rw [hname]
    exact ⟨_, rfl⟩
  · simp at h

/-- A request is an entry into the directory of its path. -/
theorem request_eq_enter (w : Workspace) (path : Path) (s : State) :
    request w path s = enter w (dirOf w path) (wanted w path s).1 (wanted w path s).2 := by
  rw [request_eq]
  unfold dirOf wanted
  dsimp only
  split
  · rename_i hsource
    obtain ⟨dir, hdir⟩ := exists_parent hsource
    rw [hdir]
    rfl
  · rfl

/-- `Asks w dir choice s t`: asking for a directory leads from `s` to `t`. -/
inductive Asks (w : Workspace) (dir : Path) (choice : PackageChoice) : State → State → Prop
  | intro {s t : State} {id : InstanceId} :
      Arrives w dir choice (Module.display (inModule w dir s).module? w.dir dir)
      (inModule w dir s) id t → Asks w dir choice s (t.root id)

theorem asks_iff : Asks w dir choice s t ↔ t = enter w dir choice s := by
  have hasks : Asks w dir choice s (enter w dir choice s) :=
    .intro (arrives_directory (.volume w dir (inModule w dir s)))
  refine ⟨fun h => ?_, fun h => h ▸ hasks⟩
  generalize enter w dir choice s = t' at hasks
  cases hasks with
  | intro harrives' =>
    cases h with
    | intro harrives =>
      obtain ⟨rfl, rfl⟩ := harrives.unique harrives'
      rfl

/-- `Answers w paths s t`: answering the requests for `paths` leads from `s` to `t`. -/
inductive Answers (w : Workspace) : List Path → State → State → Prop
  | nil {s : State} : Answers w [] s s
  | cons {path : Path} {paths : List Path} {s t u : State} :
      Asks w (dirOf w path) (wanted w path s).1 (wanted w path s).2 t → Answers w paths t u →
      Answers w (path :: paths) s u

/-- Requests are answered one after the other. -/
theorem answers_iff {paths : List Path} :
    Answers w paths s t ↔ t = paths.foldl (fun s path => request w path s) s := by
  induction paths generalizing s with
  | nil =>
    constructor
    · intro h
      cases h
      rfl
    · rintro rfl
      exact .nil
  | cons path paths ih =>
    rw [List.foldl_cons, ← ih, request_eq_enter]
    constructor
    · intro h
      cases h with
      | cons hasks hmore => rwa [asks_iff.1 hasks] at hmore
    · exact .cons (asks_iff.2 rfl)

/-! ## What is kept -/

/-- What making an instance and linking keep, following imports keeps. -/
theorem Follows.keeps {P : State → Prop} (h : Follows w id paths s t)
    (hnew : ∀ {dir choice display s}, P s → s.found.find? dir = none →
      P (instantiate w dir choice display s).2)
    (hlink : ∀ {s e}, P s → P (s.link e)) (hs : P s) : P t := by
  induction h with
  | nil => exact hs
  | nowhere _ _ ih => exact ih hs
  | again _ _ _ ih => exact ih (hlink hs)
  | first _ hfresh _ _ ih ihmore => exact ihmore (hlink (ih (hnew hs hfresh)))

/-- So does loading a directory. -/
theorem Arrives.keeps {P : State → Prop} (h : Arrives w dir choice display s id t)
    (hnew : ∀ {dir choice display s}, P s → s.found.find? dir = none →
      P (instantiate w dir choice display s).2)
    (hlink : ∀ {s e}, P s → P (s.link e)) (hs : P s) : P t := by
  cases h with
  | again => exact hs
  | first hfresh hfollows => exact hfollows.keeps hnew hlink (hnew hs hfresh)

end Load

end CueScope
