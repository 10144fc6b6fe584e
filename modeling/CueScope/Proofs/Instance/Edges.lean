import CueScope.Proofs.Instance.Load
import Mathlib.Data.List.Pairwise
import Mathlib.Logic.Relation

/-!
# How instances are linked

* `Instances.Joined`: the invariant of the edges. Both ends of an edge are instances, the importer
  has a file that states the path, and it has one edge for a path. So the path leads to the target
  (`Joined.lookup?_eq`).
* `Load.directory_succ`: loading a directory is making its instance and then following its import
  paths one after the other. `Load.Following` is what holds on the way.
* `Workspace.load_joined`: the invariant holds of what is loaded for any paths.
-/

namespace CueScope

namespace Load

theorem mem_importPaths {files : List SourceTree} {path : String} :
    path ∈ importPaths files ↔ ∃ t ∈ files, ∃ spec ∈ t.imports, spec.path? = some path := by
  simp [importPaths]

/-- Every import path is followed once. -/
theorem nodup_importPaths (files : List SourceTree) : (importPaths files).Nodup := by
  have herase : ∀ (n : Nat) (l : List String), l.length = n → l.eraseDups.Nodup := by
    intro n
    induction n using Nat.strong_induction_on with
    | _ n ih =>
      intro l hl
      cases l with
      | nil => simp
      | cons a l =>
        have hlt : (l.filter fun b => !b == a).length < n := by
          have hle := List.length_filter_le (fun b => !b == a) l
          rw [List.length_cons] at hl
          omega
        rw [List.eraseDups_cons, List.nodup_cons, List.mem_eraseDups]
        exact ⟨by simp, ih _ hlt _ rfl⟩
  exact herase _ _ rfl

end Load

namespace Instances

/-- `i.Imports a b`: the instance `a` imports `b`. -/
def Imports (i : Instances) (a b : InstanceId) : Prop :=
  ∃ e ∈ i.edges, e.importer = a ∧ e.target = b

/-- Edges run between instances, by the paths that files of the importer state. -/
structure Joined (i : Instances) : Prop where
  target_lt : ∀ e ∈ i.edges, e.target < i.all.length
  stated : ∀ e ∈ i.edges, ∃ j, i.get? e.importer = some j ∧ e.path ∈ Load.importPaths j.files
  unique : i.edges.Pairwise fun e e' => e.importer = e'.importer → e.path ≠ e'.path

/-- `Grows i i'`: on the way from `i` to `i'` instances were added, and edges of added ones. -/
structure Grows (i i' : Instances) : Prop where
  all : ∃ js, i'.all = i.all ++ js
  edges : ∃ es, i'.edges = i.edges ++ es ∧ ∀ e ∈ es, i.all.length ≤ e.importer

variable {i i' i'' : Instances} {a b : InstanceId} {e : ImportEdge}

theorem mem_importsOf : (∃ path, (path, b) ∈ i.importsOf a) ↔ i.Imports a b := by
  unfold importsOf Imports
  simp only [List.mem_mergeSort, List.mem_map, List.mem_filter, Prod.mk.injEq, decide_eq_true_eq]
  constructor
  · rintro ⟨path, e, ⟨he, ha⟩, -, hb⟩
    exact ⟨e, he, ha, hb⟩
  · rintro ⟨e, he, ha, hb⟩
    exact ⟨e.path, e, ⟨he, ha⟩, rfl, hb⟩

/-- An edge is found again by its importer and its import path. -/
theorem Joined.lookup?_eq (h : i.Joined) (he : e ∈ i.edges) :
    i.lookup? e.importer e.path = some e.target := by
  have hsome : (i.edges.find? fun e' => e'.importer = e.importer ∧ e'.path = e.path).isSome := by
    rw [List.find?_isSome]
    exact ⟨e, he, by simp⟩
  obtain ⟨e', hfound⟩ := Option.isSome_iff_exists.1 hsome
  have hmem := List.mem_of_find?_eq_some hfound
  have hsame : e'.importer = e.importer ∧ e'.path = e.path := by
    simpa using List.find?_some hfound
  have hsymm : Std.Symm fun e e' : ImportEdge => e.importer = e'.importer → e.path ≠ e'.path :=
    ⟨fun _ _ h himp hpath => h himp.symm hpath.symm⟩
  have heq : e' = e := by
    by_contra hne
    exact h.unique.forall hmem he hne hsame.1 hsame.2
  rw [lookup?, hfound, heq]
  rfl

/-- What a path leads to is imported. -/
theorem imports_of_lookup? {path : String} (h : i.lookup? a path = some b) : i.Imports a b := by
  obtain ⟨e, he, hb⟩ := Option.map_eq_some_iff.1 h
  have hmatch : e.importer = a ∧ e.path = path := by simpa using List.find?_some he
  exact ⟨e, List.mem_of_find?_eq_some he, hmatch.1, hb⟩

theorem Grows.refl (i : Instances) : Grows i i := ⟨⟨[], by simp⟩, [], by simp, by simp⟩

theorem Grows.length_le (h : Grows i i') : i.all.length ≤ i'.all.length := by
  obtain ⟨js, hjs⟩ := h.all
  simp [hjs]

/-- What is kept in two steps is kept in both. -/
theorem Grows.trans (h : Grows i i') (h' : Grows i' i'') : Grows i i'' := by
  have hle := h.length_le
  obtain ⟨js, hjs⟩ := h.all
  obtain ⟨js', hjs'⟩ := h'.all
  obtain ⟨es, hes, he⟩ := h.edges
  obtain ⟨es', hes', he'⟩ := h'.edges
  refine ⟨⟨js ++ js', by rw [hjs', hjs, List.append_assoc]⟩, es ++ es',
    by rw [hes', hes, List.append_assoc], fun e hmem => ?_⟩
  rcases List.mem_append.1 hmem with hmem | hmem
  · exact he e hmem
  · exact Nat.le_trans hle (he' e hmem)

theorem Grows.edge (h : Grows i i') (he : i.all.length ≤ e.importer) :
    Grows i { i' with edges := i'.edges ++ [e] } := by
  obtain ⟨es, hes, hnew⟩ := h.edges
  refine ⟨h.all, es ++ [e], by rw [hes, List.append_assoc], fun e' he' => ?_⟩
  rcases List.mem_append.1 he' with he' | he'
  · exact hnew e' he'
  · rw [List.mem_singleton.1 he']
    exact he

theorem Grows.get? (h : Grows i i') {j : Instance} (hj : i.get? a = some j) :
    i'.get? a = some j := by
  obtain ⟨js, hjs⟩ := h.all
  unfold Instances.get? at hj ⊢
  rw [hjs, List.getElem?_append_left (List.getElem?_eq_some_iff.1 hj).1, hj]

/-- Edges of an instance that was there before are there before. -/
theorem Grows.mem_edges (h : Grows i i') (he : e ∈ i'.edges) (hlt : e.importer < i.all.length) :
    e ∈ i.edges := by
  obtain ⟨es, hes, hnew⟩ := h.edges
  rw [hes] at he
  rcases List.mem_append.1 he with he | he
  · exact he
  · exact absurd hlt (Nat.not_lt.2 (hnew e he))

/-- A further instance. -/
theorem Joined.instance (h : i.Joined) (j : Instance) (sources : Sources)
    (errors : List SyntaxError) :
    Joined { i with all := i.all ++ [j], sources, errors } := by
  refine ⟨fun e he => ?_, fun e he => ?_, h.unique⟩
  · rw [List.length_append]
    exact Nat.lt_add_right _ (h.target_lt e he)
  · obtain ⟨k, hk, hpath⟩ := h.stated e he
    refine ⟨k, ?_, hpath⟩
    unfold Instances.get? at hk ⊢
    rw [List.getElem?_append_left (List.getElem?_eq_some_iff.1 hk).1, hk]

/-- A further edge. -/
theorem Joined.edge (h : i.Joined) (htarget : e.target < i.all.length) {j : Instance}
    (hj : i.get? e.importer = some j) (hpath : e.path ∈ Load.importPaths j.files)
    (hnew : ∀ e' ∈ i.edges, e'.importer = e.importer → e'.path ≠ e.path) :
    Joined { i with edges := i.edges ++ [e] } := by
  refine ⟨fun e' he' => ?_, fun e' he' => ?_, ?_⟩
  · rcases List.mem_append.1 he' with he' | he'
    · exact h.target_lt e' he'
    · rw [List.mem_singleton.1 he']
      exact htarget
  · rcases List.mem_append.1 he' with he' | he'
    · exact h.stated e' he'
    · rw [List.mem_singleton.1 he']
      exact ⟨j, hj, hpath⟩
  · refine List.pairwise_append.2 ⟨h.unique, List.pairwise_singleton _ _, fun e' he' e'' he'' => ?_⟩
    rw [List.mem_singleton.1 he'']
    exact hnew e' he'

end Instances

namespace Load

open Instances

variable {w : Workspace} {dir : Path} {choice : PackageChoice} {display : String} {s : State}

/-! ## Following imports -/

/-- Loads what an instance imports by a path. -/
def follow (w : Workspace) (depth : Nat) (id : InstanceId) (s : State) (path : String) : State :=
  match s.module?.bind (·.importDir? path) with
  | none => s
  | some target =>
    if (w.list target).isEmpty then s
    else
      let r := directory w depth target (.prefer (some (ImportPath.lastElement path))) path s
      { r.2 with found := { r.2.found with edges := r.2.found.edges ++ [⟨id, path, r.1⟩] } }

theorem directory_succ (depth : Nat) :
    directory w (depth + 1) dir choice display s =
      match s.found.find? dir with
      | some id => (id, s)
      | none => (s.found.all.length, (instantiate w dir choice display s).1.foldl
          (follow w depth s.found.all.length) (instantiate w dir choice display s).2) := rfl

/-- The instance `j` was added to `i`, and of its import paths `paths` are still to be followed: it has
no edge for them yet. -/
structure Following (i : Instances) (j : Instance) (paths : List String) (i' : Instances) : Prop where
  joined : i'.Joined
  grows : Grows i i'
  get?_eq : i'.get? i.all.length = some j
  nodup : paths.Nodup
  stated : ∀ path ∈ paths, path ∈ importPaths j.files
  left : ∀ e ∈ i'.edges, e.importer = i.all.length → e.path ∉ paths

namespace Following

variable {i i' : Instances} {j : Instance} {path : String} {paths : List String}

/-- A new instance has no edges yet, and its imports are to be followed. -/
theorem begin (w : Workspace) (dir : Path) (choice : PackageChoice) (display : String)
    (h : s.found.Joined) : ∃ j, Following s.found j (instantiate w dir choice display s).1
      (instantiate w dir choice display s).2.found := by
  obtain ⟨j, hj, hpaths⟩ : ∃ j,
      (instantiate w dir choice display s).2.found.all = s.found.all ++ [j] ∧
        (instantiate w dir choice display s).1 = importPaths j.files := ⟨_, rfl, rfl⟩
  have hjoined : (instantiate w dir choice display s).2.found.Joined := h.instance _ _ _
  have hedges : (instantiate w dir choice display s).2.found.edges = s.found.edges := rfl
  generalize instantiate w dir choice display s = r at hj hpaths hjoined hedges ⊢
  refine ⟨j, hjoined, ⟨⟨[j], hj⟩, [], by simp [hedges], by simp⟩, ?_, hpaths ▸ nodup_importPaths _,
    fun path hmem => hpaths ▸ hmem, fun e he himp => ?_⟩
  · rw [Instances.get?, hj]
    exact List.getElem?_concat_length
  · rw [hedges] at he
    obtain ⟨k, hk, -⟩ := h.stated e he
    rw [himp] at hk
    exact absurd (List.getElem?_eq_some_iff.1 hk).1 (Nat.lt_irrefl _)

theorem lt_length (h : Following i j paths i') : i.all.length < i'.all.length :=
  (List.getElem?_eq_some_iff.1 h.get?_eq).1

/-- A path that leads nowhere gets no edge. -/
theorem skip (h : Following i j (path :: paths) i') : Following i j paths i' :=
  ⟨h.joined, h.grows, h.get?_eq, (List.nodup_cons.1 h.nodup).2,
    fun p hp => h.stated p (List.mem_cons_of_mem _ hp),
    fun e he himp hmem => h.left e he himp (List.mem_cons_of_mem _ hmem)⟩

/-- What a path leads to is loaded, and then the path gets its edge. -/
theorem edge {i'' : Instances} {t : InstanceId} (h : Following i j (path :: paths) i')
    (hjoined : i''.Joined) (hgrows : Grows i' i'') (ht : t < i''.all.length) :
    Following i j paths { i'' with edges := i''.edges ++ [⟨i.all.length, path, t⟩] } := by
  have hget := hgrows.get? h.get?_eq
  have hold : ∀ e ∈ i''.edges, e.importer = i.all.length → e ∈ i'.edges := fun e he himp =>
    hgrows.mem_edges he (himp ▸ h.lt_length)
  obtain ⟨hpath, hnodup⟩ := List.nodup_cons.1 h.nodup
  refine ⟨?_, (h.grows.trans hgrows).edge (Nat.le_refl _), hget, hnodup, h.skip.stated, ?_⟩
  · refine hjoined.edge ht hget (h.stated path List.mem_cons_self) fun e he himp hp => ?_
    exact h.left e (hold e he himp) himp (hp ▸ List.mem_cons_self)
  · intro e he himp hmem
    rcases List.mem_append.1 he with he | he
    · exact h.skip.left e (hold e he himp) himp hmem
    · rw [List.mem_singleton.1 he] at hmem
      exact hpath hmem

end Following

/-- What loading a directory at most `depth` deep does to the instances. -/
def Joins (w : Workspace) (depth : Nat) : Prop :=
  ∀ (dir : Path) (choice : PackageChoice) (display : String) {s : State}, s.found.Joined →
    let r := directory w depth dir choice display s
    r.2.found.Joined ∧ Grows s.found r.2.found ∧
      (0 < r.2.found.all.length → r.1 < r.2.found.all.length)

/-- One more import was followed, and there is one path less to come. -/
theorem Following.follow {depth : Nat} (hdepth : Joins w depth) {i : Instances} {j : Instance}
    {path : String} {paths : List String} (h : Following i j (path :: paths) s.found) :
    Following i j paths (follow w depth i.all.length s path).found := by
  unfold Load.follow
  split
  · exact h.skip
  · rename_i target _
    split
    · exact h.skip
    · obtain ⟨hjoined, hgrows, hlt⟩ :=
        hdepth target (.prefer (some (ImportPath.lastElement path))) path h.joined
      have hlen := Nat.lt_of_lt_of_le h.lt_length hgrows.length_le
      exact h.edge hjoined hgrows (hlt (Nat.zero_lt_of_lt hlen))

theorem Following.foldl {depth : Nat} (hdepth : Joins w depth) {i : Instances} {j : Instance}
    (paths : List String) (h : Following i j paths s.found) :
    Following i j [] (paths.foldl (Load.follow w depth i.all.length) s).found := by
  induction paths generalizing s with
  | nil => exact h
  | cons path paths ih => exact ih (h.follow hdepth)

/-- Loading a directory adds instances with their edges, and gives an instance. -/
theorem directory_joined (depth : Nat) : Joins w depth := by
  induction depth with
  | zero => exact fun _ _ _ _ h => ⟨h, .refl _, id⟩
  | succ depth ih =>
    intro dir choice display s h
    rw [directory_succ]
    split
    · rename_i id hid
      exact ⟨h, .refl _, fun _ => (List.findIdx?_eq_some_iff_getElem.1 hid).1⟩
    · obtain ⟨j, hbegun⟩ := Following.begin w dir choice display h
      have hdone := hbegun.foldl ih
      exact ⟨hdone.joined, hdone.grows, fun _ => hdone.lt_length⟩

end Load

/-- The edges of a loaded workspace lead from its instances to its instances, one for each import
path at most. -/
theorem Workspace.load_joined (w : Workspace) (paths : List Path) : (w.load paths).Joined := by
  have hempty : ({} : Load.State).found.Joined := by
    refine ⟨?_, ?_, .nil⟩
    all_goals
      intro e he
      cases he
  have hpackage : ∀ {path : Path} {s : Load.State}, s.found.Joined →
      (Load.packageOf w path s).2.found.Joined := by
    intro path s h
    unfold Load.packageOf
    split
    · exact h
    · exact ⟨h.target_lt, h.stated, h.unique⟩
  have henter : ∀ {dir : Path} {choice : PackageChoice} {s : Load.State}, s.found.Joined →
      (Load.enter w dir choice s).found.Joined := by
    intro dir choice s h
    have hr := (Load.directory_joined (w := w) (w.volume + 2) dir choice
      (Module.display (Load.inModule w dir s).module? w.dir dir) (s := Load.inModule w dir s) h).1
    exact ⟨hr.target_lt, hr.stated, hr.unique⟩
  obtain ⟨s, hs, he⟩ := load_keeps (P := fun s => s.found.Joined) hpackage henter hempty paths
  rw [he]
  exact hs

end CueScope
