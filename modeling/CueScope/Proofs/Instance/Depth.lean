import CueScope.Proofs.Instance.Edges
import CueScope.Proofs.Token.Spelling
import CueScope.Proofs.Tree.Derivation
import Mathlib.Algebra.Order.BigOperators.Group.List
import Mathlib.Algebra.Order.Ring.Nat

/-!
# How deep imports nest

* `directory_extends`: loading a directory only adds instances, and keeps the module.
* `unmet`: the number of words in all texts that import a directory which is not loaded yet. It is
  at most the volume of the workspace, and following such an import lowers it (`unmet_lt`). So the
  nesting of imports is bounded by it.
* `Room`: there is depth enough to load a directory. An import has it if what is unmet has
  (`Room.imported`).
-/

namespace CueScope

/-! ## Words that import something -/

namespace Tree

variable {D : Prop} {bodies : Bodies} {ts : List (Spanned Token)} {i : ImportSpec}

theorem SpecFrom.exists_token (h : SpecFrom ts i) : ∃ t ∈ ts, t.val = .str i.path.raw := by
  cases h with
  | named _ hp => exact ⟨_, by simp, hp⟩
  | plain hp => exact ⟨_, by simp, hp⟩

theorem Specs.exists_token {is : List ImportSpec} (h : Specs D ts is) (hi : i ∈ is) :
    ∃ t ∈ ts, t.val = .str i.path.raw := by
  induction h with
  | nil => cases hi
  | skip _ _ ih =>
    obtain ⟨t, ht, hval⟩ := ih hi
    exact ⟨t, List.mem_append_right _ ht, hval⟩
  | cons hspec _ ih =>
    rcases List.mem_cons.1 hi with rfl | hi
    · obtain ⟨t, ht, hval⟩ := hspec.exists_token
      exact ⟨t, List.mem_append_left _ ht, hval⟩
    · obtain ⟨t, ht, hval⟩ := ih hi
      exact ⟨t, List.mem_append_right _ ht, hval⟩

/-- The path of an import is a token of the file. -/
theorem Files.exists_token {x : Option PackageClause × List ImportSpec × List Decl}
    (h : Files bodies D ts x) (hi : i ∈ x.2.1) : ∃ t ∈ ts, t.val = .str i.path.raw := by
  induction h with
  | skip _ _ ih | package _ _ _ ih =>
    obtain ⟨t, ht, hval⟩ := ih hi
    exact ⟨t, List.mem_append_right _ ht, hval⟩
  | single _ hspec _ ih =>
    rcases List.mem_cons.1 hi with rfl | hi
    · obtain ⟨t, ht, hval⟩ := hspec.exists_token
      exact ⟨t, by simp [ht], hval⟩
    · obtain ⟨t, ht, hval⟩ := ih hi
      exact ⟨t, List.mem_append_right _ ht, hval⟩
  | group _ _ hspecs _ _ ih =>
    rcases List.mem_append.1 hi with hi | hi
    · obtain ⟨t, ht, hval⟩ := hspecs.exists_token hi
      exact ⟨t, by simp [ht], hval⟩
    · obtain ⟨t, ht, hval⟩ := ih hi
      exact ⟨t, List.mem_append_right _ ht, hval⟩
  | decls _ => cases hi

end Tree

open Grammar in
/-- The path of an import is spelt by one of the words of the text, whatever file it is in. -/
theorem SourceTree.raw_mem_spellings {file : FileId} {text : String} {i : ImportSpec}
    (hi : i ∈ (parse file text).1.imports) : i.path.raw.toList ∈ Token.spellings text.toList := by
  rw [parse_fst] at hi
  cases hx : (read file text).1 with
  | none =>
    rw [hx] at hi
    cases hi
  | some x =>
    rw [hx] at hi
    have hfile := (Tree.file_derives _ True).run hx (.inl trivial)
    obtain ⟨t, ht, hval⟩ := hfile.exists_token hi
    have hspelt := Token.name_mem_spellings ht (by rw [hval]; exact nofun)
    rwa [hval] at hspelt

/-! ## Following imports -/

namespace Load

variable {w : Workspace} {dir : Path} {choice : PackageChoice} {display : String} {s : State}

/-- Only instances are added, and the module is kept. -/
structure Extends (s t : State) : Prop where
  all : s.found.all <+: t.found.all
  module?_eq : t.module? = s.module?

theorem Extends.refl (s : State) : Extends s s := ⟨List.prefix_refl _, rfl⟩

theorem Extends.trans {s t u : State} (h : Extends s t) (h' : Extends t u) : Extends s u :=
  ⟨h.all.trans h'.all, h'.module?_eq.trans h.module?_eq⟩

theorem foldl_extends {f : State → String → State} (h : ∀ s path, Extends s (f s path))
    (paths : List String) (s : State) : Extends s (paths.foldl f s) := by
  induction paths generalizing s with
  | nil => exact .refl s
  | cons path paths ih => exact (h s path).trans (ih _)

theorem follow_extends {depth : Nat}
    (h : ∀ dir choice display s, Extends s (directory w depth dir choice display s).2)
    (id : InstanceId) (s : State) (path : String) : Extends s (follow w depth id s path) := by
  unfold follow
  split
  · exact .refl s
  · split
    · exact .refl s
    · obtain ⟨hall, hmodule⟩ := h _ (.prefer (some (ImportPath.lastElement path))) path s
      exact ⟨hall, hmodule⟩

/-- By induction on the depth, loading a directory only adds to what was found. -/
theorem directory_extends (depth : Nat) (dir : Path) (choice : PackageChoice) (display : String)
    (s : State) : Extends s (directory w depth dir choice display s).2 := by
  induction depth generalizing dir choice display s with
  | zero => exact .refl s
  | succ depth ih =>
    rw [directory_succ]
    split
    · exact .refl s
    · have hnew : Extends s (instantiate w dir choice display s).2 :=
        ⟨List.prefix_append _ _, rfl⟩
      exact hnew.trans (foldl_extends (follow_extends ih _) _ _)

end Load

/-! ## Imports that are left -/

/-- The texts of a workspace. -/
def Workspace.texts (w : Workspace) : List String :=
  w.overlay.entries.map (·.2) ++ w.disk.files.filterMap (·.2)

/-- What the words of all texts are spelt by. -/
def Workspace.spellings (w : Workspace) : List (List Char) :=
  w.texts.flatMap fun text => Token.spellings text.toList

namespace Workspace

variable {w : Workspace} {p : Path} {text : String}

theorem volume_eq (w : Workspace) : w.volume = (w.texts.map (·.length)).sum := by
  have hfold : ∀ {α : Type} (f : α → Nat) (as : List α) (n : Nat),
      as.foldl (fun n a => n + f a) n = n + (as.map f).sum := by
    intro α f as
    induction as with
    | nil => simp
    | cons a as ih =>
      intro n
      rw [List.foldl_cons, ih, List.map_cons, List.sum_cons, Nat.add_assoc]
  have hfiles : ∀ fs : List (Place × Option String), (fs.map fun f => f.2.elim 0 (·.length)).sum =
      ((fs.filterMap (·.2)).map (·.length)).sum := by
    intro fs
    induction fs with
    | nil => rfl
    | cons f fs ih =>
      obtain ⟨q, o⟩ := f
      cases o <;> simp [ih]
  rw [volume, texts, List.map_append, List.sum_append, List.map_map, hfold, hfold, hfiles,
    Nat.zero_add]
  rfl

theorem length_spellings_le (w : Workspace) : w.spellings.length ≤ w.volume := by
  rw [w.volume_eq, spellings, List.length_flatMap]
  exact List.sum_le_sum fun text _ => Token.length_spellings_le text.toList

theorem mem_texts (h : w.read? p = some text) : text ∈ w.texts := by
  unfold texts
  rw [List.mem_append, List.mem_map, List.mem_filterMap]
  rcases Option.or_eq_some_iff.1 h with hentry | ⟨-, hfile⟩
  · obtain ⟨e, he, rfl⟩ := Option.map_eq_some_iff.1 hentry
    exact .inl ⟨e, List.mem_of_find?_eq_some he, rfl⟩
  · obtain ⟨q, -, hq⟩ := Option.bind_eq_some_iff.1 (Option.join_eq_some_iff.1 hfile)
    obtain ⟨before, after, hsplit, -⟩ := List.lookup_eq_some_iff.1 hq
    exact .inr ⟨(q, some text), by simp [hsplit], rfl⟩

end Workspace

namespace Load

variable {w : Workspace} {dir : Path} {choice : PackageChoice} {display : String} {s t : State}
  {word : List Char} {depth : Nat}

/-- The directory that a word imports. -/
def target? (m? : Option Module) (word : List Char) : Option Path :=
  (Text.unquote (String.ofList word)).bind fun path => m?.bind (·.importDir? path)

/-- The word imports a directory that is not loaded. -/
def isUnmet (s : State) (word : List Char) : Bool :=
  (target? s.module? word).any fun dir => (s.found.find? dir).isNone

/-- Number of words that import a directory which is not loaded. -/
def unmet (w : Workspace) (s : State) : Nat := w.spellings.countP (isUnmet s)

theorem unmet_le_volume (w : Workspace) (s : State) : unmet w s ≤ w.volume :=
  Nat.le_trans List.countP_le_length w.length_spellings_le

theorem Extends.find?_isSome (h : Extends s t) (hs : (s.found.find? dir).isSome) :
    (t.found.find? dir).isSome := by
  rw [Instances.find?, List.findIdx?_isSome, List.any_eq_true] at hs ⊢
  obtain ⟨j, hj, hdir⟩ := hs
  exact ⟨j, h.all.subset hj, hdir⟩

theorem Extends.isUnmet (h : Extends s t) (hword : isUnmet t word) : isUnmet s word := by
  unfold Load.isUnmet at hword ⊢
  rw [h.module?_eq] at hword
  obtain ⟨dir, hdir, hnone⟩ := Option.any_eq_true _ _ |>.1 hword
  refine (Option.any_eq_true _ _).2 ⟨dir, hdir, ?_⟩
  rw [Option.isNone_iff_eq_none, ← Option.not_isSome_iff_eq_none] at hnone ⊢
  exact fun hs => hnone (h.find?_isSome hs)

theorem Extends.unmet_le (h : Extends s t) : unmet w t ≤ unmet w s :=
  List.countP_mono_left fun _ _ => h.isUnmet

/-- Loading what a word imports leaves fewer unmet imports. -/
theorem Extends.unmet_lt (h : Extends s t) (hword : word ∈ w.spellings)
    (hdir : target? s.module? word = some dir) (hnew : s.found.find? dir = none)
    (hloaded : (t.found.find? dir).isSome) : unmet w t < unmet w s := by
  have hs : Load.isUnmet s word = true := by simp [Load.isUnmet, hdir, hnew]
  have ht : Load.isUnmet t word = false := by
    simpa [Load.isUnmet, h.module?_eq, hdir, ← Option.not_isSome_iff_eq_none] using hloaded
  have hle : ∀ l : List (List Char), l.countP (Load.isUnmet t) ≤ l.countP (Load.isUnmet s) :=
    fun l => List.countP_mono_left fun _ _ => h.isUnmet
  obtain ⟨as, bs, hsplit⟩ := List.append_of_mem hword
  have has := hle as
  have hbs := hle bs
  unfold unmet
  rw [hsplit, List.countP_append, List.countP_append, List.countP_cons, List.countP_cons, hs, ht]
  simp only [if_true, Bool.false_eq_true, if_false]
  omega

/-- The import path stands in some text. -/
def Stated (w : Workspace) (path : String) : Prop :=
  ∃ word ∈ w.spellings, Text.unquote (String.ofList word) = some path

theorem register_texts (texts : List (Path × String)) (sources : Sources) :
    (register texts sources).1.map (·.2) = texts.map (·.2) := by
  induction texts generalizing sources with
  | nil => rfl
  | cons e texts ih => simp [register, ih]

/-- What an instance imports stands in some text. -/
theorem stated_of_mem_imports {path : String} (h : path ∈ (instantiate w dir choice display s).1) :
    Stated w path := by
  unfold instantiate at h
  dsimp only at h
  obtain ⟨t, ht, spec, hspec, hpath⟩ := mem_importPaths.1 h
  obtain ⟨parsed, hparsed, rfl⟩ := List.mem_map.1 (List.mem_filter.1 ht).1
  obtain ⟨e, he, rfl⟩ := List.mem_map.1 hparsed
  have htext := List.mem_map_of_mem (f := fun e : FileId × String => e.2) he
  rw [register_texts] at htext
  obtain ⟨pt, hpt, heq⟩ := List.mem_map.1 htext
  obtain ⟨p, -, hread⟩ := List.mem_filterMap.1 hpt
  obtain ⟨text, htext, rfl⟩ := Option.map_eq_some_iff.1 hread
  refine ⟨spec.path.raw.toList, List.mem_flatMap.2 ⟨text, Workspace.mem_texts htext, ?_⟩, ?_⟩
  · rw [show text = e.2 from heq]
    exact SourceTree.raw_mem_spellings hspec
  · rw [String.ofList_toList]
    exact hpath

/-! ### Depth enough -/

/-- There is depth enough to load a directory with all that it imports. -/
structure Room (w : Workspace) (depth : Nat) (dir : Path) (s : State) : Prop where
  pos : 0 < depth
  unmet_lt : ∀ t, Extends s t → s.found.find? dir = none → (t.found.find? dir).isSome →
    unmet w t + 1 < depth

/-- There is room for any directory in the volume of all texts. -/
theorem Room.volume (w : Workspace) (dir : Path) (s : State) : Room w (w.volume + 2) dir s :=
  ⟨Nat.succ_pos _, fun t _ _ _ => by
    have := unmet_le_volume w t
    omega⟩

/-- There is room for what is imported if there is for what is unmet. -/
theorem Room.imported {path : String} (hpath : Stated w path) (hunmet : unmet w s < depth)
    (hdir : s.module?.bind (·.importDir? path) = some dir) : Room w depth dir s := by
  refine ⟨Nat.zero_lt_of_lt hunmet, fun t ht hnew hloaded => ?_⟩
  obtain ⟨word, hword, hpath⟩ := hpath
  have htarget : target? s.module? word = some dir := by rw [target?, hpath, Option.bind_some, hdir]
  have := ht.unmet_lt hword htarget hnew hloaded
  omega

theorem instantiate_extends (w : Workspace) (dir : Path) (choice : PackageChoice) (display : String)
    (s : State) : Extends s (instantiate w dir choice display s).2 := ⟨List.prefix_append _ _, rfl⟩

/-- Making an instance leaves room for what it imports. -/
theorem Room.instantiate (h : Room w (depth + 1) dir s) (hnew : s.found.find? dir = none) :
    unmet w (Load.instantiate w dir choice display s).2 < depth := by
  refine Nat.lt_of_succ_lt_succ (h.unmet_lt _ (instantiate_extends w dir choice display s) hnew ?_)
  rw [Instances.find?, List.findIdx?_isSome, List.any_eq_true]
  exact ⟨_, List.mem_append_right _ List.mem_cons_self, Path.beq_iff.2 rfl⟩

end Load

end CueScope
