import CueScope.Workspace
import Mathlib.Data.List.DropRight
import Mathlib.Data.List.Lex

/-!
# The steps of paths

* `components_join`, `components_parent?`: a name added to a path is one step more, and the directory
  of a path is one step less. So a path tells the directory it lies in.
* `before_iff`: paths are in the order of their steps, which is total.
* `Disk.locate?_eq`: where a path leads to depends on its steps alone.
* `Workspace.read?_eq`, `Workspace.list_pairwise`: so does the text at a path, and no path is listed
  twice.
-/

namespace CueScope

namespace Text

variable {α : Type} {isSeparator : α → Bool}

/-- Pieces are what the library calls a split. -/
theorem pieces_eq_splitOnP (as : List α) : pieces isSeparator as = as.splitOnP isSeparator := by
  induction as with
  | nil => rfl
  | cons a as ih =>
    rw [pieces, List.splitOnP_cons_eq_if_modifyHead, ih]
    split
    · rfl
    · cases h : as.splitOnP isSeparator with
      | nil => exact absurd h (List.splitOnP_ne_nil _ _)
      | cons p ps => rfl

theorem pieces_append_cons {sep : α} (h : isSeparator sep) (as bs : List α) :
    pieces isSeparator (as ++ sep :: bs) = pieces isSeparator as ++ pieces isSeparator bs := by
  simp only [pieces_eq_splitOnP, List.splitOnP_append_cons _ _ h]

theorem pieces_of_not_mem [DecidableEq α] {sep : α} {as : List α} (h : sep ∉ as) :
    pieces (· = sep) as = [as] := by
  rw [pieces_eq_splitOnP, List.splitOnP_eq_singleton]
  intro a ha
  simpa using fun he : a = sep => h (he ▸ ha)

/-- No piece has a separator in it. -/
theorem not_separator_of_mem_pieces {as s : List α} (hs : s ∈ pieces isSeparator as) {a : α}
    (ha : a ∈ s) : isSeparator a = false := by
  induction as generalizing s with
  | nil =>
    rw [List.mem_singleton.1 hs] at ha
    cases ha
  | cons b as ih =>
    rw [pieces] at hs
    split at hs
    · rcases List.mem_cons.1 hs with rfl | hs
      · cases ha
      · exact ih hs ha
    · rename_i hb
      split at hs
      · rename_i p ps hp
        rcases List.mem_cons.1 hs with rfl | hs
        · rcases List.mem_cons.1 ha with rfl | ha
          · simpa using hb
          · exact ih (by simp [hp]) ha
        · exact ih (by simp [hp, hs]) ha
      · rename_i hp
        exact absurd hp (pieces_ne_nil _ _)

end Text

namespace Path

/-! ## Steps -/

/-- The steps of segments. -/
def stepsOf : List Name → List Component
  | [] => []
  | s :: ss =>
    if s = [] then .root :: ss.filterMap stepOf
    else if s = [dot] then .current :: ss.filterMap stepOf
    else (s :: ss).filterMap stepOf

theorem components_eq (p : Path) : p.components = stepsOf p.segments := by
  unfold components stepsOf
  cases p.segments <;> rfl

/-- The steps of segments with more behind them are those of both. -/
theorem stepsOf_append {ss : List Name} (h : ss ≠ []) (ts : List Name) :
    stepsOf (ss ++ ts) = stepsOf ss ++ ts.filterMap stepOf := by
  obtain ⟨s, ss, rfl⟩ := List.exists_cons_of_ne_nil h
  rw [List.cons_append, stepsOf, stepsOf]
  split
  · simp
  · split
    · simp
    · rw [← List.cons_append, List.filterMap_append]

theorem segments_of_ne {p : Path} (h : p.bytes ≠ []) :
    p.segments = Text.pieces (· = slash) p.bytes := by
  simp [segments, h]

/-- The segments of an absolute path start with an empty one. -/
theorem segments_of_isAbsolute {p : Path} (h : p.isAbsolute) :
    ∃ rest, p.segments = [] :: Text.pieces (· = slash) rest := by
  unfold isAbsolute at h
  cases hb : p.bytes with
  | nil => simp [hb] at h
  | cons c rest =>
    have hc : c = slash := by simpa [hb] using h
    refine ⟨rest, ?_⟩
    rw [segments_of_ne (by simp [hb]), hb, Text.pieces]
    simp [hc]

theorem bytes_ne_of_isAbsolute {p : Path} (h : p.isAbsolute) : p.bytes ≠ [] := by
  intro he
  simp [isAbsolute, he] at h

theorem slash_notMem_segment {p : Path} {s : Name} (hs : s ∈ p.segments) : slash ∉ s := by
  intro hmem
  unfold segments at hs
  split at hs
  · cases hs
  · simpa using Text.not_separator_of_mem_pieces hs hmem

theorem segments_append_slash {p q : List UInt8} (hq : slash ∉ q) :
    (Path.mk (p ++ slash :: q)).segments = Text.pieces (· = slash) p ++ [q] := by
  rw [segments_of_ne (by simp), Text.pieces_append_cons (by simp), Text.pieces_of_not_mem hq]

theorem stepOf_of_isProper {name : Name} (h : isProper name) : stepOf name = some (.name name) := by
  unfold isProper at h
  unfold stepOf
  simp_all

/-- The segments of a relative path in a directory follow segments that lead to the directory. -/
theorem segments_join_of_relative {dir q : Path} (hdir : dir.bytes ≠ [])
    (hq : q.isAbsolute = false) : ∃ ss ≠ [], stepsOf ss = dir.components ∧
    (dir.join q).segments = ss ++ Text.pieces (· = slash) q.bytes := by
  rw [join, if_neg (by simp [hq])]
  split
  · rename_i hlast
    -- the slash at the end of the directory starts an idle segment
    obtain ⟨front, hfront⟩ : ∃ front, dir.bytes = front ++ [slash] := by
      rcases List.eq_nil_or_concat dir.bytes with he | ⟨front, b, hb⟩
      · exact absurd he hdir
      · refine ⟨front, ?_⟩
        rw [List.concat_eq_append] at hb
        simpa [hb] using hlast
    have hsegments : dir.segments = Text.pieces (· = slash) front ++ [[]] := by
      have := segments_append_slash (p := front) (q := []) (by simp)
      rwa [← hfront] at this
    refine ⟨Text.pieces (· = slash) front, Text.pieces_ne_nil _ _, ?_, ?_⟩
    · rw [components_eq, hsegments, stepsOf_append (Text.pieces_ne_nil _ _)]
      simp [stepOf, isIdle]
    · rw [hfront, List.append_assoc, List.singleton_append, segments_of_ne (by simp),
        Text.pieces_append_cons (by simp)]
  · refine ⟨dir.segments, ?_, (components_eq dir).symm, ?_⟩
    · rw [segments_of_ne hdir]
      exact Text.pieces_ne_nil _ _
    · rw [segments_of_ne (by simp), Text.pieces_append_cons (by simp), segments_of_ne hdir]

/-- A name in a directory is one segment more. -/
theorem segments_join {dir : Path} {name : Name} (hdir : dir.isAbsolute) (h : isProper name) :
    ∃ ss ≠ [], stepsOf ss = dir.components ∧ (dir.join ⟨name⟩).segments = ss ++ [name] := by
  have hslash : slash ∉ name := by
    unfold isProper at h
    simp_all
  have hrel : (Path.mk name).isAbsolute = false := by
    cases name with
    | nil => rfl
    | cons c name =>
      have : c ≠ slash := fun hc => hslash (by simp [hc])
      simp [isAbsolute, this]
  obtain ⟨ss, hss, hsteps, hjoin⟩ := segments_join_of_relative (bytes_ne_of_isAbsolute hdir) hrel
  exact ⟨ss, hss, hsteps, by rw [hjoin, Text.pieces_of_not_mem hslash]⟩

/-- The steps of a relative path are taken from the directory. -/
theorem components_join_of_relative {dir q : Path} (hdir : dir.bytes ≠ [])
    (hq : q.isAbsolute = false) :
    (dir.join q).components = dir.components ++ q.segments.filterMap stepOf := by
  obtain ⟨ss, hss, hsteps, hjoin⟩ := segments_join_of_relative hdir hq
  rw [components_eq, hjoin, stepsOf_append hss, hsteps]
  by_cases hne : q.bytes = []
  · simp [segments, hne, Text.pieces, stepOf, isIdle]
  · rw [segments_of_ne hne]

/-- A name in a directory is one step more. -/
theorem components_join {dir : Path} {name : Name} (hdir : dir.isAbsolute) (h : isProper name) :
    (dir.join ⟨name⟩).components = dir.components ++ [.name name] := by
  obtain ⟨ss, hss, hdir, hjoin⟩ := segments_join hdir h
  rw [components_eq, hjoin, stepsOf_append hss, hdir]
  simp [stepOf_of_isProper h]

/-! ## The directory of a path -/

theorem trimEnd_cons (s : Name) (ss : List Name) :
    trimEnd (s :: ss) = s :: ss.rdropWhile isIdle := rfl

/-- What is cut off at the end stands for no step. -/
theorem stepsOf_trimEnd (ss : List Name) : stepsOf (trimEnd ss) = stepsOf ss := by
  cases ss with
  | nil => rfl
  | cons s ss =>
    have hidle : (ss.rtakeWhile isIdle).filterMap stepOf = [] := by
      refine List.filterMap_eq_nil_iff.2 fun t ht => ?_
      simp [stepOf, List.mem_rtakeWhile_imp ht]
    have hsplit : s :: ss = trimEnd (s :: ss) ++ ss.rtakeWhile isIdle := by
      rw [trimEnd_cons, List.cons_append, List.rdropWhile_append_rtakeWhile]
    rw [hsplit, stepsOf_append (by simp [trimEnd_cons]), hidle, List.append_nil, ← hsplit]

theorem mem_of_mem_trimEnd {s : Name} {ss : List Name} (h : s ∈ trimEnd ss) : s ∈ ss := by
  cases ss with
  | nil => exact h
  | cons t ss =>
    rcases List.mem_cons.1 h with rfl | h
    · exact List.mem_cons_self
    · exact List.mem_cons_of_mem _ ((List.rdropWhile_prefix isIdle ss).mem h)

/-- The last segment that is left is a step. -/
theorem stepsOf_dropLast (ss : List Name) :
    stepsOf (trimEnd ss).dropLast = (stepsOf ss).dropLast := by
  rw [← stepsOf_trimEnd ss]
  cases ss with
  | nil => rfl
  | cons s ss =>
    rw [trimEnd_cons]
    by_cases hne : ss.rdropWhile isIdle = []
    · rw [hne]
      have hsingle : (stepsOf [s]).length ≤ 1 := by
        simp only [stepsOf]
        split
        · simp
        · split
          · simp
          · exact List.length_filterMap_le _ _
      have : (stepsOf [s]).dropLast = [] := by
        rw [← List.length_eq_zero_iff, List.length_dropLast]
        omega
      rw [this]
      rfl
    · have hlast := List.rdropWhile_last_not isIdle ss hne
      generalize hz : (ss.rdropWhile isIdle).getLast hne = z at hlast
      obtain ⟨init, hinit⟩ : ∃ init, ss.rdropWhile isIdle = init ++ [z] :=
        ⟨_, (hz ▸ List.dropLast_append_getLast hne).symm⟩
      obtain ⟨c, hc⟩ : ∃ c, [z].filterMap stepOf = [c] := by
        by_cases hp : isParent z <;> simp [stepOf, hlast, hp]
      rw [hinit, ← List.cons_append, List.dropLast_concat, stepsOf_append (by simp), hc,
        List.dropLast_concat]

/-- Segments that were joined are found again. -/
theorem segments_joinSegments {ss : List Name} (h : ∀ s ∈ ss, slash ∉ s) (hroot : ss ≠ [[]]) :
    (joinSegments ss).segments = ss := by
  by_cases hss : ss = []
  · rw [hss]
    rfl
  · have hsplit := List.splitOn_intercalate slash h hss
    have hbytes : (joinSegments ss).bytes ≠ [] := by
      intro he
      rw [show [slash].intercalate ss = [] from he, List.splitOn_nil] at hsplit
      exact hroot hsplit.symm
    rw [segments_of_ne hbytes, Text.pieces_eq_splitOnP]
    exact hsplit

theorem components_ofSegments {ss : List Name} (h : ∀ s ∈ ss, slash ∉ s) :
    (ofSegments ss).components = stepsOf ss := by
  unfold ofSegments
  split
  · rename_i hroot
    rw [hroot]
    rfl
  · rename_i hroot
    rw [components_eq, segments_joinSegments h hroot]

/-- The directory of a path is one step less. -/
theorem components_parent? {p d : Path} (h : p.parent? = some d) :
    d.components = p.components.dropLast := by
  unfold parent? at h
  split at h
  · cases h
  · cases h
  · cases h
    rw [components_ofSegments, stepsOf_trimEnd, stepsOf_dropLast, components_eq]
    intro s hs
    exact slash_notMem_segment
      (mem_of_mem_trimEnd ((List.dropLast_sublist _).subset (mem_of_mem_trimEnd hs)))

/-- What is kept on the way up holds of all directories above a path. -/
theorem of_mem_ancestors {P : Path → Prop} (hup : ∀ {p d : Path}, P p → p.parent? = some d → P d)
    {p dir : Path} (hp : P p) (h : dir ∈ p.ancestors) : P dir := by
  have hgo : ∀ (n : Nat) {p : Path}, P p → ∀ d ∈ ancestors.go n p, P d := by
    intro n
    induction n with
    | zero =>
      intro p hp d hd
      rw [List.mem_singleton.1 hd]
      exact hp
    | succ n ih =>
      intro p hp d hd
      rcases List.mem_cons.1 hd with rfl | hd
      · exact hp
      · cases hparent : p.parent? with
        | none => simp [hparent] at hd
        | some q =>
          rw [hparent] at hd
          exact ih (hup hp hparent) d hd
  exact hgo _ hp dir h

/-! ## Order -/

theorem beq_iff {p q : Path} : (p == q) = true ↔ p.components = q.components := by
  rw [beq_def, beq_iff_eq]

/-- A component as numbers, in the order of components. -/
def Component.key : Component → List Nat
  | .root => [0]
  | .current => [1]
  | .parent => [2]
  | .name s => 3 :: s.map UInt8.toNat

theorem Component.key_inj {a b : Component} : a.key = b.key ↔ a = b := by
  refine ⟨fun h => ?_, fun h => h ▸ rfl⟩
  have hinj : Function.Injective UInt8.toNat := fun _ _ => UInt8.toNat.inj
  cases a <;> cases b <;> simp_all [key]
  exact List.map_injective_iff.2 hinj h

theorem map_toNat_lt_iff (s t : Name) : s.map UInt8.toNat < t.map UInt8.toNat ↔ s < t := by
  induction s generalizing t with
  | nil => cases t <;> simp
  | cons a s ih =>
    cases t with
    | nil => simp
    | cons b t =>
      rw [List.map_cons, List.map_cons, List.cons_lt_cons_iff, List.cons_lt_cons_iff, ih,
        UInt8.lt_iff_toNat_lt, UInt8.toNat_inj]

theorem Component.before_iff (a b : Component) : a.before b ↔ a.key < b.key := by
  cases a <;> cases b <;> simp only [before, key, List.cons_lt_cons_iff, map_toNat_lt_iff] <;> simp

/-- The steps of a path as numbers, in the order of paths. -/
def key (p : Path) : List (List Nat) := p.components.map Component.key

/-- Paths are ordered by their keys. -/
theorem before_iff (p q : Path) : p.before q ↔ p.key < q.key := by
  have hgo : ∀ as bs : List Component,
      before.go as bs ↔ as.map Component.key < bs.map Component.key := by
    intro as
    induction as with
    | nil => intro bs; cases bs <;> simp [before.go]
    | cons a as ih =>
      intro bs
      cases bs with
      | nil => simp [before.go]
      | cons b bs =>
        rw [before.go, List.map_cons, List.map_cons, List.cons_lt_cons_iff]
        by_cases hab : a = b
        · simp [hab, ih]
        · simp [hab, Component.key_inj, Component.before_iff]
  exact hgo _ _

theorem key_eq_iff {p q : Path} : p.key = q.key ↔ (p == q) = true := by
  rw [beq_iff]
  exact List.map_injective_iff.2 (fun _ _ => Component.key_inj.1) |>.eq_iff

end Path

/-! ## Places on the disk -/

namespace Disk

/-- The place one step on. -/
def walk (p : Place) : Path.Component → Place
  | .root | .current => p
  | .parent => p.dropLast
  | .name s => p ++ [s]

/-- A walk that leads somewhere leads where its steps do. -/
theorem follow?_eq {d : Disk} {p r : Place} {ss : List Path.Name} (h : d.follow? p ss = some r) :
    r = (ss.filterMap Path.stepOf).foldl walk p := by
  induction ss generalizing p with
  | nil =>
    rw [follow?] at h
    split at h <;> cases h
    rfl
  | cons s ss ih =>
    rw [follow?] at h
    split at h
    · split at h
      · rename_i hs
        rw [List.filterMap_cons_none (by simp [Path.stepOf, hs])]
        exact ih h
      · rename_i hs
        split at h
        · rename_i hp
          have hstep : Path.stepOf s = some .parent := by simp [Path.stepOf, hs, hp]
          rw [List.filterMap_cons_some hstep, List.foldl_cons]
          exact ih h
        · rename_i hp
          have hstep : Path.stepOf s = some (.name s) := by simp [Path.stepOf, hs, hp]
          rw [List.filterMap_cons_some hstep, List.foldl_cons]
          exact ih h
    · cases h

/-- Where a path leads to depends on its steps alone. -/
theorem locate?_eq {d : Disk} {path : Path} {r : Place} (h : d.locate? path = some r) :
    r = path.components.tail.foldl walk [] := by
  unfold locate? at h
  split at h
  · rename_i habs
    obtain ⟨rest, hsegments⟩ := Path.segments_of_isAbsolute habs
    rw [hsegments] at h
    rw [Path.components_eq, hsegments]
    exact follow?_eq h
  · cases h

/-- A listed name is proper, and its directory is absolute. -/
theorem proper_of_mem_list {d : Disk} {dir : Path} {name : Path.Name} (h : name ∈ d.list dir) :
    dir.isAbsolute ∧ Path.isProper name := by
  unfold list at h
  split at h
  · cases h
  · rename_i place hplace
    constructor
    · unfold locate? at hplace
      split at hplace
      · assumption
      · cases hplace
    · obtain ⟨f, hf, hlast⟩ := List.mem_filterMap.1 h
      exact List.all_eq_true.1 (d.proper f (List.mem_filter.1 hf).1) name
        (List.mem_of_getLast? hlast)

end Disk

/-! ## Source files of a workspace -/

namespace Workspace

variable {w : Workspace} {dir p q : Path} {t u : String}

/-- Two paths to one place have one text. -/
theorem read?_eq (h : (p == q) = true) (hp : w.read? p = some t) (hq : w.read? q = some u) :
    t = u := by
  rw [Path.beq_iff] at h
  have hoverlay : w.overlay.get? p = w.overlay.get? q := by
    simp only [Overlay.get?, Path.beq_def, h]
  unfold read? at hp hq
  rw [← hoverlay] at hq
  cases ho : w.overlay.get? p with
  | some v =>
    rw [ho] at hp hq
    exact (Option.some.inj hp).symm.trans (Option.some.inj hq)
  | none =>
    rw [ho, Option.none_or] at hp hq
    have hfile : ∀ {p t}, w.disk.read? p = some t →
        w.disk.file? (p.components.tail.foldl Disk.walk []) = some (some t) := by
      intro p t hp
      rw [Disk.read?, Option.join_eq_some_iff] at hp
      obtain ⟨r, hr, hp⟩ := Option.bind_eq_some_iff.1 hp
      rw [← Disk.locate?_eq hr, hp]
    have hp := hfile hp
    rw [h, hfile hq] at hp
    exact (Option.some.inj (Option.some.inj hp)).symm

theorem mem_of_mem_dropSame {l : List Path} (h : p ∈ dropSame l) : p ∈ l := by
  fun_induction dropSame l with
  | case1 a b ps hab ih => exact List.mem_cons_of_mem _ (ih h)
  | case2 a b ps hab ih =>
    rcases List.mem_cons.1 h with rfl | h
    · exact List.mem_cons_self
    · exact List.mem_cons_of_mem _ (ih h)
  | case3 => exact h

/-- Of paths in order, those that are kept are in strict order. -/
theorem dropSame_pairwise {l : List Path} (h : l.Pairwise fun p q => p.key ≤ q.key) :
    (dropSame l).Pairwise fun p q => p.key < q.key := by
  fun_induction dropSame l with
  | case1 a b ps hab ih => exact ih (List.pairwise_cons.1 h).2
  | case2 a b ps hab ih =>
    obtain ⟨hfirst, hrest⟩ := List.pairwise_cons.1 h
    have hlt : a.key < b.key :=
      lt_of_le_of_ne (hfirst b (by simp)) fun he => hab (Path.key_eq_iff.1 he)
    refine List.pairwise_cons.2 ⟨fun c hc => ?_, ih hrest⟩
    rcases List.mem_cons.1 (mem_of_mem_dropSame hc) with rfl | hc
    · exact hlt
    · exact lt_of_lt_of_le hlt ((List.pairwise_cons.1 hrest).1 c hc)
  | case3 ps hps =>
    match ps, hps with
    | [], _ => exact .nil
    | [p], _ => exact List.pairwise_singleton _ _
    | p :: q :: ps, hps => exact (hps p q ps rfl).elim

/-- The source files of a directory are in strict order. -/
theorem list_sorted (w : Workspace) (dir : Path) :
    (w.list dir).Pairwise fun p q => p.key < q.key := by
  have hle : ∀ p q : Path, (!q.before p) = true ↔ p.key ≤ q.key := by
    intro p q
    rw [Bool.not_eq_true', ← Bool.not_eq_true, Path.before_iff, not_lt]
  have hsorted : ∀ l : List Path,
      (l.mergeSort fun p q => !q.before p).Pairwise fun p q => p.key ≤ q.key := by
    intro l
    refine (List.pairwise_mergeSort ?_ ?_ l).imp fun {p q} => (hle p q).1
    · intro a b c hab hbc
      rw [hle] at hab hbc ⊢
      exact hab.trans hbc
    · intro a b
      rw [Bool.or_eq_true, hle, hle]
      exact le_total _ _
  exact dropSame_pairwise (hsorted _)

/-- The source files of a directory are different places. -/
theorem list_pairwise (w : Workspace) (dir : Path) :
    (w.list dir).Pairwise fun p q => (p == q) = false := by
  refine (w.list_sorted dir).imp fun {p q} hpq => ?_
  rw [← Bool.not_eq_true, ← Path.key_eq_iff]
  exact ne_of_lt hpq

/-- A source file of a directory is there on the disk or in the overlay. -/
theorem mem_list (h : p ∈ w.list dir) : isSource p ∧
    ((∃ name ∈ w.disk.list dir, p = dir.join ⟨name⟩) ∨
      ∃ e ∈ w.overlay.entries, p = e.1 ∧ e.1.parent?.any (· == dir)) := by
  obtain ⟨hmem, hsource⟩ := List.mem_filter.1 (List.mem_mergeSort.1 (mem_of_mem_dropSame h))
  refine ⟨hsource, ?_⟩
  rcases List.mem_append.1 hmem with hmem | hmem
  · obtain ⟨name, hname, rfl⟩ := List.mem_map.1 hmem
    exact .inl ⟨name, hname, rfl⟩
  · obtain ⟨hentry, hparent⟩ := List.mem_filter.1 hmem
    obtain ⟨e, he, rfl⟩ := List.mem_map.1 hentry
    exact .inr ⟨e, he, rfl, hparent⟩

/-- The source files of a directory lie in it. -/
theorem dir_of_mem_list (h : p ∈ w.list dir) : p.components.dropLast = dir.components := by
  obtain ⟨-, ⟨name, hname, rfl⟩ | ⟨e, -, rfl, hparent⟩⟩ := mem_list h
  · obtain ⟨habs, hproper⟩ := Disk.proper_of_mem_list hname
    rw [Path.components_join habs hproper, List.dropLast_concat]
  · obtain ⟨d, hd, hdir⟩ := (Option.any_eq_true _ _).1 hparent
    rw [← Path.components_parent? hd]
    exact Path.beq_iff.1 hdir

end Workspace

end CueScope
