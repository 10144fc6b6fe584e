import CueScope.Proofs.Path
import Mathlib.Data.List.Find
import Mathlib.Data.List.Sort
import Mathlib.Data.List.TakeDrop

/-!
# Where straight paths lead

A path without `..` leads to the place that its names spell, on every disk that has something there.

* `Path.Straight`, `Path.Trimmed`, `Path.Normal`: ways to spell a path. Joining and going up keep a
  path straight. `Path.Respelled`: two spellings that read the same.
* `Disk.read?_of_straight`, `Disk.mem_list_iff`: what is read and listed at a straight path depends
  on its names alone.
* `Disk.writeAll`: the disk with the texts of an overlay written to it.
* `Workspace.SameFiles`: two workspaces that have the same files when their overlays are written to
  the disk. They read and list the same at straight paths (`SameFiles.read?_eq`,
  `SameFiles.list_respelled`).
-/

namespace CueScope

/-- What stands after the last separator ends a list. -/
theorem Text.splitLast_suffix {α : Type} {isSeparator : α → Bool} {as front back : List α}
    (h : splitLast isSeparator as = (some front, back)) : back <:+ as := by
  unfold splitLast at h
  dsimp only at h
  rw [List.span_eq_takeWhile_dropWhile] at h
  dsimp only at h
  split at h
  · cases h
  · cases h
    rw [← List.reverse_prefix, List.reverse_reverse]
    exact List.takeWhile_prefix _

/-! ## Straight paths -/

namespace Path

/-- The name that a step has. -/
def Component.name? : Component → Option Name
  | .name s => some s
  | .root | .current | .parent => none

/-- The names in a path, in order. -/
def names (p : Path) : List Name := p.components.filterMap Component.name?

/-- No step goes up. -/
def Straight (p : Path) : Prop := .parent ∉ p.components

instance (p : Path) : Decidable p.Straight := inferInstanceAs (Decidable (_ ∉ _))

/-- The path ends with a name or `..`, not with a slash or `.`. -/
def Trimmed (p : Path) : Prop := trimEnd p.segments = p.segments

instance (p : Path) : Decidable p.Trimmed := inferInstanceAs (Decidable (_ = _))

/-- An absolute path without `.`, `..` and slashes that are not needed. -/
def Normal (p : Path) : Prop := p.isAbsolute ∧ ∀ s ∈ p.segments.tail, isProper s

instance (p : Path) : Decidable p.Normal := inferInstanceAs (Decidable (_ ∧ _))

variable {p q dir : Path} {s name : Name}

theorem stepOf_eq_parent : stepOf s = some .parent ↔ isParent s := by
  unfold stepOf
  by_cases hidle : isIdle s
  · have hnot : isParent s = false := by
      unfold isIdle at hidle
      unfold isParent
      rcases (by simpa using hidle : s = [] ∨ s = [dot]) with rfl | rfl <;> rfl
    simp [hidle, hnot]
  · by_cases hp : isParent s <;> simp [hidle, hp]

theorem straight_iff : p.Straight ↔ ∀ s ∈ p.segments, isParent s = false := by
  have hsteps : .parent ∈ stepsOf p.segments ↔ ∃ s ∈ p.segments, isParent s := by
    cases p.segments with
    | nil => simp [stepsOf]
    | cons s ss =>
      have hmem : ∀ ss : List Name, .parent ∈ ss.filterMap stepOf ↔ ∃ s ∈ ss, isParent s := by
        intro ss
        simp only [List.mem_filterMap, stepOf_eq_parent]
      rw [stepsOf]
      split
      · rename_i hs
        simp [hmem, hs, isParent]
      · split
        · rename_i hs
          simp [hmem, hs, isParent]
        · exact hmem _
  rw [Straight, components_eq, hsteps]
  simp

/-- A path is absolute exactly if the root is its first component. -/
theorem isAbsolute_iff : p.isAbsolute ↔ p.components.head? = some .root := by
  constructor
  · intro h
    obtain ⟨rest, hrest⟩ := segments_of_isAbsolute h
    rw [components_eq, hrest]
    rfl
  · intro h
    rw [components_eq] at h
    cases hb : p.bytes with
    | nil => simp [segments, hb, stepsOf] at h
    | cons c rest =>
      by_cases hc : c = slash
      · simp [isAbsolute, hb, hc]
      · -- the first segment starts with the first byte
        obtain ⟨t, ts, hsegments⟩ : ∃ t ts, p.segments = (c :: t) :: ts := by
          rw [segments_of_ne (by simp [hb]), hb, Text.pieces]
          cases Text.pieces (· = slash) rest <;> simp [hc]
        have hroot : ∀ x ∈ ((c :: t) :: ts).filterMap stepOf, x ≠ .root := by
          intro x hx
          obtain ⟨y, -, hy⟩ := List.mem_filterMap.1 hx
          unfold stepOf at hy
          split at hy
          · cases hy
          · split at hy <;> cases hy <;> simp
        rw [hsegments] at h
        simp only [stepsOf, List.cons_ne_nil, if_false] at h
        split at h
        · cases h
        · exact absurd rfl (hroot _ (List.mem_of_head? h))

theorem isAbsolute_congr (h : (p == q) = true) : p.isAbsolute = q.isAbsolute := by
  rw [Bool.eq_iff_iff, isAbsolute_iff, isAbsolute_iff, beq_iff.1 h]

/-- The steps of a straight absolute path are its names. -/
theorem components_of_straight (habs : p.isAbsolute) (h : p.Straight) :
    p.components = .root :: p.names.map .name := by
  obtain ⟨rest, hrest⟩ := segments_of_isAbsolute habs
  have hcomponents : p.components = .root :: (Text.pieces (· = slash) rest).filterMap stepOf := by
    rw [components_eq, hrest]
    rfl
  have hnames : ∀ l : List Component, (∀ c ∈ l, ∃ s, c = .name s) →
      (l.filterMap Component.name?).map .name = l := by
    intro l hl
    induction l with
    | nil => rfl
    | cons c l ih =>
      obtain ⟨s, rfl⟩ := hl c List.mem_cons_self
      have hcons : (Component.name s :: l).filterMap Component.name? =
          s :: l.filterMap Component.name? := rfl
      rw [hcons, List.map_cons, ih fun c hc => hl c (List.mem_cons_of_mem _ hc)]
  rw [names, hcomponents, List.filterMap_cons_none rfl, hnames]
  intro c hc
  obtain ⟨s, -, hs⟩ := List.mem_filterMap.1 hc
  rw [stepOf] at hs
  split at hs
  · cases hs
  · split at hs
    · cases hs
      exact absurd (hcomponents ▸ List.mem_cons_of_mem _ hc) h
    · exact ⟨s, (Option.some.inj hs).symm⟩

/-- The names in a path are proper. -/
theorem names_proper (hs : s ∈ p.names) : isProper s := by
  obtain ⟨c, hc, hcs⟩ := List.mem_filterMap.1 hs
  obtain rfl : c = .name s := by
    cases c <;> simp_all [Component.name?]
  rw [components_eq] at hc
  have hstep : ∃ t ∈ p.segments, stepOf t = some (.name s) := by
    cases hsegments : p.segments with
    | nil => simp [hsegments, stepsOf] at hc
    | cons t ts =>
      rw [hsegments, stepsOf] at hc
      split at hc
      · obtain ⟨u, hu, hstep⟩ := List.mem_filterMap.1 (by simpa using hc)
        exact ⟨u, List.mem_cons_of_mem _ hu, hstep⟩
      · split at hc
        · obtain ⟨u, hu, hstep⟩ := List.mem_filterMap.1 (by simpa using hc)
          exact ⟨u, List.mem_cons_of_mem _ hu, hstep⟩
        · exact List.mem_filterMap.1 hc
  obtain ⟨t, ht, hstep⟩ := hstep
  have hslash := slash_notMem_segment ht
  unfold stepOf at hstep
  split at hstep
  · cases hstep
  · rename_i hidle
    split at hstep
    · cases hstep
    · rename_i hparent
      cases hstep
      unfold isProper
      simp_all

/-! ### Joining and going up -/

theorem isAbsolute_join : (p.join q).isAbsolute = (q.isAbsolute || p.isAbsolute) := by
  unfold join
  by_cases hq : q.isAbsolute
  · simp [hq]
  · rw [if_neg hq]
    cases hb : p.bytes with
    | nil => simp [isAbsolute, hb]
    | cons c rest =>
      have hq' : q.isAbsolute = false := by simpa using hq
      rw [hq', Bool.false_or]
      split <;> simp [isAbsolute, hb]

/-- The segments of a joined path are those of its two paths, or empty. -/
theorem mem_segments_join (hs : s ∈ (p.join q).segments) :
    s ∈ p.segments ∨ s ∈ q.segments ∨ s = [] := by
  have hpieces : s ∈ Text.pieces (· = slash) q.bytes → s ∈ q.segments ∨ s = [] := by
    intro hmem
    by_cases hq : q.bytes = []
    · rw [hq] at hmem
      exact .inr (List.mem_singleton.1 hmem)
    · exact .inl (segments_of_ne hq ▸ hmem)
  unfold join at hs
  split at hs
  · exact .inr (.inl hs)
  · split at hs
    · rename_i hlast
      rcases hlast with hempty | hlast
      · rw [List.isEmpty_iff.1 hempty] at hs
        exact .inr (.inl hs)
      · obtain ⟨front, hfront⟩ := List.getLast?_eq_some_iff.1 hlast
        have hne : p.bytes ≠ [] := by simp [hfront]
        rw [hfront, List.append_assoc, List.singleton_append, segments_of_ne (by simp),
          Text.pieces_append_cons (by simp)] at hs
        rcases List.mem_append.1 hs with hs | hs
        · left
          rw [segments_of_ne hne, hfront, Text.pieces_append_cons (by simp)]
          exact List.mem_append.2 (.inl hs)
        · exact .inr (hpieces hs)
    · rename_i hlast
      have hne : p.bytes ≠ [] := by
        intro he
        simp [he] at hlast
      rw [segments_of_ne (by simp), Text.pieces_append_cons (by simp)] at hs
      rcases List.mem_append.1 hs with hs | hs
      · exact .inl (segments_of_ne hne ▸ hs)
      · exact .inr (hpieces hs)

theorem Straight.join (hp : p.Straight) (hq : q.Straight) : (p.join q).Straight := by
  rw [straight_iff] at hp hq ⊢
  intro s hs
  rcases mem_segments_join hs with hs | hs | rfl
  · exact hp s hs
  · exact hq s hs
  · rfl

theorem Straight.parent? (h : p.Straight) (hd : p.parent? = some dir) : dir.Straight := by
  rw [Straight, components_parent? hd]
  exact fun hmem => h (List.dropLast_subset _ hmem)

theorem Straight.of_mem_ancestors (h : p.Straight) (hd : dir ∈ p.ancestors) : dir.Straight :=
  Path.of_mem_ancestors Straight.parent? h hd

theorem Straight.congr (h : (p == q) = true) (hp : p.Straight) : q.Straight := by
  rw [Straight, ← beq_iff.1 h]
  exact hp

/-! ### Last segments -/

theorem trimmed_of_concat {ss : List Name} (hss : ss ≠ []) (h : isIdle s = false)
    (hp : p.segments = ss ++ [s]) : p.Trimmed := by
  obtain ⟨t, ts, rfl⟩ := List.exists_cons_of_ne_nil hss
  rw [Trimmed, hp, List.cons_append, trimEnd_cons, List.rdropWhile_concat_neg _ _ _ (by simp [h])]

theorem isIdle_of_isProper (h : isProper s) : isIdle s = false := by
  unfold isProper at h
  simp_all

/-- A name in a directory is at the end of the path. -/
theorem trimmed_join (hdir : dir.isAbsolute) (h : isProper name) : (dir.join ⟨name⟩).Trimmed := by
  obtain ⟨ss, hss, -, hjoin⟩ := segments_join hdir h
  exact trimmed_of_concat hss (isIdle_of_isProper h) hjoin

theorem Normal.straight (h : p.Normal) : p.Straight := by
  obtain ⟨rest, hrest⟩ := segments_of_isAbsolute h.1
  have htail := h.2
  rw [hrest, List.tail_cons] at htail
  rw [straight_iff, hrest]
  intro s hs
  rcases List.mem_cons.1 hs with rfl | hs
  · rfl
  · have := htail s hs
    unfold isProper at this
    simp_all

theorem Normal.trimmed (h : p.Normal) : p.Trimmed := by
  obtain ⟨rest, hrest⟩ := segments_of_isAbsolute h.1
  obtain ⟨front, s, hs⟩ : ∃ front s, Text.pieces (· = slash) rest = front ++ [s] :=
    ⟨_, _, (List.dropLast_append_getLast (Text.pieces_ne_nil _ rest)).symm⟩
  have hproper := h.2 s (by simp [hrest, hs])
  exact trimmed_of_concat (List.cons_ne_nil [] front) (isIdle_of_isProper hproper)
    (by rw [hrest, hs, List.cons_append])

/-- Two spellings of one straight path, both without a slash or `.` at the end. -/
structure Respelled (p q : Path) : Prop where
  beq : (p == q) = true
  straight : p.Straight
  trimmed : p.Trimmed
  trimmed_right : q.Trimmed

theorem Respelled.refl (hp : p.Straight) (htrim : p.Trimmed) : p.Respelled p :=
  ⟨beq_iff.2 rfl, hp, htrim, htrim⟩

/-! ### Names -/

/-- The names of a straight absolute path are its segments but for the idle ones. -/
theorem names_eq (habs : p.isAbsolute) (h : p.Straight) :
    p.names = p.segments.tail.filter (!isIdle ·) := by
  obtain ⟨rest, hrest⟩ := segments_of_isAbsolute habs
  have hparent : ∀ s ∈ Text.pieces (· = slash) rest, isParent s = false := by
    intro s hs
    rw [straight_iff, hrest] at h
    exact h s (List.mem_cons_of_mem _ hs)
  rw [names, components_eq, hrest, List.tail_cons]
  generalize Text.pieces (· = slash) rest = ss at hparent
  rw [show stepsOf ([] :: ss) = .root :: ss.filterMap stepOf from rfl, List.filterMap_cons_none rfl]
  induction ss with
  | nil => rfl
  | cons s ss ih =>
    have ih := ih fun t ht => hparent t (List.mem_cons_of_mem _ ht)
    by_cases hidle : isIdle s
    · rw [List.filterMap_cons_none (by simp [stepOf, hidle]), ih]
      simp [hidle]
    · have hstep : stepOf s = some (.name s) := by
        simp [stepOf, hidle, hparent s List.mem_cons_self]
      have hname : Component.name? (.name s) = some s := rfl
      rw [List.filterMap_cons_some hstep, List.filterMap_cons_some hname, ih]
      simp [hidle]

/-- Straight absolute paths lead to one place when they have the same names. -/
theorem beq_iff_names (hp : p.isAbsolute) (hq : q.isAbsolute) (hps : p.Straight)
    (hqs : q.Straight) : (p == q) = true ↔ p.names = q.names := by
  rw [beq_iff]
  refine ⟨fun h => by rw [names, h, names], fun h => ?_⟩
  rw [components_of_straight hp hps, components_of_straight hq hqs, h]

theorem names_of_components {ns : List Name} (h : p.components = .root :: ns.map .name) :
    p.names = ns := by
  have hnames : Component.name? ∘ Component.name = some := rfl
  rw [names, h, List.filterMap_cons_none rfl, List.filterMap_map, hnames, List.filterMap_some]

/-- A straight absolute path lies in a directory if it is a name in it. -/
theorem parent?_any_iff (habs : p.isAbsolute) (h : p.Straight) (hdir : dir.Straight) :
    p.parent?.any (· == dir) ↔ dir.isAbsolute ∧ ∃ name, p.names = dir.names ++ [name] := by
  have hcomponents := components_of_straight habs h
  rw [Option.any_eq_true]
  constructor
  · rintro ⟨d, hd, hbeq⟩
    have hsteps : dir.components = p.components.dropLast := by
      rw [← components_parent? hd, beq_iff.1 hbeq]
    rcases List.eq_nil_or_concat p.names with hnil | ⟨ns, name, hnames⟩
    · simp [parent?, hcomponents, hnil] at hd
    · have hroot : dir.components = .root :: ns.map .name := by
        rw [hsteps, hcomponents, hnames, List.concat_eq_append, List.map_append, ← List.cons_append,
          List.map_singleton, List.dropLast_concat]
      refine ⟨isAbsolute_iff.2 (by rw [hroot]; rfl), name, ?_⟩
      rw [names_of_components hroot, hnames, List.concat_eq_append]
  · rintro ⟨hdirabs, name, hnames⟩
    rw [hnames, List.map_append, ← List.cons_append, ← components_of_straight hdirabs hdir,
      List.map_singleton] at hcomponents
    have hsome : p.parent? = some (ofSegments (trimEnd (trimEnd p.segments).dropLast)) := by
      simp [parent?, hcomponents]
    refine ⟨_, hsome, beq_iff.2 ?_⟩
    rw [components_parent? hsome, hcomponents, List.dropLast_concat]

theorem beq_join (habs : p.isAbsolute) (h : p.Straight) (hdirabs : dir.isAbsolute)
    (hdir : dir.Straight) (hnames : p.names = dir.names ++ [name]) :
    (p == dir.join ⟨name⟩) = true := by
  have hproper : isProper name := names_proper (p := p) (by simp [hnames])
  rw [beq_iff, components_join hdirabs hproper, components_of_straight habs h,
    components_of_straight hdirabs hdir, hnames, List.map_append]
  rfl

/-! ### Normal paths -/

theorem Normal.segments_eq (h : p.Normal) : p.segments = [] :: p.names := by
  obtain ⟨rest, hrest⟩ := segments_of_isAbsolute h.1
  have hkeep : p.segments.tail.filter (!isIdle ·) = p.segments.tail := by
    refine List.filter_eq_self.2 fun s hs => ?_
    simpa using isIdle_of_isProper (h.2 s hs)
  rw [names_eq h.1 h.straight, hkeep, hrest, List.tail_cons]

theorem Normal.names_ne_nil (h : p.Normal) : p.names ≠ [] := by
  obtain ⟨rest, hrest⟩ := segments_of_isAbsolute h.1
  intro hnil
  have heq := h.segments_eq
  rw [hrest, hnil, List.cons.injEq] at heq
  exact Text.pieces_ne_nil _ _ heq.2

theorem Normal.getLast?_components (h : p.Normal) :
    ∃ name, p.names.getLast? = some name ∧ p.components.getLast? = some (.name name) := by
  obtain ⟨ns, name, hns⟩ := (List.eq_nil_or_concat p.names).resolve_left h.names_ne_nil
  rw [List.concat_eq_append] at hns
  refine ⟨name, by rw [hns, List.getLast?_concat], ?_⟩
  rw [components_of_straight h.1 h.straight, hns, List.map_append, ← List.cons_append,
    List.map_singleton, List.getLast?_concat]

/-- A normal path lies in a directory. -/
theorem Normal.exists_parent (h : p.Normal) : ∃ dir, p.parent? = some dir := by
  obtain ⟨name, -, hlast⟩ := h.getLast?_components
  simp [parent?, hlast]

/-- A normal path is spelt by its names. -/
theorem Normal.bytes_eq (h : p.Normal) : p.bytes = [slash].intercalate ([] :: p.names) := by
  have hne : p.bytes ≠ [] := bytes_ne_of_isAbsolute h.1
  have hjoin : [slash].intercalate (p.bytes.splitOn slash) = p.bytes :=
    List.intercalate_splitOn slash
  rw [← h.segments_eq, segments_of_ne hne, Text.pieces_eq_splitOnP]
  exact hjoin.symm

theorem intercalate_slash (s : Name) (ns : List Name) :
    [slash].intercalate (s :: ns) = s ++ ns.flatMap (slash :: ·) := by
  induction ns generalizing s with
  | nil => simp
  | cons n ns ih =>
    rw [List.intercalate_cons_cons, ih, List.flatMap_cons]
    simp

/-- The path of a source file ends with the extension. -/
theorem Normal.cue_suffix (h : p.Normal) (hsource : Workspace.isSource p) :
    Text.toBytes "cue" <:+ p.bytes := by
  have hext : p.extension? = some (Text.toBytes "cue") := by
    simpa [Workspace.isSource] using hsource
  obtain ⟨name, hname, hext⟩ := Option.bind_eq_some_iff.1 hext
  obtain ⟨last, hlast, hcomponent⟩ := h.getLast?_components
  have hlastName : p.lastName? = some last := by rw [lastName?, hcomponent]
  obtain rfl : last = name := Option.some.inj (hlastName.symm.trans hname)
  have hsuffix : last <:+ p.bytes := by
    obtain ⟨ns, hns⟩ := List.getLast?_eq_some_iff.1 hlast
    rw [h.bytes_eq, intercalate_slash, hns, List.flatMap_append]
    exact ⟨ns.flatMap (slash :: ·) ++ [slash], by simp⟩
  refine List.IsSuffix.trans ?_ hsuffix
  split at hext
  · cases hext
  · cases hext
  · rename_i front back hsplit
    cases hext
    exact Text.splitLast_suffix hsplit

end Path

/-! ## The disk -/

namespace Disk

variable {d : Disk} {p dir : Path} {q t : Place} {o : Option String} {name : Path.Name}

theorem file?_isSome_iff : (d.file? q).isSome ↔ ∃ o, (q, o) ∈ d.files := by
  unfold file?
  induction d.files with
  | nil => simp
  | cons f fs ih =>
    obtain ⟨r, u⟩ := f
    by_cases hq : q = r
    · simp [hq]
    · have hbeq : (q == r) = false := by simpa using hq
      simp [List.lookup_cons, hbeq, hq, ih]

/-- Segments without `..` lead to the names in them if a file is there, or below. A file is not
reached by an idle segment. -/
theorem follow?_of_mem {ss : List Path.Name} (hparent : ∀ s ∈ ss, Path.isParent s = false)
    (hlast : t = [] → ∀ s ∈ ss.getLast?, Path.isIdle s = false)
    (hfile : (q ++ ss.filter (!Path.isIdle ·) ++ t, o) ∈ d.files) :
    d.follow? q ss = some (q ++ ss.filter (!Path.isIdle ·)) := by
  -- the file makes every place on the way to it a directory
  have hdir : ∀ {q r : Place}, (q ++ r, o) ∈ d.files → r ≠ [] → d.isDir q := by
    intro q r hmem hr
    have hany : d.files.any fun f => q.isPrefixOf f.1 && q ≠ f.1 := by
      rw [List.any_eq_true]
      exact ⟨_, hmem, by simp [hr]⟩
    unfold isDir
    rw [Bool.or_eq_true]
    exact .inr hany
  induction ss generalizing q with
  | nil =>
    have hholds : d.holds q := by
      unfold holds
      rw [Bool.or_eq_true]
      by_cases ht : t = []
      · left
        rw [file?_isSome_iff]
        exact ⟨o, by simpa [ht] using hfile⟩
      · exact .inr (hdir (by simpa using hfile) ht)
    simp [follow?, hholds]
  | cons s ss ih =>
    have hhere : d.isDir q := by
      refine hdir (by rwa [List.append_assoc] at hfile) fun hnil => ?_
      obtain ⟨hnames, ht⟩ := List.append_eq_nil_iff.1 hnil
      have hmem := List.getLast_mem (List.cons_ne_nil s ss)
      have hidle := hlast ht _ (List.getLast?_eq_getLast_of_ne_nil (List.cons_ne_nil s ss))
      simpa [hidle] using List.filter_eq_nil_iff.1 hnames _ hmem
    have hlast' : t = [] → ∀ x ∈ ss.getLast?, Path.isIdle x = false := by
      intro ht x hx
      exact hlast ht x (by simp [List.getLast?_cons, Option.mem_def.1 hx])
    have ih := fun {q} => ih (q := q) (fun x hx => hparent x (List.mem_cons_of_mem _ hx)) hlast'
    rw [follow?, if_pos hhere]
    by_cases hidle : Path.isIdle s
    · have hskip : (s :: ss).filter (!Path.isIdle ·) = ss.filter (!Path.isIdle ·) := by
        simp [hidle]
      rw [hskip] at hfile ⊢
      rw [if_pos hidle, ih hfile]
    · have hkeep : q ++ (s :: ss).filter (!Path.isIdle ·) =
          q ++ [s] ++ ss.filter (!Path.isIdle ·) := by
        simp [hidle]
      rw [hkeep] at hfile ⊢
      rw [if_neg hidle, if_neg (by simp [hparent s List.mem_cons_self]), ih hfile]

/-- A path without `..` leads to the place of its names. -/
theorem locate?_of_straight (habs : p.isAbsolute) (h : p.Straight) {r : Place}
    (hr : d.locate? p = some r) : r = p.names := by
  have hfold : ∀ (ns : List Path.Name) (q : Place),
      (ns.map Path.Component.name).foldl walk q = q ++ ns := by
    intro ns
    induction ns with
    | nil => simp
    | cons n ns ih => simp [walk, ih]
  rw [locate?_eq hr, Path.components_of_straight habs h, List.tail_cons, hfold, List.nil_append]

/-- A path without `..` leads to its names, if a file is at them or below them. -/
theorem locate?_of_mem (habs : p.isAbsolute) (h : p.Straight) (hlast : t = [] → p.Trimmed)
    (hfile : (p.names ++ t, o) ∈ d.files) : d.locate? p = some p.names := by
  obtain ⟨rest, hrest⟩ := Path.segments_of_isAbsolute habs
  have hnames := Path.names_eq habs h
  rw [Path.straight_iff] at h
  unfold Path.Trimmed at hlast
  rw [hrest, Path.trimEnd_cons, List.cons.injEq, List.rdropWhile_eq_self_iff] at hlast
  rw [hrest, List.tail_cons] at hnames
  rw [locate?, if_pos habs, hrest, List.drop_one, List.tail_cons, hnames]
  refine (follow?_of_mem (t := t) (o := o) ?_ ?_ (by simpa [hnames] using hfile)).trans (by simp)
  · intro s hs
    exact h s (hrest ▸ List.mem_cons_of_mem _ hs)
  · intro ht s hs
    obtain ⟨hne, rfl⟩ := List.mem_getLast?_eq_getLast hs
    simpa using (hlast ht).2 hne

/-- What is read at a straight path is the file that its names lead to. -/
theorem read?_of_straight (h : p.Straight) (htrim : p.Trimmed) :
    d.read? p = if p.isAbsolute then (d.file? p.names).join else none := by
  unfold read?
  split
  · rename_i habs
    cases hp : d.locate? p with
    | some r => rw [locate?_of_straight habs h hp, Option.bind_some]
    | none =>
      cases hfile : d.file? p.names with
      | none => rfl
      | some o =>
        obtain ⟨o, hmem⟩ := file?_isSome_iff.1 (by rw [hfile]; rfl)
        rw [locate?_of_mem (t := []) habs h (fun _ => htrim) (by simpa using hmem)] at hp
        cases hp
  · rename_i habs
    simp [locate?, habs]

/-- The files of a straight directory are those that one more name leads to. -/
theorem mem_list_iff (h : dir.Straight) :
    name ∈ d.list dir ↔ dir.isAbsolute ∧ (d.file? (dir.names ++ [name])).isSome := by
  rw [file?_isSome_iff]
  constructor
  · intro hname
    have habs := (proper_of_mem_list hname).1
    unfold list at hname
    split at hname
    · cases hname
    · rename_i place hplace
      obtain ⟨f, hf, hlast⟩ := List.mem_filterMap.1 hname
      obtain ⟨hmem, hdir⟩ := List.mem_filter.1 hf
      obtain ⟨hne, hdir⟩ : f.1 ≠ [] ∧ f.1.dropLast = place := by simpa using hdir
      refine ⟨habs, f.2, ?_⟩
      rw [← locate?_of_straight habs h hplace, ← hdir, List.dropLast_append_getLast? _ hlast]
      exact hmem
  · rintro ⟨habs, o, hmem⟩
    unfold list
    rw [locate?_of_mem habs h (by simp) hmem]
    exact List.mem_filterMap.2 ⟨_, List.mem_filter.2 ⟨hmem, by simp⟩, by simp⟩

/-- The path to a place is the normal one. -/
theorem pathOf_names (h : p.Normal) : pathOf p.names = p := by
  unfold pathOf Path.ofSegments
  rw [if_neg (by simpa using h.names_ne_nil)]
  exact congrArg Path.mk h.bytes_eq.symm

/-! ### Writing -/

/-- The disk with a text written to the file at a path. -/
def write (d : Disk) (p : Path) (text : String) : Disk :=
  { files := (p.names, some text) :: d.files.filter (·.1 ≠ p.names)
    dirs := d.dirs
    proper := by
      intro f hf
      rcases List.mem_cons.1 hf with rfl | hf
      · exact List.all_eq_true.2 fun _ hs => Path.names_proper hs
      · exact d.proper f (List.mem_filter.1 hf).1 }

/-- The disk with the texts of an overlay written to it. -/
def writeAll (d : Disk) (o : Overlay) : Disk := o.entries.foldr (fun e d => d.write e.1 e.2) d

/-- After writing, a file is there, and every other place has what it had. -/
theorem file?_write (d : Disk) (p : Path) (text : String) (q : Place) :
    (d.write p text).file? q = if q = p.names then some (some text) else d.file? q := by
  unfold write file?
  split
  · rename_i hq
    simp [hq]
  · rename_i hq
    have hbeq : (q == p.names) = false := by simpa using hq
    rw [List.lookup_cons, hbeq]
    induction d.files with
    | nil => rfl
    | cons f fs ih =>
      obtain ⟨r, u⟩ := f
      by_cases hr : r = p.names
      · simpa [hr, List.lookup_cons, hbeq] using ih
      · by_cases hqr : q = r
        · simp [hqr, hr]
        · have hne : (q == r) = false := by simpa using hqr
          simpa [hr, List.lookup_cons, hne] using ih

/-- After writing an overlay, each place has what the overlay has there, and else what it had. -/
theorem file?_writeAll (d : Disk) (o : Overlay) (q : Place) :
    (d.writeAll o).file? q =
      ((o.entries.find? (·.1.names = q)).map fun e => some e.2).or (d.file? q) := by
  unfold writeAll
  induction o.entries with
  | nil => rfl
  | cons e es ih =>
    rw [List.foldr_cons, file?_write, ih]
    by_cases hq : q = e.1.names
    · simp [hq]
    · simp [hq, Ne.symm hq]

end Disk

/-! ## An overlay written to the disk -/

namespace Workspace

variable {w : Workspace} {p q dir : Path}

/-- The paths of the overlay are normal. -/
def NormalOverlay (w : Workspace) : Prop := ∀ e ∈ w.overlay.entries, e.1.Normal

/-- The workspace with its overlay written to the disk. -/
def written (w : Workspace) : Workspace :=
  { w with overlay := {}, disk := w.disk.writeAll w.overlay }

theorem normalOverlay_written (w : Workspace) : w.written.NormalOverlay := by
  intro e he
  cases he

theorem overlay_get? (h : w.NormalOverlay) (hp : p.Straight) (habs : p.isAbsolute) :
    w.overlay.get? p = (w.overlay.entries.find? (·.1.names = p.names)).map (·.2) := by
  unfold NormalOverlay at h
  unfold Overlay.get?
  congr 1
  refine List.find?_congr fun e he => ?_
  rw [Bool.eq_iff_iff, decide_eq_true_iff]
  exact Path.beq_iff_names (h e he).1 habs (h e he).straight hp

theorem overlay_get?_relative (h : w.NormalOverlay) (hrel : ¬ p.isAbsolute) :
    w.overlay.get? p = none := by
  unfold Overlay.get?
  rw [Option.map_eq_none_iff, List.find?_eq_none]
  intro e he hbeq
  exact hrel (Path.isAbsolute_congr hbeq ▸ (h e he).1)

theorem read?_relative (h : w.NormalOverlay) (hrel : ¬ p.isAbsolute) : w.read? p = none := by
  rw [read?, overlay_get?_relative h hrel, Disk.read?, Disk.locate?, if_neg hrel]
  rfl

/-- What is read at a straight path does not depend on how it is spelled, and not on where the
texts of the overlay are. -/
theorem read?_written (h : w.NormalOverlay) (hpq : p.Respelled q) :
    w.written.read? q = w.read? p := by
  have hq := hpq.straight.congr hpq.beq
  have hempty : w.written.overlay.get? q = none := rfl
  unfold read?
  rw [hempty, Option.none_or, Disk.read?_of_straight hq hpq.trimmed_right,
    Disk.read?_of_straight hpq.straight hpq.trimmed, ← Path.isAbsolute_congr hpq.beq]
  split
  · rename_i habs
    have habs' : q.isAbsolute := Path.isAbsolute_congr hpq.beq ▸ habs
    have hnames : q.names = p.names :=
      ((Path.beq_iff_names habs habs' hpq.straight hq).1 hpq.beq).symm
    rw [overlay_get? h hpq.straight habs, hnames]
    change ((w.disk.writeAll w.overlay).file? p.names).join = _
    rw [Disk.file?_writeAll]
    cases w.overlay.entries.find? (·.1.names = p.names) <;> rfl
  · rename_i hrel
    rw [overlay_get?_relative h hrel, Option.none_or]

/-! ### Listing -/

theorem isSource_congr (h : (p == q) = true) : isSource p = isSource q := by
  unfold isSource Path.extension? Path.lastName?
  rw [Path.beq_iff.1 h]

/-- Every path is kept in some spelling. -/
theorem exists_mem_dropSame {l : List Path} (h : p ∈ l) : ∃ q ∈ dropSame l, (q == p) = true := by
  fun_induction dropSame l generalizing p with
  | case1 a b ps hab ih =>
    rcases List.mem_cons.1 h with rfl | h
    · obtain ⟨q, hq, hqb⟩ := ih List.mem_cons_self
      refine ⟨q, hq, ?_⟩
      rw [Path.beq_iff] at hab hqb ⊢
      rw [hqb, hab]
    · exact ih h
  | case2 a b ps hab ih =>
    rcases List.mem_cons.1 h with rfl | h
    · exact ⟨p, List.mem_cons_self, Path.beq_iff.2 rfl⟩
    · obtain ⟨q, hq, hqp⟩ := ih h
      exact ⟨q, List.mem_cons_of_mem _ hq, hqp⟩
  | case3 ps _ => exact ⟨p, h, Path.beq_iff.2 rfl⟩

theorem file?_written_isSome (q : Place) : (w.written.disk.file? q).isSome ↔
    (∃ e ∈ w.overlay.entries, e.1.names = q) ∨ (w.disk.file? q).isSome := by
  change ((w.disk.writeAll w.overlay).file? q).isSome ↔ _
  rw [Disk.file?_writeAll, Option.isSome_or, Bool.or_eq_true, Option.isSome_map, List.find?_isSome]
  simp

/-- What is there on the disk or in the overlay is listed in some spelling. -/
theorem exists_mem_list (hsource : isSource p)
    (h : (∃ name ∈ w.disk.list dir, p = dir.join ⟨name⟩) ∨
      ∃ e ∈ w.overlay.entries, (e.1 == p) = true ∧ e.1.parent?.any (· == dir)) :
    ∃ q ∈ w.list dir, (q == p) = true := by
  have hlisted : ∀ q, isSource q → q ∈ (w.disk.list dir).map (fun name => dir.join ⟨name⟩) ++
      (w.overlay.entries.map (·.1)).filter (fun p => p.parent?.any (· == dir)) →
      ∃ r ∈ w.list dir, (r == q) = true := by
    intro q hq hmem
    exact exists_mem_dropSame (List.mem_mergeSort.2 (List.mem_filter.2 ⟨hmem, hq⟩))
  rcases h with ⟨name, hname, rfl⟩ | ⟨e, he, hbeq, hparent⟩
  · exact hlisted _ hsource (List.mem_append_left _ (List.mem_map.2 ⟨name, hname, rfl⟩))
  · have hmem : e.1 ∈ (w.overlay.entries.map (·.1)).filter fun p => p.parent?.any (· == dir) :=
      List.mem_filter.2 ⟨List.mem_map.2 ⟨e, he, rfl⟩, hparent⟩
    obtain ⟨q, hq, hqe⟩ :=
      hlisted e.1 (isSource_congr hbeq ▸ hsource) (List.mem_append_right _ hmem)
    refine ⟨q, hq, ?_⟩
    rw [Path.beq_iff] at hbeq hqe ⊢
    rw [hqe, hbeq]

/-- The source files of a straight directory are the files in it when the overlay is written. -/
theorem mem_list_iff (h : w.NormalOverlay) (hdir : dir.Straight) {k : List (List Nat)} :
    k ∈ (w.list dir).map Path.key ↔ dir.isAbsolute ∧ ∃ name,
      (w.written.disk.file? (dir.names ++ [name])).isSome ∧ isSource (dir.join ⟨name⟩) ∧
        (dir.join ⟨name⟩).key = k := by
  simp only [file?_written_isSome]
  constructor
  · intro hk
    obtain ⟨p, hp, rfl⟩ := List.mem_map.1 hk
    obtain ⟨hsource, ⟨name, hname, rfl⟩ | ⟨e, he, rfl, hparent⟩⟩ := mem_list hp
    · obtain ⟨habs, hfile⟩ := (Disk.mem_list_iff hdir).1 hname
      exact ⟨habs, name, .inr hfile, hsource, rfl⟩
    · have hentry := h e he
      obtain ⟨habs, name, hnames⟩ :=
        (Path.parent?_any_iff hentry.1 hentry.straight hdir).1 hparent
      have hjoin := Path.beq_join hentry.1 hentry.straight habs hdir hnames
      exact ⟨habs, name, .inl ⟨e, he, hnames⟩, isSource_congr hjoin ▸ hsource,
        (Path.key_eq_iff.2 hjoin).symm⟩
  · rintro ⟨habs, name, hfile, hsource, rfl⟩
    obtain ⟨q, hq, hbeq⟩ : ∃ q ∈ w.list dir, (q == dir.join ⟨name⟩) = true := by
      refine exists_mem_list hsource ?_
      rcases hfile with ⟨e, he, hnames⟩ | hfile
      · have hentry := h e he
        exact .inr ⟨e, he, Path.beq_join hentry.1 hentry.straight habs hdir hnames,
          (Path.parent?_any_iff hentry.1 hentry.straight hdir).2 ⟨habs, name, hnames⟩⟩
      · exact .inl ⟨name, (Disk.mem_list_iff hdir).2 ⟨habs, hfile⟩, rfl⟩
    exact List.mem_map.2 ⟨q, hq, Path.key_eq_iff.2 hbeq⟩

/-- The source files of a straight directory are straight. -/
theorem straight_of_mem_list (h : w.NormalOverlay) (hdir : dir.Straight) (hp : p ∈ w.list dir) :
    p.Straight ∧ p.Trimmed := by
  obtain ⟨-, ⟨name, hname, rfl⟩ | ⟨e, he, rfl, -⟩⟩ := mem_list hp
  · obtain ⟨habs, hproper⟩ := Disk.proper_of_mem_list hname
    refine ⟨?_, Path.trimmed_join habs hproper⟩
    rw [Path.Straight, Path.components_join habs hproper]
    simpa [Path.Straight] using hdir
  · exact ⟨(h e he).straight, (h e he).trimmed⟩

/-! ### The same files -/

/-- Two workspaces in which the same files are there once the overlays are written. -/
structure SameFiles (w w' : Workspace) : Prop where
  left : w.NormalOverlay
  right : w'.NormalOverlay
  file?_eq : ∀ q, w'.written.disk.file? q = w.written.disk.file? q

theorem sameFiles_written (h : w.NormalOverlay) : w.SameFiles w.written :=
  ⟨h, w.normalOverlay_written, fun _ => rfl⟩

namespace SameFiles

variable {w' : Workspace} (h : w.SameFiles w')
include h

/-- The same is read at a straight path. -/
theorem read?_eq (hpq : p.Respelled q) : w'.read? q = w.read? p := by
  have hq := hpq.straight.congr hpq.beq
  have hqq : q.Respelled q := .refl hq hpq.trimmed_right
  have hdisk : w'.written.read? q = w.written.read? q := by
    have hempty : ∀ w : Workspace, w.written.read? q = w.written.disk.read? q := fun _ => rfl
    rw [hempty, hempty, Disk.read?_of_straight hq hpq.trimmed_right,
      Disk.read?_of_straight hq hpq.trimmed_right, h.file?_eq]
  rw [← read?_written h.right hqq, hdisk, read?_written h.left hpq]

/-- A straight directory has the same source files. -/
theorem list_respelled (hdir : dir.Straight) :
    List.Forall₂ Path.Respelled (w.list dir) (w'.list dir) := by
  have hsorted : ∀ w : Workspace, ((w.list dir).map Path.key).Pairwise (· < ·) := by
    intro w
    exact List.pairwise_map.2 (w.list_sorted dir)
  -- both lists are in strict order, so it is enough that they have the same members
  have hkeys : (w.list dir).map Path.key = (w'.list dir).map Path.key := by
    refine List.Pairwise.eq_of_mem_iff (hsorted w) (hsorted w') fun k => ?_
    rw [mem_list_iff h.left hdir, mem_list_iff h.right hdir]
    simp only [h.file?_eq]
  rw [← List.forall₂_eq_eq_eq, List.forall₂_map_left_iff, List.forall₂_map_right_iff,
    List.forall₂_iff_zip] at hkeys
  refine List.forall₂_iff_zip.2 ⟨hkeys.1, fun {p q} hpq => ?_⟩
  obtain ⟨hp, hq⟩ := List.of_mem_zip hpq
  obtain ⟨hstraight, htrim⟩ := straight_of_mem_list h.left hdir hp
  exact ⟨Path.key_eq_iff.1 (hkeys.2 hpq), hstraight, htrim,
    (straight_of_mem_list h.right hdir hq).2⟩

end SameFiles

end Workspace

end CueScope
