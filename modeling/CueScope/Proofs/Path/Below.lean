import CueScope.Proofs.Place
import CueScope.Proofs.Text.Bytes

/-!
# Paths below a directory

* `exists_relativeTo?`: a path that starts with the steps of a directory has a rest below it, which
  is relative and takes the steps that are left.
* `components_of_mem_ancestors`: so it is for every directory above the path.
* `isText_iff`: the bytes of a path are those of a text exactly if this holds of its segments.
* `join_text_beq_iff`: what is printed of the rest leads from the directory back to the path exactly
  if the rest is a text.
-/

namespace CueScope

namespace Path

variable {p q base rest dir : Path} {s : Name} {ss : List Name} {n : Nat}

/-! ## What is left below a directory -/

/-- Dropped segments stand for as many steps as are dropped. -/
theorem filterMap_dropSteps (n : Nat) (ss : List Name) :
    (dropSteps n ss).filterMap stepOf = (ss.filterMap stepOf).drop n := by
  fun_induction dropSteps n ss with
  | case1 ss =>
    induction ss with
    | nil => rfl
    | cons s ss ih =>
      by_cases hs : isIdle s
      · rw [List.dropWhile_cons_of_pos hs, ih, List.filterMap_cons_none (by simp [stepOf, hs])]
      · rw [List.dropWhile_cons_of_neg hs, List.drop_zero]
  | case2 n => rfl
  | case3 n s ss hs ih => rw [ih, List.filterMap_cons_none (by simp [stepOf, hs])]
  | case4 n s ss hs ih =>
    obtain ⟨c, hc⟩ : ∃ c, stepOf s = some c := by
      by_cases hparent : isParent s <;> simp [stepOf, hs, hparent]
    rw [ih, List.filterMap_cons_some hc, List.drop_succ_cons]

theorem dropSteps_subset (n : Nat) (ss : List Name) : dropSteps n ss ⊆ ss := by
  fun_induction dropSteps n ss with
  | case1 ss => exact (List.dropWhile_suffix _).subset
  | case2 n => exact List.Subset.refl _
  | case3 n s ss hs ih => exact List.subset_cons_of_subset s ih
  | case4 n s ss hs ih => exact List.subset_cons_of_subset s ih

/-- What is left does not start with an idle segment. -/
theorem not_isIdle_head_dropSteps (h : s ∈ (dropSteps n ss).head?) : isIdle s = false := by
  fun_induction dropSteps n ss with
  | case1 ss =>
    have := List.head?_dropWhile_not isIdle ss
    rw [h] at this
    simpa using this
  | case2 n => cases h
  | case3 n t ss hs ih => exact ih h
  | case4 n t ss hs ih => exact ih h

/-- The steps of an absolute path, after the root. -/
theorem components_eq_cons (h : p.isAbsolute) :
    p.components = .root :: p.segments.filterMap stepOf := by
  obtain ⟨rest, hrest⟩ := segments_of_isAbsolute h
  rw [components_eq, hrest]
  rfl

/-- Segments that do not start with an idle one make up a relative path. -/
theorem joinSegments_relative (hslash : ∀ s ∈ ss, slash ∉ s)
    (hhead : ∀ s ∈ ss.head?, isIdle s = false) :
    (joinSegments ss).segments = ss ∧ (joinSegments ss).isAbsolute = false := by
  have hsegments : (joinSegments ss).segments = ss := by
    refine segments_joinSegments hslash ?_
    rintro rfl
    exact absurd (hhead [] rfl) (by decide)
  refine ⟨hsegments, ?_⟩
  rw [← Bool.not_eq_true]
  intro habs
  obtain ⟨rest, hrest⟩ := segments_of_isAbsolute habs
  rw [← hsegments, hrest] at hhead
  exact absurd (hhead [] rfl) (by decide)

/-- A path that starts with the steps of a directory goes on from there. -/
theorem exists_relativeTo? (hp : p.isAbsolute) (hbase : base.isAbsolute)
    (h : base.components <+: p.components) : ∃ rest, p.relativeTo? base = some rest ∧
    rest.isAbsolute = false ∧
    p.components = base.components ++ rest.segments.filterMap stepOf := by
  obtain ⟨ss, htrim, hslash⟩ : ∃ ss, trimEnd p.segments = [] :: ss ∧ ∀ s ∈ ss, slash ∉ s := by
    obtain ⟨rest, hsegments⟩ := segments_of_isAbsolute hp
    refine ⟨_, by rw [hsegments, trimEnd_cons], fun s hs => ?_⟩
    refine slash_notMem_segment (p := p) ?_
    rw [hsegments]
    exact List.mem_cons_of_mem _ ((List.rdropWhile_prefix isIdle _).subset hs)
  have hcomponents : p.components = .root :: ss.filterMap stepOf := by
    rw [components_eq, ← stepsOf_trimEnd, htrim]
    rfl
  obtain ⟨more, hmore⟩ : ∃ more, base.components = .root :: more :=
    ⟨_, components_eq_cons hbase⟩
  obtain ⟨left, hleft⟩ : more <+: ss.filterMap stepOf := by
    rw [hmore, hcomponents] at h
    exact (List.cons_prefix_cons.1 h).2
  obtain ⟨hsegments, hrelative⟩ := joinSegments_relative
    (fun s (hs : s ∈ dropSteps more.length ss) => hslash s (dropSteps_subset _ _ hs))
    fun s hs => not_isIdle_head_dropSteps hs
  refine ⟨joinSegments (dropSteps more.length ss), ?_, hrelative, ?_⟩
  · rw [relativeTo?, if_pos (List.isPrefixOf_iff_prefix.2 h), hmore, htrim]
  · rw [hsegments, filterMap_dropSteps, hcomponents, hmore, ← hleft, List.drop_left,
      List.cons_append]

/-- The parent of an absolute path is absolute. -/
theorem isAbsolute_parent? (hp : p.isAbsolute) (h : p.parent? = some dir) : dir.isAbsolute := by
  rw [isAbsolute_iff, components_parent? h]
  rw [isAbsolute_iff] at hp
  unfold parent? at h
  split at h
  · cases h
  · cases h
  · rename_i c hne hlast
    obtain ⟨front, hfront⟩ := List.getLast?_eq_some_iff.1 hlast
    rw [hfront, List.dropLast_concat]
    rw [hfront] at hp
    cases front with
    | nil =>
      obtain rfl : c = .root := by simpa using hp
      exact (hne rfl).elim
    | cons a front => simpa using hp

/-- A directory above a path starts with the same steps. -/
theorem components_of_mem_ancestors (hp : p.isAbsolute) (h : dir ∈ p.ancestors) :
    dir.isAbsolute ∧ dir.components <+: p.components := by
  refine of_mem_ancestors (P := fun d => d.isAbsolute ∧ d.components <+: p.components) ?_
    ⟨hp, List.prefix_refl _⟩ h
  rintro q d ⟨habs, hprefix⟩ hd
  refine ⟨isAbsolute_parent? habs hd, ?_⟩
  rw [components_parent? hd]
  exact (List.dropLast_prefix _).trans hprefix

/-! ## Paths that are texts -/

/-- The bytes of the path are the UTF-8 form of a text. -/
def IsText (p : Path) : Prop := ∃ text, p = ofText text

/-- Texts with slashes between them are a text. -/
theorem exists_intercalate {ss : List Name} (h : ∀ s ∈ ss, ∃ text, s = Text.toBytes text) :
    ∃ text, [slash].intercalate ss = Text.toBytes text := by
  induction ss with
  | nil => exact ⟨"", rfl⟩
  | cons s ss ih =>
    obtain ⟨⟨t, rfl⟩, hss⟩ := List.forall_mem_cons.1 h
    obtain ⟨rest, hrest⟩ := ih hss
    cases ss with
    | nil => exact ⟨t, by simp⟩
    | cons s' ss =>
      refine ⟨t ++ "/" ++ rest, ?_⟩
      have hslash : Text.toBytes "/" = [slash] := by decide
      rw [List.intercalate_cons_cons, hrest, Text.toBytes_append, Text.toBytes_append, hslash]

/-- A path is a text if its segments are. -/
theorem isText_iff : p.IsText ↔ ∀ s ∈ p.segments, ∃ text, s = Text.toBytes text := by
  constructor
  · rintro ⟨text, rfl⟩ s hs
    unfold segments at hs
    split at hs
    · cases hs
    · rw [ofText, Text.pieces_toBytes] at hs
      obtain ⟨piece, -, rfl⟩ := List.mem_map.1 hs
      exact ⟨_, rfl⟩
  · intro h
    by_cases hp : p.bytes = []
    · exact ⟨"", by cases p; simpa [ofText, Text.toBytes] using hp⟩
    · obtain ⟨text, htext⟩ := exists_intercalate h
      refine ⟨text, ?_⟩
      have hjoin : [slash].intercalate (p.bytes.splitOn slash) = p.bytes :=
        List.intercalate_splitOn slash
      rw [segments_of_ne hp, Text.pieces_eq_splitOnP] at htext
      have hbytes : p.bytes = Text.toBytes text := hjoin.symm.trans htext
      rw [ofText, ← hbytes]

theorem eq_of_stepOf {t : Name} (h : stepOf s = some (.name t)) : s = t := by
  unfold stepOf at h
  split at h
  · cases h
  · split at h <;> cases h
    rfl

/-- A relative path is a text if its names are. -/
theorem isText_of_names (h : ∀ s, .name s ∈ p.segments.filterMap stepOf →
    ∃ text, s = Text.toBytes text) : p.IsText := by
  refine isText_iff.2 fun s hs => ?_
  by_cases hidle : isIdle s
  · rcases (by simpa [isIdle] using hidle : s = [] ∨ s = [dot]) with rfl | rfl
    · exact ⟨"", rfl⟩
    · exact ⟨".", by decide⟩
  by_cases hparent : isParent s
  · obtain rfl : s = [dot, dot] := by simpa [isParent] using hparent
    exact ⟨"..", by decide⟩
  · exact h s (List.mem_filterMap.2 ⟨s, hs, by simp [stepOf, hidle, hparent]⟩)

/-- What is printed of the rest below a directory leads from there to the path exactly if the rest
is a text. -/
theorem join_text_beq_iff (hbase : base.isAbsolute) (hrest : rest.isAbsolute = false)
    (h : p.components = base.components ++ rest.segments.filterMap stepOf) :
    (base ++ rest.text == p) = true ↔ rest.IsText := by
  have hne := bytes_ne_of_isAbsolute hbase
  rw [beq_iff, h]
  constructor
  · intro hsteps
    have hprinted : (ofText rest.text).IsText := ⟨_, rfl⟩
    change (base.join (ofText rest.text)).components = _ at hsteps
    generalize ofText rest.text = q at hprinted hsteps
    refine isText_of_names fun s hs => ?_
    -- a path that is printed as an absolute one would lead away from the directory
    have hs : .name s ∈ q.segments.filterMap stepOf := by
      cases hq : q.isAbsolute with
      | false =>
        rw [components_join_of_relative hne hq] at hsteps
        rwa [List.append_cancel_left hsteps]
      | true =>
        rw [join, if_pos hq, components_eq_cons hq] at hsteps
        have hmem := List.mem_append_right base.components hs
        rw [← hsteps] at hmem
        simpa using hmem
    obtain ⟨t, ht, hstep⟩ := List.mem_filterMap.1 hs
    exact isText_iff.1 hprinted s (eq_of_stepOf hstep ▸ ht)
  · rintro ⟨text, rfl⟩
    have hprint : (ofText text).text = text := Text.ofBytes_toBytes text
    rw [hprint]
    exact components_join_of_relative hne hrest

end Path

end CueScope
