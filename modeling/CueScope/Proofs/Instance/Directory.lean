import CueScope.Proofs.Instance.Contents

/-!
# Directories in other spellings

* `Disk.list_congr`, `Disk.read?_join`: the files of a directory, and what is read in it, do not
  depend on how it is spelled.
* `Workspace.textsIn_congr`: so the same source files are offered, each at the same place.
-/

namespace CueScope

namespace Disk

variable {d : Disk} {p r : Place} {dir dir' : Path} {name : Path.Name}

/-- The places on the way are directories, the last one included. -/
def dirsAlong (d : Disk) : Place → List Path.Component → Bool
  | p, [] => d.isDir p
  | p, c :: cs => d.isDir p && dirsAlong d (walk p c) cs

theorem isDir_of_dirsAlong {cs : List Path.Component} (h : d.dirsAlong p cs) : d.isDir p := by
  cases cs with
  | nil => exact h
  | cons c cs => exact (Bool.and_eq_true_iff.1 h).1

/-- A turn of following segments. -/
theorem follow?_cons (s : Path.Name) (ss : List Path.Name) : d.follow? p (s :: ss) =
    if d.isDir p then d.follow? ((Path.stepOf s).elim p (walk p)) ss else none := by
  rw [follow?]
  unfold Path.stepOf
  split
  · split
    · rfl
    · split <;> rfl
  · rfl

theorem dirsAlong_cons (s : Path.Name) (ss : List Path.Name) :
    d.dirsAlong p ((s :: ss).filterMap Path.stepOf) =
      (d.isDir p && d.dirsAlong ((Path.stepOf s).elim p (walk p)) (ss.filterMap Path.stepOf)) := by
  cases hs : Path.stepOf s with
  | none =>
    rw [List.filterMap_cons_none hs, Option.elim_none, Bool.eq_iff_iff, Bool.and_eq_true]
    exact ⟨fun h => ⟨isDir_of_dirsAlong h, h⟩, And.right⟩
  | some c =>
    rw [List.filterMap_cons_some hs, Option.elim_some]
    rfl

theorem foldl_walk_cons (s : Path.Name) (ss : List Path.Name) :
    ((s :: ss).filterMap Path.stepOf).foldl walk p =
      (ss.filterMap Path.stepOf).foldl walk ((Path.stepOf s).elim p (walk p)) := by
  cases hs : Path.stepOf s with
  | none => rw [List.filterMap_cons_none hs, Option.elim_none]
  | some c => rw [List.filterMap_cons_some hs, Option.elim_some, List.foldl_cons]

/-- Whether segments lead to a directory depends on their steps. -/
theorem follow?_eq_dir {ss : List Path.Name} (hr : d.isDir r) : d.follow? p ss = some r ↔
    d.dirsAlong p (ss.filterMap Path.stepOf) ∧ (ss.filterMap Path.stepOf).foldl walk p = r := by
  induction ss generalizing p with
  | nil =>
    rw [follow?]
    by_cases hp : p = r
    · subst hp
      simp [holds, dirsAlong, hr]
    · simp [hp]
  | cons s ss ih =>
    rw [follow?_cons, dirsAlong_cons, foldl_walk_cons, Bool.and_eq_true, and_assoc, ← ih]
    split <;> simp [*]

/-- Where segments lead on the way to further ones depends on their steps. -/
theorem follow?_append {ss ts : List Path.Name} (hts : ts ≠ []) : d.follow? p (ss ++ ts) =
    if d.dirsAlong p (ss.filterMap Path.stepOf) then
      d.follow? ((ss.filterMap Path.stepOf).foldl walk p) ts
    else none := by
  induction ss generalizing p with
  | nil =>
    obtain ⟨t, ts, rfl⟩ := List.exists_cons_of_ne_nil hts
    rw [List.nil_append, follow?_cons]
    change _ = if d.isDir p then d.follow? p (t :: ts) else none
    rw [follow?_cons]
    split <;> rfl
  | cons s ss ih =>
    rw [List.cons_append, follow?_cons, dirsAlong_cons, foldl_walk_cons, ih]
    cases d.isDir p <;> simp

theorem locate?_eq_dir (habs : dir.isAbsolute) (hr : d.isDir r) : d.locate? dir = some r ↔
    d.dirsAlong [] dir.components.tail ∧ dir.components.tail.foldl walk [] = r := by
  obtain ⟨rest, hsegments⟩ := Path.segments_of_isAbsolute habs
  have htail : dir.components.tail =
      (Text.pieces (· = Path.slash) rest).filterMap Path.stepOf := by
    rw [Path.components_eq, hsegments]
    rfl
  rw [locate?, if_pos habs, hsegments, htail]
  exact follow?_eq_dir hr

/-- A name in a directory is looked up where its components lead. -/
theorem locate?_join (habs : dir.isAbsolute) (hname : Path.isProper name) :
    d.locate? (dir.join ⟨name⟩) =
      if d.dirsAlong [] dir.components.tail then
        d.follow? (dir.components.tail.foldl walk []) [name]
      else none := by
  obtain ⟨ss, hss, hsteps, hsegments⟩ := Path.segments_join habs hname
  have habs' : (dir.join ⟨name⟩).isAbsolute := by rw [Path.isAbsolute_join, habs, Bool.or_true]
  obtain ⟨rest, hrest⟩ := Path.segments_of_isAbsolute habs'
  obtain ⟨s, ss, rfl⟩ := List.exists_cons_of_ne_nil hss
  obtain rfl : s = [] := by
    rw [hsegments, List.cons_append] at hrest
    exact (List.cons.inj hrest).1
  have htail : dir.components.tail = ss.filterMap Path.stepOf := by
    rw [← hsteps]
    rfl
  rw [locate?, if_pos habs', hsegments, htail]
  exact follow?_append (List.cons_ne_nil _ _)

/-- What is read in a directory does not depend on how the directory is spelled. -/
theorem read?_join (h : (dir == dir') = true) (habs : dir.isAbsolute) (hname : Path.isProper name) :
    d.read? (dir.join ⟨name⟩) = d.read? (dir'.join ⟨name⟩) := by
  unfold read?
  rw [locate?_join habs hname, locate?_join (Path.isAbsolute_congr h ▸ habs) hname, Path.beq_iff.1 h]

/-- The files of a directory do not depend on its spelling. -/
theorem mem_list_congr (h : (dir == dir') = true) (hname : name ∈ d.list dir) :
    name ∈ d.list dir' := by
  have habs := (proper_of_mem_list hname).1
  unfold list at hname
  cases hplace : d.locate? dir with
  | none => simp [hplace] at hname
  | some place =>
    simp only [hplace] at hname
    obtain ⟨f, hf, -⟩ := List.mem_filterMap.1 hname
    obtain ⟨hmem, hdir⟩ := List.mem_filter.1 hf
    -- the file makes the place a directory
    have hisDir : d.isDir place := by
      obtain ⟨hne, rfl⟩ : f.1 ≠ [] ∧ f.1.dropLast = place := by simpa using hdir
      have hshort : f.1.dropLast ≠ f.1 := by
        intro heq
        have hlen := congrArg List.length heq
        have hpos := List.length_pos_iff.2 hne
        rw [List.length_dropLast] at hlen
        omega
      have hany : d.files.any fun g => f.1.dropLast.isPrefixOf g.1 && f.1.dropLast ≠ g.1 := by
        rw [List.any_eq_true]
        exact ⟨f, hmem, by simp [hshort, List.dropLast_prefix]⟩
      unfold isDir
      rw [Bool.or_eq_true]
      exact .inr hany
    have hplace' : d.locate? dir' = some place := by
      rw [locate?_eq_dir habs hisDir, Path.beq_iff.1 h] at hplace
      rw [locate?_eq_dir (Path.isAbsolute_congr h ▸ habs) hisDir]
      exact hplace
    unfold list
    simpa only [hplace'] using hname

end Disk

namespace Workspace

variable {w : Workspace} {dir dir' p : Path} {text : String} {texts texts' : List (Path × String)}

/-- What lies in a directory lies there in whatever way it is spelled. -/
theorem Lies.congr (h : (dir == dir') = true) (hp : w.Lies dir p) (hread : w.read? p = some text) :
    ∃ q, w.Lies dir' q ∧ (q == p) = true ∧ w.read? q = some text := by
  rcases hp with ⟨name, hname, rfl⟩ | ⟨e, he, rfl, hdir⟩
  · obtain ⟨habs, hproper⟩ := Disk.proper_of_mem_list hname
    have habs' : dir'.isAbsolute := Path.isAbsolute_congr h ▸ habs
    have hsame : (dir'.join ⟨name⟩ == dir.join ⟨name⟩) = true := by
      rw [Path.beq_iff, Path.components_join habs' hproper, Path.components_join habs hproper,
        Path.beq_iff.1 h]
    refine ⟨dir'.join ⟨name⟩, .inl ⟨name, Disk.mem_list_congr h hname, rfl⟩, hsame, ?_⟩
    have hoverlay : w.overlay.get? (dir'.join ⟨name⟩) = w.overlay.get? (dir.join ⟨name⟩) := by
      simp only [Overlay.get?, Path.beq_def, Path.beq_iff.1 hsame]
    rw [read?, hoverlay, ← Disk.read?_join h habs hproper]
    exact hread
  · refine ⟨e.1, .inr ⟨e, he, rfl, ?_⟩, Path.beq_iff.2 rfl, hread⟩
    obtain ⟨d, hd, hdir⟩ := (Option.any_eq_true _ _).1 hdir
    refine (Option.any_eq_true _ _).2 ⟨d, hd, ?_⟩
    rw [Path.beq_iff] at h hdir ⊢
    rw [hdir, h]

/-- Two offers of one directory have the same files, however it is spelt. -/
theorem Offers.mem_congr (h : (dir == dir') = true) (ho : w.Offers dir texts)
    (ho' : w.Offers dir' texts') {e : Path × String} (he : e ∈ texts) :
    ∃ e' ∈ texts', (e.1 == e'.1) = true ∧ e'.2 = e.2 := by
  obtain ⟨hsource, hlies, hread⟩ := ho.sound e he
  obtain ⟨q, hlies', hsame, hread'⟩ := hlies.congr h hread
  obtain ⟨e', he', hpath, htext⟩ := ho'.complete q e.2 (isSource_congr hsame ▸ hsource) hlies' hread'
  refine ⟨e', he', ?_, htext⟩
  rw [Path.beq_iff] at hpath hsame ⊢
  rw [hpath, hsame]

/-- There is one list of the source files of a directory, apart from spelling. -/
theorem Offers.unique (h : (dir == dir') = true) (ho : w.Offers dir texts)
    (ho' : w.Offers dir' texts') : List.Forall₂ SameText texts texts' := by
  have h' : (dir' == dir) = true := Path.beq_iff.2 (Path.beq_iff.1 h).symm
  have hsorted : ∀ {d : Path} {l : List (Path × String)}, w.Offers d l →
      (l.map (·.1.key)).Pairwise (· < ·) := fun hl =>
    List.pairwise_map.2 (hl.sorted.imp (Path.before_iff _ _).1)
  have hmem : ∀ {d d' : Path} {l l' : List (Path × String)}, (d == d') = true → w.Offers d l →
      w.Offers d' l' → ∀ k ∈ l.map (·.1.key), k ∈ l'.map (·.1.key) := by
    intro d d' l l' hd hl hl' k hk
    obtain ⟨e, he, rfl⟩ := List.mem_map.1 hk
    obtain ⟨e', he', hsame, -⟩ := hl.mem_congr hd hl' he
    exact List.mem_map.2 ⟨e', he', (Path.key_eq_iff.2 hsame).symm⟩
  -- both lists are in strict order, so it is enough that they have the same members
  have hkeys : texts.map (·.1.key) = texts'.map (·.1.key) :=
    List.Pairwise.eq_of_mem_iff (hsorted ho) (hsorted ho') fun k =>
      ⟨hmem h ho ho' k, hmem h' ho' ho k⟩
  rw [← List.forall₂_eq_eq_eq, List.forall₂_map_left_iff, List.forall₂_map_right_iff,
    List.forall₂_iff_zip] at hkeys
  refine List.forall₂_iff_zip.2 ⟨hkeys.1, fun {e e'} hzip => ?_⟩
  obtain ⟨he, he'⟩ := List.of_mem_zip hzip
  have hsame := Path.key_eq_iff.1 (hkeys.2 hzip)
  exact ⟨hsame, (Workspace.read?_eq hsame (ho.sound e he).2.2 (ho'.sound e' he').2.2).symm⟩

theorem textsIn_congr (h : (dir == dir') = true) :
    List.Forall₂ SameText (w.textsIn dir) (w.textsIn dir') :=
  (w.offers_textsIn dir).unique h (w.offers_textsIn dir')

end Workspace

end CueScope
