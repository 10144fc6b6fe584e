import CueScope.Proofs.Tree.Header

/-!
# No token of a file is lost

* `front_derives`: what is read before the declarations of a file is its header.
* `Derives.covers`: declarations stand at tokens of their own, and only separators are in none of them.
* `file_covers`: so any tokens, brackets without partners included, are read as a file, and each token
  after the header that is no separator lies in exactly one of its declarations.
-/

namespace CueScope

namespace Tree

open Grammar Rule

variable {bodies : Bodies} {D : Prop} {F : FileId} {ts : List (Spanned Token)}

/-! ## The header -/

/-- The front of a file has the tokens of a file without declarations. -/
theorem front_derives (bodies : Bodies) :
    Ensures front fun read _ x => Files bodies True read (x.1, x.2, []) := by
  have himports := ((importDecl_derives bodies True).many).ensures trivial
  refine ((skipSeparators_reads.bind fun _ => (packageClause_derives bodies True).maybe).bind
    fun _ => himports.bind fun _ => .pure _).mono ?_
  rintro read rest x ⟨_, _, package, rfl, ⟨g, m, _, rfl, ⟨hg, -⟩, hm⟩, ys, _, imports, rfl, hys, rfl, rfl⟩
  rw [List.append_assoc]
  refine Files.skipAll ?_ hg
  rw [List.append_nil]
  have hheader := imports_derive hys (.decls .decls_nil)
  rw [List.append_nil, List.append_nil] at hheader
  rcases hm with ⟨rfl, rfl⟩ | ⟨p, rfl, hp⟩
  · exact hheader
  · exact hp _ _ _ hheader

/-! ## Declarations -/

theorem rising_of_inOrder (h : InOrder F ts) : Rising ts := by
  refine h.sorted.imp_of_mem fun {x y} hx hy hxy => ?_
  have := h.nonempty x hx
  have := h.nonempty y hy
  omega

/-- A token is not in the range of later tokens. -/
theorem not_subset_later {l m r : List (Spanned Token)} {t : Spanned Token} (h : InOrder F (l ++ r))
    (ht : t ∈ l) (hm : ∀ x ∈ m, x ∈ r) (hne : m ≠ []) : ¬ t.span ⊆ cover m := by
  intro hsub
  obtain ⟨x, hx, hstart, -⟩ := exists_start hne
  have h₁ := (List.pairwise_append.1 h.sorted).2.2 t ht x (hm x hx)
  have h₂ := h.nonempty t (List.mem_append_left r ht)
  have h₃ := hsub.2.1
  omega

/-- A token is not in the range of earlier tokens. -/
theorem not_subset_earlier {l m r : List (Spanned Token)} {t : Spanned Token} (h : InOrder F (l ++ r))
    (ht : t ∈ r) (hm : ∀ x ∈ m, x ∈ l) (hne : m ≠ []) : ¬ t.span ⊆ cover m := by
  intro hsub
  obtain ⟨x, hx, hstop⟩ := exists_stop hne
  have h₁ := (List.pairwise_append.1 h.sorted).2.2 x (hm x hx) t ht
  have h₂ := h.nonempty t (List.mem_append_right l ht)
  have h₃ := hsub.2.2
  omega

/-- Declarations stand at tokens of their own, and each token that is no separator is one of those of
a single declaration. -/
def Phrase.Covers (ts : List (Spanned Token)) : Phrase → Prop
  | .decls ds => (∀ d ∈ ds, ∃ m, m ≠ [] ∧ (∀ t ∈ m, t ∈ ts) ∧ d.span = cover m) ∧
      ∀ t ∈ ts, ¬ IsSeparator t → ds.countP (fun d => t.span ⊆ d.span) = 1
  | _ => True

/-- In a list of declarations each token other than a separator lies in the span of a single one. -/
theorem Derives.covers {p : Phrase} (h : Derives bodies D ts p) (hF : InOrder F ts) :
    p.Covers ts := by
  induction h with
  | decls_nil => exact ⟨fun _ hd => (by cases hd), fun _ ht => (by cases ht)⟩
  | @decls_last m d hd _ =>
    have hspan : d.span = cover m := hd.stands (rising_of_inOrder hF) _ rfl
    have hne : m ≠ [] := hd.opens
    refine ⟨fun d' hd' => ?_, fun t ht _ => ?_⟩
    · obtain rfl := List.mem_singleton.1 hd'
      exact ⟨m, hne, fun _ hx => hx, hspan⟩
    · have hin : t.span ⊆ d.span := by
        rw [hspan]
        exact hF.cover_subset (m := [t]) (by simpa using ht) (by simp)
      simp [hin]
  | @decls_next m s ts d ds hd hs hds _ ih =>
    have hm : InOrder F m := hF.left.left
    have hspan : d.span = cover m := hd.stands (rising_of_inOrder hm) _ rfl
    have hne : m ≠ [] := hd.opens
    obtain ⟨hown, hcount⟩ := ih hF.right
    refine ⟨fun d' hd' => ?_, fun t ht hsep => ?_⟩
    · rcases List.mem_cons.1 hd' with rfl | hd'
      · exact ⟨m, hne, fun x hx => by simp [hx], hspan⟩
      · obtain ⟨m', hne', hm', hspan'⟩ := hown d' hd'
        exact ⟨m', hne', fun x hx => by simp [hm' x hx], hspan'⟩
    · rw [List.countP_cons]
      rcases List.mem_append.1 ht with ht | ht
      · -- a token of this declaration, or the separator behind it
        have htm : t ∈ m := (List.mem_append.1 ht).resolve_right fun h => hsep (by
          rwa [List.mem_singleton.1 h])
        have hin : t.span ⊆ d.span := by
          rw [hspan]
          exact hm.cover_subset (m := [t]) (by simpa using htm) (by simp)
        have hnone : ds.countP (fun d => t.span ⊆ d.span) = 0 := by
          refine List.countP_eq_zero.2 fun d' hd' => ?_
          obtain ⟨m', hne', hm', hspan'⟩ := hown d' hd'
          rw [hspan']
          simpa using not_subset_later hF ht hm' hne'
        simp [hin, hnone]
      · have hout : ¬ t.span ⊆ d.span := by
          rw [hspan]
          exact not_subset_earlier hF ht (fun x hx => List.mem_append_left _ hx) hne
        simp [hout, hcount t ht hsep]
  | @decls_skip s ts ds hs _ ih =>
    obtain ⟨hown, hcount⟩ := ih hF.right
    refine ⟨fun d hd => ?_, fun t ht hsep => ?_⟩
    · obtain ⟨m, hne, hm, hspan⟩ := hown d hd
      exact ⟨m, hne, fun x hx => by simp [hm x hx], hspan⟩
    · have hts : t ∈ ts := (List.mem_append.1 ht).resolve_left fun h => hsep (by
        rwa [List.mem_singleton.1 h])
      exact hcount t hts hsep
  | _ => trivial

/-! ## Whole files -/

/-- A file splits into its header and its declarations, and each token behind the header other than
a separator lies in the span of one declaration. -/
theorem run_file_covers (bodies : Bodies) (ts : List (Spanned Token)) (finish : Span) :
    ∃ package imports decls s, front (State.start ts finish) = (some (package, imports), s) ∧
      (run Token.name (file bodies) ts finish).1 = some (package, imports, decls) ∧
      (∃ head, ts = head ++ s.rest ∧ Files bodies True head (package, imports, [])) ∧
      ∀ F, InOrder F ts → ∀ t ∈ s.rest, ¬ IsSeparator t →
        decls.countP (fun d => t.span ⊆ d.span) = 1 := by
  obtain ⟨⟨package, imports⟩, s, decls, t, hfront, hdecls, hrest, hrun⟩ := run_file bodies ts finish
  obtain ⟨head, hhead, hfiles⟩ := (front_derives bodies).ensures hfront
  obtain ⟨read, hread, hderives⟩ := (((declList_derives (decl_derives (expr_derives bodies True))
    endOfInput_closes).ensures trivial).ensures hdecls)
  have hs : s.rest = read := by rw [hread.rest_eq, hrest, List.append_nil]
  refine ⟨package, imports, decls, s, hfront, hrun, ⟨head, hhead.rest_eq, hfiles⟩,
    fun F hF t ht hsep => ?_⟩
  rw [hs] at ht
  have hts : ts = head ++ read := hs ▸ hhead.rest_eq
  exact (hderives.covers (hts ▸ hF).right).2 t ht hsep

/-- Every list of tokens is read as a file: a header, whose tokens are those of a file without
declarations, and declarations. A token after the header that is no separator lies in exactly one of
them. So it is for the tokens of every text, whose tree is made of what they are read as. -/
theorem file_covers :
    (∀ (bodies : Bodies) (ts : List (Spanned Token)) (finish : Span), ∃ package imports decls s,
      front (State.start ts finish) = (some (package, imports), s) ∧
      (run Token.name (file bodies) ts finish).1 = some (package, imports, decls) ∧
      (∃ head, ts = head ++ s.rest ∧ Files bodies True head (package, imports, [])) ∧
      ∀ F, InOrder F ts → ∀ t ∈ s.rest, ¬ IsSeparator t →
        decls.countP (fun d => t.span ⊆ d.span) = 1) ∧
    ∀ (F : FileId) (source : String), ∃ package imports decls s,
      front (State.start (Token.tokenize F 0 source.toList).1
        ⟨F, Text.byteLength source.toList, Text.byteLength source.toList⟩) =
          (some (package, imports), s) ∧
      (SourceTree.parse F source).1 =
        ⟨F, package, imports, decls, ⟨F, 0, Text.byteLength source.toList⟩⟩ ∧
      ∀ t ∈ s.rest, ¬ IsSeparator t → decls.countP (fun d => t.span ⊆ d.span) = 1 := by
  refine ⟨run_file_covers, fun F source => ?_⟩
  obtain ⟨package, imports, decls, s, hfront, hrun, -, hcount⟩ :=
    run_file_covers (body F source.toList source.toList.length) (Token.tokenize F 0 source.toList).1
      ⟨F, Text.byteLength source.toList, Text.byteLength source.toList⟩
  exact ⟨package, imports, decls, s, hfront, SourceTree.parse_eq hrun,
    hcount F (Token.tokenize_lined F 0 source.toList).toInOrder⟩

/-- An import group without its end is abandoned: all of its tokens are in declarations. -/
theorem file_covers_unclosed :
    let ts : List (Spanned Token) := [⟨.ident "import", ⟨0, 0, 6⟩⟩, ⟨.lparen, ⟨0, 7, 8⟩⟩,
      ⟨.rbrack, ⟨0, 9, 10⟩⟩, ⟨.comma, ⟨0, 11, 12⟩⟩, ⟨.rbrace, ⟨0, 13, 14⟩⟩]
    InOrder 0 ts ∧ ∃ package imports decls,
      (run Token.name (file fun p => (.bad p, [])) ts ⟨0, 14, 14⟩).1 = some (package, imports, decls) ∧
      ∀ t ∈ ts, ¬ IsSeparator t → decls.countP (fun d => t.span ⊆ d.span) = 1 := by
  intro ts
  have hF : InOrder 0 ts := ⟨by decide, by decide, by decide⟩
  obtain ⟨package, imports, decls, s, hfront, hrun, -, hcount⟩ :=
    file_covers.1 (fun p => (.bad p, [])) ts ⟨0, 14, 14⟩
  have hrest : s.rest = ts := by
    have hall : (front (State.start ts ⟨0, 14, 14⟩)).2.rest = ts := by decide +kernel
    rwa [hfront] at hall
  exact ⟨hF, package, imports, decls, hrun, hrest ▸ hcount 0 hF⟩

end Tree

end CueScope
