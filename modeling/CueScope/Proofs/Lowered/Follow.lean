import CueScope.Proofs.Lowered.Smallest

/-!
# Paths of labels

* `Linked.scope_of_parent`: the scope of a cursor is the nearest field that it is below.
* `Descent`: fields one below the other with the labels of a path, the first of them below a cursor.
* `Linked.mem_descents`, `Linked.nodup_descents`, `Linked.map_follow`: following a path gives the last
  field of every descent, once for each.
* `lowerTrees_follow`: so it does in every lowered graph. The fields are then given once, and the labels
  of the path are those of the fields nearest around them, exactly if no descent skips a field.
  `follow_skips` is a graph where descents do.
-/

namespace CueScope.Lowered

namespace CursorTree

variable {t : CursorTree} {f : Feature} {path : List Feature} {id c g p x : Nat} {gs hs : List Nat}

/-! ## Scopes -/

theorem scope_of_top (hx : t.parent? x = none) : t.scope x = x := by
  have hnone : ∀ n : Nat, ancestors.go t n x = [] := by
    intro n
    cases n with
    | zero => rfl
    | succ n => simp [ancestors.go, hx]
  simp [scope, ancestors, hnone]

theorem lt_size_of_label (hx : (t.fieldLabel? x).isSome) : x < t.graph.size := by
  unfold fieldLabel? kind? at hx
  by_contra hge
  have hnone : t.graph.nodes[x]? = none := Array.getElem?_eq_none (Nat.not_lt.1 hge)
  simp [hnone] at hx

namespace Linked

variable (h : t.Linked)

include h

theorem scope_of_parent (hp : t.parent? x = some p) :
    t.scope x = if (t.fieldLabel? p).isSome then p else t.scope p := by
  unfold scope
  rw [h.ancestors_of_parent hp]
  simp only [List.find?_cons, List.getLastD_cons]
  cases (t.fieldLabel? p).isSome <;> rfl

/-- A node is in the tree of its scope. -/
theorem under_scope (x : Nat) : t.Under x (t.scope x) := by
  -- upwards: what is left of the way to the root gets shorter
  obtain ⟨k, hk⟩ : ∃ k : Nat, x + k ≥ t.root := ⟨t.root, Nat.le_add_left _ _⟩
  induction k generalizing x with
  | zero =>
    have htop : t.parent? x = none := h.parent?_eq_none hk
    rw [scope_of_top htop]
    exact .refl
  | succ k ih =>
    cases hp : t.parent? x with
    | none => rw [scope_of_top hp]; exact .refl
    | some p =>
      have hlt := h.ranked hp
      rw [h.scope_of_parent hp]
      split
      · exact .single hp
      · exact .head hp (ih p (by omega))

/-- A cursor is strictly below the field that is its scope. -/
theorem lt_scope (hroot : t.fieldLabel? t.root = none) (hg : (t.fieldLabel? (t.scope x)).isSome) :
    x < t.scope x := by
  cases hp : t.parent? x with
  | none =>
    rw [scope_of_top hp] at hg
    have hx : x < t.graph.size := lt_size_of_label hg
    have hx' := h.last
    have hnot : ¬ x < t.root := by rw [← h.parent?_isSome, hp]; simp
    obtain rfl : x = t.root := by omega
    simp [hroot] at hg
  | some p =>
    have hlt := h.ranked hp
    rw [h.scope_of_parent hp]
    split
    · exact hlt
    · exact Nat.lt_of_lt_of_le hlt (h.le_of_under (h.under_scope p))

end Linked

/-! ## Descents -/

namespace Linked

variable (h : t.Linked)

include h

theorem postOrder_of_ge (hid : t.graph.size ≤ id) :
    t.postOrder id = [id] ∧ ∀ v : Nat, t.parent? v ≠ some id := by
  have hbelow : t.below id = [] := by
    have hnone : t.graph.children id = [] := Graph.children_of_le hid
    simp [below, kids, hnone]
  have hlast := h.last
  refine ⟨?_, fun v hv => by simpa [hbelow] using h.mem_below.2 hv⟩
  obtain ⟨n, hn⟩ : ∃ n, 2 * t.graph.size + 1 = n + 2 := ⟨2 * t.root + 1, by omega⟩
  have hend : t.unwind n [] [id] = [] := by cases n <;> rfl
  rw [postOrder, hn]
  simp [unwind, h.children_eq, hbelow, hend]

theorem mem_fieldsOf : x ∈ t.fieldsOf id f ↔ t.Under x id ∧ t.fieldLabel? x = some f := by
  rw [fieldsOf, List.mem_filter, decide_eq_true_iff]
  refine and_congr_left fun _ => ?_
  rcases Nat.lt_or_ge id t.graph.size with hid | hid
  · rw [h.mem_postOrder hid]
  · obtain ⟨horder, hnone⟩ := h.postOrder_of_ge hid
    rw [horder, under_iff, List.mem_singleton]
    simp [hnone]

theorem nodup_fieldsOf : (t.fieldsOf id f).Nodup := by
  refine List.Nodup.filter _ ?_
  rcases Nat.lt_or_ge id t.graph.size with hid | hid
  · rw [h.postOrder_eq hid]
    exact h.nodup_order hid
  · rw [(h.postOrder_of_ge hid).1]
    exact List.nodup_singleton _

/-- A cursor strictly below another one is at or below a child of it. -/
theorem strictly_under_iff : t.Under x g ∧ x ≠ g ↔ ∃ v, t.parent? v = some g ∧ t.Under x v := by
  constructor
  · rintro ⟨hx, hne⟩
    exact (under_iff.1 hx).resolve_left hne
  · rintro ⟨v, hv, hx⟩
    refine ⟨hx.tail hv, ?_⟩
    rintro rfl
    have hle := h.le_of_under hx
    have hlt := h.ranked hv
    omega

end Linked

/-! ## Descents -/

/-- Fields with the labels of a path, each strictly below the one before, the first of them at or
below `id`. -/
structure Descent (t : CursorTree) (id : Nat) (path : List Feature) (gs : List Nat) : Prop where
  ne_nil : path ≠ []
  labels : gs.map t.fieldLabel? = path.map some
  start : ∀ g ∈ gs.head?, t.Under g id
  inward : gs.IsChain fun g g' => t.Under g' g ∧ g' ≠ g

/-- The descents below a cursor, in the order in which their fields are met. -/
def descents (t : CursorTree) : List Feature → Nat → List (List Nat)
  | [], _ => []
  | [f], id => (t.fieldsOf id f).map ([·])
  | f :: f' :: fs, id => (t.fieldsOf id f).flatMap fun g =>
      (t.children g).flatMap fun v => (t.descents (f' :: fs) v).map (g :: ·)

theorem Descent.exists_cons (hgs : t.Descent id path gs) : ∃ g hs, gs = g :: hs := by
  refine List.exists_cons_of_ne_nil fun hnil => hgs.ne_nil ?_
  have hlabels := hgs.labels
  rw [hnil] at hlabels
  exact List.map_eq_nil_iff.1 hlabels.symm

theorem descent_singleton :
    t.Descent id [f] gs ↔ ∃ g, gs = [g] ∧ t.Under g id ∧ t.fieldLabel? g = some f := by
  constructor
  · rintro ⟨-, hlabels, hstart, -⟩
    obtain ⟨g, rfl⟩ := List.length_eq_one_iff.1 (by simpa using congrArg List.length hlabels)
    exact ⟨g, rfl, hstart g rfl, by simpa using hlabels⟩
  · rintro ⟨g, rfl, hg, hf⟩
    exact ⟨by simp, by simp [hf], by simpa using hg, List.isChain_singleton _⟩

namespace Linked

variable (h : t.Linked)

include h

/-- A descent along a path is a step for its first feature and a descent for the rest of it. -/
theorem descent_cons {f' : Feature} {fs : List Feature} : t.Descent id (f :: f' :: fs) gs ↔
    ∃ g v hs, gs = g :: hs ∧ (t.Under g id ∧ t.fieldLabel? g = some f) ∧ t.parent? v = some g ∧
      t.Descent v (f' :: fs) hs := by
  constructor
  · intro hgs
    obtain ⟨g, hs, rfl⟩ := hgs.exists_cons
    obtain ⟨hf, hlabels⟩ := List.cons.inj hgs.labels
    obtain ⟨g', hs, rfl⟩ : ∃ g' l, hs = g' :: l := by
      cases hs with
      | nil => simp at hlabels
      | cons g' l => exact ⟨g', l, rfl⟩
    obtain ⟨hnext, hinward⟩ := List.isChain_cons_cons.1 hgs.inward
    obtain ⟨v, hv, hunder⟩ := h.strictly_under_iff.1 hnext
    exact ⟨g, v, g' :: hs, rfl, ⟨hgs.start g rfl, hf⟩, hv,
      by simp, hlabels, by simpa using hunder, hinward⟩
  · rintro ⟨g, v, hs, rfl, ⟨hg, hf⟩, hv, hhs⟩
    obtain ⟨g', hs, rfl⟩ := hhs.exists_cons
    have hnext := h.strictly_under_iff.2 ⟨v, hv, hhs.start g' rfl⟩
    exact ⟨by simp, by rw [List.map_cons, hf, hhs.labels]; rfl, by simpa using hg,
      List.isChain_cons_cons.2 ⟨hnext, hhs.inward⟩⟩

theorem mem_descents : gs ∈ t.descents path id ↔ t.Descent id path gs := by
  induction path generalizing id gs with
  | nil => exact ⟨fun hgs => absurd hgs List.not_mem_nil, fun hgs => absurd rfl hgs.ne_nil⟩
  | cons f fs ih =>
    cases fs with
    | nil =>
      rw [descent_singleton, descents, List.mem_map]
      refine exists_congr fun g => ?_
      rw [h.mem_fieldsOf, and_comm, eq_comm]
    | cons f' fs =>
      rw [h.descent_cons]
      simp only [descents, List.mem_flatMap, List.mem_map, h.mem_fieldsOf, h.children_eq,
        h.mem_below, ih]
      constructor
      · rintro ⟨g, hg, v, hv, hs, hhs, rfl⟩
        exact ⟨g, v, hs, rfl, hg, hv, hhs⟩
      · rintro ⟨g, v, hs, rfl, hg, hv, hhs⟩
        exact ⟨g, hg, v, hv, hs, hhs, rfl⟩

/-- Different descents part at some node, and the trees of siblings are apart. -/
theorem nodup_descents : (t.descents path id).Nodup := by
  induction path generalizing id with
  | nil => exact List.nodup_nil
  | cons f fs ih =>
    cases fs with
    | nil => exact h.nodup_fieldsOf.map fun _ _ heq => (List.cons.inj heq).1
    | cons f' fs =>
      refine List.nodup_flatMap.2 ⟨fun g _ => List.nodup_flatMap.2 ⟨fun v _ => ?_, ?_⟩, ?_⟩
      · exact ih.map fun _ _ heq => (List.cons.inj heq).2
      · -- the second field of a descent is below one child of the first only
        rw [h.children_eq]
        refine nodup_below.imp_of_mem fun {v w} hv hw hne gs hgv hgw => hne ?_
        obtain ⟨hs, hhs, rfl⟩ := List.mem_map.1 hgv
        obtain ⟨hs', hhs', heq⟩ := List.mem_map.1 hgw
        obtain rfl := (List.cons.inj heq).2
        rw [h.mem_descents] at hhs hhs'
        obtain ⟨g', l, rfl⟩ := hhs.exists_cons
        exact h.eq_of_under (h.mem_below.1 hv) (h.mem_below.1 hw) (hhs.start g' rfl)
          (hhs'.start g' rfl)
      · refine h.nodup_fieldsOf.imp fun {g g'} hne gs hg hg' => hne ?_
        obtain ⟨v, -, hgs⟩ := List.mem_flatMap.1 hg
        obtain ⟨v', -, hgs'⟩ := List.mem_flatMap.1 hg'
        obtain ⟨hs, -, rfl⟩ := List.mem_map.1 hgs
        obtain ⟨hs', -, heq⟩ := List.mem_map.1 hgs'
        exact (List.cons.inj heq).1.symm

/-- Following a path gives the last field of every descent. -/
theorem map_follow (path : List Feature) (id : Nat) :
    (t.follow path id).map some = (t.descents path id).map (·.getLast?) := by
  induction path generalizing id with
  | nil => rfl
  | cons f fs ih =>
    cases fs with
    | nil => simp [follow, descents]
    | cons f' fs =>
      simp only [follow, descents, List.map_flatMap, List.map_map]
      refine List.flatMap_congr fun g _ => List.flatMap_congr fun v _ => ?_
      rw [ih]
      refine List.map_congr_left fun gs hgs => ?_
      obtain ⟨x, l, rfl⟩ := (h.mem_descents.1 hgs).exists_cons
      simp

theorem mem_follow : g ∈ t.follow path id ↔ ∃ gs, t.Descent id path gs ∧ gs.getLast? = some g := by
  have hsome : g ∈ t.follow path id ↔ some g ∈ (t.follow path id).map some := by simp
  simp only [hsome, h.map_follow, List.mem_map, h.mem_descents]

end Linked

/-! ## Descents that skip no field -/

/-- Each field is the scope of the one after it. -/
def Direct (t : CursorTree) (gs : List Nat) : Prop := gs.IsChain fun g g' => t.scope g' = g

/-- Going out from a field from scope to scope leads through one row of fields. -/
theorem Direct.unique (hgs : t.Direct gs) (hhs : t.Direct hs) (hlength : gs.length = hs.length)
    (hlast : gs.getLast? = hs.getLast?) : gs = hs := by
  induction gs using List.reverseRecOn generalizing hs with
  | nil => exact (List.length_eq_zero_iff.1 hlength.symm).symm
  | append_singleton gs g ih =>
    rw [List.getLast?_concat] at hlast
    obtain ⟨hs, rfl⟩ := List.getLast?_eq_some_iff.1 hlast.symm
    obtain ⟨hgs, -, hg⟩ := List.isChain_append.1 hgs
    obtain ⟨hhs, -, hh⟩ := List.isChain_append.1 hhs
    have hlength : gs.length = hs.length := by simpa using hlength
    refine congrArg (· ++ [g]) (ih hgs hhs hlength ?_)
    -- before the last field comes its scope, if anything does
    cases hx : gs.getLast? with
    | none =>
      rw [List.getLast?_eq_none_iff] at hx
      subst hx
      rw [List.length_eq_zero_iff.1 hlength.symm]
      rfl
    | some x =>
      cases hy : hs.getLast? with
      | none =>
        rw [List.getLast?_eq_none_iff] at hy
        subst hy
        simp [List.length_eq_zero_iff.1 hlength] at hx
      | some y => rw [← hg x hx g rfl, ← hh y hy g rfl]

/-- The labels of a path are those of the field and of the fields nearest around it, one in the other,
the outermost at or below `id`. -/
def Spells (t : CursorTree) (id : Nat) (path : List Feature) (g : Nat) : Prop :=
  ∃ gs, t.Direct gs ∧ gs.map t.fieldLabel? = path.map some ∧ gs.getLast? = some g ∧
    ∀ x ∈ gs.head?, t.Under x id

namespace Linked

variable (h : t.Linked)

include h

theorem descent_of_direct (hroot : t.fieldLabel? t.root = none) (hpath : path ≠ []) (hgs : t.Direct gs)
    (hlabels : gs.map t.fieldLabel? = path.map some) (hstart : ∀ x ∈ gs.head?, t.Under x id) :
    t.Descent id path gs := by
  refine ⟨hpath, hlabels, hstart, hgs.imp_of_mem_imp fun {x y} hx _ hscope => ?_⟩
  have hfield : (t.fieldLabel? x).isSome := by
    obtain ⟨f, -, hf⟩ := List.mem_map.1 (hlabels ▸ List.mem_map_of_mem hx)
    simp [← hf]
  subst hscope
  exact ⟨h.under_scope y, Nat.ne_of_lt (h.lt_scope hroot hfield)⟩

/-- The fields are given once and spell the path exactly if no descent skips a field. -/
theorem follow_spells_iff (hroot : t.fieldLabel? t.root = none) :
    ((t.follow path id).Nodup ∧ ∀ g ∈ t.follow path id, t.Spells id path g) ↔
      ∀ gs, t.Descent id path gs → t.Direct gs := by
  constructor
  · rintro ⟨hnodup, hspells⟩ gs hgs
    obtain ⟨g, hlast⟩ : ∃ g, gs.getLast? = some g := by
      obtain ⟨x, l, rfl⟩ := hgs.exists_cons
      exact ⟨_, List.getLast?_eq_some_getLast (List.cons_ne_nil x l)⟩
    obtain ⟨hs, hdirect, hlabels, hlast', hstart⟩ := hspells g (h.mem_follow.2 ⟨gs, hgs, hlast⟩)
    have hhs := h.descent_of_direct hroot hgs.ne_nil hdirect hlabels hstart
    -- the field is given once, so it has one descent
    have hmap := hnodup.map (f := some) fun _ _ => Option.some.inj
    rw [h.map_follow] at hmap
    have heq := List.inj_on_of_nodup_map hmap (h.mem_descents.2 hgs) (h.mem_descents.2 hhs)
      (hlast.trans hlast'.symm)
    exact heq ▸ hdirect
  · intro hdirect
    refine ⟨.of_map some ?_, fun g hg => ?_⟩
    · rw [h.map_follow]
      refine h.nodup_descents.map_on fun gs hgs hs hhs hlast => ?_
      rw [h.mem_descents] at hgs hhs
      have hlength : gs.length = hs.length := by
        simpa using congrArg List.length (hgs.labels.trans hhs.labels.symm)
      exact (hdirect gs hgs).unique (hdirect hs hhs) hlength hlast
    · obtain ⟨gs, hgs, hlast⟩ := h.mem_follow.1 hg
      exact ⟨gs, hdirect gs hgs, hgs.labels, hlast, hgs.start⟩

end Linked

end CursorTree

/-- The root of a lowered graph is no field. -/
theorem fieldLabel?_root (trees : List SourceTree) (labels : LabelIndex) {t : CursorTree}
    (hgraph : t.graph = (lowerTrees trees labels).1) (hroot : t.root = (lowerTrees trees labels).2.1) :
    t.fieldLabel? t.root = none := by
  obtain ⟨ids, e, -, hroot', hgraph'⟩ := lowerTrees_runs trees labels
  have hnode : ∃ source, t.graph.nodes[t.root]? = some ⟨.struct ids, source⟩ := by
    rw [hgraph, hroot, hroot', hgraph', Graph.getElem?_push, if_pos rfl]
    exact ⟨_, rfl⟩
  obtain ⟨source, hnode⟩ := hnode
  simp [CursorTree.fieldLabel?, CursorTree.kind?, hnode]

/-- In a lowered graph a path of labels leads to the last field of each of its descents, once for each.
The fields are given once and spell the path, with no other field in between, exactly if no descent
skips a field. -/
theorem lowerTrees_follow (trees : List SourceTree) (labels : LabelIndex) (id : Nat)
    (path : List Feature) :
    let (graph, root, _) := lowerTrees trees labels
    let cursors := CursorTree.ofGraph graph root
    (∃ descents : List (List Nat), descents.Nodup ∧
      (∀ gs, gs ∈ descents ↔ cursors.Descent id path gs) ∧
      (cursors.follow path id).map some = descents.map (·.getLast?)) ∧
    (((cursors.follow path id).Nodup ∧ ∀ g ∈ cursors.follow path id, cursors.Spells id path g) ↔
      ∀ gs, cursors.Descent id path gs → cursors.Direct gs) := by
  obtain ⟨hlinked, hgraph, hroot⟩ := CursorTree.ofGraph_linked (lowerTrees_rooted trees labels)
  exact ⟨⟨_, hlinked.nodup_descents, fun gs => hlinked.mem_descents, hlinked.map_follow path id⟩,
    hlinked.follow_spells_iff (fieldLabel?_root trees labels hgraph hroot)⟩

/-- The cursors of a text where a field has a field of its own label inside, and another one beside
that. -/
def repeated : CursorTree :=
  let (graph, root, _) :=
    lowerTrees [(SourceTree.parse 0 "a: \x7ba: \x7bb: 1\x7d, c: \x7bb: 2\x7d\x7d").1] .empty
  .ofGraph graph root

/-- The path `a.b` (labels 1 and 2) leads to the inner `b` of `a` twice, and to the `b` of `c`, whose
nearest field is no `a`. -/
theorem follow_skips :
    let found := repeated.follow [1, 2] repeated.root
    ¬ found.Nodup ∧ ¬ ∀ g ∈ found, repeated.Spells repeated.root [1, 2] g := by
  have hfound : repeated.follow [1, 2] repeated.root = [1, 1, 5] := by decide +kernel
  have hscope : repeated.scope 5 = 7 ∧ repeated.fieldLabel? 7 = some 3 := by decide +kernel
  dsimp only
  rw [hfound]
  refine ⟨by decide, fun hspells => ?_⟩
  obtain ⟨gs, hdirect, hlabels, hlast, -⟩ := hspells 5 (by simp)
  obtain ⟨gs, rfl⟩ := List.getLast?_eq_some_iff.1 hlast
  obtain ⟨g, rfl⟩ : ∃ g, gs = [g] := by
    rw [← List.length_eq_one_iff]
    simpa using congrArg List.length hlabels
  have hg : repeated.scope 5 = g := (List.isChain_cons_cons.1 hdirect).1
  have hlabel : repeated.fieldLabel? g = some 1 := (List.cons.inj hlabels).1
  rw [← hg, hscope.1, hscope.2] at hlabel
  cases hlabel

end CueScope.Lowered
