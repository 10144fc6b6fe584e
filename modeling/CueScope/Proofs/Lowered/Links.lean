import CueScope.Lowered.Cursor
import CueScope.Proofs.Lowered.Rooted
import Mathlib.Data.List.Induction

/-!
# Links of cursors

* `Wired t listed`: the links of `t` are those of rows of cursors, where `listed p` has the children
  of the node `p` that have been looked at so far.
* `Wired.begin`, `Wired.attach`: a step of building a tree keeps them so.
* `create_made`: below a new cursor all children of all nodes have been looked at.
* `ofGraph_wired`: so the row below a cursor has the node's children in order, each where it first
  occurs, without those that are below another node.
-/

namespace CueScope.Lowered

namespace CursorTree

variable {t : CursorTree} {id p c : Nat}

/-! ## Reading links -/

@[simp] theorem graph_modify (f : Link → Link) : (t.modify id f).graph = t.graph := rfl

@[simp] theorem root_modify (f : Link → Link) : (t.modify id f).root = t.root := rfl

@[simp] theorem size_links_modify (f : Link → Link) : (t.modify id f).links.size = t.links.size := by
  simp [modify]

theorem link?_modify (f : Link → Link) (x : Nat) :
    (t.modify id f).link? x = if x = id then (t.link? x).map f else t.link? x := by
  simp only [modify, link?, Array.getElem?_modify, eq_comm (a := id)]
  split
  · cases t.links[x]? <;> rfl
  · rfl

theorem link?_enter (h : id < t.links.size) (x : Nat) :
    (t.enter id).link? x = if x = id then some {} else t.link? x := by
  simp only [enter, link?, Array.getElem?_modify, eq_comm (a := id)]
  split
  · next heq => simp [heq, h]
  · rfl

theorem isSome_link?_of_parent? (h : t.parent? c = some p) : (t.link? c).isSome := by
  obtain ⟨l, hl, -⟩ := Option.bind_eq_some_iff.1 h
  simp [hl]

/-- A part of a link after a change. -/
theorem bind_link?_modify {α : Type} (f : Link → Link) (g : Link → Option α) (x : Nat) :
    ((t.modify id f).link? x).bind g =
      if x = id then (t.link? x).bind (fun l => g (f l)) else (t.link? x).bind g := by
  rw [link?_modify]
  split
  · cases t.link? x <;> rfl
  · rfl

theorem bind_some_of_isSome {α β : Type} {o : Option α} (h : o.isSome) (b : β) :
    (o.bind fun _ => some b) = some b := by
  obtain ⟨a, rfl⟩ := Option.isSome_iff_exists.1 h
  rfl

section Append

@[simp] theorem graph_append : (t.append p c).graph = t.graph := by
  unfold append
  split <;> rfl

@[simp] theorem root_append : (t.append p c).root = t.root := by
  unfold append
  split <;> rfl

@[simp] theorem size_links_append : (t.append p c).links.size = t.links.size := by
  unfold append
  split <;> simp

theorem isSome_link?_append (x : Nat) : ((t.append p c).link? x).isSome = (t.link? x).isSome := by
  unfold append
  split <;> simp only [link?_modify] <;> split_ifs <;> simp

variable (hp : (t.link? p).isSome) (hc : (t.link? c).isSome) (x : Nat)

include hc in
theorem parent?_append : (t.append p c).parent? x = if x = c then some p else t.parent? x := by
  unfold append parent?
  split <;> simp only [bind_link?_modify, ite_self] <;>
    split_ifs <;> simp_all [bind_some_of_isSome]

include hp in
theorem first?_append :
    (t.append p c).first? x = if x = p ∧ t.last? p = none then some c else t.first? x := by
  unfold append first?
  split <;> simp only [bind_link?_modify, ite_self] <;>
    split_ifs <;> simp_all [bind_some_of_isSome]

include hp in
theorem last?_append : (t.append p c).last? x = if x = p then some c else t.last? x := by
  unfold append
  split <;> simp only [bind_link?_modify, ite_self, last?] <;>
    split_ifs <;> simp_all [bind_some_of_isSome]

theorem next?_append (hlast : ∀ l, t.last? p = some l → (t.link? l).isSome) :
    (t.append p c).next? x = if t.last? p = some x then some c else t.next? x := by
  unfold append next?
  split <;> simp only [bind_link?_modify, ite_self] <;>
    split_ifs <;> simp_all [bind_some_of_isSome]

include hc in
theorem previous?_append (hnew : t.previous? c = none) :
    (t.append p c).previous? x = if x = c then t.last? p else t.previous? x := by
  unfold append previous? at *
  split <;> simp only [bind_link?_modify, ite_self] <;>
    split_ifs <;> simp_all [bind_some_of_isSome]

end Append

/-! ## Wired trees -/

/-- The children of `p` among those listed, each where it is listed first. -/
def kids (t : CursorTree) (listed : Nat → List Nat) (p : Nat) : List Nat :=
  (listed p).eraseDups.filter (t.parent? · = some p)

/-- The links are those of the rows of `kids`, and each of the nodes listed is below some node. -/
structure Wired (t : CursorTree) (listed : Nat → List Nat) : Prop where
  parented : ∀ {p c : Nat}, c ∈ listed p → (t.link? p).isSome ∧ (t.parent? c).isSome
  listed_of_parent : ∀ {p c : Nat}, t.parent? c = some p → c ∈ listed p
  first : ∀ p : Nat, t.first? p = (t.kids listed p).head?
  last : ∀ p : Nat, t.last? p = (t.kids listed p).getLast?
  row : ∀ {p c : Nat} {pre post : List Nat}, t.kids listed p = pre ++ c :: post →
    t.next? c = post.head? ∧ t.previous? c = pre.getLast?
  loose : ∀ {c : Nat}, t.parent? c = none → t.next? c = none ∧ t.previous? c = none

theorem eraseDups_concat (l : List Nat) (c : Nat) :
    (l ++ [c]).eraseDups = if c ∈ l then l.eraseDups else l.eraseDups ++ [c] := by
  rw [List.eraseDups_append]
  split <;> simp_all [List.removeAll, List.eraseDups_cons]

theorem nodup_eraseDups (l : List Nat) : l.eraseDups.Nodup := by
  induction l using List.reverseRecOn with
  | nil => simp
  | append_singleton l c ih =>
    rw [eraseDups_concat]
    split
    · exact ih
    · next hc => exact ih.append (List.nodup_singleton c) (by simpa using hc)

variable {listed : Nat → List Nat}

theorem mem_kids : c ∈ t.kids listed p ↔ c ∈ listed p ∧ t.parent? c = some p := by
  simp [kids]

theorem nodup_kids : (t.kids listed p).Nodup := (nodup_eraseDups _).filter _

theorem Wired.mem_kids_iff (h : t.Wired listed) : c ∈ t.kids listed p ↔ t.parent? c = some p :=
  mem_kids.trans (and_iff_right_of_imp h.listed_of_parent)

theorem mem_update_append {q x : Nat} :
    x ∈ Function.update listed p (listed p ++ [c]) q ↔ x ∈ listed q ∨ q = p ∧ x = c := by
  by_cases hq : q = p
  · subst hq
    simp
  · simp [hq]

/-- One more child of `p` is looked at that is below some node already. -/
theorem Wired.skip (h : t.Wired listed) (hp : (t.link? p).isSome) (hc : (t.parent? c).isSome) :
    t.Wired (Function.update listed p (listed p ++ [c])) := by
  have hkids : t.kids (Function.update listed p (listed p ++ [c])) = t.kids listed := by
    funext q
    by_cases hq : q = p
    · subst hq
      simp only [kids, Function.update_self, eraseDups_concat]
      split
      · rfl
      · next hnot =>
        have hne : t.parent? c ≠ some q := fun heq => hnot (h.listed_of_parent heq)
        simp [hne]
    · simp [kids, Function.update_of_ne hq]
  exact {
    parented := fun {q x} hx => by
      rcases mem_update_append.1 hx with hx | ⟨rfl, rfl⟩
      · exact h.parented hx
      · exact ⟨hp, hc⟩
    listed_of_parent := fun {q x} hx => by
      have hmem := h.mem_kids_iff.2 hx
      rw [← hkids] at hmem
      exact (mem_kids.1 hmem).1
    first := hkids ▸ h.first
    last := hkids ▸ h.last
    row := hkids ▸ h.row
    loose := h.loose }

/-- A node without a parent is appended behind the children of another one, and no other list
changes. -/
theorem kids_append (h : t.Wired listed) (hc : (t.link? c).isSome) (hnone : t.parent? c = none) :
    (t.append p c).kids (Function.update listed p (listed p ++ [c])) =
      Function.update (t.kids listed) p (t.kids listed p ++ [c]) := by
  have hne : ∀ {q x : Nat}, x ∈ listed q → x ≠ c := by
    rintro q x hx rfl
    simpa [hnone] using (h.parented hx).2
  have hfilter : ∀ q r : Nat, (listed q).eraseDups.filter ((t.append p c).parent? · = some r) =
      (listed q).eraseDups.filter (t.parent? · = some r) := by
    intro q r
    refine List.filter_congr fun x hx => ?_
    rw [parent?_append hc, if_neg (hne (List.mem_eraseDups.1 hx))]
  funext q
  by_cases hq : q = p
  · subst hq
    simp only [kids, Function.update_self]
    rw [eraseDups_concat, if_neg fun hmem => hne hmem rfl, List.filter_append, hfilter]
    simp [parent?_append hc]
  · simp only [kids, Function.update_of_ne hq]
    exact hfilter q q

theorem Wired.parent?_of_last? (h : t.Wired listed) {l : Nat} (hl : t.last? p = some l) :
    t.parent? l = some p :=
  h.mem_kids_iff.1 (List.mem_of_getLast? (h.last p ▸ hl))

/-- The row below `p` when one more cursor is put at its end. -/
theorem Wired.row_append_self (h : t.Wired listed) (hc : (t.link? c).isSome)
    (hnone : t.parent? c = none) {x : Nat} {pre post : List Nat}
    (hrow : t.kids listed p ++ [c] = pre ++ x :: post) :
    (t.append p c).next? x = post.head? ∧ (t.append p c).previous? x = pre.getLast? := by
  have hlinked : ∀ l, t.last? p = some l → (t.link? l).isSome := fun l hl =>
    isSome_link?_of_parent? (h.parent?_of_last? hl)
  obtain ⟨hnext, hprevious⟩ := h.loose hnone
  rw [next?_append x hlinked, previous?_append hc x hprevious, h.last p]
  rcases List.eq_nil_or_concat post with rfl | ⟨post, y, rfl⟩
  · -- the new cursor stands last
    obtain ⟨rfl, hxc⟩ := List.append_inj' hrow rfl
    obtain rfl : c = x := by simpa using hxc
    have hnot : (t.kids listed p).getLast? ≠ some c := fun hl => by
      simp [h.parent?_of_last? (h.last p ▸ hl)] at hnone
    rw [if_neg hnot, if_pos rfl]
    exact ⟨hnext, rfl⟩
  · rw [List.concat_eq_append, ← List.cons_append, ← List.append_assoc] at hrow
    obtain ⟨hold, hyc⟩ := List.append_inj' hrow rfl
    obtain rfl : c = y := by simpa using hyc
    have hx : t.parent? x = some p := h.mem_kids_iff.1 (by simp [hold])
    have hne : x ≠ c := fun heq => by simp [heq, hnone] at hx
    obtain ⟨hxnext, hxprevious⟩ := h.row hold
    rw [if_neg hne, hold]
    refine ⟨?_, hxprevious⟩
    rcases List.eq_nil_or_concat post with rfl | ⟨post, z, rfl⟩
    · simp
    · have hzx : z ≠ x := fun heq => by
        have hnodup : (t.kids listed p).Nodup := nodup_kids
        rw [hold] at hnodup
        simp [heq, List.nodup_append] at hnodup
      have hend : (pre ++ x :: post.concat z).getLast? = some z := by
        rw [List.concat_eq_append, ← List.cons_append, ← List.append_assoc, List.getLast?_concat]
      rw [hend, if_neg (by simpa using hzx), hxnext]
      simp

/-- Other rows stay as they are. -/
theorem Wired.row_append_other (h : t.Wired listed) (hc : (t.link? c).isSome)
    (hnone : t.parent? c = none) {q x : Nat} (hq : q ≠ p) {pre post : List Nat}
    (hrow : t.kids listed q = pre ++ x :: post) :
    (t.append p c).next? x = post.head? ∧ (t.append p c).previous? x = pre.getLast? := by
  have hlinked : ∀ l, t.last? p = some l → (t.link? l).isSome := fun l hl =>
    isSome_link?_of_parent? (h.parent?_of_last? hl)
  have hx : t.parent? x = some q := h.mem_kids_iff.1 (by simp [hrow])
  have hne : x ≠ c := fun heq => by simp [heq, hnone] at hx
  have hnot : t.last? p ≠ some x := fun hl =>
    hq (Option.some.inj (hx.symm.trans (h.parent?_of_last? hl)))
  rw [next?_append x hlinked, previous?_append hc x (h.loose hnone).2, if_neg hnot, if_neg hne]
  exact h.row hrow

/-- One more child of `p` is put below it. -/
theorem Wired.append (h : t.Wired listed) (hp : (t.link? p).isSome) (hc : (t.link? c).isSome)
    (hnone : t.parent? c = none) :
    (t.append p c).Wired (Function.update listed p (listed p ++ [c])) := by
  have hkids := kids_append (p := p) h hc hnone
  constructor
  case parented =>
    intro q x hx
    rw [isSome_link?_append, parent?_append hc]
    rcases mem_update_append.1 hx with hx | ⟨rfl, rfl⟩
    · refine ⟨(h.parented hx).1, ?_⟩
      split
      · rfl
      · exact (h.parented hx).2
    · simpa using hp
  case listed_of_parent =>
    intro q x hx
    rw [parent?_append hc] at hx
    refine mem_update_append.2 ?_
    split at hx
    · next heq => exact .inr ⟨(Option.some.inj hx).symm, heq⟩
    · exact .inl (h.listed_of_parent hx)
  case first =>
    intro q
    rw [first?_append hp, hkids, h.last]
    by_cases hq : q = p
    · subst hq
      rw [Function.update_self, h.first]
      cases t.kids listed q <;> simp
    · rw [if_neg (by simp [hq]), Function.update_of_ne hq, h.first]
  case last =>
    intro q
    rw [last?_append hp, hkids]
    by_cases hq : q = p
    · simp [hq]
    · rw [if_neg hq, Function.update_of_ne hq, h.last]
  case row =>
    intro q x pre post hrow
    rw [hkids] at hrow
    by_cases hq : q = p
    · subst hq
      rw [Function.update_self] at hrow
      exact h.row_append_self hc hnone hrow
    · rw [Function.update_of_ne hq] at hrow
      exact h.row_append_other hc hnone hq hrow
  case loose =>
    intro x hx
    rw [parent?_append hc] at hx
    split at hx
    · cases hx
    · next hne =>
      have hnot : t.last? p ≠ some x := fun hl => by simp [h.parent?_of_last? hl] at hx
      rw [next?_append x fun l hl => isSome_link?_of_parent? (h.parent?_of_last? hl),
        previous?_append hc x (h.loose hnone).2, if_neg hne, if_neg hnot]
      exact h.loose hx

/-- A new cursor has no links. -/
theorem bind_link?_enter {α : Type} (hid : t.link? id = none) (hlt : id < t.links.size)
    {f : Link → Option α} (hf : f {} = none) (x : Nat) :
    ((t.enter id).link? x).bind f = (t.link? x).bind f := by
  rw [link?_enter hlt]
  split
  · next heq => simp [heq, hid, hf]
  · rfl

/-- A new cursor stands alone. -/
theorem Wired.enter (h : t.Wired listed) (hid : t.link? id = none) (hlt : id < t.links.size) :
    (t.enter id).Wired listed := by
  have hparent : (t.enter id).parent? = t.parent? := funext (bind_link?_enter hid hlt rfl)
  have hfirst : (t.enter id).first? = t.first? := funext (bind_link?_enter hid hlt rfl)
  have hlast : (t.enter id).last? = t.last? := funext (bind_link?_enter hid hlt rfl)
  have hnext : (t.enter id).next? = t.next? := funext (bind_link?_enter hid hlt rfl)
  have hprevious : (t.enter id).previous? = t.previous? := funext (bind_link?_enter hid hlt rfl)
  have hkids : (t.enter id).kids listed = t.kids listed := by
    funext p
    simp only [kids, hparent]
  refine ⟨fun {p c} hc => ?_, hparent ▸ h.listed_of_parent, ?_, ?_, ?_, ?_⟩
  · rw [link?_enter hlt, hparent]
    refine ⟨?_, (h.parented hc).2⟩
    split
    · rfl
    · exact (h.parented hc).1
  · rw [hfirst, hkids]
    exact h.first
  · rw [hlast, hkids]
    exact h.last
  · rw [hkids, hnext, hprevious]
    exact h.row
  · rw [hparent, hnext, hprevious]
    exact h.loose

/-! ## Building a tree -/

/-- All that comes of making a cursor for `id` in `t` and looking at the children `cs` of it: the
cursors of `t` are as they were, and the new ones below `id` are done. -/
structure Made (t : CursorTree) (listed : Nat → List Nat) (id : Nat) (cs : List Nat)
    (t' : CursorTree) (listed' : Nat → List Nat) : Prop where
  wired : t'.Wired listed'
  graph : t'.graph = t.graph
  root : t'.root = t.root
  size : t'.links.size = t.links.size
  old : ∀ x : Nat, (t.link? x).isSome →
    (t'.link? x).isSome ∧ t'.parent? x = t.parent? x ∧ listed' x = listed x
  here : (t'.link? id).isSome ∧ t'.parent? id = none ∧ listed' id = cs
  new : ∀ x : Nat, (t'.link? x).isSome → t.link? x = none → x ≠ id →
    (t'.parent? x).isSome ∧ listed' x = t.graph.children x

/-- Each cursor whose node comes before `id` is below some node. -/
def Settled (t : CursorTree) (id : Nat) : Prop :=
  ∀ x : Nat, (t.link? x).isSome → x < id → (t.parent? x).isSome

variable {t' t'' : CursorTree} {listed' listed'' : Nat → List Nat} {cs : List Nat}

/-- Entering a node makes a cursor without parent or children. -/
theorem Made.enter (h : t.Wired listed) (hid : t.link? id = none) (hlt : id < t.links.size) :
    Made t listed id [] (t.enter id) listed := by
  have hparent : (t.enter id).parent? = t.parent? := funext (bind_link?_enter hid hlt rfl)
  refine ⟨h.enter hid hlt, rfl, rfl, by simp [CursorTree.enter], fun x hx => ?_, ?_,
    fun x hx hnone hne => ?_⟩
  · rw [link?_enter hlt, hparent]
    split <;> simp [hx]
  · rw [link?_enter hlt, if_pos rfl, hparent]
    refine ⟨rfl, by simp [parent?, hid], List.eq_nil_iff_forall_not_mem.2 fun c hc => ?_⟩
    simpa [hid] using (h.parented hc).1
  · rw [link?_enter hlt, if_neg hne, hnone] at hx
    simp at hx

theorem Made.settled (h : Made t listed id cs t' listed') (hsettled : t.Settled id) :
    t'.Settled id := by
  intro x hx hlt
  cases hold : (t.link? x).isSome with
  | true =>
    rw [(h.old x hold).2.1]
    exact hsettled x hold hlt
  | false => exact (h.new x hx (by simpa using hold) (Nat.ne_of_lt hlt)).1

/-- The child just looked at was below some node already. -/
theorem Made.skip (h : Made t listed id cs t' listed') (hid : t.link? id = none)
    (hc : (t'.parent? c).isSome) :
    Made t listed id (cs ++ [c]) t' (Function.update listed' id (listed' id ++ [c])) := by
  refine { h with
    wired := h.wired.skip h.here.1 hc
    old := fun x hx => ?_
    here := ?_
    new := fun x hx hnone hne => ?_ }
  · have hne : x ≠ id := fun heq => by simp [heq, hid] at hx
    rw [Function.update_of_ne hne]
    exact h.old x hx
  · rw [Function.update_self, h.here.2.2]
    exact ⟨h.here.1, h.here.2.1, rfl⟩
  · rw [Function.update_of_ne hne]
    exact h.new x hx hnone hne

/-- The child just looked at got its cursor then, and is put below the node. -/
theorem Made.append (h : Made t listed id cs t' listed') (hid : t.link? id = none)
    (hc : t'.link? c = none) (h' : Made t' listed' c (t.graph.children c) t'' listed'') :
    Made t listed id (cs ++ [c]) (t''.append id c)
      (Function.update listed'' id (listed'' id ++ [c])) := by
  obtain ⟨hlink, hparent, hlisted⟩ := h'.old id h.here.1
  have hcid : c ≠ id := fun heq => by
    have := h.here.1
    simp [← heq, hc] at this
  have hold : ∀ x : Nat, (t'.link? x).isSome → x ≠ c := fun x hx heq => by simp [heq, hc] at hx
  refine ⟨h'.wired.append hlink h'.here.1 h'.here.2.1, ?_, ?_, ?_, fun x hx => ?_, ?_,
    fun x hx hnone hne => ?_⟩
  · rw [graph_append, h'.graph, h.graph]
  · rw [root_append, h'.root, h.root]
  · rw [size_links_append, h'.size, h.size]
  · obtain ⟨hx₁, hparent₁, hlisted₁⟩ := h.old x hx
    obtain ⟨hx₂, hparent₂, hlisted₂⟩ := h'.old x hx₁
    have hne : x ≠ id := fun heq => by simp [heq, hid] at hx
    rw [isSome_link?_append, parent?_append h'.here.1, if_neg (hold x hx₁),
      Function.update_of_ne hne, hparent₂, hlisted₂]
    exact ⟨hx₂, hparent₁, hlisted₁⟩
  · rw [isSome_link?_append, parent?_append h'.here.1, if_neg hcid.symm, Function.update_self,
      hlisted, h.here.2.2, hparent]
    exact ⟨hlink, h.here.2.1, rfl⟩
  · rw [isSome_link?_append] at hx
    rw [parent?_append h'.here.1, Function.update_of_ne hne]
    by_cases hxc : x = c
    · subst hxc
      simp [h'.here.2.2]
    · rw [if_neg hxc]
      cases hx' : (t'.link? x).isSome with
      | true =>
        obtain ⟨-, hparent₂, hlisted₂⟩ := h'.old x hx'
        rw [hparent₂, hlisted₂]
        exact h.new x hx' hnone hne
      | false =>
        rw [← h.graph]
        exact h'.new x hx (by simpa using hx') hxc

theorem attach_of_parent (h : (t.parent? c).isSome) : t.attach p c = t :=
  if_pos (.inr (.inr h))

theorem attach_of_none (hroot : c ≠ t.root) (hne : c ≠ p) (h : t.parent? c = none) :
    t.attach p c = t.append p c :=
  if_neg (by simp [hroot, hne, h])

/-- One more child is looked at; `hcreate` is what making its cursor comes to. -/
theorem Made.next (h : Made t listed id cs t' listed') (hid : t.link? id = none)
    (hroot : id ≤ t.root) (hsettled : t.Settled id) {n : Nat} (hn : n ≠ 0) (hc : c < id)
    (hcreate : t'.link? c = none →
      ∃ listed'', Made t' listed' c (t.graph.children c) (create n t' c) listed'') :
    ∃ listed'', Made t listed id (cs ++ [c]) ((create n t' c).attach id c) listed'' := by
  obtain ⟨n, rfl⟩ := Nat.exists_eq_succ_of_ne_zero hn
  cases hlink : t'.link? c with
  | some l =>
    have hparent : (t'.parent? c).isSome := h.settled hsettled c (by simp [hlink]) hc
    have hcreate : create (n + 1) t' c = t' := by simp [create, hlink]
    rw [hcreate, attach_of_parent hparent]
    exact ⟨_, h.skip hid hparent⟩
  | none =>
    obtain ⟨listed'', h'⟩ := hcreate hlink
    rw [attach_of_none ?_ (Nat.ne_of_lt hc) h'.here.2.1]
    · exact ⟨_, h.append hid hlink h'⟩
    · rw [h'.root, h.root]
      omega

/-- What one child comes to, all of them come to one after the other. -/
theorem Made.foldl (step : CursorTree → Nat → CursorTree)
    (hnext : ∀ {cs : List Nat} {t' : CursorTree} {listed' : Nat → List Nat} {c : Nat},
      Made t listed id cs t' listed' → c < id →
        ∃ listed'', Made t listed id (cs ++ [c]) (step t' c) listed'')
    (h : Made t listed id cs t' listed') (rest : List Nat) (hrest : ∀ c ∈ rest, c < id) :
    ∃ listed'', Made t listed id (cs ++ rest) (rest.foldl step t') listed'' := by
  induction rest generalizing cs t' listed' with
  | nil => exact ⟨listed', by simpa using h⟩
  | cons c rest ih =>
    obtain ⟨listed'', h'⟩ := hnext h (hrest c List.mem_cons_self)
    rw [List.foldl_cons, List.append_cons]
    exact ih h' fun x hx => hrest x (List.mem_cons_of_mem _ hx)

/-- Making a cursor looks at all children of its node and of the nodes new below it. -/
theorem create_made {g : Graph} (hranked : ∀ {p c : Nat}, c ∈ g.children p → c < p) (n : Nat)
    (hg : t.graph = g) (hwired : t.Wired listed) (hn : id < n) (hroot : id ≤ t.root)
    (hid : t.link? id = none) (hsize : id < t.links.size) (hsettled : t.Settled id) :
    ∃ listed', Made t listed id (g.children id) (create n t id) listed' := by
  induction n generalizing t id listed with
  | zero => omega
  | succ n ih =>
    subst hg
    obtain ⟨listed', h⟩ := Made.foldl (fun t child => (create n t child).attach id child)
      (fun {cs t' listed' c} h hc => by
        refine h.next hid hroot hsettled (by omega) hc fun hnone => ?_
        refine ih h.graph h.wired (by omega) ?_ hnone ?_ fun x hx hxc =>
          h.settled hsettled x hx (by omega)
        · rw [h.root]
          omega
        · rw [h.size]
          omega)
      (.enter hwired hid hsize) (t.graph.children id) fun c hc => hranked hc
    refine ⟨listed', ?_⟩
    simpa [create, hid] using h

/-! ## The tree of a rooted graph -/

/-- Every node has a cursor, every cursor but the root a parent, which comes after it, and the
links are those of the rows of children. -/
structure Linked (t : CursorTree) : Prop where
  wired : t.Wired t.graph.children
  links_size : t.links.size = t.graph.size
  last : t.graph.size = t.root + 1
  link?_isSome : ∀ id : Nat, (t.link? id).isSome ↔ id < t.graph.size
  parent?_isSome : ∀ id : Nat, (t.parent? id).isSome ↔ id < t.root
  ranked : ∀ {p c : Nat}, t.parent? c = some p → c < p

/-- A tree without cursors. -/
theorem Wired.none (h : ∀ id : Nat, t.link? id = none) : t.Wired fun _ => [] where
  parented hc := absurd hc List.not_mem_nil
  listed_of_parent hc := by simp [parent?, h] at hc
  first p := by simp [first?, h, kids]
  last p := by simp [last?, h, kids]
  row hrow := by simp [kids] at hrow
  loose _ := by simp [next?, previous?, h]

/-- A tree made from nothing from the root of a graph has cursors for all that is below it. -/
theorem Made.linked {g : Graph} {root : Nat} (h : Made t (fun _ => []) root (g.children root) t' listed')
    (hg : g.Rooted root) (hgraph : t.graph = g) (hroot : t.root = root)
    (hsize : t.links.size = g.size) (hnone : ∀ id : Nat, t.link? id = none) : t'.Linked := by
  subst hgraph hroot
  have hlast := hg.last
  have hlt : ∀ {id : Nat}, (t'.link? id).isSome → id < t.graph.size := by
    intro id hid
    rw [← hsize, ← h.size]
    by_contra hle
    simp [link?, Array.getElem?_eq_none (Nat.le_of_not_lt hle)] at hid
  have hlisted : ∀ {id : Nat}, (t'.link? id).isSome → listed' id = t.graph.children id := by
    intro id hid
    by_cases hroot : id = t.root
    · rw [hroot, h.here.2.2]
    · exact (h.new id hid (hnone id) hroot).2
  -- from the root down, since every other node is below one that comes after it
  have hlinked : ∀ k id : Nat, id + k = t.root → (t'.link? id).isSome := by
    intro k
    induction k using Nat.strongRecOn with
    | ind k ih =>
      intro id hid
      by_cases hroot : id = t.root
      · rw [hroot]
        exact h.here.1
      · obtain ⟨p, hp⟩ := hg.placed id (by omega)
        have hpid := hg.ranked hp
        have hpsize := Graph.lt_of_mem_children hp
        have hlink := ih (t.root - p) (by omega) p (by omega)
        rw [← hlisted hlink] at hp
        obtain ⟨q, hq⟩ := Option.isSome_iff_exists.1 (h.wired.parented hp).2
        exact isSome_link?_of_parent? hq
  have hall : ∀ id : Nat, (t'.link? id).isSome ↔ id < t.graph.size := fun id =>
    ⟨hlt, fun hid => hlinked (t.root - id) id (by omega)⟩
  have heq : listed' = t.graph.children := by
    funext id
    by_cases hid : id < t.graph.size
    · exact hlisted ((hall id).2 hid)
    · rw [Graph.children_of_le (Nat.le_of_not_lt hid)]
      refine List.eq_nil_iff_forall_not_mem.2 fun c hc => hid ?_
      exact hlt (h.wired.parented hc).1
  have hwired := h.wired
  rw [heq, ← h.graph] at hwired
  refine ⟨hwired, by rw [h.size, h.graph, hsize], by rw [h.graph, h.root, hlast], by rw [h.graph]; exact hall, fun id => ?_,
    fun {p c} hc => ?_⟩
  · rw [h.root]
    constructor
    · intro hid
      obtain ⟨p, hp⟩ := Option.isSome_iff_exists.1 hid
      have hne : id ≠ t.root := fun heq => by simp [heq, h.here.2.1] at hp
      have := hlt (isSome_link?_of_parent? hp)
      omega
    · intro hid
      exact (h.new id ((hall id).2 (by omega)) (hnone id) (Nat.ne_of_lt hid)).1
  · have hmem := hwired.listed_of_parent hc
    rw [h.graph] at hmem
    exact hg.ranked hmem

theorem ofGraph_linked {g : Graph} {root : Nat} (hg : g.Rooted root) :
    (ofGraph g root).Linked ∧ (ofGraph g root).graph = g ∧ (ofGraph g root).root = root := by
  have hlast := hg.last
  have hnone : ∀ id : Nat, link? ⟨g, root, Array.replicate g.size none⟩ id = none := by
    intro id
    simp only [link?, Array.getElem?_replicate]
    split <;> rfl
  obtain ⟨listed, h⟩ : ∃ listed, Made ⟨g, root, Array.replicate g.size none⟩ (fun _ => []) root
      (g.children root) (ofGraph g root) listed :=
    create_made hg.ranked (g.size + 1) rfl (.none hnone) (by omega) (Nat.le_refl _) (hnone root)
      (by simp [hlast]) fun x hx => by simp [hnone] at hx
  exact ⟨h.linked hg rfl rfl (by simp) hnone, h.graph, h.root⟩

end CursorTree

end CueScope.Lowered
