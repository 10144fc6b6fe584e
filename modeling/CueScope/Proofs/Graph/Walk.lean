import CueScope.Graph.Walk
import CueScope.Proofs.Graph.Arena

/-!
# What a walk visits

* `Call`, `Runs`: the callbacks that ran, each with where it let the walk go on.
* `Walked`: a walk that comes to an end, step by step and without a bound on its depth. `walk_walked`
  says that every walk is one: there is always depth enough, as only nodes of the graph and packages
  lead anywhere (`inner`).
* `Visits`: in such a walk a node is called back for once, and only if a start or a call before leads
  to it.
* `Complete`: the walk went wherever a call let it go on.
* `walk_spec`: so much for the walk from a node, whatever the visitor does.
* `mem_calls_iff`: where the visitor does not look at its state, the walk visits what can be reached.
-/

namespace CueScope.Graph

/-- A callback that ran for a node: what is below the node in the directions it allows, and whether
the walk may go up. -/
structure Call where
  node : NodeRef
  below : List NodeRef
  up : Bool

/-- Where a walk goes on after a callback. -/
def Call.next (g : Graph) (dir : Direction) (c : Call) : List NodeRef :=
  match dir with
  | .down => c.below
  | .up => if c.up then (g.parentRef? c.node).toList else []

/-- `g.Runs v s cs t`: from the state `s`, the callbacks `cs` one after the other lead to `t`. -/
inductive Runs {σ : Type} (g : Graph) (v : Visitor σ) : σ → List Call → σ → Prop
  | nil (s : σ) : Runs g v s [] s
  | cons {s t u : σ} {c : Call} {cs : List Call} :
      (g.callback v c.node).run s = ((c.below, c.up), t) → Runs g v t cs u →
      Runs g v s (c :: cs) u

/-- `g.Walked v dir todo seen s cs t`: from the state `s`, the visits of `todo`, one after the other,
make the calls `cs` and lead to `t`. Nodes in `seen` are passed over. Nothing bounds the depth, so
this holds only of visits that come to an end. -/
inductive Walked {σ : Type} (g : Graph) (v : Visitor σ) (dir : Direction) :
    List NodeRef → List NodeRef → σ → List Call → σ → Prop
  | done (seen : List NodeRef) (s : σ) : Walked g v dir [] seen s [] s
  | again {r : NodeRef} {todo seen : List NodeRef} {s t : σ} {cs : List Call} :
      r ∈ seen → Walked g v dir todo seen s cs t → Walked g v dir (r :: todo) seen s cs t
  | call {c : Call} {todo seen : List NodeRef} {s s₁ s₂ t : σ} {cs ds : List Call} :
      c.node ∉ seen → (g.callback v c.node).run s = ((c.below, c.up), s₁) →
      Walked g v dir (c.next g dir) (c.node :: seen) s₁ cs s₂ →
      Walked g v dir todo ((cs.map (·.node)).reverse ++ c.node :: seen) s₂ ds t →
      Walked g v dir (c.node :: todo) seen s (c :: (cs ++ ds)) t

/-- One of the calls leads from a node to another. -/
def Leads (g : Graph) (dir : Direction) (cs : List Call) (a b : NodeRef) : Prop :=
  ∃ c ∈ cs, c.node = a ∧ b ∈ c.next g dir

/-- The calls `cs` are those of a visit that begins with `starts`, after the nodes in `seen`. -/
structure Visits (g : Graph) (dir : Direction) (seen starts : List NodeRef) (cs : List Call) :
    Prop where
  nodup : (cs.map (·.node)).Nodup
  fresh : ∀ c ∈ cs, c.node ∉ seen
  reached : ∀ c ∈ cs, ∃ r ∈ starts, Relation.ReflTransGen (g.Leads dir cs) r c.node

/-- Nothing is left to visit: the starts and all that a call leads to were seen. -/
structure Complete (g : Graph) (dir : Direction) (seen starts : List NodeRef) (cs : List Call) :
    Prop where
  starts : ∀ r ∈ starts, r ∈ (cs.map (·.node)).reverse ++ seen
  closed : ∀ c ∈ cs, ∀ r ∈ c.next g dir, r ∈ (cs.map (·.node)).reverse ++ seen

variable {σ : Type} {g : Graph} {v : Visitor σ} {dir : Direction} {cs ds : List Call}
  {seen starts more todo : List NodeRef} {r a b : NodeRef} {s t u : σ}

theorem Runs.append (h : g.Runs v s cs t) (h' : g.Runs v t ds u) : g.Runs v s (cs ++ ds) u := by
  induction h with
  | nil => exact h'
  | cons hc _ ih => exact .cons hc (ih h')

/-- Each callback ran from some state to another. -/
theorem Runs.exists_run (h : g.Runs v s cs t) : ∀ c ∈ cs, ∃ s₁ s₂,
    (g.callback v c.node).run s₁ = ((c.below, c.up), s₂) := by
  induction h with
  | nil => simp
  | @cons s t u c cs hcall _ ih =>
    intro d hd
    rcases List.mem_cons.1 hd with rfl | hd
    · exact ⟨s, t, hcall⟩
    · exact ih d hd

/-- More calls lead at least as far. -/
theorem leads_mono (hsub : ∀ c ∈ cs, c ∈ ds) (h : Relation.ReflTransGen (g.Leads dir cs) a b) :
    Relation.ReflTransGen (g.Leads dir ds) a b := by
  induction h with
  | refl => exact .refl
  | tail _ hl ih =>
    obtain ⟨c, hc, hab⟩ := hl
    exact ih.tail ⟨c, hsub c hc, hab⟩

theorem Visits.nil : g.Visits dir seen starts [] := ⟨.nil, by simp, by simp⟩

/-- One start after the other. -/
theorem Visits.append (h : g.Visits dir seen starts cs)
    (h' : g.Visits dir ((cs.map (·.node)).reverse ++ seen) more ds) :
    g.Visits dir seen (starts ++ more) (cs ++ ds) := by
  refine ⟨?_, fun c hc => ?_, fun c hc => ?_⟩
  · rw [List.map_append]
    refine h.nodup.append h'.nodup fun n hn hn' => ?_
    obtain ⟨d, hd, rfl⟩ := List.mem_map.1 hn'
    exact h'.fresh d hd (List.mem_append_left _ (List.mem_reverse.2 hn))
  · rcases List.mem_append.1 hc with hc | hc
    · exact h.fresh c hc
    · exact fun hs => h'.fresh c hc (List.mem_append_right _ hs)
  · rcases List.mem_append.1 hc with hc | hc
    · obtain ⟨n, hn, hr⟩ := h.reached c hc
      exact ⟨n, List.mem_append_left _ hn, leads_mono (fun _ => List.mem_append_left _) hr⟩
    · obtain ⟨n, hn, hr⟩ := h'.reached c hc
      exact ⟨n, List.mem_append_right _ hn, leads_mono (fun _ => List.mem_append_right _) hr⟩

/-- A walk from some starts and then from others went wherever it could from all of them. -/
theorem Complete.append (h : g.Complete dir seen starts cs)
    (h' : g.Complete dir ((cs.map (·.node)).reverse ++ seen) more ds) :
    g.Complete dir seen (starts ++ more) (cs ++ ds) := by
  have hlater : ∀ {n}, n ∈ (cs.map (·.node)).reverse ++ seen →
      n ∈ ((cs ++ ds).map (·.node)).reverse ++ seen := by
    intro n hn
    rw [List.map_append, List.reverse_append, List.append_assoc]
    exact List.mem_append_right _ hn
  have hend : ((cs ++ ds).map (·.node)).reverse ++ seen =
      (ds.map (·.node)).reverse ++ ((cs.map (·.node)).reverse ++ seen) := by simp
  refine ⟨fun n hn => ?_, fun c hc n hn => ?_⟩
  · rcases List.mem_append.1 hn with hn | hn
    · exact hlater (h.starts n hn)
    · exact hend ▸ h'.starts n hn
  · rcases List.mem_append.1 hc with hc | hc
    · exact hlater (h.closed c hc n hn)
    · exact hend ▸ h'.closed c hc n hn

/-- A node that was not seen, and then all that its call leads to. -/
theorem Visits.cons {c : Call} (hnew : c.node ∉ seen)
    (h : g.Visits dir (c.node :: seen) (c.next g dir) cs) :
    g.Visits dir seen [c.node] (c :: cs) := by
  refine ⟨?_, ?_, ?_⟩
  · rw [List.map_cons, List.nodup_cons]
    refine ⟨fun hmem => ?_, h.nodup⟩
    obtain ⟨d, hd, heq⟩ := List.mem_map.1 hmem
    exact h.fresh d hd (heq ▸ List.mem_cons_self)
  · intro d hd
    rcases List.mem_cons.1 hd with rfl | hd
    · exact hnew
    · exact fun hs => h.fresh d hd (List.mem_cons_of_mem _ hs)
  · intro d hd
    refine ⟨c.node, List.mem_singleton_self _, ?_⟩
    rcases List.mem_cons.1 hd with rfl | hd
    · exact .refl
    · obtain ⟨n, hn, hr⟩ := h.reached d hd
      exact .head ⟨c, List.mem_cons_self, rfl, hn⟩
        (leads_mono (fun _ => List.mem_cons_of_mem _) hr)

theorem Complete.cons {c : Call} (h : g.Complete dir (c.node :: seen) (c.next g dir) cs) :
    g.Complete dir seen [c.node] (c :: cs) := by
  have hend : ((c :: cs).map (·.node)).reverse ++ seen =
      (cs.map (·.node)).reverse ++ (c.node :: seen) := by simp
  refine ⟨fun n hn => ?_, fun d hd n hn => ?_⟩ <;> rw [hend]
  · rw [List.mem_singleton.1 hn]
    exact List.mem_append_right _ List.mem_cons_self
  · rcases List.mem_cons.1 hd with rfl | hd
    · exact h.starts n hn
    · exact h.closed d hd n hn

/-! ## Walks that come to an end -/

/-- Visits end in one way only. -/
theorem Walked.unique (h : g.Walked v dir todo seen s cs t) (h' : g.Walked v dir todo seen s ds u) :
    cs = ds ∧ t = u := by
  induction h generalizing ds u with
  | done seen s =>
    cases h'
    exact ⟨rfl, rfl⟩
  | again hr _ ih =>
    cases h' with
    | again _ h' => exact ih h'
    | call hnew => exact absurd hr hnew
  | @call c todo seen s s₁ s₂ t cs ds hnew hcall _ _ ih₁ ih₂ =>
    obtain ⟨n, below, up⟩ := c
    cases h' with
    | again hr => exact absurd hr hnew
    | @call c' _ _ _ s₁' s₂' _ cs' ds' _ hcall' h₁ h₂ =>
      obtain ⟨n', below', up'⟩ := c'
      cases hcall.symm.trans hcall'
      obtain ⟨rfl, rfl⟩ := ih₁ h₁
      obtain ⟨rfl, rfl⟩ := ih₂ h₂
      exact ⟨rfl, rfl⟩

/-- Visits one after the other. -/
theorem Walked.append (h : g.Walked v dir todo seen s cs t)
    (h' : g.Walked v dir more ((cs.map (·.node)).reverse ++ seen) t ds u) :
    g.Walked v dir (todo ++ more) seen s (cs ++ ds) u := by
  induction h with
  | done seen s => exact h'
  | again hr _ ih => exact .again hr (ih h')
  | call hnew hcall h₁ _ _ ih₂ =>
    have hwalked := Walked.call hnew hcall h₁ (ih₂ (by simpa using h'))
    rwa [← List.append_assoc] at hwalked

theorem Walked.runs (h : g.Walked v dir todo seen s cs t) : g.Runs v s cs t := by
  induction h with
  | done seen s => exact .nil s
  | again _ _ ih => exact ih
  | call _ hcall _ _ ih₁ ih₂ => exact .cons hcall (ih₁.append ih₂)

/-- By induction on the walk, each call is the first one for its node and something led to it. -/
theorem Walked.visits (h : g.Walked v dir todo seen s cs t) : g.Visits dir seen todo cs := by
  induction h with
  | done seen s => exact .nil
  | again _ _ ih =>
    refine ⟨ih.nodup, ih.fresh, fun c hc => ?_⟩
    obtain ⟨n, hn, hr⟩ := ih.reached c hc
    exact ⟨n, List.mem_cons_of_mem _ hn, hr⟩
  | call hnew _ _ _ ih₁ ih₂ =>
    refine Visits.append (.cons hnew ih₁) ?_
    simpa using ih₂

/-- By induction on the walk, it went wherever a call let it go on. -/
theorem Walked.complete (h : g.Walked v dir todo seen s cs t) : g.Complete dir seen todo cs := by
  induction h with
  | done seen s => exact ⟨by simp, by simp⟩
  | again hr _ ih =>
    refine ⟨fun n hn => ?_, ih.closed⟩
    rcases List.mem_cons.1 hn with rfl | hn
    · exact List.mem_append_right _ hr
    · exact ih.starts n hn
  | call _ _ _ _ ih₁ ih₂ =>
    refine Complete.append (.cons ih₁) ?_
    simpa using ih₂

/-! ## Depth enough -/

/-- The nodes that a callback may lead on from. -/
def inner (g : Graph) : List NodeRef :=
  (List.range g.size).map .node ++ Catalog.packages.map (.package ·.id)

/-- A call that leads somewhere is for one of them. -/
theorem mem_inner {c : Call} (hc : (g.callback v c.node).run s = ((c.below, c.up), t))
    (hne : c.next g dir ≠ []) : c.node ∈ g.inner := by
  have hpair : ((g.callback v c.node).run s).1 = (c.below, c.up) := congrArg (·.1) hc
  obtain ⟨n, below, up⟩ := c
  dsimp only at hpair ⊢
  by_contra hout
  have hleaf : (below, up) = ([], false) := by
    rw [← hpair]
    unfold callback
    cases n with
    | type | member => rfl
    | package path =>
      have hnone : Catalog.package? path = none := by
        rw [Catalog.package?, List.find?_eq_none]
        intro p hp hid
        refine hout (List.mem_append_right _ (List.mem_map.2 ⟨p, hp, ?_⟩))
        rw [of_decide_eq_true hid]
      simp [hnone]
      rfl
    | node id =>
      have hnone : g.kind? id = none := by
        refine Option.eq_none_iff_forall_ne_some.2 fun k hk => hout (List.mem_append_left _ ?_)
        exact List.mem_map_of_mem (List.mem_range.2 (lt_size_of_kind? hk))
      simp only [hnone]
      rfl
  cases hleaf
  cases dir <;> exact hne rfl

/-- Number of nodes that lead somewhere and were not seen yet. -/
def unseen (g : Graph) (seen : List NodeRef) : Nat := g.inner.countP (· ∉ seen)

theorem unseen_mono (h : ∀ n ∈ seen, n ∈ more) : g.unseen more ≤ g.unseen seen :=
  List.countP_mono_left fun n _ hn => by
    simp only [decide_eq_true_eq] at hn ⊢
    exact fun hs => hn (h n hs)

/-- A node that is visited for the first time is one less to come. -/
theorem unseen_lt (hr : r ∈ g.inner) (hnew : r ∉ seen) : g.unseen (r :: seen) < g.unseen seen := by
  obtain ⟨as, bs, hsplit⟩ := List.append_of_mem hr
  have hle : ∀ l : List NodeRef, l.countP (· ∉ r :: seen) ≤ l.countP (· ∉ seen) := fun l =>
    List.countP_mono_left fun n _ hn => by
      simp only [decide_eq_true_eq] at hn ⊢
      exact fun hs => hn (List.mem_cons_of_mem r hs)
  have has := hle as
  have hbs := hle bs
  unfold unseen
  rw [hsplit, List.countP_append, List.countP_append, List.countP_cons, List.countP_cons]
  simp only [List.mem_cons, true_or, not_true_eq_false, decide_false, hnew, not_false_eq_true,
    decide_true, Bool.false_eq_true, if_false, if_true] at has hbs ⊢
  omega

/-- A walk starts with depth enough. -/
theorem unseen_nil_le (g : Graph) : g.unseen [] ≤ g.size + builtinCount := by
  refine Nat.le_trans List.countP_le_length ?_
  rw [inner, List.length_append, List.length_map, List.length_map, List.length_range]
  refine Nat.add_le_add_left ?_ _
  decide +kernel

/-! ## Visits -/

/-- With depth enough, a visit comes to an end as if nothing bounded the depth. -/
theorem visit_walked (v : Visitor σ) (dir : Direction) {depth : Nat} {seen : List NodeRef}
    (r : NodeRef) (s : σ) (hdepth : g.unseen seen < depth) :
    ∃ cs t, (g.visit v dir depth seen r).run s = ((cs.map (·.node)).reverse ++ seen, t) ∧
      g.Walked v dir [r] seen s cs t := by
  induction depth generalizing seen r s with
  | zero => exact absurd hdepth (Nat.not_lt_zero _)
  | succ depth ih =>
    -- the nodes that a call leads to, one after the other; no depth is needed where there are none
    have hall : ∀ (todo seen : List NodeRef) (s : σ), (todo ≠ [] → g.unseen seen < depth) →
        ∃ cs t, (todo.foldlM (g.visit v dir depth) seen).run s =
          ((cs.map (·.node)).reverse ++ seen, t) ∧ g.Walked v dir todo seen s cs t := by
      intro todo
      induction todo with
      | nil => exact fun seen s _ => ⟨[], s, rfl, .done seen s⟩
      | cons n todo ihs =>
        intro seen s hdepth
        obtain ⟨cs, t, hrun, hwalked⟩ := ih n s (hdepth (List.cons_ne_nil _ _))
        obtain ⟨ds, u, hrun', hwalked'⟩ := ihs ((cs.map (·.node)).reverse ++ seen) t fun _ =>
          Nat.lt_of_le_of_lt (unseen_mono fun _ => List.mem_append_right _)
            (hdepth (List.cons_ne_nil _ _))
        refine ⟨cs ++ ds, u, ?_, hwalked.append hwalked'⟩
        rw [List.foldlM_cons, StateT.run_bind, hrun]
        refine hrun'.trans ?_
        simp
    unfold visit
    split
    · rename_i hseen
      exact ⟨[], s, rfl, .again hseen (.done seen s)⟩
    · rename_i hnew
      rw [StateT.run_bind]
      obtain ⟨⟨⟨below, up⟩, t⟩, hcall⟩ : ∃ p, (g.callback v r).run s = p := ⟨_, rfl⟩
      let c : Call := ⟨r, below, up⟩
      obtain ⟨cs, u, hrun, hwalked⟩ := hall (c.next g dir) (r :: seen) t fun hne =>
        Nat.lt_of_lt_of_le (unseen_lt (mem_inner (c := c) hcall hne) hnew)
          (Nat.le_of_lt_succ hdepth)
      refine ⟨c :: cs, u, ?_, ?_⟩
      · rw [hcall]
        refine Eq.trans ?_ (hrun.trans ?_)
        · cases dir <;> rfl
        · simp [c]
      · have := Walked.call (c := c) hnew hcall hwalked (.done _ u)
        rwa [List.append_nil] at this

/-- Every walk comes to an end. -/
theorem walk_walked (g : Graph) (v : Visitor σ) (start : NodeRef) (dir : Direction) (s : σ) :
    ∃ cs, g.Walked v dir [start] [] s cs ((g.walk v start dir).run s).2 := by
  have hdepth : g.unseen [] < g.size + builtinCount + 2 := by
    have := g.unseen_nil_le
    omega
  obtain ⟨cs, t, hrun, hwalked⟩ := visit_walked v dir start s hdepth
  have hend : ((g.walk v start dir).run s).2 = t := by
    rw [walk, StateT.run_bind, hrun]
    rfl
  exact ⟨cs, hend ▸ hwalked⟩

/-- What a walk does: it calls back for every node once that it was let go on to. -/
theorem walk_spec (g : Graph) (v : Visitor σ) (start : NodeRef) (dir : Direction) (s : σ) :
    ∃ cs, g.Runs v s cs ((g.walk v start dir).run s).2 ∧ g.Visits dir [] [start] cs ∧
      g.Complete dir [] [start] cs := by
  obtain ⟨cs, hwalked⟩ := g.walk_walked v start dir s
  exact ⟨cs, hwalked.runs, hwalked.visits, hwalked.complete⟩

/-- Where calls lead from a node as `R` says, a walk visits what can be reached that way. -/
theorem mem_calls_iff {R : NodeRef → NodeRef → Prop} (hv : g.Visits dir [] [r] cs)
    (hc : g.Complete dir [] [r] cs) (hnext : ∀ c ∈ cs, ∀ b, b ∈ c.next g dir ↔ R c.node b) :
    a ∈ cs.map (·.node) ↔ Relation.ReflTransGen R r a := by
  constructor
  · intro ha
    obtain ⟨c, hmem, rfl⟩ := List.mem_map.1 ha
    obtain ⟨n, hn, hr⟩ := hv.reached c hmem
    obtain rfl := List.mem_singleton.1 hn
    clear hmem
    generalize c.node = m at hr ⊢
    induction hr with
    | refl => exact .refl
    | tail _ hl ih =>
      obtain ⟨d, hd, rfl, hy⟩ := hl
      exact ih.tail ((hnext d hd _).1 hy)
  · intro h
    induction h with
    | refl => simpa using hc.starts r (List.mem_singleton_self r)
    | tail _ hb ih =>
      obtain ⟨c, hmem, rfl⟩ := List.mem_map.1 ih
      simpa using hc.closed c hmem _ ((hnext c hmem _).2 hb)

end CueScope.Graph
