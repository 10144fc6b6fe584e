import CueScope.Graph.Build
import Mathlib.Data.List.Nodup

/-!
# The imports of a file

The imports of a file are bound one after the other.

* `Instances.aim?`: what an import can be bound to, or why it cannot.
* `importTarget_eq_ok`, `importTarget_eq_error`: where the path of an import leads.
* `bindings`, `accounts`: the names that are bound, and the problem with each import if there is one.
* `filter_problems`: where all imports start at different places, the problem with an import is the
  only one there.
-/

namespace CueScope

/-- The problem is one with an import. -/
def Problem.isImport : Problem → Bool
  | .importNotFound .. | .importCollision .. | .importCycle .. => true
  | _ => false

/-- The problem starts at a place. -/
def Problem.startsAt (p : Problem) (pos : Pos) : Bool := p.place.pos? = some pos

/-- The name an import is bound under; none if its path cannot be read. -/
def ImportSpec.name? (spec : ImportSpec) : Option String :=
  spec.path?.map fun path => spec.alias?.elim (ImportPath.defaultAlias path) (·.name)

namespace Instances

/-- What an import can be bound to, or why it cannot; none if its path cannot be read. -/
def aim? (i : Instances) (importer : InstanceId) (progress : List (InstanceId × Progress))
    (spec : ImportSpec) : Option (Except Problem NodeRef) :=
  spec.path?.map (Compile.importTarget i importer progress spec.span)

/-- What an import can be bound to. -/
def target? (i : Instances) (importer : InstanceId) (progress : List (InstanceId × Progress))
    (spec : ImportSpec) : Option NodeRef :=
  (i.aim? importer progress spec).bind (·.toOption)

/-- What an import binds after those in `bound`. -/
def binding? (i : Instances) (importer : InstanceId) (progress : List (InstanceId × Progress))
    (bound : List (String × NodeRef)) (spec : ImportSpec) : Option (String × NodeRef) :=
  spec.name?.bind fun name =>
    (i.target? importer progress spec).bind fun r =>
      if (bound.lookup name).isSome then none else some (name, r)

/-- The problem with an import after those in `bound`. -/
def fault? (i : Instances) (importer : InstanceId) (progress : List (InstanceId × Progress))
    (bound : List (String × NodeRef)) (spec : ImportSpec) : Option Problem :=
  (i.aim? importer progress spec).bind fun
    | .error p => some p
    | .ok _ => (spec.name?.filter fun name => (bound.lookup name).isSome).map
        (.importCollision spec.span.pos)

/-- What several imports bind, added to `bound`. -/
def bindings (i : Instances) (importer : InstanceId) (progress : List (InstanceId × Progress))
    (bound : List (String × NodeRef)) : List ImportSpec → List (String × NodeRef)
  | [] => bound
  | spec :: specs =>
    bindings i importer progress (bound ++ (i.binding? importer progress bound spec).toList) specs

/-- Several imports, each with the problem with it, after those in `bound`. -/
def accounts (i : Instances) (importer : InstanceId) (progress : List (InstanceId × Progress))
    (bound : List (String × NodeRef)) : List ImportSpec → List (ImportSpec × Option Problem)
  | [] => []
  | spec :: specs =>
    (spec, i.fault? importer progress bound spec) ::
      accounts i importer progress (bound ++ (i.binding? importer progress bound spec).toList) specs

variable {i : Instances} {importer : InstanceId} {progress : List (InstanceId × Progress)}
  {bound : List (String × NodeRef)} {spec : ImportSpec} {specs more : List ImportSpec}
  {name : String} {r : NodeRef} {p : Problem}

/-! ## Where a path leads -/

/-- A path that leads somewhere names a builtin package, or an instance that is done. -/
theorem importTarget_eq_ok {path : String} {span : Span}
    (h : Compile.importTarget i importer progress span path = .ok r) :
    (∃ b, Catalog.package? path = some b ∧ r = .package b.id) ∨
      Catalog.package? path = none ∧ ∃ t q, i.lookup? importer path = some t ∧
        progress.lookup t = some (.done q) ∧ r = .node q := by
  unfold Compile.importTarget at h
  split at h
  · rename_i b hb
    cases h
    exact .inl ⟨b, hb, rfl⟩
  · rename_i hno
    split at h
    · cases h
    · rename_i t ht
      split at h
      · rename_i q hq
        cases h
        exact .inr ⟨hno, t, q, ht, hq, rfl⟩
      · cases h

/-- A path that leads nowhere names nothing, or an instance that is not done. -/
theorem importTarget_eq_error {path : String} {span : Span}
    (h : Compile.importTarget i importer progress span path = .error p) :
    Catalog.package? path = none ∧
      (i.lookup? importer path = none ∧ p = .importNotFound span path ∨
        ∃ t, i.lookup? importer path = some t ∧ (∀ q, progress.lookup t ≠ some (.done q)) ∧
          p = .importCycle span ((i.get? t).elim path (·.display))) := by
  unfold Compile.importTarget at h
  split at h
  · cases h
  · rename_i hno
    refine ⟨hno, ?_⟩
    split at h
    · rename_i ht
      cases h
      exact .inl ⟨ht, rfl⟩
    · rename_i t ht
      split at h
      · cases h
      · rename_i hq
        cases h
        exact .inr ⟨t, ht, hq, rfl⟩

/-! ## What is bound -/

/-- An import is bound exactly if it has a name that is still free and leads somewhere. -/
theorem binding?_eq_some : i.binding? importer progress bound spec = some (name, r) ↔
    spec.name? = some name ∧ i.target? importer progress spec = some r ∧
      bound.lookup name = none := by
  unfold binding?
  cases spec.name? with
  | none => simp
  | some n =>
    cases i.target? importer progress spec with
    | none => simp
    | some t =>
      simp only [Option.bind_some, Option.some.injEq]
      cases hb : bound.lookup n with
      | none =>
        simp only [Option.isSome_none, Bool.false_eq_true, if_false, Option.some.injEq,
          Prod.mk.injEq]
        constructor
        · rintro ⟨rfl, rfl⟩
          exact ⟨rfl, rfl, hb⟩
        · rintro ⟨rfl, rfl, -⟩
          exact ⟨rfl, rfl⟩
      | some t' =>
        simp only [Option.isSome_some, if_true, reduceCtorEq, false_iff]
        rintro ⟨rfl, -, hnone⟩
        rw [hb] at hnone
        cases hnone

theorem bindings_append : i.bindings importer progress bound (specs ++ more) =
    i.bindings importer progress (i.bindings importer progress bound specs) more := by
  induction specs generalizing bound with
  | nil => rfl
  | cons spec specs ih => exact ih

/-- Each name was bound before or is one of the imports. -/
theorem mem_bindings {x : String × NodeRef} (hx : x ∈ i.bindings importer progress bound specs) :
    x ∈ bound ∨ ∃ spec ∈ specs, i.target? importer progress spec = some x.2 := by
  induction specs generalizing bound with
  | nil => exact .inl hx
  | cons spec specs ih =>
    rcases ih hx with hx | ⟨s, hs, ht⟩
    · rcases List.mem_append.1 hx with hx | hx
      · exact .inl hx
      · exact .inr ⟨spec, List.mem_cons_self, (binding?_eq_some.1 (Option.mem_toList.1 hx)).2.1⟩
    · exact .inr ⟨s, List.mem_cons_of_mem _ hs, ht⟩

/-- No name is bound twice. -/
theorem nodup_bindings (h : (bound.map (·.1)).Nodup) :
    ((i.bindings importer progress bound specs).map (·.1)).Nodup := by
  induction specs generalizing bound with
  | nil => exact h
  | cons spec specs ih =>
    refine ih ?_
    cases hnew : i.binding? importer progress bound spec with
    | none => simpa using h
    | some x =>
      obtain ⟨n, t⟩ := x
      have hfree := List.lookup_eq_none_iff.1 (binding?_eq_some.1 hnew).2.2
      rw [Option.toList_some, List.map_append, List.map_singleton, List.nodup_append]
      refine ⟨h, List.nodup_singleton _, fun a ha b hb => ?_⟩
      obtain ⟨y, hy, rfl⟩ := List.mem_map.1 ha
      rw [List.mem_singleton.1 hb]
      exact fun he => by simpa [he] using hfree y hy

/-! ## What is reported -/

@[simp] theorem map_accounts : (i.accounts importer progress bound specs).map (·.1) = specs := by
  induction specs generalizing bound with
  | nil => rfl
  | cons spec specs ih => rw [accounts, List.map_cons, ih]

theorem accounts_append : i.accounts importer progress bound (specs ++ more) =
    i.accounts importer progress bound specs ++
      i.accounts importer progress (i.bindings importer progress bound specs) more := by
  induction specs generalizing bound with
  | nil => rfl
  | cons spec specs ih => rw [List.cons_append, accounts, accounts, ih, List.cons_append, bindings]

/-- Each import is accounted for as it is after those before it. -/
theorem mem_accounts {x : ImportSpec × Option Problem}
    (hx : x ∈ i.accounts importer progress bound specs) : ∃ bound',
      x.2 = i.fault? importer progress bound' x.1 := by
  induction specs generalizing bound with
  | nil => cases hx
  | cons spec specs ih =>
    rcases List.mem_cons.1 hx with rfl | hx
    · exact ⟨bound, rfl⟩
    · exact ih hx

/-- The problem with an import is one with imports, at the start of the import. -/
theorem fault?_place (h : i.fault? importer progress bound spec = some p) :
    p.isImport ∧ p.startsAt spec.span.pos := by
  obtain ⟨x, hx, h⟩ := Option.bind_eq_some_iff.1 h
  obtain ⟨path, -, rfl⟩ := Option.map_eq_some_iff.1 hx
  cases ht : Compile.importTarget i importer progress spec.span path with
  | error q =>
    simp only [ht, Option.some.injEq] at h
    subst h
    obtain ⟨-, ⟨-, rfl⟩ | ⟨t, -, -, rfl⟩⟩ := importTarget_eq_error ht <;>
      exact ⟨rfl, decide_eq_true rfl⟩
  | ok r =>
    simp only [ht] at h
    obtain ⟨name, -, rfl⟩ := Option.map_eq_some_iff.1 h
    exact ⟨rfl, decide_eq_true rfl⟩

end Instances

/-! ## Where problems are -/

section places

variable {l : List (ImportSpec × Option Problem)} {x : ImportSpec × Option Problem} {pos : Pos}

theorem filter_problems_eq_nil
    (hplace : ∀ x ∈ l, ∀ p, x.2 = some p → p.startsAt x.1.span.pos)
    (hpos : pos ∉ l.map (·.1.span.pos)) : (l.filterMap (·.2)).filter (·.startsAt pos) = [] := by
  refine List.filter_eq_nil_iff.2 fun p hp hstart => hpos ?_
  obtain ⟨x, hx, hxp⟩ := List.mem_filterMap.1 hp
  have hother := hplace x hx p hxp
  rw [Problem.startsAt, decide_eq_true_eq] at hstart hother
  exact List.mem_map.2 ⟨x, hx, Option.some.inj (hother.symm.trans hstart)⟩

/-- At the start of an import there is the problem with it and no other. -/
theorem filter_problems (hplace : ∀ x ∈ l, ∀ p, x.2 = some p → p.startsAt x.1.span.pos)
    (hapart : (l.map (·.1.span.pos)).Nodup) (hx : x ∈ l) :
    (l.filterMap (·.2)).filter (·.startsAt x.1.span.pos) = x.2.toList := by
  obtain ⟨before, after, rfl⟩ := List.append_of_mem hx
  rw [List.map_append, List.map_cons, List.nodup_append] at hapart
  obtain ⟨-, hafter, hbefore⟩ := hapart
  have hfirst : (before.filterMap (·.2)).filter (·.startsAt x.1.span.pos) = [] :=
    filter_problems_eq_nil (fun y hy => hplace y (List.mem_append_left _ hy))
      fun hmem => hbefore _ hmem _ List.mem_cons_self rfl
  have hlast : (after.filterMap (·.2)).filter (·.startsAt x.1.span.pos) = [] :=
    filter_problems_eq_nil
      (fun y hy => hplace y (List.mem_append_right _ (List.mem_cons_of_mem _ hy)))
      (List.nodup_cons.1 hafter).1
  rw [List.filterMap_append, List.filter_append, hfirst, List.nil_append, List.filterMap_cons]
  cases hp : x.2 with
  | none => simpa using hlast
  | some p => simp [hplace x hx p hp, hlast]

end places

end CueScope
