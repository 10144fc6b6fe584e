import CueScope.Editor.Store

/-!
# Refused steps

A step of a store checks what it was asked and only then changes the documents. `Atomic` says what
that is good for: a step that is refused leaves the store as it was. All steps are atomic
(`atomic_add`, `atomic_replace`, `atomic_remove`, `atomic_change`), since they are put together from
parts that only read and parts that are never refused (`Atomic.bind`, `Certain.bind`).

For an atomic step it is enough to know what it does where it is accepted (`Atomic.on_eq`).
-/

namespace CueScope.Store.Step

variable {α β : Type} {m : Step α} {s : Store}

/-! ## Running steps -/

@[simp]
theorem on_pure (a : α) (s : Store) : (pure a : Step α).on s = (.ok a, s) := rfl

@[simp]
theorem on_throw (e : DocumentError) (s : Store) : (throw e : Step α).on s = (.error e, s) := rfl

@[simp]
theorem on_get (s : Store) : (get : Step Store).on s = (.ok s, s) := rfl

@[simp]
theorem on_set (s s' : Store) : (set s' : Step PUnit).on s = (.ok ⟨⟩, s') := rfl

@[simp]
theorem on_modify (f : Store → Store) (s : Store) : (modify f : Step PUnit).on s = (.ok ⟨⟩, f s) := rfl

/-- A check that does not look at the store. -/
@[simp]
theorem on_lift (c : Except DocumentError α) (s : Store) : (liftM c : Step α).on s = (c, s) := by
  cases c <;> rfl

/-- After a step comes another, unless the first is refused. -/
theorem on_bind (m : Step α) (f : α → Step β) (s : Store) :
    (m >>= f).on s =
      match m.on s with
      | (.ok a, s') => (f a).on s'
      | (.error e, s') => (.error e, s') := by
  unfold on
  rw [ExceptT.run_bind, StateT.run_bind]
  obtain ⟨r, s'⟩ := m.run.run s
  cases r <;> rfl

theorem on_bind_eq_ok {f : α → Step β} {b : β} {s' : Store} :
    (m >>= f).on s = (.ok b, s') ↔ ∃ a t, m.on s = (.ok a, t) ∧ (f a).on t = (.ok b, s') := by
  rw [on_bind]
  obtain ⟨r, t⟩ := m.on s
  cases r <;> simp [and_assoc]

@[simp]
theorem on_map (f : α → β) (m : Step α) (s : Store) :
    (f <$> m).on s = ((m.on s).1.map f, (m.on s).2) := by
  rw [map_eq_pure_bind, on_bind]
  obtain ⟨r, s'⟩ := m.on s
  cases r <;> rfl

theorem accepted_eq_ok_iff {a : α} {s' : Store} :
    m.accepted s = .ok (a, s') ↔ m.on s = (.ok a, s') := by
  unfold accepted
  obtain ⟨r, t⟩ := m.on s
  cases r <;> simp [Except.map]

/-! ## Steps that are refused -/

/-- The step leaves the store alone. -/
def Reads (m : Step α) : Prop := ∀ s, (m.on s).2 = s

/-- The step is never refused. -/
def Certain (m : Step α) : Prop := ∀ s, ∃ a, (m.on s).1 = .ok a

/-- Where the step is refused, it leaves the store as it was. -/
def Atomic (m : Step α) : Prop := ∀ s e, (m.on s).1 = .error e → (m.on s).2 = s

theorem Reads.atomic (h : m.Reads) : m.Atomic := fun s _ _ => h s

theorem Certain.atomic (h : m.Certain) : m.Atomic := by
  intro s e he
  obtain ⟨a, ha⟩ := h s
  cases ha.symm.trans he

theorem reads_get : (get : Step Store).Reads := fun _ => rfl

theorem reads_lift (c : Except DocumentError α) : (liftM c : Step α).Reads := fun s => by simp

theorem reads_throw (e : DocumentError) : (throw e : Step α).Reads := fun _ => rfl

theorem certain_pure (a : α) : (pure a : Step α).Certain := fun _ => ⟨a, rfl⟩

theorem certain_set (s : Store) : (set s : Step PUnit).Certain := fun _ => ⟨⟨⟩, rfl⟩

theorem certain_modify (f : Store → Store) : (modify f : Step PUnit).Certain := fun _ => ⟨⟨⟩, rfl⟩

/-- What is never refused can go on with what is never refused. -/
theorem Certain.bind {f : α → Step β} (hm : m.Certain) (hf : ∀ a, (f a).Certain) :
    (m >>= f).Certain := by
  intro s
  obtain ⟨a, ha⟩ := hm s
  rw [on_bind]
  generalize m.on s = r at ha
  obtain ⟨answer, s'⟩ := r
  subst ha
  exact hf a s'

/-- A step may be refused as long as it has only read. -/
theorem Atomic.bind {f : α → Step β} (hm : m.Reads) (hf : ∀ a, (f a).Atomic) :
    (m >>= f).Atomic := by
  intro s e he
  have hs := hm s
  rw [on_bind] at he ⊢
  generalize m.on s = r at he hs
  obtain ⟨answer, s'⟩ := r
  subst hs
  cases answer with
  | error e' => rfl
  | ok a => exact hf a _ e he

/-- What is never refused can follow an atomic step. -/
theorem Atomic.bind_certain {f : α → Step β} (hm : m.Atomic) (hf : ∀ a, (f a).Certain) :
    (m >>= f).Atomic := by
  intro s e he
  have hs := hm s
  rw [on_bind] at he ⊢
  generalize m.on s = r at he hs
  obtain ⟨answer, s'⟩ := r
  cases answer with
  | error e' => exact hs e' rfl
  | ok a =>
    obtain ⟨b, hb⟩ := hf a s'
    cases hb.symm.trans he

theorem Atomic.map (f : α → β) (hm : m.Atomic) : (f <$> m).Atomic := by
  rw [map_eq_pure_bind]
  exact hm.bind_certain fun _ => certain_pure _

/-- An atomic step does what it does where it is accepted, and nothing else. -/
theorem Atomic.on_eq (hm : m.Atomic) (s : Store) :
    m.on s =
      match m.accepted s with
      | .ok (a, s') => (.ok a, s')
      | .error e => (.error e, s) := by
  have hs := hm s
  unfold accepted
  generalize m.on s = r at hs
  obtain ⟨answer, s'⟩ := r
  cases answer with
  | error e =>
    cases hs e rfl
    rfl
  | ok a => rfl

/-! ## The steps of a store -/

theorem atomic_add (uri : Uri) (language : String) (version : Int) (text : String) :
    (add uri language version text).Atomic := by
  refine .bind reads_get fun s => .bind (reads_lift _) fun _ => .bind (reads_lift _) fun _ => ?_
  exact Certain.atomic (.bind (certain_set _) fun _ => .bind (certain_modify _) fun _ => certain_pure _)

theorem atomic_replace (h : Handle) (text : String) (version : Int) :
    (replace h text version).Atomic := by
  refine .bind reads_get fun s => ?_
  split
  · exact (reads_throw _).atomic
  · refine .bind (reads_lift _) fun _ => .bind (reads_lift _) fun _ => Certain.atomic ?_
    exact .bind (certain_set _) fun _ => .bind (certain_modify _) fun _ => certain_pure _

theorem atomic_remove (uri : Uri) : (remove uri).Atomic := by
  refine .bind reads_get fun s => ?_
  split
  · exact (reads_throw _).atomic
  · exact Certain.atomic (.bind (certain_set _) fun _ => certain_modify _)

/-- What closing a document does. -/
theorem on_remove (uri : Uri) (s : Store) :
    (remove uri).on s =
      match s.opened.lookup uri with
      | none => (.error (.notOpen uri), s)
      | some id => (.ok (), { s with
          documents := s.documents.modify id fun d => { d with revoked := true }
          opened := s.opened.filter (·.1 ≠ uri) }) := by
  unfold remove
  rw [on_bind, on_get]
  dsimp only
  cases s.opened.lookup uri <;> rfl

theorem atomic_change (uri : Uri) (edits : List Edit) (version : Int) :
    (change uri edits version).Atomic :=
  .bind reads_get fun _ => .bind (reads_lift _) fun _ => .bind (reads_lift _) fun _ =>
    atomic_replace _ _ _

end CueScope.Store.Step
