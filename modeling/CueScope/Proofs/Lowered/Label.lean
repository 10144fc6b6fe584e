import CueScope.Lowered.Label
import Mathlib.Data.List.Nodup

/-!
# Names and their features

Each index of a chain stores its own names, their features and how many features there are below.
Together they number one list of names without a gap:

* `Numbers`: the chain gives the names of a list their places as features, and back.
* `numbers_empty`, `Numbers.child`, `Numbers.feature`: what each operation does to that list. A name
  that is asked for is added unless it is there.
* `Extends`: what becomes of an index when names are asked for and other indices are put on top.
  `Extends.numbers`: names keep their places.
* `Extends.faithful`: what features and labels say of each other, at all times.
-/

namespace CueScope.LabelIndex

variable {index later : LabelIndex} {name label : String} {names : List String} {f : Feature}

/-- The name that a name is shown as: the empty name is another one for `_`. -/
def shown (name : String) : String := if name = "" then "_" else name

theorem shown_of_ne (h : name ≠ "") : shown name = name := if_neg h

/-! ## The names of a chain -/

/-- The chain numbers a list of names: the feature of each is its place. -/
structure Numbers (index : LabelIndex) (names : List String) : Prop where
  count : index.count = names.length
  label? : ∀ f, index.label? f = names[f]?
  /-- The empty name is found where `_` is. -/
  find? : ∀ name, index.find? name = names.idxOf? (shown name)
  underscore : "_" ∈ names
  /-- No name is empty, and none has two places. -/
  nonempty : "" ∉ names
  nodup : names.Nodup

theorem numbers_shared : Numbers shared ["_"] where
  count := rfl
  label? f := rfl
  find? name := by
    by_cases hempty : name = ""
    · subst hempty
      rfl
    · rw [shown_of_ne hempty]
      by_cases hname : name = "_"
      · subst hname
        rfl
      · have hbeq : (name == "_") = false := by simpa using hname
        have hbeq' : (name == "") = false := by simpa using hempty
        simp [LabelIndex.find?, shared, layers, List.lookup_cons, hbeq, hbeq', Ne.symm hname]
  underscore := List.mem_singleton_self _
  nonempty := by decide
  nodup := List.nodup_singleton _

/-- An index on top starts where the numbers of the others end. -/
theorem Numbers.child (h : index.Numbers names) : index.child.Numbers names where
  count := h.count
  label? f := by
    have hbelow := h.label? f
    unfold LabelIndex.label? at hbelow ⊢
    by_cases hf : index.count ≤ f
    · have hend : names[f]? = none := List.getElem?_eq_none (h.count ▸ hf)
      simp [LabelIndex.child, layers, hf, hend]
    · rw [← hbelow]
      simp [LabelIndex.child, layers, hf]
  find? name := h.find? name
  underscore := h.underscore
  nonempty := h.nonempty
  nodup := h.nodup

theorem idxOf?_concat (names : List String) (name other : String) :
    (names ++ [name]).idxOf? other =
      (names.idxOf? other).or (if name = other then some names.length else none) := by
  unfold List.idxOf?
  rw [List.findIdx?_append, List.findIdx?_singleton]
  by_cases heq : name = other <;> simp [heq]

/-- Of all numbers only that behind the others gets a name. -/
theorem Numbers.label?_push (h : index.Numbers names) (name : String) (n : Nat) :
    (index.push name).label? n = (names ++ [name])[n]? := by
  have hcount := h.count
  have hlabel := h.label? n
  simp only [LabelIndex.count, LabelLayer.count] at hcount
  simp only [LabelIndex.label?, layers, LabelIndex.push, List.find?_cons] at hlabel ⊢
  by_cases hlow : index.top.offset ≤ n
  · -- the names of the last index are the last ones of the list
    simp only [hlow, decide_true, Option.bind_some] at hlabel ⊢
    by_cases hn : n < names.length
    · have hown : n - index.top.offset < index.top.labels.length := by omega
      rw [List.getElem?_append_left hown, List.getElem?_append_left hn, hlabel]
    · have hown : index.top.labels.length ≤ n - index.top.offset := by omega
      have hplace : n - index.top.offset - index.top.labels.length = n - names.length := by omega
      rw [List.getElem?_append_right hown, List.getElem?_append_right (Nat.not_lt.1 hn), hplace]
  · simp only [hlow, decide_false] at hlabel ⊢
    have hn : n < names.length := by omega
    rw [hlabel, List.getElem?_append_left hn]

/-- The other names are found where they were. -/
theorem Numbers.find?_push (h : index.Numbers names) (hempty : name ≠ "") (hnew : name ∉ names)
    (other : String) : (index.push name).find? other = (names ++ [name]).idxOf? (shown other) := by
  have hfind := h.find? other
  simp only [LabelIndex.find?, layers, LabelIndex.push, List.findSome?_cons, List.lookup_cons]
    at hfind ⊢
  rw [idxOf?_concat]
  by_cases hother : other = name
  · subst hother
    rw [shown_of_ne hempty, if_pos rfl, List.idxOf?_eq_none_iff.2 hnew]
    simp [h.count]
  · have hshown : name ≠ shown other := by
      unfold shown
      split
      · exact fun heq => hnew (heq ▸ h.underscore)
      · exact Ne.symm hother
    have hbeq : (other == name) = false := by simpa using hother
    rw [if_neg hshown, Option.or_none, hbeq]
    exact hfind

/-- A new name has the place behind the others. -/
theorem Numbers.push (h : index.Numbers names) (hempty : name ≠ "") (hnew : name ∉ names) :
    (index.push name).Numbers (names ++ [name]) where
  count := by
    have hcount := h.count
    simp only [LabelIndex.count, LabelLayer.count, LabelIndex.push, List.length_append] at hcount ⊢
    omega
  label? n := h.label?_push name n
  find? other := h.find?_push hempty hnew other
  underscore := List.mem_append_left _ h.underscore
  nonempty := by simp [h.nonempty, hempty.symm]
  nodup := by
    rw [← List.concat_eq_append]
    exact h.nodup.concat hnew

/-! ## Asking for a feature -/

theorem Numbers.find?_eq_some_iff (h : index.Numbers names) :
    index.find? name = some f ↔ index.label? f = some (shown name) := by
  rw [h.find?, h.label?, List.idxOf?_eq_some_iff]
  constructor
  · rintro ⟨hlt, hname, -⟩
    rw [List.getElem?_eq_getElem hlt, hname]
  · intro hf
    obtain ⟨hlt, hname⟩ := List.getElem?_eq_some_iff.1 hf
    refine ⟨hlt, hname, fun j hj heq => ?_⟩
    exact absurd (h.nodup.getElem_inj_iff.1 (heq.trans hname.symm)) (Nat.ne_of_lt hj)

theorem Numbers.label?_isSome_iff (h : index.Numbers names) :
    (index.label? f).isSome ↔ f < index.count := by
  rw [h.label?, h.count, isSome_getElem?]

/-- A name that is asked for is added unless it is there, and is the label of the feature given. -/
theorem Numbers.feature (h : index.Numbers names) (name : String) :
    ∃ more, (index.feature name).2.Numbers (names ++ more) ∧
      (index.feature name).2.label? (index.feature name).1 = some (shown name) := by
  unfold LabelIndex.feature
  split
  · rename_i f hf
    exact ⟨[], by rwa [List.append_nil], h.find?_eq_some_iff.1 hf⟩
  · rename_i hf
    have hnew : shown name ∉ names := List.idxOf?_eq_none_iff.1 (h.find? name ▸ hf)
    have hempty : name ≠ "" := by
      rintro rfl
      exact hnew h.underscore
    rw [shown_of_ne hempty] at hnew ⊢
    have hpush := h.push hempty hnew
    refine ⟨[name], hpush, ?_⟩
    rw [hpush.label?, h.count, List.getElem?_concat_length]

/-! ## What becomes of an index -/

/-- `Extends index later`: putting indices on top of `index`, and asking the last one for features,
leads to `later`. -/
inductive Extends (index : LabelIndex) : LabelIndex → Prop
  | refl : Extends index index
  | child {later : LabelIndex} : Extends index later → Extends index later.child
  | feature {later : LabelIndex} (name : String) :
      Extends index later → Extends index (later.feature name).2

/-- Later growth of an index only adds numbers behind those it had. -/
theorem Extends.numbers (h : Extends index later) (hn : index.Numbers names) :
    ∃ more, later.Numbers (names ++ more) := by
  induction h with
  | refl => exact ⟨[], by rwa [List.append_nil]⟩
  | child _ ih =>
    obtain ⟨more, hmore⟩ := ih
    exact ⟨more, hmore.child⟩
  | feature name _ ih =>
    obtain ⟨more, hmore⟩ := ih
    obtain ⟨rest, hrest, -⟩ := hmore.feature name
    exact ⟨more ++ rest, by rwa [← List.append_assoc]⟩

/-- Names keep their places. -/
theorem Extends.label? (h : Extends index later) (hn : index.Numbers names)
    (hf : index.label? f = some label) : later.label? f = some label := by
  obtain ⟨more, hmore⟩ := h.numbers hn
  rw [hn.label?] at hf
  rw [hmore.label?, List.getElem?_append_left (List.getElem?_eq_some_iff.1 hf).1, hf]

/-- What features and labels say of each other, now and later. -/
structure Faithful (index : LabelIndex) : Prop where
  /-- The label of a name's feature is the name, but `_` for the empty name. -/
  label?_feature : ∀ name, (index.feature name).2.label? (index.feature name).1 =
    some (if name = "" then "_" else name)
  /-- Two names have one feature only if they are equal, or one of them is empty. -/
  feature_inj : ∀ a b later, a ≠ "" → b ≠ "" → Extends (index.feature a).2 later →
    (later.feature b).1 = (index.feature a).1 → b = a
  /-- A name that has a feature keeps it, and asking for it again adds nothing. -/
  feature_kept : ∀ name later, Extends (index.feature name).2 later →
    later.feature name = ((index.feature name).1, later)
  /-- A feature that has a label keeps it. -/
  label?_kept : ∀ f label later, Extends index later → index.label? f = some label →
    later.label? f = some label
  /-- The features below the total count, and no others, have labels. -/
  label?_isSome_iff : ∀ f, (index.label? f).isSome ↔ f < index.count
  /-- A feature is below the total count, so it fits 32 bits while fewer names do. -/
  feature_lt : ∀ name, (index.feature name).1 < (index.feature name).2.count

/-- However a chain of indices was made, its features and labels are faithful to each other. -/
theorem Extends.faithful (h : Extends .empty index) : index.Faithful := by
  obtain ⟨more, hn⟩ := h.numbers numbers_shared.child
  have hfeature := hn.feature
  exact {
    label?_feature := fun name => by
      obtain ⟨-, -, hlabel⟩ := hfeature name
      exact hlabel
    feature_inj := fun a b later ha hb hlater hsame => by
      obtain ⟨rest, hrest, hlabel⟩ := hfeature a
      obtain ⟨rest', hlast⟩ := hlater.numbers hrest
      obtain ⟨last, hlast', hlabel'⟩ := hlast.feature b
      have hwas := (Extends.feature b .refl).label? hlast (hlater.label? hrest hlabel)
      rw [← hsame, hlabel', shown_of_ne ha, shown_of_ne hb] at hwas
      exact Option.some.inj hwas
    feature_kept := fun name later hlater => by
      obtain ⟨rest, hrest, hlabel⟩ := hfeature name
      obtain ⟨rest', hlast⟩ := hlater.numbers hrest
      have hfind := hlast.find?_eq_some_iff.2 (hlater.label? hrest hlabel)
      simp [LabelIndex.feature, hfind]
    label?_kept := fun f label later hlater hf => hlater.label? hn hf
    label?_isSome_iff := fun f => hn.label?_isSome_iff
    feature_lt := fun name => by
      obtain ⟨rest, hrest, hlabel⟩ := hfeature name
      exact hrest.label?_isSome_iff.1 (by rw [hlabel]; rfl) }

/-- An index on top of one with the names `a` and `b`. -/
def twoLayers : LabelIndex := ((empty.feature "a").2.feature "b").2.child

/-- The upper index knows the names of the lower one, and numbers its own after them. -/
theorem faithful_twoLayers : twoLayers.Faithful ∧ (twoLayers.feature "a").1 = 1 ∧
    (twoLayers.feature "c").1 = 3 ∧ twoLayers.label? 2 = some "b" ∧ twoLayers.label? 3 = none :=
  ⟨(((Extends.refl.feature "a").feature "b").child).faithful, by decide, by decide, by decide,
    by decide⟩

end CueScope.LabelIndex
