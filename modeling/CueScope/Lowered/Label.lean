/-!
# Label features

Label names are numbered, so that labels are compared without comparing texts. Indices form
chains: a name is looked up in the whole chain, and a new name goes to the last index of it.
Feature 0 is `_`, and the empty name has it too.
-/

namespace CueScope

/-- The number of a label name. -/
abbrev Feature := Nat

/-- One index of a chain. -/
structure LabelLayer where
  /-- Its own names, in the order of their features. -/
  labels : List String
  /-- The feature of each. -/
  features : List (String × Feature)
  /-- Number of features of the indices below. -/
  offset : Nat

/-- Number of features up to this index. -/
def LabelLayer.count (layer : LabelLayer) : Nat := layer.offset + layer.labels.length

/-- Numbered label names: an index that names are added to, and those below it, the nearest first. -/
structure LabelIndex where
  top : LabelLayer
  below : List LabelLayer

namespace LabelIndex

/-- The labels common to every index. -/
def shared : LabelIndex := ⟨⟨["_"], [("_", 0), ("", 0)], 0⟩, []⟩

/-- The indices of the chain, the last one first. -/
def layers (index : LabelIndex) : List LabelLayer := index.top :: index.below

/-- Number of features of the chain. -/
def count (index : LabelIndex) : Nat := index.top.count

/-- An index without names of its own on top of `parent`. -/
def child (parent : LabelIndex) : LabelIndex := ⟨⟨[], [], parent.count⟩, parent.layers⟩

/-- A fresh index. -/
def empty : LabelIndex := child shared

/-- The feature of a name that is in the chain. -/
def find? (index : LabelIndex) (name : String) : Option Feature :=
  index.layers.findSome? (·.features.lookup name)

/-- The name of a feature, in the nearest index that starts no later. -/
def label? (index : LabelIndex) (f : Feature) : Option String :=
  (index.layers.find? (·.offset ≤ f)).bind fun layer => layer.labels[f - layer.offset]?

/-- Adds a name to the last index of the chain. -/
def push (index : LabelIndex) (name : String) : LabelIndex :=
  { index with
    top := { index.top with
      labels := index.top.labels ++ [name]
      features := (name, index.count) :: index.top.features } }

/-- The feature of a name, which is added if it is new. -/
def feature (index : LabelIndex) (name : String) : Feature × LabelIndex :=
  match index.find? name with
  | some f => (f, index)
  | none => (index.count, index.push name)

end LabelIndex

end CueScope
