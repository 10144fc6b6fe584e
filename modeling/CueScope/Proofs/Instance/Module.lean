import CueScope.Instance.Module
import CueScope.Proofs.Path.Below

/-!
# Directories of a module and import paths

* `Module.Contains`: an import path leads into a module. `Module.contains_or_vendored?`: any other
  leads to where packages from outside the module lie, if anywhere.
* `Module.importDir?_display_iff`: a directory of a module is shown by an import path that leads to
  it exactly if what it is called below the module is a text.
-/

namespace CueScope.Module

variable {w : Workspace} {m : Module} {dir : Path} {own path : String}

/-- A module lies in a directory above those that are in it. -/
theorem root_mem_ancestors (h : discover? w dir = some m) : m.root ∈ dir.ancestors := by
  obtain ⟨root, hroot, hm⟩ := List.exists_of_findSome?_eq_some h
  obtain ⟨text, -, rfl⟩ := Option.map_eq_some_iff.1 hm
  exact hroot

/-! ## Paths that lead into a module -/

theorem eq_append_of_after? {head text rest : String} (h : after? head text = some rest) :
    text = head ++ rest := by
  unfold after? at h
  dsimp only at h
  split at h
  · rename_i hprefix
    obtain ⟨tail, htail⟩ := List.isPrefixOf_iff_prefix.1 hprefix
    cases h
    rw [← htail, List.drop_left, ← String.toList_inj, String.toList_append, String.toList_ofList,
      htail]
  · cases h

theorem after?_append (head rest : String) : after? head (head ++ rest) = some rest := by
  simp [after?]

/-- The import path leads into the module, to a directory of it. -/
inductive Contains (m : Module) : String → Path → Prop
  | root {own : String} (h : m.path? = some own) : Contains m own m.root
  | below {own rest : String} (h : m.path? = some own) :
      Contains m (own ++ "/" ++ rest) (m.root ++ rest)

/-- A path that leads into the module leads where it says. -/
theorem Contains.importDir? (h : m.Contains path dir) : m.importDir? path = some dir := by
  cases h with
  | root h => simp [Module.importDir?, h]
  | @below own rest h =>
    have hne : own ++ "/" ++ rest ≠ own := by
      intro heq
      have hlen := congrArg String.length heq
      simp only [String.length_append] at hlen
      have hslash : "/".length = 1 := rfl
      omega
    simp [Module.importDir?, h, hne, after?_append]

/-- Any other leads to where packages from outside the module lie, if anywhere. -/
theorem contains_or_vendored? (h : m.importDir? path = some dir) :
    m.Contains path dir ∨ m.vendored? path = some dir := by
  unfold Module.importDir? at h
  split at h
  · exact .inr h
  · next own hown =>
    split at h
    · next heq =>
      cases h
      exact .inl (heq ▸ .root hown)
    · split at h
      · next rest hrest =>
        cases h
        exact .inl (eq_append_of_after? hrest ▸ .below hown)
      · exact .inr h

/-! ## How directories are shown -/

/-- The way a directory of a module is shown leads into the module, where what is printed of the
way down says. -/
theorem contains_display {workDir rest : Path} (hown : m.path? = some own)
    (hrest : dir.relativeTo? m.root = some rest) :
    m.Contains (display (some m) workDir dir)
      (if rest.bytes.isEmpty then m.root else m.root ++ rest.text) := by
  have hdisplay : display (some m) workDir dir =
      if rest.bytes.isEmpty then own else own ++ "/" ++ rest.text := by
    simp [display, hown, hrest]
  rw [hdisplay]
  split
  · exact .root hown
  · exact .below hown

/-- A directory of a module is shown by an import path that leads to it exactly if what it is called
below the module is a text. -/
theorem importDir?_display_iff {workDir : Path} (hown : m.path? = some own) (habs : dir.isAbsolute)
    (hroot : m.root ∈ dir.ancestors) :
    (m.importDir? (display (some m) workDir dir)).any (· == dir) ↔
      ∃ below, dir.relativeTo? m.root = some (.ofText below) := by
  obtain ⟨hrootabs, hprefix⟩ := Path.components_of_mem_ancestors habs hroot
  obtain ⟨rest, hrest, hrelative, hsteps⟩ := Path.exists_relativeTo? habs hrootabs hprefix
  rw [(contains_display hown hrest).importDir?, Option.any_some, hrest]
  have htext : rest.IsText ↔ ∃ below, some rest = some (Path.ofText below) := by
    simp [Path.IsText]
  rw [← htext]
  split
  · rename_i hempty
    have hnil : rest = ⟨[]⟩ := congrArg Path.mk (List.isEmpty_iff.1 hempty)
    have hsame : (m.root == dir) = true := by
      rw [Path.beq_iff, hsteps, hnil]
      exact (List.append_nil _).symm
    exact iff_of_true hsame ⟨"", hnil⟩
  · exact Path.join_text_beq_iff hrootabs hrelative hsteps

end CueScope.Module
