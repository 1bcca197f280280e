import CircuitGraph.Circom.Placeholder
import CircuitGraph.Proofs.Text.Lines

/-!
# Telling placeholders from source

A placeholder begins with its header and source begins with the version line, so a text is never
taken for the other.
-/

namespace CircuitGraph.Circom

/-- A text whose first line is the header is a placeholder. -/
theorem isPlaceholder_joinLines_header (lines : List String) :
    isPlaceholder (Text.joinLines (placeholderHeader :: lines)) = true := by
  rw [isPlaceholder, Text.toList_joinLines_cons, List.isPrefixOf_iff_prefix]
  exact List.prefix_append _ _

/-- The placeholder for fatal diagnostics is one. -/
theorem isPlaceholder_placeholder (ds : List Diagnostic) : isPlaceholder (placeholder ds) = true :=
  isPlaceholder_joinLines_header _

/-- The version line begins with a `p`. -/
theorem toList_versionLine (version : String) :
    ∃ rest, (s!"pragma circom {version};").toList = 'p' :: rest := by
  show ∃ rest, ("pragma circom " ++ version ++ ";").toList = 'p' :: rest
  rw [String.toList_append, String.toList_append]
  exact ⟨_, rfl⟩

/-- Source is no placeholder. -/
theorem isPlaceholder_text (u : SourceUnit) : isPlaceholder u.text = false := by
  obtain ⟨rest, hversion⟩ := toList_versionLine u.version
  obtain ⟨lines, hlines⟩ : ∃ lines, u.lines = s!"pragma circom {u.version};" :: lines := ⟨_, rfl⟩
  rw [isPlaceholder, SourceUnit.text, hlines, Text.toList_joinLines_cons, hversion]
  rfl

end CircuitGraph.Circom
