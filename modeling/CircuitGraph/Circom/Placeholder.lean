import CircuitGraph.Circom.Emission
import CircuitGraph.Text.Layout

/-!
# Placeholders

A compilation that is blocked gives a text of comments in place of source. Line breaks inside a
message become spaces, so that no message can leave its comment.
-/

namespace CircuitGraph.Circom

/-- The first line of every placeholder. -/
def placeholderHeader : String := "// circuit-builder: compilation blocked"

/-- Whether a text is a placeholder. -/
def isPlaceholder (code : String) : Bool := placeholderHeader.toList.isPrefixOf code.toList

/-- A text on one line, as a comment. -/
def commentLine (text : String) : String :=
  "// " ++ text.map fun c => if c = '\n' ∨ c = '\r' then ' ' else c

/-- The placeholder for a graph with fatal diagnostics, which it lists. -/
def placeholder (ds : List Diagnostic) : String :=
  let count :=
    s!"// {fatalCount ds} fatal diagnostic(s) must be resolved before source is generated"
  let fatal := (ds.filter Diagnostic.isFatal).map fun d => commentLine d.text
  Text.joinLines (placeholderHeader :: count :: fatal)

/-- The placeholder for an order that cannot be emitted. -/
def blockedBy (error : EmitError) : String :=
  Text.joinLines [placeholderHeader, commentLine error.message]

/-- The source of a linear order, or a placeholder when a diagnostic is fatal or the order cannot be
emitted. -/
def emit (config : Config) (order : LinearOrder) (ds : List Diagnostic) : String :=
  if hasFatal ds then
    placeholder ds
  else
    match tryEmit config order with
    | .ok code => code
    | .error error => blockedBy error

end CircuitGraph.Circom
