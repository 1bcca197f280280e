/-!
# Identifiers

How labels and ids of nodes become identifiers. Only ASCII letters and digits are kept, so different
texts may give the same identifier; a name table keeps those apart.
-/

namespace CircuitGraph.Circom

/-- Drops everything but ASCII letters and digits, and capitalizes the character after a gap.
`gap` tells whether the character before was dropped. -/
def camel (gap : Bool) : List Char → List Char
  | [] => []
  | c :: cs =>
    if c.isAlphanum then (if gap then c.toUpper else c) :: camel false cs
    else camel true cs

/-- The identifier for the label of an input or an output: its words joined, the first one with a
small letter and the others with a capital one. An identifier that would begin with a digit gets an
`s` in front, and a label without letters and digits gives `value`. -/
def labelIdentifier (label : String) : String :=
  match label.toList.dropWhile fun c => !c.isAlphanum with
  | [] => "value"
  | c :: cs =>
    let word := c.toLower :: camel false cs
    String.ofList (if c.isDigit then 's' :: word else word)

/-- The identifier for an intermediate result: the id of its node behind `n_`, with an underscore
for everything but ASCII letters and digits. -/
def nodeIdentifier (id : String) : String :=
  String.ofList ('n' :: '_' :: id.toList.map fun c => if c.isAlphanum then c else '_')

end CircuitGraph.Circom
