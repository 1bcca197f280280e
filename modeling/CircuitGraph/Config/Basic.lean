import CircuitGraph.Cost.Table
import CircuitGraph.Graph.Operator

/-!
# Configuration

A configuration fixes the name of the emitted template, the text of the version line, where the
included files lie, the width of the comparators, the limits of the gadgets and the cost table.
`check` accepts a configuration or names the first setting that is out of bounds; it looks at the
settings in the order of their declaration.
-/

namespace CircuitGraph

/-- What a compilation can be told. -/
structure Config where
  /-- The name of the emitted template. -/
  templateName : String := "CustomCircuit"
  /-- The version in the first line of the source. -/
  circomVersion : String := "2.0.0"
  /-- The directory of the included files. -/
  includeRoot : String := "circomlib/circuits"
  /-- The width of the comparators. -/
  comparatorBits : Nat := 32
  /-- The largest number of values that a hash may take. -/
  maxHashInputs : Nat := Gadget.maxHashInputs
  /-- The largest depth of a Merkle proof. -/
  maxMerkleDepth : Nat := 32
  /-- The constraints reckoned for the kinds of nodes. -/
  costs : CostTable := {}
deriving DecidableEq

/-- The first setting that is out of bounds. -/
inductive ConfigError
  /-- The template name is no identifier. -/
  | invalidTemplateName (name : String)
  /-- The version is not made of numbers between dots. -/
  | invalidCircomVersion (version : String)
  /-- The comparators are too narrow or too wide. -/
  | invalidComparatorBits (bits : Nat)
  /-- The limit on hashed values is none or too large. -/
  | invalidHashInputLimit (limit : Nat)
  /-- The limit on depths is zero or too large. -/
  | invalidMerkleDepthLimit (limit : Nat)
deriving DecidableEq, Repr

/-- The greatest width of comparators. -/
def maxComparatorBits : Nat := 252

/-- The greatest limit on the depth of a Merkle proof. -/
def maxMerkleDepthLimit : Nat := 64

/-- The text of the error. -/
def ConfigError.message : ConfigError → String
  | invalidTemplateName name => s!"template name `{name}` is not a valid circom identifier"
  | invalidCircomVersion version => s!"circom version `{version}` must be dotted digits"
  | invalidComparatorBits bits =>
    s!"comparator bit width {bits} must be within 1..={maxComparatorBits}"
  | invalidHashInputLimit limit =>
    s!"hash input limit {limit} must be within 1..={Gadget.maxHashInputs}"
  | invalidMerkleDepthLimit limit =>
    s!"merkle depth limit {limit} must be within 1..={maxMerkleDepthLimit}"

/-- Whether a text is a letter or an underscore followed by letters, digits and underscores, all of
them ASCII. -/
def isIdentifier (s : String) : Bool :=
  match s.toList with
  | [] => false
  | c :: cs => (c.isAlpha || c == '_') && cs.all fun c => c.isAlphanum || c == '_'

/-- Whether a list of characters is numbers between dots: ASCII digits, with a digit at the start,
at the end and between any two dots. -/
def isDottedDigits : List Char → Bool
  | [] => false
  | [c] => c.isDigit
  | c :: '.' :: cs => c.isDigit && isDottedDigits cs
  | c :: cs => c.isDigit && isDottedDigits cs

namespace Config

/-- Accepts the configuration or names the first setting that is out of bounds. -/
def check (config : Config) : Except ConfigError Unit :=
  if !isIdentifier config.templateName then
    .error (.invalidTemplateName config.templateName)
  else if !isDottedDigits config.circomVersion.toList then
    .error (.invalidCircomVersion config.circomVersion)
  else if ¬(1 ≤ config.comparatorBits ∧ config.comparatorBits ≤ maxComparatorBits) then
    .error (.invalidComparatorBits config.comparatorBits)
  else if ¬(1 ≤ config.maxHashInputs ∧ config.maxHashInputs ≤ Gadget.maxHashInputs) then
    .error (.invalidHashInputLimit config.maxHashInputs)
  else if ¬(1 ≤ config.maxMerkleDepth ∧ config.maxMerkleDepth ≤ maxMerkleDepthLimit) then
    .error (.invalidMerkleDepthLimit config.maxMerkleDepth)
  else
    .ok ()

/-- Whether the comparators can represent a number of 64 bits: it is less than the power of two
given by their width. -/
def fits (config : Config) (value : Nat) : Bool :=
  64 ≤ config.comparatorBits || value < 1 <<< config.comparatorBits

/-- The path of an included file: the directory without the slashes at its end, a slash, and the
file; or the file alone when nothing is left of the directory. -/
def includePath (config : Config) (file : String) : String :=
  let root := (config.includeRoot.toList.reverse.dropWhile (· == '/')).reverse
  if root.isEmpty then file else String.ofList root ++ "/" ++ file

end Config

end CircuitGraph
