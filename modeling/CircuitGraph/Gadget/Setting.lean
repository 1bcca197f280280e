import CircuitGraph.Config.Basic
import CircuitGraph.Graph.Params
import CircuitGraph.Text.Layout

/-!
# Gadget settings

An editor keeps the parameters of a gadget as free text. `Gadget.resolve` reads them into a
`Setting`, the form that emission and estimation work with, or says what is wrong. A parameter that
is absent or blank is missing; every required parameter is looked for before any of them is read.
-/

namespace CircuitGraph

open CircuitGraph.Text

/-- A gadget with its parameters read. -/
inductive Setting
  /-- The bounds of a range check. -/
  | rangeCheck (min max : Nat)
  /-- The number of hashed values. -/
  | hash (inputs : Nat)
  /-- The constant that the condition is compared with. -/
  | conditional (condition : Nat)
  /-- The depth of the tree. -/
  | merkleProof (depth : Nat)
  /-- The divisor. -/
  | modulo (modulus : Nat)
deriving DecidableEq, Repr

/-- What is wrong with the parameters of a gadget. -/
inductive ParamError
  /-- A required parameter is absent or blank. -/
  | missing (name : String)
  /-- A parameter is not an unsigned integer of 64 bits. -/
  | notAnInteger (name value : String)
  /-- A parameter is outside its bounds. -/
  | outOfRange (name : String) (value min max : Nat)
  /-- A parameter has more bits than the comparators. -/
  | tooWide (name : String) (value bits : Nat)
  /-- The lower bound exceeds the upper one. -/
  | emptyRange (min max : Nat)
deriving DecidableEq, Repr

/-- The text of the error. -/
def ParamError.message : ParamError → String
  | missing name => s!"missing required parameter `{name}`"
  | notAnInteger name value => s!"parameter `{name}` must be an unsigned integer, got `{value}`"
  | outOfRange name value min max => s!"parameter `{name}` = {value} is outside {min}..={max}"
  | tooWide name value bits =>
    s!"parameter `{name}` = {value} does not fit in {bits}-bit comparators"
  | emptyRange min max => s!"range is empty: min {min} exceeds max {max}"

namespace Params

/-- The text under a name without the blanks around it, unless it is absent or blank. -/
def given? (p : Params) (name : String) : Option String :=
  match p.find? name with
  | none => none
  | some text => if trim text = "" then none else some (trim text)

/-- The unsigned integer under a name. -/
def word (p : Params) (name : String) : Except ParamError Nat :=
  match p.given? name with
  | none => .error (.missing name)
  | some text =>
    match readWord? text with
    | some n => .ok n
    | none => .error (.notAnInteger name text)

/-- The unsigned integer under a name, between two bounds. -/
def wordWithin (p : Params) (name : String) (min max : Nat) : Except ParamError Nat := do
  let value ← p.word name
  if min ≤ value ∧ value ≤ max then
    return value
  else
    throw (.outOfRange name value min max)

end Params

/-- Accepts a parameter that the comparators can represent. -/
def Config.checkWidth (config : Config) (name : String) (value : Nat) : Except ParamError Unit :=
  if config.fits value then .ok () else .error (.tooWide name value config.comparatorBits)

namespace Gadget

/-- Reads the parameters of a gadget all of whose required parameters are given. -/
def readSetting (config : Config) (params : Params) : Gadget → Except ParamError Setting
  | rangeCheck => do
    let min ← params.word "min"
    let max ← params.word "max"
    if max < min then throw (.emptyRange min max)
    config.checkWidth "max" max
    return .rangeCheck min max
  | hash => do
    return .hash (← params.wordWithin "inputs" 1 config.maxHashInputs)
  | conditional => do
    return .conditional (← params.word "condition")
  | merkleProof => do
    return .merkleProof (← params.wordWithin "depth" 1 config.maxMerkleDepth)
  | modulo => do
    let modulus ← params.wordWithin "modulus" 1 maxWord
    config.checkWidth "modulus" modulus
    return .modulo modulus

/-- The setting of a gadget, or what is wrong with its parameters. -/
def resolve (config : Config) (gadget : Gadget) (params : Params) : Except ParamError Setting :=
  match gadget.requiredParams.find? fun name => (params.given? name).isNone with
  | some name => .error (.missing name)
  | none => gadget.readSetting config params

end Gadget

end CircuitGraph
