import CircuitGraph.Circom.Expr

/-!
# Circom statements

The statements of which a template body is made, and their lines of text. An instance of a library
template is named by the template, and each template belongs to one library file, so the files that
a body needs can be read off its statements.
-/

namespace CircuitGraph.Circom

/-- A file of the circuit library. -/
inductive Library
  /-- Comparators and bit decompositions. -/
  | comparators
  /-- The Poseidon hash. -/
  | poseidon
  /-- Multiplexers with one selector. -/
  | mux1
deriving DecidableEq, Repr

namespace Library

/-- Every file, in the order in which they are included. -/
def all : List Library := [comparators, poseidon, mux1]

/-- The name of the file. -/
def file : Library → String
  | comparators => "comparators.circom"
  | poseidon => "poseidon.circom"
  | mux1 => "mux1.circom"

end Library

/-- A library template with its arguments. -/
inductive Template
  /-- Whether the first of two values is greater. -/
  | greaterThan (bits : Nat)
  /-- Whether the first of two values is less. -/
  | lessThan (bits : Nat)
  /-- Whether the first of two values is greater or equal. -/
  | greaterEqThan (bits : Nat)
  /-- Whether the first of two values is less or equal. -/
  | lessEqThan (bits : Nat)
  /-- Whether two values are equal. -/
  | isEqual
  /-- The bits of a value. -/
  | num2Bits (bits : Nat)
  /-- The hash of several values. -/
  | poseidon (inputs : Nat)
  /-- The choice between two tuples. -/
  | multiMux1 (width : Nat)
deriving DecidableEq, Repr

namespace Template

/-- The file that defines a template. -/
def library : Template → Library
  | greaterThan _ | lessThan _ | greaterEqThan _ | lessEqThan _ | isEqual | num2Bits _ =>
    .comparators
  | poseidon _ => .poseidon
  | multiMux1 _ => .mux1

/-- The text of a template with its arguments. -/
def text : Template → String
  | greaterThan bits => s!"GreaterThan({bits})"
  | lessThan bits => s!"LessThan({bits})"
  | greaterEqThan bits => s!"GreaterEqThan({bits})"
  | lessEqThan bits => s!"LessEqThan({bits})"
  | isEqual => "IsEqual()"
  | num2Bits bits => s!"Num2Bits({bits})"
  | poseidon inputs => s!"Poseidon({inputs})"
  | multiMux1 width => s!"MultiMux1({width})"

end Template

/-- A statement. -/
inductive Statement
  /-- Declares a signal. -/
  | signal (name : String)
  /-- Declares an array of signals. -/
  | signalArray (name : String) (size : Nat)
  /-- Declares a component as an instance of a template. -/
  | component (name : String) (template : Template)
  /-- Declares an array of components. -/
  | componentArray (name : String) (size : Nat)
  /-- Makes an element of an array of components an instance of a template. -/
  | instantiate (target : Ref) (template : Template)
  /-- Assigns a value to a signal and constrains the signal to it. -/
  | constrain (target : Ref) (value : Expr)
  /-- Assigns a value to a signal without a constraint. -/
  | assign (target : Ref) (value : Expr)
  /-- Constrains two values to be equal. -/
  | equate (left right : Expr)
deriving DecidableEq, Repr

namespace Statement

/-- The line of a statement. -/
def text : Statement → String
  | signal name => s!"signal {name};"
  | signalArray name size => s!"signal {name}[{size}];"
  | component name template => s!"component {name} = {template.text};"
  | componentArray name size => s!"component {name}[{size}];"
  | instantiate target template => s!"{target.text} = {template.text};"
  | constrain target value => s!"{target.text} <== {value.text};"
  | assign target value => s!"{target.text} <-- {value.text};"
  | equate left right => s!"{left.text} === {right.text};"

/-- The template that a statement instantiates, if any. -/
def template? : Statement → Option Template
  | component _ template | instantiate _ template => some template
  | _ => none

end Statement

/-- The indentation of one level. -/
def indent : String := "    "

/-- A statement, or a loop that runs the counter from zero up to a count. -/
inductive Command
  /-- A statement. -/
  | single (s : Statement)
  /-- A loop. -/
  | loop (count : Nat) (body : List Statement)
deriving DecidableEq, Repr

namespace Command

/-- The lines of a command. -/
def lines : Command → List String
  | single s => [s.text]
  | loop count body =>
    let i := counterName
    s!"for (var {i} = 0; {i} < {count}; {i}++) \x7b"
      :: body.map (fun s => indent ++ s.text) ++ ["\x7d"]

/-- The templates that a command instantiates. -/
def templates : Command → List Template
  | single s => s.template?.toList
  | loop _ body => body.filterMap Statement.template?

end Command

/-- A comment that says which node the following commands belong to. -/
structure Heading where
  /-- The name under which the node is emitted. -/
  name : String
  /-- The words for the node's kind. -/
  kind : String
deriving DecidableEq, Repr

/-- The line of a heading. -/
def Heading.text (h : Heading) : String := s!"// {h.name}: {h.kind}"

/-- The commands of one node. -/
structure Block where
  /-- The comment before the commands, if any. -/
  heading : Option Heading
  /-- The commands. -/
  commands : List Command
deriving DecidableEq, Repr

namespace Block

/-- A block of statements without loops. -/
def ofStatements (heading : Option Heading) (statements : List Statement) : Block :=
  ⟨heading, statements.map .single⟩

/-- The lines of a block, without indentation. -/
def lines (b : Block) : List String :=
  (b.heading.map Heading.text).toList ++ b.commands.flatMap Command.lines

/-- The templates that a block instantiates. -/
def templates (b : Block) : List Template := b.commands.flatMap Command.templates

end Block

end CircuitGraph.Circom
