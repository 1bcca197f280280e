import CircuitGraph.Circom.Statement
import CircuitGraph.Text.Layout

/-!
# Circom source

A source unit is one template and the main component that instantiates it. Inputs and outputs are
declared first, then the blocks follow, each behind an empty line. Every line is ended by a line
feed.
-/

namespace CircuitGraph.Circom

/-- A declared input: a signal, or an array when a size is given. -/
structure InputDecl where
  /-- The name. -/
  name : String
  /-- The size of an array. -/
  size : Option Nat
deriving DecidableEq, Repr

/-- The line of an input. -/
def InputDecl.text (d : InputDecl) : String :=
  match d.size with
  | none => s!"signal input {d.name};"
  | some size => s!"signal input {d.name}[{size}];"

/-- A template with its surroundings. -/
structure SourceUnit where
  /-- The version of the language. -/
  version : String
  /-- The paths of the included files. -/
  includes : List String
  /-- The name of the template. -/
  template : String
  /-- The inputs. -/
  inputs : List InputDecl
  /-- The names of the outputs. -/
  outputs : List String
  /-- The blocks of the body. -/
  blocks : List Block
  /-- The names of the public inputs. -/
  publics : List String
deriving DecidableEq, Repr

namespace SourceUnit

/-- The lines before the template. -/
def headLines (u : SourceUnit) : List String :=
  let version := s!"pragma circom {u.version};"
  let includes := u.includes.map fun path => s!"include \"{path}\";"
  version :: "" :: (if includes.isEmpty then [] else includes ++ [""])

/-- The lines inside the template. -/
def bodyLines (u : SourceUnit) : List String :=
  u.inputs.map (fun d => indent ++ d.text)
    ++ u.outputs.map (fun name => indent ++ s!"signal output {name};")
    ++ u.blocks.flatMap fun b => "" :: b.lines.map fun line => indent ++ line

/-- The line that instantiates the template. -/
def mainLine (u : SourceUnit) : String :=
  if u.publics.isEmpty then
    s!"component main = {u.template}();"
  else
    let names := ", ".intercalate u.publics
    s!"component main \x7bpublic [{names}]\x7d = {u.template}();"

/-- All lines. -/
def lines (u : SourceUnit) : List String :=
  u.headLines ++ s!"template {u.template}() \x7b" :: u.bodyLines ++ ["\x7d", "", u.mainLine]

/-- The source text. -/
def text (u : SourceUnit) : String := Text.joinLines u.lines

end SourceUnit

end CircuitGraph.Circom
