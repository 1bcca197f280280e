import CircuitGraph.CommandLine.Arguments
import CircuitGraph.Config.Encoding
import CircuitGraph.Document.Import
import CircuitGraph.Graph.Gallery
import CircuitGraph.Report
import CircuitGraph.Text.Layout

/-!
# Running a command

`run` maps the arguments and the files to what the program prints, the file that it writes and the
code with which it exits. The steps of a compilation can fail in this order: the configuration file,
the configuration after the template name has been replaced, the input file, the compilation, and
writing the source. Nothing is written unless all before it has succeeded, and a report is never
written to a file.
-/

namespace CircuitGraph.CommandLine

/-- The surroundings of a run. -/
structure Host where
  /-- The template name of the environment. -/
  templateName : Option String
  /-- The content of a file, or why it cannot be read. -/
  read : String → Except String String
  /-- Why a file cannot be written, if so. -/
  writeFault : String → Option String

/-- What a run leaves behind. -/
structure Outcome where
  /-- The exit code. -/
  exit : Nat
  /-- The standard output. -/
  stdout : String
  /-- The standard error. -/
  stderr : String
  /-- The file that is written, with its content. -/
  written : Option (String × String)
deriving DecidableEq, Repr

/-- Why a run fails: what was tried, and the reason for which it failed. -/
structure Failure where
  /-- What was tried. -/
  context : String
  /-- The reason, if one is given. -/
  cause : Option String
deriving DecidableEq, Repr

/-- The lines of a text, each indented. -/
def indentLines (text : String) : String :=
  "    " ++ String.ofList (text.toList.flatMap fun c => if c = '\n' then "\n    ".toList else [c])

/-- The text of a failure. -/
def Failure.text (f : Failure) : String :=
  match f.cause with
  | none => s!"Error: {f.context}\n"
  | some cause => s!"Error: {f.context}\n\nCaused by:\n{indentLines cause}\n"

/-- A run that prints a text. -/
def printed (text : String) : Outcome := ⟨0, text, "", none⟩

/-- A run that fails. -/
def failed (f : Failure) : Outcome := ⟨1, "", f.text, none⟩

namespace Host

/-- The content of a file. -/
def load (host : Host) (path : String) : Except Failure String :=
  match host.read path with
  | .ok text => .ok text
  | .error reason => .error ⟨s!"failed to read {path}", some reason⟩

/-- The configuration of a file, or the default one. -/
def loadConfigFile (host : Host) : Option String → Except Failure Config
  | none => .ok {}
  | some path => do
    match Config.load (← host.load path) with
    | .ok config => return config
    | .error error => throw ⟨s!"invalid configuration in {path}", some error.message⟩

/-- The configuration of a compilation, with the template name replaced. -/
def loadConfig (host : Host) (args : CompileArgs) : Except Failure Config := do
  let config ← host.loadConfigFile args.config
  let config := { config with templateName := args.templateName.getD config.templateName }
  match config.check with
  | .ok () => return config
  | .error error => throw ⟨"invalid compiler configuration", some error.message⟩

/-- The graph of an input file. -/
def loadGraph (host : Host) (path : String) (format : Format) : Except Failure Graph := do
  let text ← host.load path
  match format with
  | .graph =>
    match Graph.parse? text with
    | some g => return g
    | none => throw ⟨s!"failed to parse graph {path}", none⟩
  | .editor =>
    match Document.parse? text with
    | none => throw ⟨s!"failed to parse editor document {path}", none⟩
    | some document =>
      match document.toGraph with
      | .ok g => return g
      | .error error => throw ⟨s!"failed to import editor document {path}", some error.message⟩

/-- Writes a text to a file, or to the standard output, where it is ended by a line feed. `notes` is
what stands on standard error already. -/
def deliver (host : Host) (out : Option String) (notes text : String) : Outcome :=
  match out with
  | none => ⟨0, if text.toList.getLast? = some '\n' then text else text ++ "\n", notes, none⟩
  | some path =>
    match host.writeFault path with
    | none => ⟨0, "", notes, some (path, text)⟩
    | some reason =>
      let failure : Failure := ⟨s!"failed to write {path}", some reason⟩
      ⟨1, "", notes ++ failure.text, none⟩

end Host

/-- The failure of a compilation that is blocked. -/
def blockedFailure (o : Output) : Failure :=
  ⟨s!"compilation blocked by {max 1 (fatalCount o.diagnostics)} fatal diagnostic(s)", none⟩

/-- What a compilation notes on standard error: its diagnostics, its metrics and the digest. -/
def summary (o : Output) : String :=
  let m := o.metrics
  let constraints := m.estimate.constraints.toNat
  let counts :=
    s!"nodes: {m.nodeCount}, edges: {m.edgeCount}, constraints: {constraints}, "
      ++ s!"estimated proving time: {m.estimate.time}"
  let digest := (o.digestText?.map fun text => s!"source digest: {text}").toList
  Text.joinLines (o.diagnostics.map Diagnostic.text ++ counts :: digest)

/-- The outcome of a compilation as a report. -/
def reported (o : Output) : Outcome :=
  let text := o.report.pretty ++ "\n"
  if o.isEmitted then ⟨0, text, "", none⟩ else ⟨1, text, (blockedFailure o).text, none⟩

/-- Compiles a file. -/
def runCompile (host : Host) (args : CompileArgs) : Outcome :=
  match (do return (← host.loadConfig args, ← host.loadGraph args.input args.format)) with
  | .error f => failed f
  | .ok (config, g) =>
    let o := g.compile config
    if args.json then
      reported o
    else if o.isEmitted then
      host.deliver args.out (summary o) o.code
    else
      ⟨1, "", summary o ++ (blockedFailure o).text, none⟩

/-- Writes a graph of the gallery. -/
def runTemplate (host : Host) (name : String) (out : Option String) : Outcome :=
  match exhibit? name with
  | some e => host.deliver out "" e.graph.pretty
  | none =>
    let available := ", ".intercalate (gallery.map Exhibit.name)
    failed ⟨s!"unknown template `{name}` (available: {available})", none⟩

/-- A name with the spaces that fill it up to 20 characters. -/
def padName (name : String) : String :=
  name ++ String.ofList (List.replicate (20 - name.length) ' ')

/-- The list of the gallery. -/
def galleryText : String :=
  String.join (gallery.map fun e => s!"{padName e.name} {e.title} - {e.description}\n")

/-- The program and its version. -/
def versionText : String := "circuit-builder 0.1.0\n"

/-- How the program is used. -/
def usageText : String :=
  "Usage: circuit-builder compile [OPTIONS] INPUT\n"
    ++ "       circuit-builder template [--out FILE] NAME\n"
    ++ "       circuit-builder templates\n"
    ++ "Options of compile: --format graph|editor, --config FILE, --template-name NAME,\n"
    ++ "                    --out FILE, --json\n"

/-- Runs what is asked for. -/
def Invocation.run (host : Host) : Invocation → Outcome
  | compile args => runCompile host args
  | template name out => runTemplate host name out
  | templates => printed galleryText
  | version => printed versionText
  | help => printed usageText

/-- Runs the program on its arguments. -/
def run (host : Host) (args : List String) : Outcome :=
  match invocation host.templateName args with
  | .ok i => i.run host
  | .error reason => ⟨2, "", s!"error: {reason}\n\n{usageText}", none⟩

/-- The files that a run may read. -/
def filesRead (environment : Option String) (args : List String) : List String :=
  match invocation environment args with
  | .ok (.compile a) => a.config.toList ++ [a.input]
  | _ => []

end CircuitGraph.CommandLine
