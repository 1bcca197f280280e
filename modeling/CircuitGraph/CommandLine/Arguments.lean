/-!
# Arguments

The command line is a subcommand with its options and its positional arguments, in any order. An
option is written `--name value` or `--name=value`; after `--` everything is positional. Nothing may
be given twice, and a value of its own may not begin with a dash unless it is a dash.

Letters behind a single dash are flags that take effect one after the other. The only such flags ask
for help or for the version, which ends the reading, so the first letter decides and those behind it
are never looked at.
-/

namespace CircuitGraph.CommandLine

/-- The form of an input file. -/
inductive Format
  /-- A graph. -/
  | graph
  /-- A document of the visual editor. -/
  | editor
deriving DecidableEq, Repr

/-- The arguments of a compilation. -/
structure CompileArgs where
  /-- The input file. -/
  input : String
  /-- The form of the input file. -/
  format : Format
  /-- The configuration file. -/
  config : Option String
  /-- The name that replaces the configured template name. -/
  templateName : Option String
  /-- The file for the source. -/
  out : Option String
  /-- Whether a report is printed instead of source. -/
  json : Bool
deriving DecidableEq, Repr

/-- What is asked for. -/
inductive Invocation
  /-- To compile a file. -/
  | compile (args : CompileArgs)
  /-- To write a graph of the gallery. -/
  | template (name : String) (out : Option String)
  /-- To list the gallery. -/
  | templates
  /-- To print the version. -/
  | version
  /-- To print the usage. -/
  | help
deriving DecidableEq, Repr

/-- Why arguments are not followed to their end. -/
inductive Stop
  /-- Help is asked for. -/
  | help
  /-- The arguments are wrong. -/
  | misuse (reason : String)
deriving DecidableEq, Repr

/-- An option of a subcommand. -/
structure OptionSpec where
  /-- The name, without dashes. -/
  name : String
  /-- The values that are accepted; an option without a value is a flag. -/
  accepts : Option (String → Bool)

/-- The options and positional arguments of a subcommand. -/
structure CommandSpec where
  /-- The options. -/
  options : List OptionSpec
  /-- The values that are accepted for each positional argument. -/
  positionals : List (String → Bool)

/-- The arguments that have been read. -/
structure Arguments where
  /-- The positional arguments in order. -/
  positionals : List String
  /-- The options by name; a flag has an empty value. -/
  options : List (String × String)
deriving DecidableEq, Repr

namespace Arguments

/-- The value of an option. -/
def value? (a : Arguments) (name : String) : Option String := a.options.lookup name

/-- Whether a flag is given. -/
def hasFlag (a : Arguments) (name : String) : Bool := (a.value? name).isSome

/-- Adds a positional argument, if there is room for one that is accepted. -/
def addPositional (spec : CommandSpec) (a : Arguments) (arg : String) : Except Stop Arguments :=
  match spec.positionals[a.positionals.length]? with
  | none => .error (.misuse s!"unexpected argument '{arg}'")
  | some accepts =>
    if accepts arg then .ok { a with positionals := a.positionals ++ [arg] }
    else .error (.misuse s!"invalid value '{arg}'")

/-- Adds an option, if it has not been given before. -/
def addOption (a : Arguments) (name value : String) : Except Stop Arguments :=
  if a.hasFlag name then .error (.misuse s!"the argument '--{name}' cannot be used multiple times")
  else .ok { a with options := (name, value) :: a.options }

/-- Adds an option with a value that has to be accepted. -/
def addValue (a : Arguments) (name : String) (accepts : String → Bool) (value : String) :
    Except Stop Arguments :=
  if accepts value then a.addOption name value
  else .error (.misuse s!"invalid value '{value}' for '--{name}'")

end Arguments

/-- Whether an argument looks like an option: a dash with something behind it. -/
def looksLikeOption (arg : String) : Bool :=
  match arg.toList with
  | '-' :: _ :: _ => true
  | _ => false

/-- The name of a long option and the value attached to it by an equals sign. -/
def splitLong? (arg : String) : Option (String × Option String) :=
  match arg.toList with
  | '-' :: '-' :: cs =>
    let name := String.ofList (cs.takeWhile (· != '='))
    match cs.dropWhile (· != '=') with
    | [] => some (name, none)
    | _ :: value => some (name, some (String.ofList value))
  | _ => none

/-- The first of the flags behind a single dash. -/
def firstFlag? (arg : String) : Option Char :=
  match arg.toList with
  | '-' :: c :: _ => if c = '-' then none else some c
  | _ => none

/-- Whether an argument asks for help. -/
def asksForHelp (arg : String) : Bool := arg == "--help" || firstFlag? arg == some 'h'

/-- Whether an argument asks for the version. -/
def asksForVersion (arg : String) : Bool := arg == "--version" || firstFlag? arg == some 'V'

/-- Reads the arguments of a subcommand. `ended` tells whether the options have ended. -/
def scan (spec : CommandSpec) (ended : Bool) (a : Arguments) : List String → Except Stop Arguments
  | [] => .ok a
  | arg :: args =>
    if ended || !looksLikeOption arg then do
      scan spec ended (← a.addPositional spec arg) args
    else if arg = "--" then
      scan spec true a args
    else if asksForHelp arg then
      .error .help
    else
      match splitLong? arg with
      | none => .error (.misuse s!"unexpected argument '{arg}'")
      | some (name, attached) =>
        match spec.options.find? fun o => o.name == name, attached with
        | none, _ => .error (.misuse s!"unexpected argument '--{name}'")
        | some ⟨_, none⟩, none => do scan spec ended (← a.addOption name "") args
        | some ⟨_, none⟩, some _ => .error (.misuse s!"unexpected value for '--{name}'")
        | some ⟨_, some accepts⟩, some value => do
          scan spec ended (← a.addValue name accepts value) args
        | some ⟨_, some accepts⟩, none =>
          match args with
          | [] => .error (.misuse s!"a value is required for '--{name}'")
          | value :: args =>
            if looksLikeOption value then
              .error (.misuse s!"a value is required for '--{name}'")
            else do
              scan spec ended (← a.addValue name accepts value) args

/-- The arguments of a subcommand, all of whose positional arguments have to be there. -/
def readArguments (spec : CommandSpec) (args : List String) : Except Stop Arguments := do
  let a ← scan spec false ⟨[], []⟩ args
  if a.positionals.length = spec.positionals.length then
    return a
  else
    throw (.misuse "a required argument is missing")

/-- Whether a text can be a path. -/
def isPath (s : String) : Bool := !s.isEmpty

/-- The format of a name. -/
def formatOfName? : String → Option Format
  | "graph" => some .graph
  | "editor" => some .editor
  | _ => none

/-- The subcommand that compiles a file. -/
def compileSpec : CommandSpec where
  options :=
    [⟨"format", some fun s => (formatOfName? s).isSome⟩, ⟨"config", some isPath⟩,
     ⟨"template-name", some fun _ => true⟩, ⟨"out", some isPath⟩, ⟨"json", none⟩]
  positionals := [isPath]

/-- The subcommand that writes a graph of the gallery. -/
def templateSpec : CommandSpec where
  options := [⟨"out", some isPath⟩]
  positionals := [fun _ => true]

/-- The subcommand that lists the gallery. -/
def templatesSpec : CommandSpec := ⟨[], []⟩

/-- A compilation, given the template name of the environment. -/
def compileOf (environment : Option String) (a : Arguments) : Except Stop Invocation :=
  match a.positionals with
  | [input] =>
    .ok (.compile
      { input
        format := ((a.value? "format").bind formatOfName?).getD .graph
        config := a.value? "config"
        templateName := (a.value? "template-name").or environment
        out := a.value? "out"
        json := a.hasFlag "json" })
  | _ => .error (.misuse "a required argument is missing")

/-- A request for a graph of the gallery. -/
def templateOf (a : Arguments) : Except Stop Invocation :=
  match a.positionals with
  | [name] => .ok (.template name (a.value? "out"))
  | _ => .error (.misuse "a required argument is missing")

/-- The names of the subcommands. -/
def commandNames : List String := ["compile", "template", "templates", "help"]

/-- What the arguments ask for, given the template name of the environment. -/
def readInvocation (environment : Option String) : List String → Except Stop Invocation
  | [] => .error (.misuse "a subcommand is required")
  | "compile" :: args => readArguments compileSpec args >>= compileOf environment
  | "template" :: args => readArguments templateSpec args >>= templateOf
  | "templates" :: args => (readArguments templatesSpec args).map fun _ => .templates
  | ["help"] => .ok .help
  | ["help", name] =>
    if commandNames.contains name then .ok .help
    else .error (.misuse s!"unrecognized subcommand '{name}'")
  | arg :: _ =>
    if asksForVersion arg then .ok .version
    else if asksForHelp arg then .ok .help
    else .error (.misuse s!"unexpected argument '{arg}'")

/-- What the arguments ask for; a request for help may stand among those of a subcommand. -/
def invocation (environment : Option String) (args : List String) : Except String Invocation :=
  match readInvocation environment args with
  | .ok i => .ok i
  | .error .help => .ok .help
  | .error (.misuse reason) => .error reason

end CircuitGraph.CommandLine
