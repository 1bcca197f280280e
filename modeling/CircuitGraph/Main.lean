import CircuitGraph.CommandLine.Run

/-!
# The program

Reads the files that a command needs, runs the command, writes the file that it gives and prints its
output.
-/

namespace CircuitGraph

open CircuitGraph.CommandLine

/-- The reason that an operating system gives for a failure. -/
def reasonOf : IO.Error → String
  | .noFileOrDirectory .. => "No such file or directory (os error 2)"
  | error => error.toString

/-- The content of a file, or why it cannot be read. -/
def readInput (path : String) : IO (String × Except String String) := do
  try
    return (path, .ok (← IO.FS.readFile path))
  catch error =>
    return (path, .error (reasonOf error))

/-- Prints what a run leaves behind. -/
def report (outcome : Outcome) : IO UInt32 := do
  IO.print outcome.stdout
  IO.eprint outcome.stderr
  return outcome.exit.toUInt32

end CircuitGraph

open CircuitGraph CircuitGraph.CommandLine in
/-- The program. -/
def main (args : List String) : IO UInt32 := do
  let environment ← IO.getEnv "CIRCUIT_BUILDER_TEMPLATE_NAME"
  let files ← (filesRead environment args).mapM readInput
  let host : Host :=
    { templateName := environment
      read := fun path => (files.lookup path).getD (.error "not read")
      writeFault := fun _ => none }
  let outcome := run host args
  match outcome.written with
  | none => report outcome
  | some (path, text) =>
    try
      IO.FS.writeFile path text
      report outcome
    catch error =>
      report (run { host with writeFault := fun _ => some (reasonOf error) } args)
