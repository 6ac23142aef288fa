import FogNet.CommandLine.Execution

/-!
# The program

Reads the scenario file that the arguments name, and prints what the run of it comes to.
-/

namespace FogNet

/-- More events than any run hands out. -/
def eventBudget : Nat := 4611686018427387904

/-- What reading a file brings. -/
def readScenarioFile (path : String) : IO (Except ReadFailure String) := do
  match ← (IO.FS.readFile path).toBaseIO with
  | .ok text => return .ok text
  | .error (.noFileOrDirectory ..) => return .error .missing
  | .error e => return .error (.other (toString e))

/-- Print an outcome and give its exit code. -/
def Outcome.finish (o : Outcome) : IO UInt32 := do
  IO.print o.output
  match o with
  | .printed _ => pure ()
  | .failed failure =>
    IO.eprintln s!"Error: {failure.headline}"
    match failure.cause? with
    | some cause => IO.eprintln s!"\nCaused by:\n    {cause.message}"
    | none => pure ()
  | .misused => IO.eprint CommandLine.overview
  return UInt32.ofNat o.exitCode

end FogNet

open FogNet in
/-- The program. -/
def main (arguments : List String) : IO UInt32 := do
  match Request.ofArguments arguments with
  | .version => (Outcome.printed CommandLine.versionLine).finish
  | .help => (Outcome.printed CommandLine.overview).finish
  | .misuse => Outcome.misused.finish
  | .run options =>
    match options.execute eventBudget (← readScenarioFile options.path) with
    | some outcome => outcome.finish
    | none => return 1
