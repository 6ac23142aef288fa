import FogNet.CommandLine.Arguments
import FogNet.CommandLine.LogFilter
import FogNet.Form.Snapshot
import FogNet.Scenario.Build
import FogNet.Scenario.Reading
import FogNet.World.Summary

/-!
# Execution

What the program prints and how it ends. A run reads its scenario, builds the network, runs it to
the horizon and prints a summary or the serialized final state; nothing is printed when a part
fails.
-/

namespace FogNet

/-- Why a run comes to no result. -/
inductive Failure where
  /-- The filter of log records is not well formed. -/
  | logFilter
  /-- The scenario cannot be read. -/
  | loading (path : String) (cause : Fault)
  /-- The network cannot be built. -/
  | building (cause : Fault)
  /-- A message could not be dealt with. -/
  | running (cause : Fault)

/-- The first line about a failure. -/
def Failure.headline : Failure → String
  | logFilter => "invalid filter directive"
  | loading path _ => s!"loading {path}"
  | building _ => "building topology"
  | running _ => "simulation aborted"

/-- What is behind a failure. -/
def Failure.cause? : Failure → Option Fault
  | logFilter => none
  | loading _ cause => some cause
  | building cause => some cause
  | running cause => some cause

/-- How the program ends. -/
inductive Outcome where
  /-- With something printed. -/
  | printed (text : String)
  /-- With a failure. -/
  | failed (failure : Failure)
  /-- With a remark on its arguments. -/
  | misused

namespace Outcome

/-- The exit code. -/
def exitCode : Outcome → Nat
  | printed _ => 0
  | failed _ => 1
  | misused => 2

/-- What is printed. -/
def output : Outcome → String
  | printed text => text
  | failed _ => ""
  | misused => ""

/-- The line about a failure. -/
def errorLine? : Outcome → Option String
  | printed _ => none
  | failed failure => some failure.headline
  | misused => none

end Outcome

namespace CommandLine

/-- The name and the version of the program. -/
def versionLine : String := "puddlesim 0.1.0\n"

/-- The lines of the overview of the arguments. -/
def overviewLines : List String :=
  ["Usage: puddlesim [OPTIONS] <SCENARIO>", "", "Arguments:",
    "  <SCENARIO>  TOML scenario file", "", "Options:",
    "      --until <UNTIL>  Stop at this virtual time instead of the end time of the scenario",
    "      --json           Print the final state as JSON instead of a summary",
    "      --log <LOG>      Log filter [default: info]", "  -h, --help           Print help",
    "  -V, --version        Print version"]

/-- The overview of the arguments. -/
def overview : String := String.join (overviewLines.map (· ++ "\n"))

end CommandLine

namespace RunOptions

/-- The final state as it is printed. -/
def report (o : RunOptions) (processed : Nat) (s : Snapshot) : String :=
  if o.json then s.toJson.pretty ++ "\n" else s.summary o.path processed

/-- The run of a scenario with at most `budget` events; `none` says that more would be needed. -/
def runScenario (budget : Nat) (o : RunOptions) (scenario : Scenario) : Option Outcome :=
  match scenario.build with
  | .error cause => some (.failed (.building cause))
  | .ok start =>
    let horizon := o.horizon.getD scenario.settings.endTime
    (start.runUntil World.handle horizon budget).map fun result =>
      match result with
      | .error cause _ => .failed (.running cause)
      | .ok _ final =>
        .printed (o.report (final.handedOutSince start)
          (final.state.snapshot final.simulation.clock))

/-- The run of the scenario in a file, by what reading the file has brought. -/
def execute (budget : Nat) (o : RunOptions) (content : Except ReadFailure String) :
    Option Outcome :=
  if LogFilter.isWellFormed o.log then
    match Scenario.load o.path content with
    | .error cause => some (.failed (.loading o.path cause))
    | .ok scenario => o.runScenario budget scenario
  else some (.failed .logFilter)

end RunOptions

end FogNet
