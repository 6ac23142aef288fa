import FogNet.Kernel.Time

/-!
# Arguments

What the arguments of the program ask for. They are read from left to right, and the first one that
is wrong or asks for something else than a run decides. The value of an option stands in the next
argument or behind an equals sign, and no option is given twice; after two hyphens nothing is an
option.
-/

namespace FogNet

/-- What a run is asked to do. -/
structure RunOptions where
  /-- The scenario file. -/
  path : String
  /-- The instant at which to stop, in place of the scenario's own. -/
  horizon : Option Time
  /-- Whether the final state is printed as serialized data. -/
  json : Bool
  /-- The filter of log records. -/
  log : String

/-- What the program is asked for. -/
inductive Request where
  /-- Running a scenario. -/
  | run (options : RunOptions)
  /-- The version. -/
  | version
  /-- An overview of the arguments. -/
  | help
  /-- Something that makes no sense. -/
  | misuse

namespace CommandLine

/-- What the arguments so far have said. -/
structure Given where
  /-- The scenario file. -/
  path : Option String
  /-- The instant at which to stop. -/
  horizon : Option Time
  /-- Whether serialized data is asked for. -/
  json : Bool
  /-- The filter of log records. -/
  log : Option String

/-- Nothing has been said. -/
def Given.nothing : Given := ⟨none, none, false, none⟩

/-- The filter of log records that holds unless another is given. -/
def standardLog : String := "info"

/-- The request that complete arguments make; without a scenario they make no sense. -/
def Given.request (g : Given) : Request :=
  match g.path with
  | some path => .run ⟨path, g.horizon, g.json, g.log.getD standardLog⟩
  | none => .misuse

/-- The instant that a text stands for: decimal digits, a plus sign allowed in front. -/
def instant? (text : String) : Option Time :=
  let digits :=
    match text.toList with
    | '+' :: rest => rest
    | chars => chars
  if digits.isEmpty || !digits.all Char.isDigit then none
  else
    let n := digits.foldl (fun n c => 10 * n + (c.toNat - '0'.toNat)) 0
    if n ≤ Time.limit then some n else none

/-- Take an argument that is no option: the scenario file, which has a name and is given once. -/
def Given.positional (g : Given) (argument : String) : Option Given :=
  if argument.isEmpty || g.path.isSome then none else some { g with path := some argument }

/-- Take the value of an option with a value. -/
def Given.valued (g : Given) (option value : String) : Option Given :=
  if option = "until" then
    if g.horizon.isSome then none
    else (instant? value).map fun t => { g with horizon := some t }
  else if g.log.isSome then none
  else some { g with log := some value }

/-- Whether an option takes a value. -/
def takesValue (option : String) : Bool := option == "until" || option == "log"

/-- Whether an argument can be the value of the option before it. -/
def isValue (argument : String) : Bool := argument == "-" || !argument.startsWith "-"

/-- The kinds of arguments. -/
inductive Token where
  /-- Two hyphens. -/
  | separator
  /-- Two hyphens with a name, and what follows an equals sign behind it. -/
  | long (name : String) (value : Option String)
  /-- One hyphen and a first letter. -/
  | short (letter : Char)
  /-- Anything else. -/
  | positional

/-- The kind of an argument. -/
def Token.ofArgument (argument : String) : Token :=
  match argument.toList with
  | ['-', '-'] => .separator
  | '-' :: '-' :: rest =>
    let name := rest.takeWhile (· != '=')
    let value :=
      match rest.drop name.length with
      | [] => none
      | _ :: value => some (String.ofList value)
    .long (String.ofList name) value
  | '-' :: c :: _ => .short c
  | _ => .positional

/-- The request of arguments of which none is an option. -/
def readPositionals : Given → List String → Request
  | g, [] => g.request
  | g, argument :: rest =>
    match g.positional argument with
    | some g => readPositionals g rest
    | none => .misuse

/-- The request of arguments that follow what has been said. -/
def read : Given → List String → Request
  | g, [] => g.request
  | g, argument :: rest =>
    match Token.ofArgument argument with
    | .separator => readPositionals g rest
    | .positional =>
      match g.positional argument with
      | some g => read g rest
      | none => .misuse
    | .short 'V' => .version
    | .short 'h' => .help
    | .short _ => .misuse
    | .long "version" none => .version
    | .long "help" none => .help
    | .long "json" none => if g.json then .misuse else read { g with json := true } rest
    | .long option value =>
      if takesValue option then
        match value, rest with
        | some value, rest =>
          match g.valued option value with
          | some g => read g rest
          | none => .misuse
        | none, value :: rest =>
          if isValue value then
            match g.valued option value with
            | some g => read g rest
            | none => .misuse
          else .misuse
        | none, [] => .misuse
      else .misuse

end CommandLine

/-- The request that arguments make. -/
def Request.ofArguments (arguments : List String) : Request :=
  CommandLine.read .nothing arguments

end FogNet
