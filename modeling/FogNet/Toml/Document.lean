import FogNet.Toml.Value

/-!
# Documents

A document is a sequence of lines: headers, assignments, and lines without content. Its sections are
put together from the top, each header with the assignments that follow it.
-/

namespace FogNet.Toml

/-- The content of a line. -/
inductive Line where
  /-- The header of a table: the tables it passes through, and its name. -/
  | header (path : List String) (name : String)
  /-- The header of one more table of a list. -/
  | listHeader (path : List String) (name : String)
  /-- A key and its value. -/
  | assignment (a : Assignment)

/-- A header whose opening bracket has been read. -/
def readHeader : List Char → Option (Line × List Char)
  | '[' :: rest => do
    let (path, name, rest) ← readKey rest
    let rest ← word? [']', ']'] rest
    return (.listHeader path name, rest)
  | rest => do
    let (path, name, rest) ← readKey rest
    let rest ← word? [']'] rest
    return (.header path name, rest)

/-- One line with content. -/
def readLine : List Char → Option (Line × List Char)
  | '[' :: rest => readHeader rest
  | text => (readAssignment (readValue (depthLimit - 1)) text).map fun (a, rest) =>
      (.assignment a, rest)

/-- All lines with content. -/
def readDocument : Nat → List Char → Option (List Line)
  | 0, _ => none
  | fuel + 1, text =>
    match skipBlanks text with
    | [] => some []
    | c :: rest =>
      if c = '#' || c = '\n' || c = '\r' then
        (lineRest? (c :: rest)).bind (readDocument fuel)
      else
        match readLine (c :: rest) with
        | none => none
        | some (line, rest) =>
          match lineRest? rest with
          | none => none
          | some rest => (readDocument fuel rest).map (line :: ·)

/-- The assignments up to the next header, and the lines from there. -/
def leadingAssignments : List Line → List Assignment × List Line
  | .assignment a :: rest =>
    let (as, rest) := leadingAssignments rest
    (a :: as, rest)
  | rest => ([], rest)

/-- Put the sections under headers into a table. -/
def addSections : Nat → List Line → Entries → Option Entries
  | 0, _, es => some es
  | _ + 1, [], es => some es
  | fuel + 1, line :: rest, es =>
    let (content, rest) := leadingAssignments rest
    let next :=
      match line with
      | .header path name => atPath (addTable name content) path es
      | .listHeader path name => atPath (addToTables name content) path es
      | .assignment a => assign (a :: content) es
    next.bind (addSections fuel rest)

/-- The table that a document stands for; a mark of the byte order in front is passed over. -/
def parse? (text : String) : Option Toml := do
  let chars := text.toList
  let chars := if chars.head? = some (Char.ofNat 0xFEFF) then chars.drop 1 else chars
  let lines ← readDocument (chars.length + 1) chars
  let (top, rest) := leadingAssignments lines
  let es ← assign top []
  let es ← addSections (rest.length + 1) rest es
  return .table (finishEntries es)

end FogNet.Toml
