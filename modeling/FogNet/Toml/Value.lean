import FogNet.Toml.Number
import FogNet.Toml.Quoted
import FogNet.Toml.Table

/-!
# Reading keys and values

Lists and inline tables may be nested in each other up to a depth, on which the reader recurses. A
list may stretch over lines and end with a comma; an inline table may not.
-/

namespace FogNet.Toml

/-- The bound that the depth of nesting and the length of dotted keys stay below. -/
def depthLimit : Nat := 80

/-- One part of a key: letters, digits, hyphens and underscores, or a quoted text on one line. -/
def readKeyPart (text : List Char) : Option (String × List Char) :=
  match text with
  | [] => none
  | c :: _ =>
    if c = '"' || c.toNat = 39 then readQuoted false text
    else
      let part := text.takeWhile isBareKey
      if part.isEmpty then none else some (String.ofList part, text.drop part.length)

/-- The parts of a key between points, blanks around each. -/
def readKeyParts : Nat → List Char → Option (List String × List Char)
  | 0, _ => none
  | fuel + 1, text => do
    let (part, rest) ← readKeyPart (skipBlanks text)
    match skipBlanks rest with
    | '.' :: rest =>
      let (parts, rest) ← readKeyParts fuel rest
      return (part :: parts, rest)
    | rest => return ([part], rest)

/-- A key: the tables it passes through, its last part, and what follows. -/
def readKey (text : List Char) : Option (List String × String × List Char) := do
  let (parts, rest) ← readKeyParts (text.length + 1) text
  let name ← parts.getLast?
  if parts.length < depthLimit then return (parts.dropLast, name, rest) else none

/-- A value that is neither a list nor an inline table. -/
def readScalar (text : List Char) : Option (Toml × List Char) :=
  match text with
  | [] => none
  | c :: _ =>
    if c = '"' || c.toNat = 39 then (readQuoted true text).map fun (s, rest) => (.str s, rest)
    else if c = 't' then (word? ['t', 'r', 'u', 'e'] text).map fun rest => (.bool true, rest)
    else if c = 'f' then (word? ['f', 'a', 'l', 's', 'e'] text).map fun rest => (.bool false, rest)
    else
      match afterDateTime? text with
      | some rest => some (.datetime, rest)
      | none =>
        match readFraction text with
        | some (x, rest) => some (.float x, rest)
        | none =>
          match readSpecial text with
          | some (x, rest) => some (.float x, rest)
          | none => (readInteger text).map fun (n, rest) => (.int n, rest)

/-- The items of a list up to its end, given how an item is read. -/
def readItems (item : List Char → Option (Toml × List Char)) :
    Nat → List Char → Option (List Toml × List Char)
  | 0, _ => none
  | fuel + 1, text =>
    match skipVoid? text with
    | none => none
    | some (']' :: rest) => some ([], rest)
    | some text =>
      match item text with
      | none => none
      | some (v, rest) =>
        match skipVoid? rest with
        | some (',' :: rest) => (readItems item fuel rest).map fun (vs, rest) => (v :: vs, rest)
        | some (']' :: rest) => some ([v], rest)
        | _ => none

/-- A key, an equals sign and a value, given how a value is read. -/
def readAssignment (value : List Char → Option (Toml × List Char)) (text : List Char) :
    Option (Assignment × List Char) := do
  let (path, name, rest) ← readKey text
  let rest ← word? ['='] rest
  let (v, rest) ← value (skipBlanks rest)
  return ((path, name, v), rest)

/-- The entries of an inline table up to its end, at least one. -/
def readAssignments (value : List Char → Option (Toml × List Char)) :
    Nat → List Char → Option (List Assignment × List Char)
  | 0, _ => none
  | fuel + 1, text =>
    match readAssignment value text with
    | none => none
    | some (a, rest) =>
      match skipBlanks rest with
      | ',' :: rest => (readAssignments value fuel rest).map fun (as, rest) => (a :: as, rest)
      | '\x7d' :: rest => some ([a], rest)
      | _ => none

/-- An inline table whose opening brace has been read. -/
def readInline (value : List Char → Option (Toml × List Char)) (text : List Char) :
    Option (Toml × List Char) :=
  match skipBlanks text with
  | '\x7d' :: rest => some (.table [], rest)
  | text => do
    let (assignments, rest) ← readAssignments value (text.length + 1) text
    let entries ← assign assignments []
    return (.table (finishEntries entries), rest)

/-- A value in which lists and inline tables are nested no deeper than `depth`. -/
def readValue : Nat → List Char → Option (Toml × List Char)
  | 0, text => readScalar text
  | depth + 1, text =>
    match text with
    | '[' :: rest =>
      (readItems (readValue depth) (rest.length + 1) rest).map fun (vs, rest) => (.array vs, rest)
    | '\x7b' :: rest => readInline (readValue depth) rest
    | text => readScalar text

end FogNet.Toml
