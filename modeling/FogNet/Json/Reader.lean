import FogNet.Decimal.Reading
import FogNet.Json.Value

/-!
# Reading serialized text

Each reader takes the characters still to be read and gives back a result with the rest. Nesting is
limited by a depth that the length of the text bounds. Of two fields with one name the later counts.
-/

namespace FogNet.Json

/-- The text after leading blanks. -/
def skipBlanks : List Char → List Char
  | [] => []
  | c :: rest =>
    if c = ' ' ∨ c = '\n' ∨ c = '\t' ∨ c = '\r' then skipBlanks rest else c :: rest

/-- The value of a hexadecimal digit. -/
def hexValue? (c : Char) : Option Nat :=
  if '0' ≤ c ∧ c ≤ '9' then some (c.toNat - '0'.toNat)
  else if 'a' ≤ c ∧ c ≤ 'f' then some (c.toNat - 'a'.toNat + 10)
  else if 'A' ≤ c ∧ c ≤ 'F' then some (c.toNat - 'A'.toNat + 10)
  else none

/-- The number that four hexadecimal digits stand for, and the rest. -/
def readHex4 : List Char → Option (Nat × List Char)
  | a :: b :: c :: d :: rest => do
    let a ← hexValue? a
    let b ← hexValue? b
    let c ← hexValue? c
    let d ← hexValue? d
    return (((a * 16 + b) * 16 + c) * 16 + d, rest)
  | _ => none

/-- The character of an escape by number: one unit, or a high and a low one. -/
def readUnit (text : List Char) : Option (Char × List Char) := do
  let (high, rest) ← readHex4 text
  if 0xD800 ≤ high ∧ high < 0xDC00 then
    match rest with
    | '\\' :: 'u' :: rest =>
      let (low, rest) ← readHex4 rest
      if 0xDC00 ≤ low ∧ low < 0xE000 then
        return (Char.ofNat (0x10000 + (high - 0xD800) * 0x400 + (low - 0xDC00)), rest)
      else none
    | _ => none
  else if 0xDC00 ≤ high ∧ high < 0xE000 then none
  else return (Char.ofNat high, rest)

/-- The character that a backslash and the following characters stand for. -/
def readEscape : List Char → Option (Char × List Char)
  | '"' :: rest => some ('"', rest)
  | '\\' :: rest => some ('\\', rest)
  | '/' :: rest => some ('/', rest)
  | 'b' :: rest => some (Char.ofNat 8, rest)
  | 'f' :: rest => some (Char.ofNat 12, rest)
  | 'n' :: rest => some ('\n', rest)
  | 'r' :: rest => some ('\r', rest)
  | 't' :: rest => some ('\t', rest)
  | 'u' :: rest => readUnit rest
  | _ => none

/-- The characters up to the closing quote, latest first, and the rest. -/
def readQuoted : Nat → List Char → List Char → Option (List Char × List Char)
  | 0, _, _ => none
  | _ + 1, _, [] => none
  | fuel + 1, done, c :: rest =>
    if c = '"' then some (done, rest)
    else if c = '\\' then do
      let (e, rest) ← readEscape rest
      readQuoted fuel (e :: done) rest
    else if c.toNat < 32 then none
    else readQuoted fuel (c :: done) rest

/-- A quoted text whose opening quote has been read. -/
def readString (text : List Char) : Option (String × List Char) :=
  (readQuoted (text.length + 1) [] text).map fun (done, rest) => (String.ofList done.reverse, rest)

/-- The exponent of a number, zero if there is none. -/
def readExponent (text : List Char) : Option (Option Int × List Char) :=
  match text with
  | c :: rest =>
    if c = 'e' ∨ c = 'E' then
      let (negative, rest) :=
        match rest with
        | '-' :: rest => (true, rest)
        | '+' :: rest => (false, rest)
        | _ => (false, rest)
      let digits := rest.takeWhile Char.isDigit
      if digits.isEmpty then none
      else some (some (Decimal.signedDigits negative digits), rest.dropWhile Char.isDigit)
    else some (none, text)
  | [] => some (none, [])

/-- The digits behind a point, none if there is no point. -/
def readFraction (text : List Char) : Option (Option (List Char) × List Char) :=
  match text with
  | '.' :: rest =>
    let digits := rest.takeWhile Char.isDigit
    if digits.isEmpty then none else some (some digits, rest.dropWhile Char.isDigit)
  | _ => some (none, text)

/-- A number whose sign has been read. -/
def readMagnitude (negative : Bool) (text : List Char) : Option (Json × List Char) := do
  let whole := text.takeWhile Char.isDigit
  if whole.isEmpty || (whole.length > 1 && whole.head? == some '0') then none
  let (fraction, rest) ← readFraction (text.dropWhile Char.isDigit)
  let (exponent, rest) ← readExponent rest
  let integral := fraction.isNone && exponent.isNone
  if integral && !(negative && Decimal.ofDigits whole == 0) then
    return (int (Decimal.signedDigits negative whole), rest)
  else
    let x := Decimal.ofParts whole (fraction.getD []) (exponent.getD 0)
    if x.isFinite then return (float (if negative then -x else x), rest) else none

/-- The rest after a word that the text starts with. -/
def afterWord (word text : List Char) : Option (List Char) :=
  if word.isPrefixOf text then some (text.drop word.length) else none

/-- Put a field at the end; an earlier one of the same name goes. -/
def addField (fields : List (String × Json)) (name : String) (v : Json) : List (String × Json) :=
  fields.filter (fun f => f.1 != name) ++ [(name, v)]

mutual

/-- A value of limited depth, and the rest. -/
def readValue : Nat → List Char → Option (Json × List Char)
  | 0, _ => none
  | depth + 1, text =>
    match skipBlanks text with
    | '"' :: rest => (readString rest).map fun (s, rest) => (str s, rest)
    | '[' :: rest =>
      match skipBlanks rest with
      | ']' :: rest => some (arr [], rest)
      | rest => readItems depth [] rest
    | '\x7b' :: rest =>
      match skipBlanks rest with
      | '\x7d' :: rest => some (obj [], rest)
      | rest => readFields depth [] rest
    | '-' :: rest => readMagnitude true rest
    | 't' :: rest => (afterWord ['r', 'u', 'e'] rest).map fun rest => (bool true, rest)
    | 'f' :: rest => (afterWord ['a', 'l', 's', 'e'] rest).map fun rest => (bool false, rest)
    | 'n' :: rest => (afterWord ['u', 'l', 'l'] rest).map fun rest => (null, rest)
    | text => readMagnitude false text

/-- The items of a list up to its end, and the rest; those read before come latest first. -/
def readItems : Nat → List Json → List Char → Option (Json × List Char)
  | 0, _, _ => none
  | depth + 1, done, text =>
    match readValue depth text with
    | none => none
    | some (v, rest) =>
      match skipBlanks rest with
      | ',' :: rest => readItems depth (v :: done) rest
      | ']' :: rest => some (arr (v :: done).reverse, rest)
      | _ => none

/-- The fields of an object up to its end, and the rest. -/
def readFields : Nat → List (String × Json) → List Char → Option (Json × List Char)
  | 0, _, _ => none
  | depth + 1, done, text =>
    match skipBlanks text with
    | '"' :: rest =>
      match readString rest with
      | none => none
      | some (name, rest) =>
        match skipBlanks rest with
        | ':' :: rest =>
          match readValue depth rest with
          | none => none
          | some (v, rest) =>
            let done := addField done name v
            match skipBlanks rest with
            | ',' :: rest => readFields depth done rest
            | '\x7d' :: rest => some (obj done, rest)
            | _ => none
        | _ => none
    | _ => none

end

/-- The value that a text stands for. -/
def parse? (text : String) : Option Json :=
  let chars := text.toList
  match readValue (2 * chars.length + 2) chars with
  | some (v, rest) => if (skipBlanks rest).isEmpty then some v else none
  | none => none

end FogNet.Json
