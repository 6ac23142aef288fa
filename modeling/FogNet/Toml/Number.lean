import FogNet.Decimal.Reading
import FogNet.Toml.Character

/-!
# Numbers and dates

Integers in four bases, decimal fractions, and the special numbers, in the spellings that the format
allows: an underscore only between digits, no leading zeros in decimal notation, integers of 64 bits
with sign. A fraction too large for a double is refused unless it is negative. Dates and times are
only checked.
-/

namespace FogNet.Toml

/-- The further digits of a number, an underscore allowed before each; the underscores are left out.
An underscore that no digit follows is an error. -/
def readDigits (isDigit : Char → Bool) : List Char → Option (List Char × List Char)
  | [] => some ([], [])
  | '_' :: c :: rest =>
    if isDigit c then (readDigits isDigit rest).map fun (ds, rest) => (c :: ds, rest) else none
  | c :: rest =>
    if isDigit c then (readDigits isDigit rest).map fun (ds, rest) => (c :: ds, rest)
    else if c = '_' then none
    else some ([], c :: rest)

/-- One digit or more. -/
def readDigits1 (isDigit : Char → Bool) : List Char → Option (List Char × List Char)
  | c :: rest =>
    if isDigit c then (readDigits isDigit rest).map fun (ds, rest) => (c :: ds, rest) else none
  | [] => none

/-- Whether there is a minus sign, and what follows the sign. -/
def readSign : List Char → Bool × List Char
  | '-' :: rest => (true, rest)
  | '+' :: rest => (false, rest)
  | text => (false, text)

/-- The digits of a decimal integer: a single zero, or digits that do not start with zero. -/
def readDecimal : List Char → Option (List Char × List Char)
  | '0' :: rest => some (['0'], rest)
  | text => readDigits1 Char.isDigit text

/-- The exponent of a fraction. -/
def readExponent (text : List Char) : Option (Int × List Char) :=
  let (negative, rest) := readSign text
  (readDigits1 Char.isDigit rest).map fun (ds, rest) => (Decimal.signedDigits negative ds, rest)

/-- Whether a character starts an exponent. -/
def isExponentMark (c : Char) : Bool := c == 'e' || c == 'E'

/-- A fraction with its sign, unless it is too large. -/
def fraction? (negative : Bool) (whole places : List Char) (exponent : Int) : Option Float :=
  let x := Decimal.ofParts whole places exponent
  if negative then some (-x) else if x.isInf then none else some x

/-- A number with a point or an exponent, or nothing if it has neither. -/
def readFraction (text : List Char) : Option (Float × List Char) := do
  let (negative, rest) := readSign text
  let (whole, rest) ← readDecimal rest
  match rest with
  | '.' :: rest =>
    let (places, rest) ← readDigits1 Char.isDigit rest
    match rest with
    | c :: after =>
      if isExponentMark c then
        let (exponent, after) ← readExponent after
        return (← fraction? negative whole places exponent, after)
      else return (← fraction? negative whole places 0, rest)
    | [] => return (← fraction? negative whole places 0, rest)
  | c :: rest =>
    if isExponentMark c then
      let (exponent, rest) ← readExponent rest
      return (← fraction? negative whole [] exponent, rest)
    else none
  | [] => none

/-- The numbers that have names. -/
def readSpecial (text : List Char) : Option (Float × List Char) :=
  let (negative, rest) := readSign text
  let signed (x : Float) : Float := if negative then -x else x
  match word? ['i', 'n', 'f'] rest with
  | some rest => some (signed (1 / 0), rest)
  | none => (word? ['n', 'a', 'n'] rest).map fun rest => (signed (0 / 0), rest)

/-- The greatest integer. -/
def greatestInt : Int := 9223372036854775807

/-- The least integer. -/
def leastInt : Int := -9223372036854775808

/-- An integer within bounds. -/
def bounded (n : Int) (rest : List Char) : Option (Int × List Char) :=
  if leastInt ≤ n ∧ n ≤ greatestInt then some (n, rest) else none

/-- An integer in another base, whose mark has been read. -/
def readBase (base : Nat) (isDigit : Char → Bool) (text : List Char) : Option (Int × List Char) :=
  (readDigits1 isDigit text).bind fun (ds, rest) => bounded (ofDigits base ds) rest

/-- An integer. -/
def readInteger : List Char → Option (Int × List Char)
  | '0' :: 'x' :: rest => readBase 16 isHexDigit rest
  | '0' :: 'o' :: rest => readBase 8 (fun c => '0' ≤ c && c ≤ '7') rest
  | '0' :: 'b' :: rest => readBase 2 (fun c => c == '0' || c == '1') rest
  | text =>
    let (negative, rest) := readSign text
    (readDecimal rest).bind fun (ds, rest) => bounded (Decimal.signedDigits negative ds) rest

/-! ## Dates and times -/

/-- A number of exactly `count` digits. -/
def readFixed (count : Nat) (text : List Char) : Option (Nat × List Char) :=
  let digits := text.take count
  if digits.length = count && digits.all Char.isDigit then
    some (ofDigits 10 digits, text.drop count)
  else none

/-- A number of two digits between two bounds. -/
def readRange (low high : Nat) (text : List Char) : Option (Nat × List Char) :=
  (readFixed 2 text).filter fun (n, _) => low ≤ n && n ≤ high

/-- The length of a month. -/
def daysIn (year month : Nat) : Nat :=
  if month = 2 then
    if year % 4 = 0 ∧ (year % 100 ≠ 0 ∨ year % 400 = 0) then 29 else 28
  else if month = 4 ∨ month = 6 ∨ month = 9 ∨ month = 11 then 30
  else 31

/-- What follows a date. -/
def afterDate? (text : List Char) : Option (List Char) := do
  let (year, rest) ← readFixed 4 text
  let rest ← word? ['-'] rest
  let (month, rest) ← readRange 1 12 rest
  let rest ← word? ['-'] rest
  let (day, rest) ← readRange 1 31 rest
  if day ≤ daysIn year month then return rest else none

/-- What follows a time of day; a minute may have a leap second. -/
def afterTime? (text : List Char) : Option (List Char) := do
  let (_, rest) ← readRange 0 23 text
  let rest ← word? [':'] rest
  let (_, rest) ← readRange 0 59 rest
  let rest ← word? [':'] rest
  let (_, rest) ← readRange 0 60 rest
  match rest with
  | '.' :: c :: after => if c.isDigit then return after.dropWhile Char.isDigit else return rest
  | _ => return rest

/-- What follows the distance from universal time, which may be missing. -/
def afterOffset? : List Char → Option (List Char)
  | 'Z' :: rest => some rest
  | 'z' :: rest => some rest
  | '+' :: rest => hours rest
  | '-' :: rest => hours rest
  | rest => some rest
where
  /-- What follows hours and minutes. -/
  hours (text : List Char) : Option (List Char) := do
    let (_, rest) ← readRange 0 23 text
    let rest ← word? [':'] rest
    let (_, rest) ← readRange 0 59 rest
    return rest

/-- Whether a time of day starts here, by its hours and the colon behind them. -/
def startsTime (text : List Char) : Bool :=
  match readRange 0 23 text with
  | some (_, ':' :: _) => true
  | _ => false

/-- What follows a date, a time, or both. -/
def afterDateTime? (text : List Char) : Option (List Char) :=
  match afterDate? text with
  | none => afterTime? text
  | some [] => some []
  | some (c :: rest) =>
    if (c == 'T' || c == 't' || c == ' ') && startsTime rest then
      (afterTime? rest).bind afterOffset?
    else some (c :: rest)

end FogNet.Toml
