/-!
# Characters of the configuration format

The classes of characters that the grammar of the configuration format speaks of, and the readers
for blanks, line ends and comments. A reader takes the characters still to be read and gives back
what follows.
-/

namespace FogNet.Toml

/-- A blank or a tabulator. -/
def isBlank (c : Char) : Bool := c == ' ' || c == '\t'

/-- A character that may stand in a comment: a tabulator, or anything but a control character. -/
def isPrintable (c : Char) : Bool := c == '\t' || (32 ≤ c.toNat && c.toNat != 127)

/-- A character of a key without quotes. -/
def isBareKey (c : Char) : Bool := c.isAlphanum || c == '-' || c == '_'

/-- A hexadecimal digit. -/
def isHexDigit (c : Char) : Bool :=
  c.isDigit || ('a' ≤ c && c ≤ 'f') || ('A' ≤ c && c ≤ 'F')

/-- The value of a digit in any base up to sixteen. -/
def digitValue (c : Char) : Nat :=
  if c.isDigit then c.toNat - '0'.toNat
  else if 'a' ≤ c then c.toNat - 'a'.toNat + 10
  else c.toNat - 'A'.toNat + 10

/-- The number that digits stand for in a base. -/
def ofDigits (base : Nat) (digits : List Char) : Nat :=
  digits.foldl (fun n c => base * n + digitValue c) 0

/-- What follows blanks. -/
def skipBlanks (text : List Char) : List Char := text.dropWhile isBlank

/-- What follows the end of a line, if a line ends here. -/
def newline? : List Char → Option (List Char)
  | '\n' :: rest => some rest
  | '\r' :: '\n' :: rest => some rest
  | _ => none

/-- What follows the end of a line, or nothing at the end of the text. -/
def lineEnd? : List Char → Option (List Char)
  | [] => some []
  | text => newline? text

/-- What follows a comment, if there is one. -/
def skipComment : List Char → List Char
  | '#' :: rest => rest.dropWhile isPrintable
  | text => text

/-- What follows the rest of a line that holds nothing but blanks and a comment. -/
def lineRest? (text : List Char) : Option (List Char) := lineEnd? (skipComment (skipBlanks text))

/-- What follows blanks, line ends and comments; a comment has to end with its line. The number of
lines is limited by `fuel`. -/
def skipLines : Nat → List Char → Option (List Char)
  | 0, _ => none
  | fuel + 1, text =>
    match skipBlanks text with
    | '#' :: rest => (newline? (skipComment ('#' :: rest))).bind (skipLines fuel)
    | '\n' :: rest => skipLines fuel rest
    | '\r' :: rest => (newline? ('\r' :: rest)).bind (skipLines fuel)
    | rest => some rest

/-- What follows blanks, line ends and comments. -/
def skipVoid? (text : List Char) : Option (List Char) := skipLines (text.length + 1) text

/-- What follows a word, if the text starts with it. -/
def word? (word text : List Char) : Option (List Char) :=
  if word.isPrefixOf text then some (text.drop word.length) else none

end FogNet.Toml
