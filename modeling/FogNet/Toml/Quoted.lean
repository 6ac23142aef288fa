import FogNet.Toml.Character

/-!
# Quoted text

The four kinds of quoted text: on one line or on many, with escapes or taken as it is. Text on many
lines ends at the first run of three quotes or more, of which up to two belong to the text; a line
end right after the opening quotes is dropped, and every line end counts as a line feed.
-/

namespace FogNet.Toml

/-- The character with a number given by a fixed count of hexadecimal digits. -/
def readCodePoint (count : Nat) (text : List Char) : Option (Char × List Char) :=
  let digits := text.take count
  if digits.length = count && digits.all isHexDigit then
    let n := ofDigits 16 digits
    if n.isValidChar then some (Char.ofNat n, text.drop count) else none
  else none

/-- The character that follows a backslash stands for. -/
def readEscape : List Char → Option (Char × List Char)
  | 'b' :: rest => some (Char.ofNat 8, rest)
  | 't' :: rest => some ('\t', rest)
  | 'n' :: rest => some ('\n', rest)
  | 'f' :: rest => some (Char.ofNat 12, rest)
  | 'r' :: rest => some ('\r', rest)
  | '"' :: rest => some ('"', rest)
  | '\\' :: rest => some ('\\', rest)
  | 'u' :: rest => readCodePoint 4 rest
  | 'U' :: rest => readCodePoint 8 rest
  | _ => none

/-- Text with escapes up to its closing quote; what was read before comes latest first. -/
def readBasic : Nat → List Char → List Char → Option (List Char × List Char)
  | 0, _, _ => none
  | _ + 1, _, [] => none
  | fuel + 1, done, c :: rest =>
    if c = '"' then some (done.reverse, rest)
    else if c = '\\' then
      match readEscape rest with
      | some (e, rest) => readBasic fuel (e :: done) rest
      | none => none
    else if isPrintable c then readBasic fuel (c :: done) rest
    else none

/-- Text without escapes up to its closing quote. -/
def readLiteral (text : List Char) : Option (List Char × List Char) :=
  let body := text.takeWhile fun c => isPrintable c && c.toNat != 39
  match text.drop body.length with
  | c :: rest => if c.toNat = 39 then some (body, rest) else none
  | [] => none

/-- What follows the blanks and line ends that a backslash at the end of a line hides. -/
def hiddenLineEnd? (text : List Char) : Option (List Char) :=
  (newline? (skipBlanks text)).map fun rest =>
    rest.dropWhile fun c => isBlank c || c == '\n' || c == '\r'

/-- One piece of text on many lines that is not a quote: the characters it adds, and what comes
after it. -/
def readPiece (escapes : Bool) : List Char → Option (List Char × List Char)
  | [] => none
  | c :: rest =>
    if escapes && c == '\\' then
      match hiddenLineEnd? rest with
      | some rest => some ([], rest)
      | none => (readEscape rest).map fun (e, rest) => ([e], rest)
    else
      match newline? (c :: rest) with
      | some rest => some (['\n'], rest)
      | none => if isPrintable c then some ([c], rest) else none

/-- Text on many lines up to its closing quotes; what was read before comes latest first. -/
def readLines (escapes : Bool) (mark : Char) :
    Nat → List Char → List Char → Option (List Char × List Char)
  | 0, _, _ => none
  | fuel + 1, done, text =>
    let quotes := (text.takeWhile (· == mark)).length
    if 3 ≤ quotes then
      let kept := min (quotes - 3) 2
      some ((List.replicate kept mark ++ done).reverse, text.drop (3 + kept))
    else
      let done := List.replicate quotes mark ++ done
      match readPiece escapes (text.drop quotes) with
      | some (piece, rest) => readLines escapes mark fuel (piece ++ done) rest
      | none => none

/-- What follows a line end, or the text itself if there is none. -/
def dropNewline (text : List Char) : List Char := (newline? text).getD text

/-- A quoted text of any kind, which starts here with its quotes. -/
def readQuoted (many : Bool) (text : List Char) : Option (String × List Char) :=
  let found : Option (List Char × List Char) :=
    match text with
    | [] => none
    | c :: rest =>
      let tripled := many && [c, c].isPrefixOf rest
      let body := dropNewline (rest.drop 2)
      if c = '"' then
        if tripled then readLines true c (body.length + 1) [] body
        else readBasic (rest.length + 1) [] rest
      else if c.toNat = 39 then
        if tripled then readLines false c (body.length + 1) [] body
        else readLiteral rest
      else none
  found.map fun (chars, rest) => (String.ofList chars, rest)

end FogNet.Toml
