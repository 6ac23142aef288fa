import FogNet.Decimal.Layout

/-!
# Serialized values

The trees that serialized data consist of. Integers and other numbers are kept apart, since data
that asks for an integer refuses `1.0`. A number is always finite: what is not has the form `null`.
-/

namespace FogNet

/-- A serialized value. -/
inductive Json where
  /-- The absence of a value. -/
  | null
  /-- A truth value. -/
  | bool (b : Bool)
  /-- A number written without point and exponent. -/
  | int (n : Int)
  /-- Any other number. -/
  | float (x : Float)
  /-- A text. -/
  | str (s : String)
  /-- A list. -/
  | arr (items : List Json)
  /-- Fields by name, in order. -/
  | obj (fields : List (String × Json))

namespace Json

/-- Numbers are written positionally from `0.00001` up to sixteen digits, else with a signed
exponent. -/
def numberLayout : Decimal.Layout := ⟨-5, 15, true⟩

/-- The text of a number; what is not finite has none and is absent. -/
def numberText (x : Float) : String := (numberLayout.render? x).getD "null"

/-- A hexadecimal digit. -/
def hexDigit (n : Nat) : Char := (Nat.digitChar n)

/-- A character inside a quoted text. -/
def escapeChar (c : Char) : List Char :=
  if c = '"' then ['\\', '"']
  else if c = '\\' then ['\\', '\\']
  else if c = '\n' then ['\\', 'n']
  else if c = '\r' then ['\\', 'r']
  else if c = '\t' then ['\\', 't']
  else if c.toNat = 8 then ['\\', 'b']
  else if c.toNat = 12 then ['\\', 'f']
  else if c.toNat < 32 then
    ['\\', 'u', '0', '0', hexDigit (c.toNat / 16), hexDigit (c.toNat % 16)]
  else [c]

/-- A text in quotes. -/
def quote (s : String) : String :=
  String.ofList ('"' :: s.toList.flatMap escapeChar ++ ['"'])

/-! ## On one line -/

mutual

/-- The value on one line, without blanks. -/
def compact : Json → String
  | null => "null"
  | bool b => if b then "true" else "false"
  | int n => toString n
  | float x => numberText x
  | str s => quote s
  | arr items => "[" ++ ",".intercalate (compactItems items) ++ "]"
  | obj fields => "\x7b" ++ ",".intercalate (compactFields fields) ++ "\x7d"

/-- The items of a list on one line each. -/
def compactItems : List Json → List String
  | [] => []
  | v :: rest => compact v :: compactItems rest

/-- The fields of an object on one line each. -/
def compactFields : List (String × Json) → List String
  | [] => []
  | (name, v) :: rest => (quote name ++ ":" ++ compact v) :: compactFields rest

end

/-! ## On many lines -/

/-- The start of a line at a depth, two blanks for each level. -/
def newLine (depth : Nat) : String := "\n" ++ String.ofList (List.replicate (2 * depth) ' ')

/-- Items between brackets, each on a line of its own; without items nothing but the brackets. -/
def bracketed (opening closing : String) (depth : Nat) (items : List String) : String :=
  if items.isEmpty then opening ++ closing
  else
    opening ++ newLine (depth + 1) ++ ("," ++ newLine (depth + 1)).intercalate items ++
      newLine depth ++ closing

mutual

/-- The value on many lines, its inner lines indented from a depth. -/
def indented (depth : Nat) : Json → String
  | arr items => bracketed "[" "]" depth (indentedItems (depth + 1) items)
  | obj fields => bracketed "\x7b" "\x7d" depth (indentedFields (depth + 1) fields)
  | null => "null"
  | bool b => if b then "true" else "false"
  | int n => toString n
  | float x => numberText x
  | str s => quote s

/-- The items of a list at a depth. -/
def indentedItems (depth : Nat) : List Json → List String
  | [] => []
  | v :: rest => indented depth v :: indentedItems depth rest

/-- The fields of an object at a depth. -/
def indentedFields (depth : Nat) : List (String × Json) → List String
  | [] => []
  | (name, v) :: rest => (quote name ++ ": " ++ indented depth v) :: indentedFields depth rest

end

/-- The value on many lines. -/
def pretty (v : Json) : String := indented 0 v

end Json

end FogNet
