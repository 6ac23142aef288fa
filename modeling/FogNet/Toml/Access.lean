import FogNet.Toml.Document

/-!
# Parts of configuration values

How data is taken out of configuration values. A record stands there as a table of its fields or as
a list of them in their order, of which what comes after the last field is left out. A date counts
as a table with one field that no record knows.
-/

namespace FogNet.Toml

/-! ## Simple values -/

/-- An integer from zero to a limit. -/
def natUpTo? (limit : Nat) : Toml → Option Nat
  | .int n => if 0 ≤ n ∧ n ≤ limit then some n.toNat else none
  | _ => none

/-- A number; integers count as numbers. -/
def real? : Toml → Option Float
  | .float x => some x
  | .int n => some (Float.ofInt n)
  | _ => none

/-- A truth value. -/
def truth? : Toml → Option Bool
  | .bool b => some b
  | _ => none

/-- A text. -/
def text? : Toml → Option String
  | .str s => some s
  | _ => none

/-- A list whose items all decode. -/
def list? {α : Type} (decode : Toml → Option α) : Toml → Option (List α)
  | .array items => items.mapM decode
  | _ => none

/-- Two numbers, the first ones of a list. -/
def realPair? : Toml → Option (Float × Float)
  | .array (a :: b :: _) => do return (← a.real?, ← b.real?)
  | _ => none

/-! ## Records -/

/-- The fields of a record by name. -/
abbrev Fields := List (String × Toml)

/-- The fields of a record that may have others besides the named ones. -/
def openRecord? (names : List String) : Toml → Option Fields
  | .table entries => some entries
  | .array items => some (names.zip items)
  | .datetime => some []
  | _ => none

/-- The fields of a record that has none besides the named ones. -/
def record? (names : List String) : Toml → Option Fields
  | .table entries => if entries.all fun e => names.contains e.1 then some entries else none
  | .array items => some (names.zip items)
  | _ => none

namespace Fields

/-- A field that has to be there. -/
def required {α : Type} (fields : Fields) (name : String) (decode : Toml → Option α) : Option α :=
  (fields.lookup name).bind decode

/-- A field that may be missing. -/
def optional {α : Type} (fields : Fields) (name : String) (decode : Toml → Option α) :
    Option (Option α) :=
  match fields.lookup name with
  | none => some none
  | some v => (decode v).map some

/-- A field that may be missing and then has a default. -/
def withDefault {α : Type} (fields : Fields) (name : String) (decode : Toml → Option α)
    (default : α) : Option α :=
  match fields.lookup name with
  | none => some default
  | some v => decode v

end Fields

end FogNet.Toml
