import FogNet.Collection.SortedMap
import FogNet.Collection.SortedSet
import FogNet.Json.Value

/-!
# Parts of serialized values

How data is put into and taken out of serialized values: bounded integers, numbers, lists, records
with fields that are required, optional or have a default, and alternatives named by their only
field.
-/

namespace FogNet.Json

/-! ## Simple values -/

/-- The bound of numbers of entities, events, ticks and bytes. -/
def wordLimit : Nat := 18446744073709551615

/-- The bound of levels. -/
def levelLimit : Nat := 4294967295

/-- A natural number as a value. -/
def ofNat (n : Nat) : Json := .int n

/-- A number as a value; what is not finite is absent. -/
def ofReal (x : Float) : Json := if x.isFinite then .float x else .null

/-- A list as a value. -/
def ofList {α : Type} (encode : α → Json) (l : List α) : Json := .arr (l.map encode)

/-- Something optional as a value. -/
def ofOption {α : Type} (encode : α → Json) : Option α → Json
  | none => .null
  | some a => encode a

/-- An integer from zero to a limit. -/
def natUpTo? (limit : Nat) : Json → Option Nat
  | .int n => if 0 ≤ n ∧ n ≤ limit then some n.toNat else none
  | _ => none

/-- The number of an entity or event, or a count of ticks or bytes. -/
def word? (v : Json) : Option Nat := v.natUpTo? wordLimit

/-- A level. -/
def level? (v : Json) : Option Nat := v.natUpTo? levelLimit

/-- A number, if it is finite. -/
def finite? (x : Float) : Option Float := if x.isFinite then some x else none

/-- A number; integers count as numbers, unless they are too large for one. -/
def real? : Json → Option Float
  | .float x => finite? x
  | .int n => finite? (Float.ofInt n)
  | _ => none

/-- A truth value. -/
def truth? : Json → Option Bool
  | .bool b => some b
  | _ => none

/-- A text. -/
def text? : Json → Option String
  | .str s => some s
  | _ => none

/-- A list whose items all decode. -/
def list? {α : Type} (decode : Json → Option α) : Json → Option (List α)
  | .arr items => items.mapM decode
  | _ => none

/-- A pair of numbers of entities. -/
def wordPair? : Json → Option (Nat × Nat)
  | .arr [a, b] => do return (← a.word?, ← b.word?)
  | _ => none

/-! ## Fields -/

/-- A record, whose content may also be listed without names in the order of its fields. -/
def record? (names : List String) : Json → Option Json
  | .obj fields => some (.obj fields)
  | .arr items => if items.length = names.length then some (.obj (names.zip items)) else none
  | _ => none

/-- A record all of whose fields have a default, so that a list may stop early. -/
def leading? (names : List String) : Json → Option Json
  | .obj fields => some (.obj fields)
  | .arr items => if items.length ≤ names.length then some (.obj (names.zip items)) else none
  | _ => none

/-- The fields of an object. -/
def fields? : Json → Option (List (String × Json))
  | .obj fields => some fields
  | _ => none

/-- The value of a field of an object. -/
def get? (v : Json) (name : String) : Option Json := do
  (← v.fields?).lookup name

/-- A field that has to be there. -/
def field? {α : Type} (v : Json) (name : String) (decode : Json → Option α) : Option α := do
  decode (← v.get? name)

/-- A field of an object that may be missing or absent. -/
def optional? {α : Type} (v : Json) (name : String) (decode : Json → Option α) :
    Option (Option α) :=
  match v with
  | .obj fields =>
    match fields.lookup name with
    | none => some none
    | some .null => some none
    | some w => (decode w).map some
  | _ => none

/-- A field of an object that may be missing and then has a default. -/
def fieldOr? {α : Type} (v : Json) (name : String) (decode : Json → Option α) (default : α) :
    Option α :=
  match v with
  | .obj fields =>
    match fields.lookup name with
    | none => some default
    | some w => decode w
  | _ => none

/-- Whether the object has no fields but the named ones. -/
def hasOnly (v : Json) (names : List String) : Bool :=
  match v with
  | .obj fields => fields.all fun f => names.contains f.1
  | _ => false

/-! ## Alternatives -/

/-- An alternative with content. -/
def tagged (name : String) (content : Json) : Json := .obj [(name, content)]

/-- The name of an alternative and its content, which a bare name does not have. -/
def alternative? : Json → Option (String × Option Json)
  | .str name => some (name, none)
  | .obj [(name, content)] => some (name, some content)
  | _ => none

/-- Whether an alternative has no content: a bare name, or an absent value. -/
def isBare : Option Json → Bool
  | none => true
  | some .null => true
  | some _ => false

/-! ## Maps and sets -/

/-- A map as an object whose names are the keys. -/
def ofMap {β : Type} (encode : β → Json) (m : SortedMap β) : Json :=
  .obj (m.entries.map fun e => (toString e.1, encode e.2))

/-- A set as a list. -/
def ofSet (s : SortedSet) : Json := ofList ofNat s.toList

/-- A key up to a limit, written in decimal digits without leading zeros. -/
def key? (limit : Nat) (name : String) : Option Nat :=
  let digits := name.toList
  if digits.isEmpty || !digits.all Char.isDigit then none
  else
    let n := digits.foldl (fun n c => 10 * n + (c.toNat - '0'.toNat)) 0
    if toString n = name ∧ n ≤ limit then some n else none

/-- An entry of a map from a field whose name is a key up to a limit. -/
def keyed? {β : Type} (limit : Nat) (decode : Json → Option β) (field : String × Json) :
    Option (Nat × β) := do
  return (← key? limit field.1, ← decode field.2)

/-- A map from an object whose names are keys up to a limit. -/
def map? {β : Type} (limit : Nat) (decode : Json → Option β) (v : Json) :
    Option (SortedMap β) := do
  return .ofList (← (← v.fields?).mapM (keyed? limit decode))

/-- A set from a list in any order. -/
def set? (v : Json) : Option SortedSet := (v.list? word?).map SortedSet.ofList

end FogNet.Json
