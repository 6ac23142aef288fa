/-!
# Values and tables

A table is filled entry by entry. How a table came about decides what may be added to it later: one
with a header of its own is complete under that header, one made by a dotted key may grow by dotted
keys in the same place, and one that a longer header merely passed through may still get its own
header.
-/

namespace FogNet

/-- A value of the configuration format. -/
inductive Toml where
  /-- A text. -/
  | str (s : String)
  /-- An integer. -/
  | int (n : Int)
  /-- A fraction. -/
  | float (x : Float)
  /-- A truth value. -/
  | bool (b : Bool)
  /-- A date or a time. -/
  | datetime
  /-- A list. -/
  | array (items : List Toml)
  /-- Values by name. -/
  | table (entries : List (String × Toml))

namespace Toml

/-- How a table came about. -/
inductive Origin where
  /-- By a header of its own. -/
  | header
  /-- By a longer header that passed through it. -/
  | passage
  /-- By a dotted key. -/
  | dotted
deriving DecidableEq

/-- What a name stands for while tables are filled. -/
inductive Item where
  /-- A finished value. -/
  | value (v : Toml)
  /-- A table. -/
  | table (origin : Origin) (entries : List (String × Item))
  /-- A list of tables, of which the last may still grow. -/
  | tables (earlier : List (List (String × Item))) (last : List (String × Item))

/-- The entries of a table that is being filled. -/
abbrev Entries := List (String × Item)

/-- Replace the entry of a name, or add one. -/
def setEntry (name : String) (item : Item) : Entries → Entries
  | [] => [(name, item)]
  | e :: rest => if e.1 = name then (name, item) :: rest else e :: setEntry name item rest

/-- Put a value under a dotted key. `mayEnd` says whether a value may be put right into this table:
into the one that is being filled, and into those that dotted keys have made. -/
def putValue (name : String) (v : Toml) : Bool → List String → Entries → Option Entries
  | mayEnd, [], es =>
    if mayEnd && (es.lookup name).isNone then some (es ++ [(name, .value v)]) else none
  | _, p :: path, es =>
    match es.lookup p with
    | none => (putValue name v true path []).map fun sub => es ++ [(p, .table .dotted sub)]
    | some (.value _) => none
    | some (.table origin sub) =>
      if origin = .header then none
      else
        (putValue name v (origin == .dotted) path sub).map fun sub =>
          setEntry p (.table origin sub) es
    | some (.tables earlier last) =>
      (putValue name v false path last).map fun last => setEntry p (.tables earlier last) es

/-- Change the table that a header's path leads to; tables on the way are made where they miss, and
of a list of tables the last is meant. -/
def atPath (change : Entries → Option Entries) : List String → Entries → Option Entries
  | [], es => change es
  | p :: path, es =>
    match es.lookup p with
    | none => (atPath change path []).map fun sub => es ++ [(p, .table .passage sub)]
    | some (.value _) => none
    | some (.table origin sub) =>
      (atPath change path sub).map fun sub => setEntry p (.table origin sub) es
    | some (.tables earlier last) =>
      (atPath change path last).map fun last => setEntry p (.tables earlier last) es

/-- A key with the tables it passes through and a value. -/
abbrev Assignment := List String × String × Toml

/-- Put values under keys, one after the other. -/
def assign (assignments : List Assignment) (es : Entries) : Option Entries :=
  assignments.foldlM (fun es (path, name, v) => putValue name v true path es) es

/-- Add a table with a header of its own; one that was only passed through keeps what it has. -/
def addTable (name : String) (content : List Assignment) (es : Entries) : Option Entries :=
  match es.lookup name with
  | none => (assign content []).map fun sub => setEntry name (.table .header sub) es
  | some (.table .passage sub) =>
    (assign content sub).map fun sub => setEntry name (.table .header sub) es
  | some _ => none

/-- Add a table to a list of tables. -/
def addToTables (name : String) (content : List Assignment) (es : Entries) : Option Entries :=
  match es.lookup name with
  | none => (assign content []).map fun sub => setEntry name (.tables [] sub) es
  | some (.tables earlier last) =>
    (assign content []).map fun sub => setEntry name (.tables (earlier ++ [last]) sub) es
  | some _ => none

mutual

/-- The finished value of an item. -/
def Item.finish : Item → Toml
  | .value v => v
  | .table _ entries => .table (finishEntries entries)
  | .tables earlier last => .array (finishTables earlier ++ [.table (finishEntries last)])

/-- The finished entries of a table. -/
def finishEntries : List (String × Item) → List (String × Toml)
  | [] => []
  | (name, item) :: rest => (name, item.finish) :: finishEntries rest

/-- The finished tables of a list. -/
def finishTables : List (List (String × Item)) → List Toml
  | [] => []
  | es :: rest => .table (finishEntries es) :: finishTables rest

end

end Toml

end FogNet
