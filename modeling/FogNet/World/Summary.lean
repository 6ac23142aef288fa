import FogNet.Decimal.Rounding
import FogNet.World.Snapshot

/-!
# Summaries

The text that sums up a run: counts first, then a line for each head with its members, then a line
for each node with its position and standing. Columns are filled up with blanks by the number of
characters.
-/

namespace FogNet

/-- A text filled up with blanks behind it to a width. -/
def padBehind (width : Nat) (s : String) : String :=
  s ++ String.ofList (List.replicate (width - s.length) ' ')

/-- A text filled up with blanks in front of it to a width. -/
def padBefore (width : Nat) (s : String) : String :=
  String.ofList (List.replicate (width - s.length) ' ') ++ s

/-- The wording of a standing. -/
def Standing.text : Standing → String
  | unassigned => "Unassigned"
  | owned head => s!"Owned(EntityId({head}))"
  | departed => "Departed"

namespace Snapshot

/-- The names of nodes by their numbers; numbers without a node are left out. -/
def namesOf (s : Snapshot) (ids : List EntityId) : List String :=
  ids.filterMap fun id => (s.fogNodes.find? fun n => n.id == id).map (·.name)

/-- The line of a head. -/
def headLine (s : Snapshot) (h : HeadView) : String :=
  let names := s.namesOf h.members
  let members := if names.isEmpty then "-" else ", ".intercalate names
  s!"  [L{h.level}] {padBehind 12 h.name} members: {members}"

/-- A coordinate with two places in its column. -/
def coordinateText (x : Float) : String := padBefore 8 (Decimal.fixedText 2 x)

/-- The line of a node. -/
def nodeLine (n : NodeView) : String :=
  let x := coordinateText n.position.x
  let y := coordinateText n.position.y
  s!"  {padBehind 12 n.name} ({x}, {y})  {n.standing.text}"

/-- The line that sets off the title. -/
def ruler : String := String.ofList (List.replicate 55 '═')

/-- The lines of a summary, under the path of the scenario and with the number of events
processed. -/
def summaryLines (s : Snapshot) (path : String) (processed : Nat) : List String :=
  [ruler, s!"  puddlesim: {path}", ruler, s!"  time:               {Time.text s.time}",
    s!"  events processed:   {processed}", s!"  messages delivered: {s.messagesDelivered}",
    s!"  active fog nodes:   {s.activeFogNodes}", ""] ++
    s.puddleHeads.map s.headLine ++ [""] ++ s.fogNodes.map nodeLine

/-- The summary, every line ended. -/
def summary (s : Snapshot) (path : String) (processed : Nat) : String :=
  String.join ((s.summaryLines path processed).map (· ++ "\n"))

end Snapshot

end FogNet
