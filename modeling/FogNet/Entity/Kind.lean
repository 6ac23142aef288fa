/-!
# Identifiers and kinds of entities

Every entity of a network is known by a number, and has one of four kinds.
-/

namespace FogNet

/-- The number an entity is known by. -/
abbrev EntityId := Nat

/-- The text of an entity number. -/
def EntityId.text (id : EntityId) : String := s!"#{id}"

/-- A level of the hierarchy of puddle heads, zero at the top. -/
abbrev Level := Nat

/-- The kinds of entities. -/
inductive EntityKind where
  /-- A device that moves. -/
  | fogNode
  /-- The coordinator of a puddle. -/
  | puddleHead
  /-- A channel between two entities. -/
  | link
  /-- The coordinator of all puddles. -/
  | broker
deriving DecidableEq

/-- The name of a kind. -/
def EntityKind.text : EntityKind → String
  | fogNode => "fog node"
  | puddleHead => "puddle head"
  | link => "link"
  | broker => "broker"

end FogNet
