import FogNet.Collection.SortedMap
import FogNet.Entity.FogNode
import FogNet.Plane.Polygon

/-!
# Puddle heads

A puddle head coordinates the nodes in a fixed region at one level. It lists its members in the
order they joined, knows its sibling heads, and keeps for each child head a copy of that head's
members.
-/

namespace FogNet

/-- The coordinator of a puddle. -/
structure PuddleHead where
  /-- Its number. -/
  id : EntityId
  /-- Its name. -/
  name : String
  /-- Its level in the hierarchy. -/
  level : Level
  /-- The region it is responsible for. -/
  coverage : Polygon Float
  /-- Where it sits. -/
  anchor : Point Float
  /-- Its members in the order they joined. -/
  members : List EntityId
  /-- What each member offers. -/
  memberCharacteristics : SortedMap Characteristics
  /-- The other heads under the same parent. -/
  buddies : SortedSet
  /-- The head above it. -/
  parent : Option EntityId
  /-- The heads below it, in the order they were attached. -/
  children : List EntityId
  /-- The members of each head below it, as last reported. -/
  childPuddles : SortedMap (List EntityId)
  /-- The modules running on its members. -/
  runningServices : SortedMap (List String)
  /-- The links that end at it. -/
  links : SortedSet

namespace PuddleHead

/-- A head without members, relatives or links. -/
def create (id : EntityId) (name : String) (level : Level) (coverage : Polygon Float)
    (anchor : Point Float) : PuddleHead :=
  ⟨id, name, level, coverage, anchor, [], .empty, .empty, none, [], .empty, .empty, .empty⟩

/-- Whether the head is responsible for a point. -/
def covers (h : PuddleHead) (p : Point Float) : Bool := h.coverage.contains p

/-- Whether a node is listed. -/
def isMember (h : PuddleHead) (node : EntityId) : Bool := h.members.contains node

/-- List a node with what it offers; a listed node keeps its place and its entry. -/
def addMember (h : PuddleHead) (node : EntityId) (offer : Characteristics) : PuddleHead :=
  if h.isMember node then h
  else
    { h with
      members := h.members ++ [node]
      memberCharacteristics := h.memberCharacteristics.insert node offer }

/-- Strike a node off the list, together with what it offers. -/
def removeMember (h : PuddleHead) (node : EntityId) : PuddleHead :=
  { h with
    members := h.members.filter (· != node)
    memberCharacteristics := h.memberCharacteristics.erase node }

/-- Add a sibling; a head is never its own. -/
def addBuddy (h : PuddleHead) (sibling : EntityId) : PuddleHead :=
  if sibling = h.id then h else { h with buddies := h.buddies.insert sibling }

/-- Put the head below another. -/
def setParent (h : PuddleHead) (parent : EntityId) : PuddleHead := { h with parent := some parent }

/-- Put another head below this one, with the members it has. -/
def addChild (h : PuddleHead) (child : EntityId) (members : List EntityId) : PuddleHead :=
  { h with
    children := if h.children.contains child then h.children else h.children ++ [child]
    childPuddles := h.childPuddles.insert child members }

/-- Renew the copy of a child's members; an unknown child is passed over. -/
def refreshChild (h : PuddleHead) (child : EntityId) (members : List EntityId) : PuddleHead :=
  { h with childPuddles := h.childPuddles.modify child fun _ => members }

/-- The modules running on a member. -/
def servicesOf (h : PuddleHead) (node : EntityId) : List String :=
  (h.runningServices.get? node).getD []

/-- Note a module that runs on a member. -/
def placeService (h : PuddleHead) (node : EntityId) (module : String) : PuddleHead :=
  { h with runningServices := h.runningServices.insert node (h.servicesOf node ++ [module]) }

/-- Forget the modules of a node. -/
def teardownServices (h : PuddleHead) (node : EntityId) : PuddleHead :=
  { h with runningServices := h.runningServices.erase node }

/-- Note a link that ends at the head. -/
def attachLink (h : PuddleHead) (link : EntityId) : PuddleHead :=
  { h with links := h.links.insert link }

end PuddleHead

end FogNet
