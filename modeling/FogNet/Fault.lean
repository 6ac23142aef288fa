import FogNet.Kernel.EventQueue
import FogNet.Membership.Violation
import FogNet.Plane.Polygon

/-!
# Faults

Everything that can go wrong, by cause. The wording is in `Fault.message` and the functions it
calls, and nothing else depends on it.
-/

namespace FogNet

/-- Why a head cannot be put below another. -/
inductive HierarchyObstacle where
  /-- A head is not its own parent. -/
  | ownParent
  /-- The child is already below a head. -/
  | hasParent
  /-- The child is not exactly one level lower. -/
  | levelGap
deriving DecidableEq

/-- The wording of an obstacle. -/
def HierarchyObstacle.message : HierarchyObstacle → String
  | ownParent => "a puddle head cannot parent itself"
  | hasParent => "child already has a parent"
  | levelGap => "child must be exactly one level below its parent"

/-- Why a link cannot exist. -/
inductive LinkObstacle where
  /-- Both ends are the same entity. -/
  | selfLoop
  /-- The latency is negative or the bandwidth not positive. -/
  | weights
  /-- An end is of a kind that has no links. -/
  | endKind (kind : EntityKind)
deriving DecidableEq

/-- The wording of an obstacle. -/
def LinkObstacle.message : LinkObstacle → String
  | selfLoop => "self-loop"
  | weights => "latency must be non-negative and bandwidth positive"
  | endKind kind => s!"{kind.text} cannot terminate a link"

/-- What is wrong with a network as a whole. -/
inductive TopologyDefect where
  /-- A parent is not one level above its child. -/
  | levelGap (child : EntityId) (childLevel : Level) (parent : EntityId) (parentLevel : Level)
  /-- A parent does not list its child. -/
  | unlistedChild (parent child : EntityId)
  /-- Following parents never ends. -/
  | endlessAscent (head : EntityId)
  /-- A listed child is below another head or none. -/
  | strayChild (parent child : EntityId)
  /-- A node has no head to act for it. -/
  | headless (node : EntityId)
  /-- A defect that a handler states in its own words. -/
  | stated (text : String)
deriving DecidableEq

/-- The wording of a defect. -/
def TopologyDefect.message : TopologyDefect → String
  | levelGap child childLevel parent parentLevel =>
    s!"{child.text} at level {childLevel} has parent {parent.text} at level {parentLevel}"
  | unlistedChild parent child => s!"{parent.text} does not list child {child.text}"
  | endlessAscent head => s!"parent chain of {head.text} never reaches a root"
  | strayChild parent child =>
    s!"{parent.text} lists child {child.text} whose parent is elsewhere"
  | headless node => s!"{node.text} has no puddle head"
  | stated text => text

/-- What is wrong with a scenario. -/
inductive ScenarioDefect where
  /-- Nodes report after no time at all. -/
  | zeroInterval
  /-- Signals do not travel. -/
  | propagationSpeed
  /-- A name stands for nothing. -/
  | unknownName (name : String)
  /-- A name stands for two entities. -/
  | duplicateName (name : String)
  /-- A mobile node is told neither a velocity nor a speed. -/
  | motionless (name : String)
  /-- The text is no scenario. -/
  | malformed
deriving DecidableEq

/-- The wording of a defect. -/
def ScenarioDefect.message : ScenarioDefect → String
  | zeroInterval => "location_update_interval must be at least 1"
  | propagationSpeed => "propagation_speed must be positive"
  | unknownName name => s!"unknown entity name `{name}`"
  | duplicateName name => s!"duplicate entity name `{name}`"
  | motionless name => s!"mobile fog node `{name}` needs a velocity or a speed"
  | malformed => "malformed text"

/-- Why a file cannot be read. -/
inductive ReadFailure where
  /-- There is no such file. -/
  | missing
  /-- Anything else, in the words of the system. -/
  | other (text : String)
deriving DecidableEq

/-- The wording of a read failure. -/
def ReadFailure.message : ReadFailure → String
  | missing => "No such file or directory (os error 2)"
  | other text => text

/-- Anything that can go wrong. -/
inductive Fault where
  /-- Vertices that make no polygon. -/
  | shape (cause : ShapeError)
  /-- A number that stands for no entity. -/
  | unknownEntity (id : EntityId)
  /-- A number that stands for an entity of another kind. -/
  | kindMismatch (id : EntityId) (expected found : EntityKind)
  /-- A number that is taken. -/
  | duplicateEntity (id : EntityId)
  /-- A head that cannot be put below another. -/
  | hierarchy (parent child : EntityId) (cause : HierarchyObstacle)
  /-- A link that cannot exist. -/
  | link (first second : EntityId) (cause : LinkObstacle)
  /-- A network that is not well formed. -/
  | topology (cause : TopologyDefect)
  /-- An event that cannot be posted. -/
  | schedule (cause : ScheduleError)
  /-- A scenario file that cannot be read. -/
  | unreadable (path : String) (cause : ReadFailure)
  /-- A scenario that is not consistent. -/
  | scenario (cause : ScenarioDefect)
  /-- Records that contradict each other. -/
  | violation (cause : Violation)
deriving DecidableEq

/-- The wording of a fault. -/
def Fault.message : Fault → String
  | shape cause => cause.message
  | unknownEntity id => s!"entity {id.text} is not registered"
  | kindMismatch id expected found =>
    s!"entity {id.text} is a {found.text}, expected a {expected.text}"
  | duplicateEntity id => s!"entity {id.text} is already registered"
  | hierarchy parent child cause =>
    s!"cannot attach {child.text} under {parent.text}: {cause.message}"
  | link first second cause => s!"invalid link {first.text} <-> {second.text}: {cause.message}"
  | topology cause => s!"invalid topology: {cause.message}"
  | schedule cause => cause.message
  | unreadable path cause => s!"failed to read scenario {path}: {cause.message}"
  | scenario cause => s!"invalid scenario: {cause.message}"
  | violation cause => cause.message

end FogNet
