import FogNet.Collection.SortedMap
import FogNet.Scenario.Basic
import FogNet.Topology.Builder

/-!
# From a scenario to a network

Heads are added first and then put below their parents, so that a parent may be described after its
child; then nodes and links follow. What runs on the nodes is placed once the network is built. The
first fault in this order is the answer.
-/

namespace FogNet

/-- The entities by name. -/
abbrev Names := List (String × EntityId)

namespace Names

/-- The entity with a name. -/
def resolve (names : Names) (name : String) : Except Fault EntityId :=
  match names.lookup name with
  | some id => .ok id
  | none => .error (.scenario (.unknownName name))

/-- Give a name to an entity; a name is given only once. -/
def define (names : Names) (name : String) (id : EntityId) : Except Fault Names :=
  match names.lookup name with
  | some _ => .error (.scenario (.duplicateName name))
  | none => .ok ((name, id) :: names)

end Names

namespace NodeEntry

/-- How the node is to move. -/
def plan (n : NodeEntry) : Except Fault MotionPlan :=
  if n.mobile then
    match n.velocity, n.speed with
    | some v, _ => .ok (.velocity v)
    | none, some s => .ok (.speed s)
    | none, none => .error (.scenario (.motionless n.name))
  else .ok .stationary

/-- The node to be added to a network. -/
def spec (n : NodeEntry) : Except Fault NodeSpec :=
  n.plan.map fun plan =>
    ⟨n.name, n.level, n.position,
      .sized n.bounds.x n.bounds.y n.bounds.width n.bounds.height, plan, n.characteristics⟩

end NodeEntry

namespace Scenario

/-- Something that is computed beside the builder. -/
def lift {α : Type} (result : Except Fault α) : Build α := fun b =>
  match result with
  | .ok a => .ok a b
  | .error fault => .error fault b

/-- Add a head and name it. -/
def addHead (names : Names) (h : HeadEntry) : Build Names := do
  let coverage ← lift ((Polygon.ofVertices h.coverage).mapError Fault.shape)
  let id ← Builder.puddleHead h.name h.level coverage h.anchor
  lift (names.define h.name id)

/-- Put a head below its parent, if it has one. -/
def attachHead (names : Names) (h : HeadEntry) : Build Unit := do
  match h.parent with
  | none => pure ()
  | some parent =>
    let child ← lift (names.resolve h.name)
    let parent ← lift (names.resolve parent)
    Builder.attach child parent

/-- Add a node and name it. -/
def addNode (names : Names) (n : NodeEntry) : Build Names := do
  let spec ← lift n.spec
  let id ← Builder.fogNode spec
  lift (names.define n.name id)

/-- Add a link. -/
def addLink (names : Names) (l : LinkEntry) : Build Unit := do
  let first ← lift (names.resolve l.first)
  let second ← lift (names.resolve l.second)
  discard (Builder.link first second l.latency l.bandwidth)

/-- Add everything that is described, and tell the names. -/
def assemble (s : Scenario) : Build Names := do
  let names ← s.heads.foldlM addHead []
  s.heads.forM (attachHead names)
  let names ← s.nodes.foldlM addNode names
  s.links.forM (addLink names)
  return names

/-- The modules to be placed, each with its node. -/
def services (s : Scenario) (names : Names) : List (EntityId × String) :=
  s.nodes.flatMap fun n =>
    match names.lookup n.name with
    | some id => n.services.map fun module => (id, module)
    | none => []

/-- Place modules one after the other. -/
def placeAll : List (EntityId × String) → World → Except Fault World
  | [], w => .ok w
  | (node, module) :: rest, w =>
    match w.placeService node module with
    | .ok _ w => placeAll rest w
    | .error fault _ => .error fault

/-- The network that a scenario describes, ready to run. -/
def build (s : Scenario) : Except Fault (Session World Payload) := do
  let builder ← Builder.start s.settings
  match s.assemble builder with
  | .error fault _ => .error fault
  | .ok names builder =>
    let session ← builder.build
    let world ← placeAll (s.services names) session.state
    return { session with state := world }

end Scenario

end FogNet
