import FogNet.Kernel.Simulation
import FogNet.Membership.Consistency
import FogNet.Membership.Reactions
import FogNet.Routing.Graph

/-!
# A running network

A `World` is everything a run works on: the registry, the number of its broker, the routing graph,
the settings and the record of delivered messages. It is the state of the handler `World.handle`,
which records a message, lets its receiver react, posts the answers in order, and checks the records
if the settings ask for it.
-/

namespace FogNet

/-- A network in operation. -/
structure World where
  /-- The entities. -/
  registry : Registry
  /-- The number of the broker. -/
  broker : EntityId
  /-- The links as a graph, fixed when the network is built. -/
  graph : Graph
  /-- The constants of the run. -/
  settings : Settings
  /-- The delivered messages in order. -/
  trace : Array TraceEntry

/-- Post messages one after the other; one that cannot be posted stops the rest. -/
def postAll (now : Time) : List Outgoing → EventQueue Payload →
    Except ScheduleError Unit × EventQueue Payload
  | [], q => (.ok (), q)
  | o :: rest, q =>
    match q.postAfter now o.delay (.deliver o.sender o.receiver o.message) with
    | .error e => (.error e, q)
    | .ok (_, q) => postAll now rest q

namespace World

/-- The checks that a run makes after each message. -/
def inspect (w : World) : Except Violation Unit :=
  if w.settings.checkInvariants then w.registry.checkAll else .ok ()

/-- Record a message, let its receiver react, and post the answers. -/
def deliver (now : Time) (entry : TraceEntry) : EStateM Fault (Stage World Payload) Unit :=
  fun g =>
    let w := { g.state with trace := g.state.trace.push entry }
    match Change.react w.settings w.broker now entry.receiver entry.message w.registry with
    | .error fault registry => .error fault ⟨{ w with registry }, g.queue⟩
    | .ok outgoing registry =>
      let w := { w with registry }
      match postAll now outgoing g.queue with
      | (.error cause, queue) => .error (.schedule cause) ⟨w, queue⟩
      | (.ok _, queue) =>
        match w.inspect with
        | .error cause => .error (.violation cause) ⟨w, queue⟩
        | .ok _ => .ok () ⟨w, queue⟩

/-- The reaction of a network to an event. -/
def handle : Handler World Payload Fault := fun now event =>
  match TraceEntry.ofEvent? now event with
  | none => pure ()
  | some entry => deliver now entry

/-- A change of the registry from outside the run. -/
def change {α : Type} (step : Change α) (w : World) : EStateM.Result Fault World α :=
  match step w.registry with
  | .ok a registry => .ok a { w with registry }
  | .error fault registry => .error fault { w with registry }

/-! ## Questions about nodes and heads -/

/-- The head of the puddle a node is in. -/
def ownerOf (w : World) (node : EntityId) : Except Fault (Option EntityId) :=
  (w.registry.fogNode node).map (·.owner?)

/-- The first node with a name. -/
def findNode (w : World) (name : String) : Option EntityId :=
  (w.registry.fogNodes.find? fun n => n.name == name).map (·.id)

/-- The first head with a name. -/
def findHead (w : World) (name : String) : Option EntityId :=
  (w.registry.puddleHeads.find? fun h => h.name == name).map (·.id)

/-- The broker's decision on a node as it stands. -/
def evaluate (w : World) (node : EntityId) : Except Fault Placement :=
  w.registry.broker w.broker >>= fun b => w.registry.evaluate b node

/-- How many nodes the broker counts as being in the network. -/
def activeCount (w : World) : Nat :=
  match w.registry.broker w.broker with
  | .ok b => b.fogNodes.size
  | .error _ => 0

/-! ## Interventions -/

/-- Note a module that runs on a node, with the node's head. -/
def placeService (node : EntityId) (module : String) (w : World) :
    EStateM.Result Fault World Unit :=
  w.change do
    let n ← Change.fogNode node
    match n.owner? with
    | none => Change.fail (.topology (.headless node))
    | some head => Change.updateHead head (·.placeService node module)

/-- Give a node another velocity. -/
def setDirection (node : EntityId) (velocity : Vec Float) (w : World) :
    EStateM.Result Fault World Unit :=
  w.change (Change.updateNode node fun n => { n with motion := n.motion.setDirection velocity })

end World

end FogNet
