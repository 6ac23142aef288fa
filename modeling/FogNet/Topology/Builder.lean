import FogNet.Random.Heading
import FogNet.Topology.Validation
import FogNet.World.Basic

/-!
# Building a network

A builder collects heads, nodes, links and scripted messages, handing out numbers from one, which is
the broker's. `Builder.build` then checks the whole, puts every node into its first puddle, fixes
the routing graph and sets the movement timers.
-/

namespace FogNet

/-- How a new node moves. -/
inductive MotionPlan where
  /-- Not at all. -/
  | stationary
  /-- With a given velocity. -/
  | velocity (v : Vec Float)
  /-- With a given speed along a random heading. -/
  | speed (s : Float)

/-- The description of a new node. -/
structure NodeSpec where
  /-- Its name. -/
  name : String
  /-- The level of the puddles it may join. -/
  level : Level
  /-- Where it starts. -/
  position : Point Float
  /-- The rectangle it stays in. -/
  bounds : Rectangle Float
  /-- How it moves. -/
  plan : MotionPlan
  /-- What it offers. -/
  characteristics : Characteristics

/-- A network being put together. -/
structure Builder where
  /-- The constants of the run to come. -/
  settings : Settings
  /-- The entities so far. -/
  registry : Registry
  /-- The number of the broker. -/
  broker : EntityId
  /-- The source of random headings. -/
  generator : Random.Generator
  /-- The messages to be delivered, with their instants, in the order in which they were given. -/
  scripted : List (Time × Payload)

/-- A step on a builder that may fail and keeps what it did before. -/
abbrev Build (α : Type) := EStateM Fault Builder α

namespace Builder

/-- A builder that holds nothing but the broker. -/
def start (settings : Settings) : Except Fault Builder := do
  settings.validate
  let (broker, registry) := Registry.empty.allocate
  let registry ← registry.insert broker (.broker (.create broker))
  return ⟨settings, registry, broker, .ofSeed settings.seed, []⟩

/-- Change the registry of the builder. -/
def change {α : Type} (step : Change α) : Build α := fun b =>
  match step b.registry with
  | .ok a registry => .ok a { b with registry }
  | .error fault registry => .error fault { b with registry }

/-- Store a new entity under a fresh number and let the broker note it. -/
def register (broker : EntityId) (make : EntityId → Entity) (note : EntityId → Broker → Broker) :
    Change EntityId := do
  let id ← Change.allocate
  Change.insert id (make id)
  Change.updateBroker broker (note id)
  return id

/-- Add a head. -/
def puddleHead (name : String) (level : Level) (coverage : Polygon Float) (anchor : Point Float) :
    Build EntityId := do
  let b ← get
  change (register b.broker (fun id => .puddleHead (.create id name level coverage anchor))
    fun id broker => broker.registerHead id level)

/-- Put a head below another. -/
def attach (child parent : EntityId) : Build Unit := change (Change.adoptChild parent child)

/-- The motion of a new node; a random heading is drawn from the builder's generator. -/
def motionOf (spec : NodeSpec) : Build (Motion Float) := fun b =>
  match spec.plan with
  | .stationary => .ok (.stationary spec.position spec.bounds) b
  | .velocity v => .ok (.moving spec.position v spec.bounds) b
  | .speed s =>
    let (motion, generator) := Motion.randomHeading spec.position s spec.bounds b.generator
    .ok motion { b with generator }

/-- Add a node. -/
def fogNode (spec : NodeSpec) : Build EntityId := do
  let motion ← motionOf spec
  let b ← get
  change (register b.broker
    (fun id => .fogNode (.create id spec.name spec.level motion spec.characteristics))
    fun id broker => broker.registerNode id)

/-- Refuse an end of a link that is neither a node nor a head. -/
def checkEnd (a b endpoint : EntityId) : Change Unit := do
  match ← Change.read (·.kind endpoint) with
  | .fogNode => pure ()
  | .puddleHead => pure ()
  | kind => Change.fail (.link a b (.endKind kind))

/-- Join two nodes or heads by a link. -/
def addLink (broker a b : EntityId) (latency bandwidth : Float) : Change EntityId := do
  if a = b then Change.fail (.link a b .selfLoop)
  if ¬ (0 ≤ latency ∧ 0 < bandwidth) then Change.fail (.link a b .weights)
  checkEnd a b a
  checkEnd a b b
  let id ← Change.allocate
  Change.insert id (.link (.create id a b latency bandwidth))
  Change.updateEntity a (·.attachLink id)
  Change.updateEntity b (·.attachLink id)
  Change.updateBroker broker (·.registerLink id)
  return id

/-- Add a link. -/
def link (a b : EntityId) (latency bandwidth : Float) : Build EntityId := do
  let builder ← get
  change (addLink builder.broker a b latency bandwidth)

/-- Have a message delivered during the run. -/
def schedule (due : Time) (sender receiver : EntityId) (message : Message) (b : Builder) :
    Builder :=
  { b with scripted := b.scripted ++ [(due, .deliver sender receiver message)] }

/-! ## Completion -/

/-- Put a node into the first puddle of its level that covers it, if there is one. -/
def placeInitially (s : Settings) (broker : EntityId) (n : FogNode) : Change Unit := do
  let found ← Change.read fun r =>
    r.broker broker >>= fun b => r.findHead b n.level n.position
  match found with
  | none => pure ()
  | some head =>
    discard (Change.join head n.id)
    if s.autoLinkMembers then
      discard (addLink broker n.id head s.memberLinkLatency s.memberLinkBandwidth)

/-- The timer that makes a node report its movement. -/
def timer (n : FogNode) : Payload := .deliver n.id n.id .updateLocation

/-- The simulation of a network at its start: the scripted messages, then the timers. -/
def firstEvents (s : Settings) (scripted : List (Time × Payload)) (r : Registry) :
    Simulation Payload :=
  let sim := scripted.foldl (fun sim (due, payload) => sim.schedule due payload) Simulation.start
  (r.fogNodes.filter (·.motion.mobile)).foldl
    (fun sim n => sim.schedule s.locationUpdateInterval (timer n)) sim

/-- The finished network, ready to run. -/
def build (b : Builder) : Except Fault (Session World Payload) :=
  match b.registry.validate with
  | .error fault => .error fault
  | .ok _ =>
    match b.registry.fogNodes.forM (placeInitially b.settings b.broker) b.registry with
    | .error fault _ => .error fault
    | .ok _ r =>
      .ok ⟨firstEvents b.settings b.scripted r,
        ⟨r, b.broker, Graph.ofLinks r.links, b.settings, #[]⟩⟩

end Builder

end FogNet
