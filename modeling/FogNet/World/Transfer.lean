import FogNet.World.Basic

/-!
# Routes and transfers

Routes lead over everything except departed nodes. Each hop uses the link with the lowest number
between its two ends, and a transfer queues its bytes on every hop from the end it enters at.
-/

namespace FogNet.World

/-- Whether a route may lead over an entity. -/
def isRoutable (w : World) (id : EntityId) : Bool :=
  match w.registry.fogNode id with
  | .ok n => !n.isDeparted
  | .error _ => w.registry.contains id

/-- The first hop of the route between two entities. -/
def nextHop (w : World) (source target : EntityId) : Option EntityId :=
  w.graph.nextHop w.isRoutable source target

/-- The route between two entities. -/
def route (w : World) (source target : EntityId) : Option (List EntityId) :=
  w.graph.shortestPath w.isRoutable source target

/-- The lowest link between two entities. -/
def linkBetween (w : World) (a b : EntityId) : Option EntityId :=
  (w.registry.links.find? fun l => l.connects a b).map (·.id)

/-- The hops of a route: each link with the end at which traffic enters it. -/
def routeHops (w : World) (source target : EntityId) : Option (List (EntityId × EntityId)) :=
  (w.route source target).bind fun path =>
    (Graph.hops path).mapM fun hop => (w.linkBetween hop.1 hop.2).map fun link => (link, hop.1)

/-- The sum over the hops of a route of what each link contributes. -/
def sumOverRoute (w : World) (source target : EntityId) (cost : EntityId → Link → Float) :
    Option Float :=
  (w.routeHops source target).bind fun hops =>
    hops.foldlM (fun total hop => ((w.registry.link hop.1).toOption).map fun l =>
      total + cost hop.2 l) 0

/-- The latencies along a route, added up. -/
def pathLatency (w : World) (source target : EntityId) : Option Float :=
  w.sumOverRoute source target fun _ l => l.latency

/-- The delay of a transfer behind what is queued on the way. -/
def transferDelay (w : World) (source target : EntityId) (bytes : Nat) : Option Float :=
  w.sumOverRoute source target fun sender l => l.estimatedDelay sender bytes

/-- Queue bytes on each hop and add up the delays found there before. -/
def queueOnHops (bytes : Nat) : List (EntityId × EntityId) → Float → Change Float
  | [], total => pure total
  | (link, sender) :: rest, total => do
    let l ← Change.link link
    Change.put link (.link (l.enqueue sender bytes).2)
    queueOnHops bytes rest (total + l.estimatedDelay sender bytes)

/-- Queue bytes along the route, if there is one, and tell the delay they will see. -/
def queueTransfer (source target : EntityId) (bytes : Nat) (w : World) :
    EStateM.Result Fault World (Option Float) :=
  match w.routeHops source target with
  | none => .ok none w
  | some hops => w.change (some <$> queueOnHops bytes hops 0)

end FogNet.World
