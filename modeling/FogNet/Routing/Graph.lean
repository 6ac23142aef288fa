import FogNet.Collection.SortedMap
import FogNet.Collection.SortedSet
import FogNet.Entity.Link

/-!
# Routing

The links of a network as an undirected graph, and the search for a path with the fewest hops. The
search keeps a queue of paths and extends the oldest by the neighbours not seen before, in the order
in which the edges were added, so of several shortest paths it always finds the same one. Each
vertex enters the queue at most once, which bounds the search by the number of adjacency entries.
-/

namespace FogNet

/-- An undirected graph with weighted edges. -/
structure Graph where
  /-- The neighbours of each vertex, in the order in which the edges were added. -/
  adjacency : SortedMap (List (EntityId × Float))

namespace Graph

/-- The graph without vertices. -/
def empty : Graph := ⟨.empty⟩

/-- The neighbours of a vertex with the weights of the edges. -/
def neighbors (g : Graph) (u : EntityId) : List (EntityId × Float) :=
  (g.adjacency.get? u).getD []

/-- Append a neighbour on one side. -/
def addArc (g : Graph) (u v : EntityId) (weight : Float) : Graph :=
  ⟨g.adjacency.insert u (g.neighbors u ++ [(v, weight)])⟩

/-- Append an edge on both sides. -/
def addEdge (g : Graph) (u v : EntityId) (weight : Float) : Graph :=
  (g.addArc u v weight).addArc v u weight

/-- The graph of some links, in their order. -/
def ofLinks (links : List Link) : Graph :=
  links.foldl (fun g l => g.addEdge l.first l.second l.latency) empty

/-- The number of vertices with an edge. -/
def vertexCount (g : Graph) : Nat := g.adjacency.size

/-- The number of adjacency entries, two for each edge. -/
def arcCount (g : Graph) : Nat := g.adjacency.values.foldl (fun n arcs => n + arcs.length) 0

/-- The number of edges. -/
def edgeCount (g : Graph) : Nat := g.arcCount / 2

/-! ## Search -/

/-- A search under way: the vertices seen and the paths to extend, each with its end first. -/
structure Frontier where
  /-- The vertices on any path so far. -/
  seen : SortedSet
  /-- The paths not yet extended, oldest first. -/
  waiting : List (List EntityId)

/-- Extend a path by each neighbour that is accepted and was not seen before; reaching the target
ends the search with the path found. -/
def extendPath (accept : EntityId → Bool) (target : EntityId) (path : List EntityId) :
    List EntityId → Frontier → Except (List EntityId) Frontier
  | [], f => .ok f
  | v :: rest, f =>
    if accept v && decide (v ∉ f.seen) then
      if v = target then .error (v :: path)
      else extendPath accept target path rest ⟨f.seen.insert v, f.waiting ++ [v :: path]⟩
    else extendPath accept target path rest f

/-- Extend the oldest path until the target is reached or no path is left. -/
def search (g : Graph) (accept : EntityId → Bool) (target : EntityId) :
    Nat → Frontier → Option (List EntityId)
  | 0, _ => none
  | fuel + 1, ⟨seen, waiting⟩ =>
    match waiting with
    | [] => none
    | [] :: waiting => g.search accept target fuel ⟨seen, waiting⟩
    | (tail :: path) :: waiting =>
      let around := (g.neighbors tail).map (·.1)
      match extendPath accept target (tail :: path) around ⟨seen, waiting⟩ with
      | .error found => some found.reverse
      | .ok f => g.search accept target fuel f

/-- A path with the fewest hops through accepted vertices, both ends included. -/
def shortestPath (g : Graph) (accept : EntityId → Bool) (source target : EntityId) :
    Option (List EntityId) :=
  if accept source && accept target then
    if source = target then some [source]
    else g.search accept target (g.arcCount + 2) ⟨SortedSet.empty.insert source, [[source]]⟩
  else none

/-- The first hop of such a path, if it has one. -/
def nextHop (g : Graph) (accept : EntityId → Bool) (source target : EntityId) : Option EntityId :=
  (g.shortestPath accept source target).bind fun path => path[1]?

/-- Every vertex is accepted. -/
def everywhere (_ : EntityId) : Bool := true

/-! ## Weights -/

/-- The hops of a path. -/
def hops : List EntityId → List (EntityId × EntityId)
  | u :: v :: rest => (u, v) :: hops (v :: rest)
  | _ => []

/-- The weight of the first edge between two vertices. -/
def weight? (g : Graph) (u v : EntityId) : Option Float :=
  ((g.neighbors u).find? fun e => e.1 == v).map (·.2)

/-- The weights along a path, added up in its order; nothing if a hop has no edge. -/
def pathWeight (g : Graph) (path : List EntityId) : Option Float :=
  (hops path).foldlM (fun total hop => (g.weight? hop.1 hop.2).map (total + ·)) 0

end Graph

end FogNet
