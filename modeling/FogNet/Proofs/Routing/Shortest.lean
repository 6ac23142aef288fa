import FogNet.Proofs.Routing.Search
import Mathlib.Data.List.Chain

/-!
# Shortest paths

A path is a list of vertices in which each step follows an adjacency entry and every vertex is
accepted (`Graph.Walks`). Such lists are the routes that the search compares (`walks_iff_route`), so
its answer is correct and complete (`Graph.shortestPath_solves`): nothing if there is no path at
all, and else a path with the fewest hops that meets no vertex twice.
-/

namespace FogNet

namespace Graph

variable {g : Graph} {accept : EntityId → Bool} {source target u v : EntityId}
  {path rest : List EntityId}

/-- One vertex has an adjacency entry for another one, of whatever weight. -/
def Adjacent (g : Graph) (u v : EntityId) : Prop := ∃ weight, (v, weight) ∈ g.neighbors u

/-- A path through a graph over accepted vertices, both ends included. -/
structure Walks (g : Graph) (accept : EntityId → Bool) (source target : EntityId)
    (path : List EntityId) : Prop where
  /-- It starts at the source. -/
  head : path.head? = some source
  /-- It ends at the target. -/
  last : path.getLast? = some target
  /-- Each step follows an adjacency entry. -/
  steps : path.IsChain g.Adjacent
  /-- Every vertex is accepted. -/
  accepted : ∀ v ∈ path, accept v = true

theorem mem_around_iff : v ∈ g.around u ↔ g.Adjacent u v := by
  unfold around Adjacent
  rw [List.mem_map]
  constructor
  · rintro ⟨⟨_, weight⟩, hmem, rfl⟩
    exact ⟨weight, hmem⟩
  · rintro ⟨weight, hmem⟩
    exact ⟨_, hmem, rfl⟩

theorem Route.walks (h : g.Route accept source target path) :
    g.Walks accept source target path := by
  refine ⟨h.head?_eq, h.getLast?_eq, ?_, fun v hv => h.accept_of_mem hv⟩
  induction h with
  | start _ => exact .singleton _
  | hop h hv _ ih =>
    refine List.isChain_append.2 ⟨ih, .singleton _, fun x hx y hy => ?_⟩
    obtain rfl := Option.some.inj (h.getLast?_eq.symm.trans hx)
    obtain rfl := Option.some.inj hy
    exact mem_around_iff.1 hv

/-- A path is a route: it goes on from its second vertex, or it has no other than the target. -/
theorem Walks.route (h : g.Walks accept source target path) :
    g.Route accept source target path := by
  induction path generalizing source with
  | nil => cases h.head
  | cons u rest ih =>
    obtain rfl := Option.some.inj h.head
    obtain ⟨hu, hrest⟩ := List.forall_mem_cons.1 h.accepted
    cases rest with
    | nil =>
      obtain rfl := Option.some.inj h.last
      exact .start hu
    | cons v rest =>
      obtain ⟨hstep, hsteps⟩ := List.isChain_cons_cons.1 h.steps
      have hlast : (v :: rest).getLast? = some target := by
        rw [← h.last, List.getLast?_cons_cons]
      exact (ih ⟨rfl, hlast, hsteps, hrest⟩).cons hu (mem_around_iff.2 hstep)

theorem walks_iff_route : g.Walks accept source target path ↔ g.Route accept source target path :=
  ⟨Walks.route, Route.walks⟩

/-- A best route takes no more hops than any other. -/
theorem Best.hops_le (h : g.Best accept source target path)
    (hrest : g.Route accept source target rest) : (hops path).length ≤ (hops rest).length := by
  have hpath := h.route.length_hops
  have hother := hrest.length_hops
  have hlength : path.length ≤ rest.length := by
    by_contra hlt
    exact absurd (rank_lt_of_length_lt (g := g) (not_le.1 hlt)) (not_lt.2 (h.least rest hrest))
  omega

/-- What an answer to the question for a shortest path has to be. -/
structure Solves (g : Graph) (accept : EntityId → Bool) (source target : EntityId)
    (answer : Option (List EntityId)) : Prop where
  /-- There is none only if there is no path. -/
  none_iff : answer = none ↔ ¬ ∃ path, g.Walks accept source target path
  /-- It is a path. -/
  walks : ∀ path, answer = some path → g.Walks accept source target path
  /-- It meets no vertex twice. -/
  nodup : ∀ path, answer = some path → path.Nodup
  /-- No path takes fewer hops. -/
  fewest : ∀ path, answer = some path →
    ∀ other, g.Walks accept source target other → (hops path).length ≤ (hops other).length

/-- The search is correct and complete on every graph, whatever vertices it has to avoid. -/
theorem shortestPath_solves (g : Graph) (accept : EntityId → Bool) (source target : EntityId) :
    g.Solves accept source target (g.shortestPath accept source target) where
  none_iff := by
    rw [shortestPath_eq_none_iff]
    simp only [walks_iff_route]
  walks path hpath := (shortestPath_eq_some_iff.1 hpath).route.walks
  nodup path hpath := (shortestPath_eq_some_iff.1 hpath).nodup
  fewest path hpath other hother := (shortestPath_eq_some_iff.1 hpath).hops_le hother.route

/-- Two parallel edges and a loop make no difference, and a vertex that is refused is avoided even
at the price of a longer path. -/
example :
    let ring := ([(1, 2, 1), (1, 2, 5), (2, 2, 1), (2, 4, 1), (1, 3, 1), (3, 5, 1), (5, 4, 1)] :
      List (EntityId × EntityId × Float)).foldl (fun g e => g.addEdge e.1 e.2.1 e.2.2) empty
    ring.shortestPath everywhere 1 4 = some [1, 2, 4] ∧
      ring.shortestPath (· != 2) 1 4 = some [1, 3, 5, 4] ∧
      ring.shortestPath (· != 4) 1 4 = none := by decide +kernel

end Graph

end FogNet
