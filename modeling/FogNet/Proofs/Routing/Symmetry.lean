import FogNet.Proofs.Routing.Links
import FogNet.Proofs.Routing.Shortest

/-!
# Edges go both ways

Graphs grow by edges, each of which adds an entry on both of its sides (`Graph.Grown`). So if one
vertex is a neighbour of another, the other is a neighbour of the one, and there are two entries for
each edge (`Graph.Balanced`). A route can then be taken backwards, and although the search may find
other vertices on the way back, it finds a path in one direction if and only if it finds one in the
other, of the same length (`Graph.Grown.undirected`).
-/

namespace FogNet

namespace Graph

open SortedMap

variable {g : Graph} {accept : EntityId → Bool} {source target u v w : EntityId}
  {p q path : List EntityId} {weight : Float} {count : Nat}

/-- The graphs made by adding edges, with the number of edges added. -/
inductive Grown : Graph → Nat → Prop
  /-- There are no edges at first. -/
  | empty : Grown empty 0
  /-- A graph is made of some links. -/
  | ofLinks (links : List Link) : Grown (ofLinks links) links.length
  /-- An edge is added, perhaps from a vertex to itself or beside another one. -/
  | addEdge {g : Graph} {count : Nat} (hg : Grown g count) (u v : EntityId) (weight : Float) :
      Grown (g.addEdge u v weight) (count + 1)

/-- A graph in which each of so many edges has an entry on both of its sides. -/
structure Balanced (g : Graph) (count : Nat) : Prop where
  /-- Neighbours are neighbours of each other. -/
  back : ∀ {u v}, v ∈ g.around u → u ∈ g.around v
  /-- There are two entries for each edge. -/
  arcs : g.arcCount = 2 * count

/-! ## Adding an edge -/

theorem mem_around_addArc :
    w ∈ (g.addArc u v weight).around source ↔ w ∈ g.around source ∨ u = source ∧ w = v := by
  unfold around
  rw [neighbors_addArc, List.map_append, List.mem_append]
  split_ifs with hu <;> simp [hu]

theorem mem_around_addEdge : w ∈ (g.addEdge u v weight).around source ↔
    w ∈ g.around source ∨ u = source ∧ w = v ∨ v = source ∧ w = u := by
  unfold addEdge
  rw [mem_around_addArc, mem_around_addArc, or_assoc]

/-- Putting a list under a key adds its length and takes off that of the list it replaces. -/
theorem length_flatMap_placeEntry {α : Type} (k : Nat) (arcs : List α) {es : List (Nat × List α)}
    (hes : es.Pairwise fun a b => a.1 < b.1) :
    ((placeEntry k arcs es).flatMap (·.2)).length + ((findEntry k es).getD []).length =
      (es.flatMap (·.2)).length + arcs.length := by
  induction es with
  | nil => simp [placeEntry, findEntry]
  | cons e rest ih =>
    obtain ⟨he, hrest⟩ := List.pairwise_cons.1 hes
    have ih := ih hrest
    unfold placeEntry findEntry
    rcases Nat.lt_trichotomy k e.1 with hlt | heq | hgt
    · have hnone : findEntry k rest = none := by
        by_contra hsome
        obtain ⟨found, hfound⟩ := Option.ne_none_iff_exists'.1 hsome
        exact absurd (he _ ((findEntry_eq_some_iff hrest).1 hfound)) (by simp only; omega)
      rw [if_pos hlt, if_neg hlt.ne, hnone]
      simp only [List.flatMap_cons, List.length_append, Option.getD_none, List.length_nil]
      omega
    · rw [if_neg heq.not_lt, if_pos heq, if_pos heq]
      simp only [List.flatMap_cons, List.length_append, Option.getD_some]
      omega
    · rw [if_neg hgt.not_gt, if_neg hgt.ne', if_neg hgt.ne']
      simp only [List.flatMap_cons, List.length_append]
      omega

theorem arcCount_eq_length (g : Graph) :
    g.arcCount = (g.adjacency.entries.flatMap (·.2)).length := by
  rw [arcCount_eq, ends, values, List.flatMap_map, ← List.map_flatMap, List.length_map]

theorem arcCount_addArc (g : Graph) (u v : EntityId) (weight : Float) :
    (g.addArc u v weight).arcCount = g.arcCount + 1 := by
  have hplaced := length_flatMap_placeEntry u (g.neighbors u ++ [(v, weight)])
    g.adjacency.ascending
  rw [arcCount_eq_length, arcCount_eq_length]
  change _ + (g.neighbors u).length = _ at hplaced
  rw [List.length_append, List.length_singleton] at hplaced
  change ((placeEntry u _ g.adjacency.entries).flatMap (·.2)).length = _
  omega

theorem Balanced.empty : Balanced empty 0 := ⟨nofun, rfl⟩

theorem Balanced.addEdge (hg : g.Balanced count) (u v : EntityId) (weight : Float) :
    (g.addEdge u v weight).Balanced (count + 1) where
  back {a b} hb := by
    rw [mem_around_addEdge] at hb ⊢
    obtain hb | ⟨rfl, rfl⟩ | ⟨rfl, rfl⟩ := hb
    · exact .inl (hg.back hb)
    · exact .inr (.inr ⟨rfl, rfl⟩)
    · exact .inr (.inl ⟨rfl, rfl⟩)
  arcs := by
    unfold Graph.addEdge
    rw [arcCount_addArc, arcCount_addArc, hg.arcs]
    omega

theorem Balanced.foldl_links (hg : g.Balanced count) (links : List Link) :
    (links.foldl (fun g l => g.addEdge l.first l.second l.latency) g).Balanced
      (count + links.length) := by
  induction links generalizing g count with
  | nil => exact hg
  | cons l rest ih =>
    rw [List.foldl_cons, List.length_cons, Nat.add_comm rest.length, ← Nat.add_assoc]
    exact ih (hg.addEdge l.first l.second l.latency)

theorem Grown.balanced (hg : Grown g count) : g.Balanced count := by
  induction hg with
  | empty => exact .empty
  | ofLinks links =>
    have h := Balanced.empty.foldl_links links
    rwa [Nat.zero_add] at h
  | addEdge _ u v weight ih => exact ih.addEdge u v weight

/-! ## The way back -/

theorem Route.reverse (hg : g.Balanced count)
    (h : g.Route accept source target path) : g.Route accept target source path.reverse := by
  induction h with
  | start haccept => exact .start haccept
  | hop _ hv haccept ih =>
    rw [List.reverse_concat]
    exact ih.cons haccept (hg.back hv)

/-- The best route back is not longer than the route there. -/
theorem Best.length_le_of_route (hg : g.Balanced count)
    (hp : g.Best accept source target p) (hq : g.Route accept target source q) :
    p.length ≤ q.length := by
  by_contra hlt
  refine absurd (hp.least _ (hq.reverse hg)) (not_le.2 (rank_lt_of_length_lt ?_))
  rw [List.length_reverse]
  exact not_le.1 hlt

theorem exists_shortestPath_of_route (h : g.Route accept source target path) :
    ∃ p, g.shortestPath accept source target = some p := by
  refine Option.ne_none_iff_exists'.1 fun hnone => ?_
  exact shortestPath_eq_none_iff.1 hnone ⟨path, h⟩

/-- What holds of a graph whose edges go both ways. -/
structure Undirected (g : Graph) (count : Nat) : Prop where
  /-- There is a path if and only if there is one back. -/
  isSome_iff : ∀ accept source target, (g.shortestPath accept source target).isSome ↔
    (g.shortestPath accept target source).isSome
  /-- It takes as many hops as the path back. -/
  length_eq : ∀ accept source target p q, g.shortestPath accept source target = some p →
    g.shortestPath accept target source = some q → p.length = q.length
  /-- The number of edges is known. -/
  edgeCount : g.edgeCount = count

/-- Distances in a graph are the same in both directions, whatever vertices have to be avoided, and
every edge counts once, loops and parallel edges included. -/
theorem Grown.undirected (hg : Grown g count) : g.Undirected count := by
  have hback : ∀ accept source target, (g.shortestPath accept source target).isSome →
      (g.shortestPath accept target source).isSome := by
    intro accept source target h
    obtain ⟨p, hp⟩ := Option.isSome_iff_exists.1 h
    have hroute := (shortestPath_eq_some_iff.1 hp).route.reverse hg.balanced
    exact Option.isSome_iff_exists.2 (exists_shortestPath_of_route hroute)
  refine ⟨fun accept source target => ⟨hback accept source target, hback accept target source⟩,
    fun accept source target p q hp hq => ?_, ?_⟩
  · have hthere := shortestPath_eq_some_iff.1 hp
    have hthence := shortestPath_eq_some_iff.1 hq
    exact le_antisymm (hthere.length_le_of_route hg.balanced hthence.route)
      (hthence.length_le_of_route hg.balanced hthere.route)
  · rw [edgeCount, hg.balanced.arcs]
    omega

/-- A ring of four vertices with a parallel edge and a loop. -/
def ring : Graph :=
  let square := (((empty.addEdge 1 4 1).addEdge 2 3 1).addEdge 1 2 1).addEdge 4 3 1
  (square.addEdge 1 2 5).addEdge 2 2 1

/-- The way back goes round the other side of the ring, and it is as long. -/
theorem Grown.undirected_ring : Grown ring 6 ∧
    ring.shortestPath everywhere 1 3 = some [1, 4, 3] ∧
    ring.shortestPath everywhere 3 1 = some [3, 2, 1] ∧
    [1, 4, 3].length = [3, 2, 1].length ∧ ring.edgeCount = 6 := by
  have hsquare := (((Grown.empty.addEdge 1 4 1).addEdge 2 3 1).addEdge 1 2 1).addEdge 4 3 1
  have hring : Grown ring 6 := (hsquare.addEdge 1 2 5).addEdge 2 2 1
  have hthere : ring.shortestPath everywhere 1 3 = some [1, 4, 3] := by decide +kernel
  have hback : ring.shortestPath everywhere 3 1 = some [3, 2, 1] := by decide +kernel
  have hundirected := Grown.undirected hring
  exact ⟨hring, hthere, hback, hundirected.length_eq everywhere 1 3 _ _ hthere hback,
    hundirected.edgeCount⟩

end Graph

end FogNet
