import FogNet.Proofs.Routing.Paths

/-!
# The graph of some links

Each link adds an entry to the lists of its two ends (`Graph.arcs`), so a vertex lists the opposite
ends of its links in their order (`Graph.neighbors_ofLinks`). Two vertices are neighbours if some
link connects them, and the weight between them is the latency of the first such link.
-/

namespace FogNet

namespace Graph

variable {g : Graph} {u v w : EntityId} {weight : Float} {links : List Link}

/-- What a link adds to the neighbours of a vertex. -/
def arcs (u : EntityId) (l : Link) : List (EntityId × Float) :=
  (if l.first = u then [(l.second, l.latency)] else []) ++
    if l.second = u then [(l.first, l.latency)] else []

theorem neighbors_addArc (g : Graph) (u v w : EntityId) (weight : Float) :
    (g.addArc u v weight).neighbors w =
      g.neighbors w ++ if u = w then [(v, weight)] else [] := by
  show ((g.adjacency.insert u (g.neighbors u ++ [(v, weight)])).get? w).getD [] = _
  rw [SortedMap.get?_insert]
  by_cases hw : w = u
  · rw [if_pos hw, if_pos hw.symm, hw]
    rfl
  · rw [if_neg hw, if_neg (Ne.symm hw), List.append_nil]
    rfl

theorem neighbors_addEdge (g : Graph) (l : Link) (w : EntityId) :
    (g.addEdge l.first l.second l.latency).neighbors w = g.neighbors w ++ arcs w l := by
  unfold addEdge arcs
  rw [neighbors_addArc, neighbors_addArc, List.append_assoc]

theorem neighbors_ofLinks (links : List Link) (u : EntityId) :
    (ofLinks links).neighbors u = links.flatMap (arcs u) := by
  have hfold : ∀ (links : List Link) (g : Graph),
      (links.foldl (fun g l => g.addEdge l.first l.second l.latency) g).neighbors u =
        g.neighbors u ++ links.flatMap (arcs u) := by
    intro links
    induction links with
    | nil => intro g; exact (List.append_nil _).symm
    | cons l rest ih =>
      intro g
      rw [List.foldl_cons, ih, neighbors_addEdge, List.append_assoc, List.flatMap_cons]
  exact hfold links empty

/-- What a link adds to one end is the way to the other. -/
theorem find?_arcs (l : Link) (u v : EntityId) :
    ((arcs u l).find? fun e => e.1 == v).map (·.2) =
      if l.connects u v then some l.latency else none := by
  unfold arcs Link.connects
  grind

theorem mem_arcs_iff {l : Link} : v ∈ (arcs u l).map (·.1) ↔ l.connects u v = true := by
  unfold arcs Link.connects
  grind

/-- Neighbours are joined by a link. -/
theorem mem_around_ofLinks : v ∈ (ofLinks links).around u ↔ ∃ l ∈ links, l.connects u v = true := by
  unfold around
  rw [neighbors_ofLinks, List.map_flatMap, List.mem_flatMap]
  simp only [mem_arcs_iff]

/-- The weight between two neighbours is the latency of the first link that joins them. -/
theorem weight?_ofLinks (links : List Link) (u v : EntityId) :
    (ofLinks links).weight? u v = (links.find? (·.connects u v)).map (·.latency) := by
  unfold weight?
  rw [neighbors_ofLinks]
  induction links with
  | nil => rfl
  | cons l rest ih =>
    have hl := find?_arcs l u v
    rw [List.flatMap_cons, List.find?_append, List.find?_cons]
    cases hconnects : l.connects u v with
    | true =>
      rw [if_pos hconnects] at hl
      obtain ⟨e, he, hlatency⟩ := Option.map_eq_some_iff.1 hl
      rw [he, Option.some_or, Option.map_some, Option.map_some, hlatency]
    | false =>
      rw [if_neg (by rw [hconnects]; exact Bool.false_ne_true), Option.map_eq_none_iff] at hl
      rw [hl, Option.none_or]
      exact ih

end Graph

end FogNet
