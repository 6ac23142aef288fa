import FogNet.Proofs.Routing.Shortest

/-!
# Ties between shortest paths

Several paths between two vertices may take the fewest hops (`Graph.Shortest`). Where two of them
part, one goes on to a neighbour that stands earlier in the list of the vertex that they have in
common (`Graph.Earlier`). Among routes of one length this is the order of their turns, so the search
answers with the shortest path that is earlier than all the others
(`Graph.shortestPath_eq_some_iff_earliest`).
-/

namespace FogNet

namespace Graph

variable {g : Graph} {accept : EntityId → Bool} {source target u v : EntityId}
  {p q path other : List EntityId}

/-- Two paths have a vertex in common up to which they are the same, and from there the first goes
on to an earlier neighbour than the second. -/
def Earlier (g : Graph) (p q : List EntityId) : Prop :=
  ∃ before u v w rest other, p = before ++ u :: v :: rest ∧ q = before ++ u :: w :: other ∧
    (g.around u).idxOf v < (g.around u).idxOf w

/-- A path with the fewest hops of all between its ends. -/
structure Shortest (g : Graph) (accept : EntityId → Bool) (source target : EntityId)
    (path : List EntityId) : Prop where
  /-- It is a path. -/
  walks : g.Walks accept source target path
  /-- No path takes fewer hops. -/
  fewest : ∀ other, g.Walks accept source target other → (hops path).length ≤ (hops other).length

/-! ## Turns -/

theorem Earlier.cons (h : g.Earlier p q) (u : EntityId) : g.Earlier (u :: p) (u :: q) := by
  obtain ⟨before, w, x, y, rest, other, rfl, rfl, hlt⟩ := h
  exact ⟨u :: before, w, x, y, rest, other, rfl, rfl, hlt⟩

/-- Up to where the paths part they make the same turns, and there the first makes the smaller. -/
theorem Earlier.turns_lt (h : g.Earlier p q) : g.turns p < g.turns q := by
  obtain ⟨before, u, v, w, rest, other, rfl, rfl, hlt⟩ := h
  induction before with
  | nil => exact List.cons_lt_cons_iff.2 (.inl hlt)
  | cons a before ih =>
    cases before with
    | nil => exact List.cons_lt_cons_iff.2 (.inr ⟨rfl, ih⟩)
    | cons b before => exact List.cons_lt_cons_iff.2 (.inr ⟨rfl, ih⟩)

/-- Routes whose turns differ part where the first turn differs. -/
theorem Route.earlier_of_turns_lt (hp : g.Route accept source u p)
    (hq : g.Route accept source v q) (hlength : p.length = q.length)
    (h : g.turns p < g.turns q) : g.Earlier p q := by
  induction p generalizing source q with
  | nil => cases hp.head?_eq
  | cons a p ih =>
    obtain ⟨hsingle, -⟩ | ⟨i, rest, hcons, hi, hrest⟩ := hp.cases_source
    · obtain ⟨rfl, rfl⟩ := List.cons.inj hsingle
      obtain ⟨b, rfl⟩ := List.length_eq_one_iff.1 hlength.symm
      exact absurd h (lt_irrefl _)
    · obtain ⟨rfl, rfl⟩ := List.cons.inj hcons
      obtain ⟨rfl, -⟩ | ⟨j, other, rfl, hj, hother⟩ := hq.cases_source
      · exact absurd h (List.not_lt_nil _)
      · obtain ⟨p', rfl⟩ := List.head?_eq_some_iff.1 hrest.head?_eq
        obtain ⟨q', rfl⟩ := List.head?_eq_some_iff.1 hother.head?_eq
        obtain hlt | ⟨heq, hlt⟩ := List.cons_lt_cons_iff.1 h
        · exact ⟨[], a, i, j, p', q', rfl, rfl, hlt⟩
        · obtain rfl := (List.idxOf_inj hi).1 heq
          exact (ih hrest hother (Nat.succ.inj hlength) hlt).cons a

/-! ## The earliest shortest path -/

theorem Best.shortest (h : g.Best accept source target path) :
    g.Shortest accept source target path :=
  ⟨h.route.walks, fun _ hother => h.hops_le hother.route⟩

theorem Shortest.length_eq (hp : g.Shortest accept source target p)
    (hq : g.Shortest accept source target q) : p.length = q.length := by
  rw [hp.walks.route.length_hops, hq.walks.route.length_hops]
  exact congrArg Nat.succ (le_antisymm (hp.fewest q hq.walks) (hq.fewest p hp.walks))

/-- The best route is earlier than every other shortest path. -/
theorem Best.earlier (h : g.Best accept source target path)
    (hother : g.Shortest accept source target other) (hne : other ≠ path) :
    g.Earlier path other := by
  have hlength := h.shortest.length_eq hother
  refine h.route.earlier_of_turns_lt hother.walks.route hlength ?_
  have hrank : g.rank path < g.rank other :=
    lt_of_le_of_ne (h.least other hother.walks.route) fun heq =>
      hne (h.route.eq_of_rank_eq hother.walks.route heq).symm
  exact ((rank_lt_iff.1 hrank).resolve_left hlength.not_lt).2

/-- The search answers with the shortest path that is earlier than all other shortest paths. -/
theorem shortestPath_eq_some_iff_earliest :
    g.shortestPath accept source target = some path ↔
      g.Shortest accept source target path ∧
        ∀ other, g.Shortest accept source target other → other ≠ path → g.Earlier path other := by
  rw [shortestPath_eq_some_iff]
  constructor
  · exact fun h => ⟨h.shortest, fun other hother hne => h.earlier hother hne⟩
  · rintro ⟨hpath, hearliest⟩
    -- there is a path, so there is a best one, and none is earlier than that
    obtain ⟨best, hbest⟩ : ∃ best, g.Best accept source target best := by
      cases hfound : g.shortestPath accept source target with
      | none => exact absurd ⟨path, hpath.walks.route⟩ (shortestPath_eq_none_iff.1 hfound)
      | some best => exact ⟨best, shortestPath_eq_some_iff.1 hfound⟩
    by_cases hne : best = path
    · exact hne ▸ hbest
    · have hbefore := (hearliest best hbest.shortest hne).turns_lt
      have hafter := (hbest.earlier hpath (Ne.symm hne)).turns_lt
      exact absurd hbefore hafter.not_gt

/-- Of two ways round a diamond, the search takes the one whose first edge was added first, in
either direction. -/
example :
    let diamond := ((((empty.addEdge 1 4 1).addEdge 2 3 1).addEdge 1 2 1).addEdge 4 3 1)
    diamond.shortestPath everywhere 1 3 = some [1, 4, 3] ∧
      diamond.shortestPath everywhere 3 1 = some [3, 2, 1] := by decide +kernel

end Graph

end FogNet
