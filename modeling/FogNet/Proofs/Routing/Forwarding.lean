import FogNet.Proofs.Routing.Search

/-!
# Forwarding from hop to hop

A message can be sent along the route that its source computes, or be handed from vertex to vertex,
each asking for its own next hop (`Graph.forward`). The searches behind the two start at different
vertices, yet they agree: past its first vertex a best route is the best from there, ties included.
So a message that is handed on visits the vertices of the route, in their order, and arrives.
-/

namespace FogNet

namespace Graph

variable {g : Graph} {accept : EntityId → Bool} {source target hop : EntityId}
  {path rest : List EntityId}

/-- The vertices visited from a vertex on when each asks for its next hop, for at most so many
hops. -/
def forward (g : Graph) (accept : EntityId → Bool) (target : EntityId) :
    Nat → EntityId → List EntityId
  | 0, v => [v]
  | n + 1, v =>
    match g.nextHop accept v target with
    | some hop => v :: g.forward accept target n hop
    | none => [v]

theorem shortestPath_tail (h : g.shortestPath accept source target = some (source :: rest))
    (hhop : rest.head? = some hop) : g.shortestPath accept hop target = some rest :=
  shortestPath_eq_some_iff.2 ((shortestPath_eq_some_iff.1 h).tail hhop)

theorem exists_cons_of_shortestPath (h : g.shortestPath accept source target = some path) :
    ∃ rest, path = source :: rest ∧ g.nextHop accept source target = rest.head? := by
  obtain ⟨rest, rfl⟩ :=
    List.head?_eq_some_iff.1 (shortestPath_eq_some_iff.1 h).route.head?_eq
  refine ⟨rest, rfl, ?_⟩
  rw [nextHop, h, Option.bind_some, List.getElem?_cons_succ, List.head?_eq_getElem?]

theorem exists_shortestPath_of_nextHop (h : g.nextHop accept source target = some hop) :
    ∃ rest, rest.head? = some hop ∧
      g.shortestPath accept source target = some (source :: rest) := by
  obtain ⟨path, hpath, -⟩ := Option.bind_eq_some_iff.1 h
  obtain ⟨rest, rfl, hnext⟩ := exists_cons_of_shortestPath hpath
  exact ⟨rest, hnext.symm.trans h, hpath⟩

theorem forward_of_nextHop_none (h : g.nextHop accept source target = none) (n : Nat) :
    g.forward accept target n source = [source] := by
  cases n with
  | zero => rfl
  | succ n =>
    unfold forward
    rw [h]

/-- Handing a message on visits the vertices of the route. -/
theorem forward_eq_take (h : g.shortestPath accept source target = some path) (n : Nat) :
    g.forward accept target n source = path.take (n + 1) := by
  induction n generalizing source path with
  | zero =>
    obtain ⟨rest, rfl, -⟩ := exists_cons_of_shortestPath h
    rfl
  | succ n ih =>
    obtain ⟨rest, rfl, hnext⟩ := exists_cons_of_shortestPath h
    cases rest with
    | nil => exact forward_of_nextHop_none hnext _
    | cons hop rest =>
      unfold forward
      rw [hnext, List.head?_cons, List.take_succ_cons]
      exact congrArg _ (ih (shortestPath_tail h rfl))

theorem mem_take_iff (h : g.Best accept source target path) (n : Nat) :
    target ∈ path.take n ↔ path.length ≤ n := by
  obtain ⟨p, rfl⟩ := h.route.exists_concat
  have htarget : target ∉ p := fun hmem =>
    (List.nodup_append.1 h.nodup).2.2 target hmem target (List.mem_singleton_self _) rfl
  constructor
  · intro hmem
    by_contra hlt
    rw [List.length_append, List.length_singleton] at hlt
    rw [List.take_append_of_le_length (by omega)] at hmem
    exact htarget (List.mem_of_mem_take hmem)
  · intro hle
    rw [List.take_of_length_le hle]
    exact List.mem_append_right _ (List.mem_singleton_self _)

theorem nextHop_eq_none_iff : g.nextHop accept source target = none ↔
    source = target ∨ accept source = false ∨ accept target = false ∨
      ¬ ∃ path, g.Route accept source target path := by
  constructor
  · intro hnone
    cases hpath : g.shortestPath accept source target with
    | none => exact .inr (.inr (.inr (shortestPath_eq_none_iff.1 hpath)))
    | some path =>
      obtain ⟨rest, rfl, hnext⟩ := exists_cons_of_shortestPath hpath
      rw [hnone, eq_comm, List.head?_eq_none_iff] at hnext
      have hlast := (shortestPath_eq_some_iff.1 hpath).route.getLast?_eq
      rw [hnext, List.getLast?_singleton] at hlast
      exact .inl (Option.some.inj hlast)
  · intro h
    by_contra hsome
    obtain ⟨hop, hnext⟩ := Option.ne_none_iff_exists'.1 hsome
    obtain ⟨rest, hhop, hpath⟩ := exists_shortestPath_of_nextHop hnext
    have hbest := shortestPath_eq_some_iff.1 hpath
    rcases h with rfl | hsource | htarget | hroute
    · have hsingle := hbest.unique (best_single hbest.route.accept_source)
      rw [(List.cons.inj hsingle).2] at hhop
      cases hhop
    · exact absurd hbest.route.accept_source (by rw [hsource]; exact Bool.false_ne_true)
    · exact absurd hbest.route.accept_target (by rw [htarget]; exact Bool.false_ne_true)
    · exact hroute ⟨_, hbest.route⟩

/-- Messages handed from hop to hop take the route that the source would compute. -/
structure Forwarding (g : Graph) (accept : EntityId → Bool) (source target : EntityId) :
    Prop where
  /-- Past the source, the route is the one that the next hop computes. -/
  tail : ∀ hop, g.nextHop accept source target = some hop →
    ∃ rest, g.shortestPath accept hop target = some rest ∧
      g.shortestPath accept source target = some (source :: rest)
  /-- The vertices visited are those of the route. -/
  visits : ∀ path, g.shortestPath accept source target = some path →
    ∀ n, g.forward accept target n source = path.take (n + 1)
  /-- It takes exactly the hops of the route to arrive. -/
  arrives : ∀ path, g.shortestPath accept source target = some path →
    ∀ n, target ∈ g.forward accept target n source ↔ path.length ≤ n + 1
  /-- No vertex is visited twice. -/
  nodup : ∀ n, (g.forward accept target n source).Nodup
  /-- There is no next hop only at the target, from or to a vertex that is refused, or where there
  is no route. -/
  stuck_iff : g.nextHop accept source target = none ↔
    source = target ∨ accept source = false ∨ accept target = false ∨
      ¬ ∃ path, g.Route accept source target path

/-- Forwarding from hop to hop agrees with the route of the source, on every graph. -/
theorem forwarding (g : Graph) (accept : EntityId → Bool) (source target : EntityId) :
    g.Forwarding accept source target where
  tail hop h := by
    obtain ⟨rest, hhop, hpath⟩ := exists_shortestPath_of_nextHop h
    exact ⟨rest, shortestPath_tail hpath hhop, hpath⟩
  visits _ h n := forward_eq_take h n
  arrives path h n := by
    rw [forward_eq_take h]
    exact mem_take_iff (shortestPath_eq_some_iff.1 h) _
  nodup n := by
    cases hpath : g.shortestPath accept source target with
    | none =>
      rw [forward_of_nextHop_none (by rw [nextHop, hpath]; rfl)]
      exact List.nodup_singleton _
    | some path =>
      rw [forward_eq_take hpath]
      exact (shortestPath_eq_some_iff.1 hpath).nodup.sublist (List.take_sublist _ _)
  stuck_iff := nextHop_eq_none_iff

/-- The route over the first edge wins a tie, and without its vertex the other one is taken. -/
example :
    let diamond := ((((empty.addEdge 1 2 1).addEdge 2 3 1).addEdge 1 4 1).addEdge 4 3 1)
    diamond.forward everywhere 3 5 1 = [1, 2, 3] ∧
      diamond.forward (· != 2) 3 5 1 = [1, 4, 3] := by decide +kernel

end Graph

end FogNet
