import FogNet.Routing.Graph
import Mathlib.Data.List.Lex
import Mathlib.Data.Prod.Lex
import Mathlib.Tactic.SplitIfs

/-!
# Routes and their order

A route grows at its end, one neighbour after another, over accepted vertices (`Graph.Route`).
Routes are compared by their numbers of vertices and then by their turns: at each vertex, which of
its neighbours they take, the one whose edge was added first coming first (`Graph.rank`). Two routes
from one vertex have the same rank only if they are the same, so between two vertices there is at
most one best route. The order is kept when routes are extended at their ends and when a vertex is
put before them; the best route therefore ends in best routes and meets no vertex twice.
-/

namespace FogNet

namespace Graph

variable {g : Graph} {accept : EntityId → Bool} {source target hop u v w : EntityId}
  {p q path rest : List EntityId}

/-- The neighbours of a vertex, in the order in which the edges were added. -/
def around (g : Graph) (u : EntityId) : List EntityId := (g.neighbors u).map (·.1)

/-- The routes from a vertex over accepted vertices, with their ends. -/
inductive Route (g : Graph) (accept : EntityId → Bool) (source : EntityId) :
    EntityId → List EntityId → Prop
  | start : accept source = true → Route g accept source source [source]
  | hop {u v : EntityId} {path : List EntityId} : Route g accept source u path → v ∈ g.around u →
      accept v = true → Route g accept source v (path ++ [v])

/-! ## Routes -/

theorem Route.accept_source (h : g.Route accept source u path) : accept source = true := by
  induction h with
  | start haccept => exact haccept
  | hop _ _ _ ih => exact ih

theorem Route.accept_target (h : g.Route accept source u path) : accept u = true := by
  cases h with
  | start haccept => exact haccept
  | hop _ _ haccept => exact haccept

theorem Route.accept_of_mem (h : g.Route accept source target path) (hv : v ∈ path) :
    accept v = true := by
  induction h with
  | start haccept => exact List.mem_singleton.1 hv ▸ haccept
  | hop _ _ haccept ih =>
    obtain hv | hv := List.mem_append.1 hv
    · exact ih hv
    · exact List.mem_singleton.1 hv ▸ haccept

theorem Route.exists_concat (h : g.Route accept source u path) : ∃ p, path = p ++ [u] := by
  cases h with
  | start _ => exact ⟨[], rfl⟩
  | @hop _ _ p _ _ _ => exact ⟨p, rfl⟩

theorem Route.getLast?_eq (h : g.Route accept source u path) : path.getLast? = some u := by
  obtain ⟨p, rfl⟩ := h.exists_concat
  exact List.getLast?_concat

theorem Route.head?_eq (h : g.Route accept source u path) : path.head? = some source := by
  induction h with
  | start _ => rfl
  | hop _ _ _ ih => rw [List.head?_append, ih, Option.some_or]

theorem Route.target_unique (hu : g.Route accept source u path)
    (hv : g.Route accept source v path) : u = v :=
  Option.some.inj (hu.getLast?_eq.symm.trans hv.getLast?_eq)

/-- A route may begin one vertex earlier. -/
theorem Route.cons (hu : accept u = true) (hv : v ∈ g.around u)
    (h : g.Route accept v target path) : g.Route accept u target (u :: path) := by
  induction h with
  | start haccept => exact Route.hop (Route.start hu) hv haccept
  | hop _ hw haccept ih => exact Route.hop ih hw haccept

/-- A route stays where it is or goes on from a neighbour. -/
theorem Route.cases_source (h : g.Route accept source target path) :
    (path = [source] ∧ target = source) ∨
      ∃ hop rest, path = source :: rest ∧ hop ∈ g.around source ∧
        g.Route accept hop target rest := by
  induction h with
  | start _ => exact .inl ⟨rfl, rfl⟩
  | @hop u v path h hv haccept ih =>
    obtain ⟨rfl, rfl⟩ | ⟨hop, rest, rfl, hhop, hrest⟩ := ih
    · exact .inr ⟨v, [v], rfl, hv, Route.start haccept⟩
    · exact .inr ⟨hop, rest ++ [v], rfl, hhop, Route.hop hrest hv haccept⟩

/-- A route stays where it is or has come from a neighbour. -/
theorem Route.cases_target (h : g.Route accept source target path) :
    path = [source] ∨ ∃ u p, path = p ++ [target] ∧ g.Route accept source u p := by
  cases h with
  | start _ => exact .inl rfl
  | @hop u _ p h _ _ => exact .inr ⟨u, p, rfl, h⟩

/-- A route that leaves a set of vertices does so by some hop. -/
theorem Route.exists_leaving {S : EntityId → Prop} (h : g.Route accept source target path)
    (hsource : S source) (htarget : ¬ S target) :
    ∃ u v p rest, g.Route accept source u p ∧ S u ∧ v ∈ g.around u ∧ accept v = true ∧ ¬ S v ∧
      path = p ++ v :: rest := by
  induction h with
  | start _ => exact absurd hsource htarget
  | @hop u v path h hv haccept ih =>
    by_cases hu : S u
    · exact ⟨u, v, path, [], h, hu, hv, haccept, htarget, rfl⟩
    · obtain ⟨u, w, p, rest, hp, hu, hw, hacceptw, hSw, rfl⟩ := ih hu
      exact ⟨u, w, p, rest ++ [v], hp, hu, hw, hacceptw, hSw, by simp⟩

/-! ## Hops -/

theorem hops_concat (p : List EntityId) (u v : EntityId) :
    hops (p ++ [u] ++ [v]) = hops (p ++ [u]) ++ [(u, v)] := by
  induction p with
  | nil => rfl
  | cons w p ih =>
    cases p with
    | nil => rfl
    | cons x p =>
      show (w, x) :: hops (x :: p ++ [u] ++ [v]) = _
      rw [ih]
      rfl

theorem Route.hops_concat (h : g.Route accept source u path) (v : EntityId) :
    hops (path ++ [v]) = hops path ++ [(u, v)] := by
  obtain ⟨p, rfl⟩ := h.exists_concat
  exact Graph.hops_concat p u v

theorem Route.length_hops (h : g.Route accept source u path) :
    path.length = (hops path).length + 1 := by
  induction h with
  | start _ => rfl
  | hop h _ _ ih => rw [h.hops_concat, List.length_append, List.length_append, ih]; rfl

/-- A route takes one edge after the other. -/
theorem Route.forall_mem_hops (h : g.Route accept source target path) :
    ∀ hop ∈ hops path, hop.2 ∈ g.around hop.1 := by
  induction h with
  | start _ => exact nofun
  | hop h hv _ ih =>
    rw [h.hops_concat, List.forall_mem_append]
    exact ⟨ih, List.forall_mem_singleton.2 hv⟩

/-! ## Ranks -/

/-- The turns of a path: at each vertex, which neighbour comes next. -/
def turns (g : Graph) (path : List EntityId) : List Nat :=
  (hops path).map fun hop => (g.around hop.1).idxOf hop.2

/-- The length of a path and its turns. -/
def rank (g : Graph) (path : List EntityId) : ℕ ×ₗ List ℕ := toLex (path.length, g.turns path)

theorem rank_lt_iff : g.rank p < g.rank q ↔
    p.length < q.length ∨ p.length = q.length ∧ g.turns p < g.turns q :=
  Prod.Lex.toLex_lt_toLex

theorem rank_lt_of_length_lt (h : p.length < q.length) : g.rank p < g.rank q :=
  rank_lt_iff.2 (.inl h)

theorem Route.turns_concat (h : g.Route accept source u path) (v : EntityId) :
    g.turns (path ++ [v]) = g.turns path ++ [(g.around u).idxOf v] := by
  unfold turns
  rw [h.hops_concat, List.map_append, List.map_singleton]

theorem Route.length_turns (h : g.Route accept source u path) :
    path.length = (g.turns path).length + 1 := by
  rw [turns, List.length_map]
  exact h.length_hops

/-- What decides between two lists of one length still decides when both are extended. -/
theorem concat_lt_concat {l m : List Nat} {i j : Nat} (hlength : l.length = m.length)
    (h : l < m) : l ++ [i] < m ++ [j] := by
  induction l generalizing m with
  | nil =>
    rw [List.length_nil, eq_comm, List.length_eq_zero_iff] at hlength
    rw [hlength] at h
    exact absurd h (lt_irrefl _)
  | cons a l ih =>
    obtain _ | ⟨b, m⟩ := m
    · cases hlength
    · rw [List.cons_append, List.cons_append, List.cons_lt_cons_iff]
      rcases List.cons_lt_cons_iff.1 h with hab | ⟨hab, hlm⟩
      · exact .inl hab
      · exact .inr ⟨hab, ih (Nat.succ.inj hlength) hlm⟩

/-- Of two routes to any vertices, the better one stays the better when both go one hop on. -/
theorem Route.rank_concat_lt (hp : g.Route accept source u p) (hq : g.Route accept source v q)
    (h : g.rank p < g.rank q) (i j : EntityId) : g.rank (p ++ [i]) < g.rank (q ++ [j]) := by
  rw [rank_lt_iff, List.length_append, List.length_append, hp.turns_concat, hq.turns_concat]
  rcases rank_lt_iff.1 h with hlt | ⟨heq, hlt⟩
  · exact .inl (by simpa using hlt)
  · have hturns : (g.turns p).length = (g.turns q).length := by
      have := hp.length_turns
      have := hq.length_turns
      omega
    exact .inr ⟨by rw [heq]; rfl, concat_lt_concat hturns hlt⟩

/-- Of the hops by which a route may go on, the one to the earlier neighbour is the better. -/
theorem Route.rank_concat_lt_of_idxOf (hp : g.Route accept source u p)
    (h : (g.around u).idxOf v < (g.around u).idxOf w) : g.rank (p ++ [v]) < g.rank (p ++ [w]) := by
  rw [rank_lt_iff, hp.turns_concat, hp.turns_concat]
  refine .inr ⟨by simp, ?_⟩
  apply List.append_left_lt
  exact List.cons_lt_cons_iff.2 (.inl h)

/-- Routes from one vertex are told apart by their ranks. -/
theorem Route.eq_of_rank_eq (hp : g.Route accept source u p) (hq : g.Route accept source v q)
    (h : g.rank p = g.rank q) : p = q := by
  obtain ⟨hlength, hturns⟩ := Prod.mk.inj (toLex_inj.1 h)
  clear h
  induction hp generalizing v q with
  | start _ =>
    cases hq with
    | start _ => rfl
    | hop hq _ _ =>
      have := hq.length_turns
      simp only [List.length_singleton, List.length_append] at hlength
      omega
  | @hop u i p hp hi _ ih =>
    cases hq with
    | start _ =>
      have := hp.length_turns
      simp only [List.length_singleton, List.length_append] at hlength
      omega
    | @hop w j q hq hj _ =>
      rw [hp.turns_concat, hq.turns_concat] at hturns
      obtain ⟨hturns, hidx⟩ := List.append_inj' hturns rfl
      simp only [List.length_append, List.length_singleton, Nat.add_right_cancel_iff] at hlength
      obtain rfl := ih hq hlength hturns
      obtain rfl := hp.target_unique hq
      rw [List.idxOf_inj hi |>.1 (List.head_eq_of_cons_eq hidx)]

/-! ## Best routes -/

/-- A route of least rank among those with its ends. -/
structure Best (g : Graph) (accept : EntityId → Bool) (source target : EntityId)
    (path : List EntityId) : Prop where
  /-- It is a route. -/
  route : g.Route accept source target path
  /-- No other is better. -/
  least : ∀ other, g.Route accept source target other → g.rank path ≤ g.rank other

theorem Best.unique (hp : g.Best accept source target p) (hq : g.Best accept source target q) :
    p = q :=
  hp.route.eq_of_rank_eq hq.route (le_antisymm (hp.least q hq.route) (hq.least p hp.route))

theorem best_single (h : accept source = true) : g.Best accept source source [source] := by
  refine ⟨Route.start h, fun other hother => ?_⟩
  obtain ⟨rfl, -⟩ | ⟨hop, rest, rfl, -, hrest⟩ := hother.cases_source
  · exact le_refl _
  · have := hrest.length_turns
    exact (rank_lt_of_length_lt (by simp only [List.length_cons, List.length_nil]; omega)).le

/-- Putting one vertex before two routes from one vertex does not change which is the better. -/
theorem rank_cons_lt (hp : p.head? = some hop) (hq : q.head? = some hop)
    (h : g.rank p < g.rank q) (source : EntityId) :
    g.rank (source :: p) < g.rank (source :: q) := by
  obtain ⟨p, rfl⟩ := List.head?_eq_some_iff.1 hp
  obtain ⟨q, rfl⟩ := List.head?_eq_some_iff.1 hq
  rw [rank_lt_iff] at h ⊢
  refine h.imp (fun hlt => Nat.succ_lt_succ hlt) fun ⟨heq, hlt⟩ => ⟨congrArg Nat.succ heq, ?_⟩
  exact List.cons_lt_cons_iff.2 (.inr ⟨rfl, hlt⟩)

/-- Past its first vertex, a best route is the best from its first hop. -/
theorem Best.tail (h : g.Best accept source target (source :: rest))
    (hhop : rest.head? = some hop) : g.Best accept hop target rest := by
  obtain ⟨hnil, -⟩ | ⟨hop', rest', hcons, hmem, hroute⟩ := h.route.cases_source
  · rw [(List.cons.inj hnil).2] at hhop
    cases hhop
  · obtain rfl := (List.cons.inj hcons).2
    obtain rfl : hop = hop' := Option.some.inj (hhop.symm.trans hroute.head?_eq)
    refine ⟨hroute, fun other hother => ?_⟩
    by_contra hlt
    have hbetter := rank_cons_lt hother.head?_eq hhop (not_le.1 hlt) source
    exact absurd (h.least _ (hother.cons h.route.accept_source hmem)) (not_le.2 hbetter)

/-- Every end piece of a best route is the best from its first vertex. -/
theorem Best.suffix (h : g.Best accept source target (p ++ u :: rest)) :
    g.Best accept u target (u :: rest) := by
  induction p generalizing source with
  | nil =>
    obtain rfl : u = source := Option.some.inj h.route.head?_eq
    exact h
  | cons v p ih =>
    obtain rfl : v = source := Option.some.inj h.route.head?_eq
    obtain ⟨hop, hhop⟩ : ∃ hop, (p ++ u :: rest).head? = some hop := by
      cases p <;> exact ⟨_, rfl⟩
    exact ih (h.tail hhop)

/-- A best route meets no vertex twice: both end pieces from such a vertex would be best. -/
theorem Best.nodup (h : g.Best accept source target path) : path.Nodup := by
  induction path generalizing source with
  | nil => exact List.nodup_nil
  | cons u rest ih =>
    obtain rfl : u = source := Option.some.inj h.route.head?_eq
    refine List.nodup_cons.2 ⟨fun hmem => ?_, ?_⟩
    · obtain ⟨p, rest, rfl⟩ := List.append_of_mem hmem
      have hsuffix : g.Best accept u target (u :: rest) :=
        Best.suffix (p := u :: p) h
      have hlength := congrArg List.length (h.unique hsuffix)
      simp only [List.length_cons, List.length_append] at hlength
      omega
    · cases rest with
      | nil => exact List.nodup_nil
      | cons v rest => exact ih (h.tail rfl)

end Graph

end FogNet
