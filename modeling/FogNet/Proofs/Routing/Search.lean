import FogNet.Proofs.Collection
import FogNet.Proofs.Routing.Paths
import Mathlib.Data.Finset.Card
import Mathlib.Data.Finset.SDiff

/-!
# What the search finds

The inner loop of the search picks the neighbours that are new and accepted, each once, in their
order (`Graph.fresh`), and either has reached the target or adds a path for each of them. The
invariant of the outer loop (`Graph.Sweep`) says that the paths in the queue are best routes, best
first, that what they extend comes before all of them, and that a vertex no longer in the queue has
all its neighbours seen. A new vertex can then be reached no better than by the oldest path, so the
search answers with the best route, or with nothing if there is no route at all. Every path taken
from the queue ends in a vertex that was new when the path was made, which bounds the rounds by the
number of adjacency entries.
-/

namespace FogNet

namespace Graph

variable {g : Graph} {accept : EntityId → Bool} {source target u v w : EntityId}
  {seen : SortedSet} {waiting : List (List EntityId)} {p path around : List EntityId}

/-! ## New neighbours -/

/-- The accepted vertices of a list that were not seen before, each at its first place. -/
def fresh (accept : EntityId → Bool) : SortedSet → List EntityId → List EntityId
  | _, [] => []
  | seen, v :: rest =>
    if accept v && decide (v ∉ seen) then v :: fresh accept (seen.insert v) rest
    else fresh accept seen rest

/-- Extending a path finds the target among the new neighbours or makes a path to each of them. -/
theorem extendPath_eq (accept : EntityId → Bool) (target : EntityId) (path around : List EntityId)
    (seen : SortedSet) (waiting : List (List EntityId)) :
    extendPath accept target path around ⟨seen, waiting⟩ =
      if target ∈ fresh accept seen around then .error (target :: path)
      else .ok ⟨seen.insertAll (fresh accept seen around),
        waiting ++ (fresh accept seen around).map (· :: path)⟩ := by
  induction around generalizing seen waiting with
  | nil => simp [extendPath, fresh, SortedSet.insertAll]
  | cons v rest ih =>
    unfold extendPath fresh
    by_cases hv : (accept v && decide (v ∉ seen)) = true
    · rw [if_pos hv, if_pos hv]
      by_cases htarget : v = target
      · rw [if_pos htarget, if_pos (List.mem_cons.2 (.inl htarget.symm)), htarget]
      · rw [if_neg htarget, ih]
        simp [Ne.symm htarget, SortedSet.insertAll]
    · rw [if_neg hv, if_neg hv]
      exact ih seen waiting

/-- One round of the search. -/
theorem search_cons (g : Graph) (accept : EntityId → Bool) (target : EntityId) (fuel : Nat)
    (seen : SortedSet) (u : EntityId) (path : List EntityId) (waiting : List (List EntityId)) :
    g.search accept target (fuel + 1) ⟨seen, (u :: path) :: waiting⟩ =
      if target ∈ fresh accept seen (g.around u) then some (target :: u :: path).reverse
      else g.search accept target fuel ⟨seen.insertAll (fresh accept seen (g.around u)),
        waiting ++ (fresh accept seen (g.around u)).map (· :: u :: path)⟩ := by
  have hextend := extendPath_eq accept target (u :: path) (g.around u) seen waiting
  rw [search, show (g.neighbors u).map (·.1) = g.around u from rfl, hextend]
  split_ifs <;> rfl

theorem mem_fresh : v ∈ fresh accept seen around ↔ v ∈ around ∧ accept v = true ∧ v ∉ seen := by
  induction around generalizing seen with
  | nil => simp [fresh]
  | cons u rest ih =>
    unfold fresh
    by_cases hu : (accept u && decide (u ∉ seen)) = true
    · rw [if_pos hu, List.mem_cons, ih, SortedSet.mem_insert, List.mem_cons]
      simp only [Bool.and_eq_true, decide_eq_true_eq] at hu
      by_cases hvu : v = u
      · simp [hvu, hu]
      · simp [hvu]
    · rw [if_neg hu, ih, List.mem_cons]
      simp only [Bool.and_eq_true, decide_eq_true_eq] at hu
      by_cases hvu : v = u
      · simp only [hvu, hu, and_false]
      · simp [hvu]

/-- The new neighbours keep the order of their first places. -/
theorem fresh_ordered (accept : EntityId → Bool) (seen : SortedSet) (around : List EntityId) :
    (fresh accept seen around).Pairwise fun v w => around.idxOf v < around.idxOf w := by
  induction around generalizing seen with
  | nil => exact List.Pairwise.nil
  | cons u rest ih =>
    -- whatever is picked from the rest stands one place further on
    have hshift : ∀ {s}, (∀ v ∈ fresh accept s rest, u ≠ v) →
        (fresh accept s rest).Pairwise
          fun v w => (u :: rest).idxOf v < (u :: rest).idxOf w := by
      intro s hne
      refine (ih s).imp_of_mem fun {v w} hv hw hlt => ?_
      rw [List.idxOf_cons_ne _ (hne v hv), List.idxOf_cons_ne _ (hne w hw)]
      omega
    unfold fresh
    by_cases hu : (accept u && decide (u ∉ seen)) = true
    · rw [if_pos hu]
      have hne : ∀ v ∈ fresh accept (seen.insert u) rest, u ≠ v := by
        intro v hv huv
        exact (mem_fresh.1 hv).2.2 (SortedSet.mem_insert.2 (.inl huv.symm))
      refine List.pairwise_cons.2 ⟨fun v hv => ?_, hshift hne⟩
      rw [List.idxOf_cons_self, List.idxOf_cons_ne _ (hne v hv)]
      omega
    · rw [if_neg hu]
      refine hshift fun v hv huv => hu ?_
      obtain ⟨-, haccept, hseen⟩ := mem_fresh.1 hv
      rw [huv, haccept, decide_eq_true hseen]
      rfl

theorem nodup_fresh (accept : EntityId → Bool) (seen : SortedSet) (around : List EntityId) :
    (fresh accept seen around).Nodup :=
  (fresh_ordered accept seen around).imp fun hlt heq => by
    rw [heq] at hlt
    exact lt_irrefl _ hlt

/-! ## One round -/

/-- The state of the search between two rounds. -/
structure Sweep (g : Graph) (accept : EntityId → Bool) (source target : EntityId)
    (seen : SortedSet) (waiting : List (List EntityId)) : Prop where
  /-- The paths that wait are best routes, each with its end first. -/
  best : ∀ p ∈ waiting, ∃ u, g.Best accept source u p.reverse
  /-- They wait in the order of their ranks. -/
  ordered : waiting.Pairwise fun p q => g.rank p.reverse < g.rank q.reverse
  /-- The paths that they extend come before all of them. -/
  behind : ∀ p ∈ waiting, ∀ q ∈ waiting, g.rank p.tail.reverse < g.rank q.reverse
  /-- A seen vertex is the end of a path that waits, or its neighbours are seen. -/
  closed : ∀ u ∈ seen, (∃ p ∈ waiting, g.Best accept source u p.reverse) ∨
    ∀ v ∈ g.around u, accept v = true → v ∈ seen
  /-- The search began at the source. -/
  source_mem : source ∈ seen
  /-- The target was not reached. -/
  target_not_mem : target ∉ seen

theorem Sweep.start (haccept : accept source = true) (hne : source ≠ target) :
    g.Sweep accept source target (SortedSet.empty.insert source) [[source]] where
  best p hp := by
    rw [List.mem_singleton.1 hp]
    exact ⟨source, best_single haccept⟩
  ordered := List.pairwise_singleton _ _
  behind p hp q hq := by
    rw [List.mem_singleton.1 hp, List.mem_singleton.1 hq]
    exact rank_lt_of_length_lt (Nat.zero_lt_one)
  closed u hu := by
    obtain rfl | hu := SortedSet.mem_insert.1 hu
    · exact .inl ⟨[u], List.mem_singleton_self _, best_single haccept⟩
    · exact absurd hu (SortedSet.not_mem_empty u)
  source_mem := SortedSet.mem_insert.2 (.inl rfl)
  target_not_mem hmem := by
    obtain h | h := SortedSet.mem_insert.1 hmem
    · exact hne h.symm
    · exact SortedSet.not_mem_empty _ h

section Round

variable (h : g.Sweep accept source target seen ((u :: path) :: waiting))

include h

/-- The oldest path is the best route to the vertex at its end. -/
theorem Sweep.best_oldest : g.Best accept source u (u :: path).reverse := by
  obtain ⟨v, hbest⟩ := h.best _ List.mem_cons_self
  have hlast := hbest.route.getLast?_eq
  rw [List.getLast?_reverse, List.head?_cons, Option.some.injEq] at hlast
  rw [hlast]
  rwa [hlast] at hbest

/-- No path that waits is better than the oldest. -/
theorem Sweep.oldest_le (hp : p ∈ (u :: path) :: waiting) :
    g.rank (u :: path).reverse ≤ g.rank p.reverse := by
  obtain rfl | hp := List.mem_cons.1 hp
  · exact le_refl _
  · exact ((List.pairwise_cons.1 h.ordered).1 p hp).le

/-- A new neighbour is reached best by way of the oldest path: any other route leaves what is seen
from the end of some path that waits, and that one is no better. -/
theorem Sweep.best_fresh (hv : v ∈ fresh accept seen (g.around u)) :
    g.Best accept source v (v :: u :: path).reverse := by
  obtain ⟨hmem, haccept, hnew⟩ := mem_fresh.1 hv
  rw [List.reverse_cons]
  refine ⟨Route.hop h.best_oldest.route hmem haccept, fun other hother => ?_⟩
  obtain ⟨x, y, before, rest, hbefore, hx, hy, hyaccept, hynew, rfl⟩ :=
    hother.exists_leaving (S := (· ∈ seen)) h.source_mem hnew
  obtain ⟨q, hq, hqbest⟩ : ∃ q ∈ (u :: path) :: waiting, g.Best accept source x q.reverse :=
    (h.closed x hx).resolve_right fun hclosed => hynew (hclosed y hy hyaccept)
  have hle := le_trans (h.oldest_le hq) (hqbest.least before hbefore)
  obtain heq | hlt := hle.eq_or_lt
  · -- the other route begins with the oldest path
    obtain rfl := h.best_oldest.route.eq_of_rank_eq hbefore heq
    cases rest with
    | nil =>
      have hlast := hother.getLast?_eq
      rw [List.getLast?_concat, Option.some.injEq] at hlast
      rw [hlast]
    | cons z rest =>
      refine (rank_lt_of_length_lt ?_).le
      simp only [List.length_append, List.length_cons, List.length_nil]
      omega
  · cases rest with
    | nil => exact (h.best_oldest.route.rank_concat_lt hbefore hlt v y).le
    | cons z rest =>
      refine (rank_lt_of_length_lt ?_).le
      have hlength : (u :: path).reverse.length ≤ before.length := by
        rcases rank_lt_iff.1 hlt with hlt | ⟨heq, -⟩ <;> omega
      simp only [List.length_append, List.length_cons, List.length_nil] at hlength ⊢
      omega

/-- Every path that waits is better than one made in this round. -/
theorem Sweep.rank_lt_fresh (hp : p ∈ waiting) (v : EntityId) :
    g.rank p.reverse < g.rank (v :: u :: path).reverse := by
  obtain ⟨x, hbest⟩ := h.best p (List.mem_cons_of_mem _ hp)
  have hbehind := h.behind p (List.mem_cons_of_mem _ hp) _ List.mem_cons_self
  obtain hsingle | ⟨w, q, hconcat, hq⟩ := hbest.route.cases_target
  · refine rank_lt_of_length_lt ?_
    rw [hsingle]
    simp only [List.length_reverse, List.length_cons, List.length_nil]
    omega
  · have htail : p.tail.reverse = q := by
      rw [← List.reverse_reverse p, hconcat, List.reverse_concat, List.tail_cons,
        List.reverse_reverse]
    rw [htail] at hbehind
    rw [hconcat, show (v :: u :: path).reverse = (u :: path).reverse ++ [v] from
      List.reverse_cons]
    exact hq.rank_concat_lt h.best_oldest.route hbehind x v

/-- A round that does not reach the target keeps the invariant. -/
theorem Sweep.next (htarget : target ∉ fresh accept seen (g.around u)) :
    g.Sweep accept source target (seen.insertAll (fresh accept seen (g.around u)))
      (waiting ++ (fresh accept seen (g.around u)).map (· :: u :: path)) := by
  have hrest : ∀ {p}, p ∈ waiting → p ∈ (u :: path) :: waiting := List.mem_cons_of_mem _
  have holdest : ∀ p ∈ waiting, g.rank (u :: path).reverse < g.rank p.reverse :=
    (List.pairwise_cons.1 h.ordered).1
  have hlonger : ∀ v, g.rank (u :: path).reverse < g.rank (v :: u :: path).reverse := fun v =>
    rank_lt_of_length_lt (by simp)
  refine ⟨fun p hp => ?_, ?_, fun p hp q hq => ?_, fun v hv => ?_, ?_, fun hmem => ?_⟩
  · obtain hp | hp := List.mem_append.1 hp
    · exact h.best p (hrest hp)
    · obtain ⟨v, hv, rfl⟩ := List.mem_map.1 hp
      exact ⟨v, h.best_fresh hv⟩
  · refine List.pairwise_append.2 ⟨(List.pairwise_cons.1 h.ordered).2, ?_, fun p hp q hq => ?_⟩
    · refine List.pairwise_map.2 ((fresh_ordered accept seen (g.around u)).imp fun {v w} hlt => ?_)
      rw [List.reverse_cons, List.reverse_cons (a := w)]
      exact h.best_oldest.route.rank_concat_lt_of_idxOf hlt
    · obtain ⟨v, -, rfl⟩ := List.mem_map.1 hq
      exact h.rank_lt_fresh hp v
  · -- a path is extended only once it has left the queue
    have hparent : g.rank p.tail.reverse ≤ g.rank (u :: path).reverse := by
      obtain hp | hp := List.mem_append.1 hp
      · exact (h.behind p (hrest hp) _ List.mem_cons_self).le
      · obtain ⟨v, -, rfl⟩ := List.mem_map.1 hp
        exact le_refl _
    obtain hq | hq := List.mem_append.1 hq
    · exact lt_of_le_of_lt hparent (holdest q hq)
    · obtain ⟨v, -, rfl⟩ := List.mem_map.1 hq
      exact lt_of_le_of_lt hparent (hlonger v)
  · obtain hv | hv := SortedSet.mem_insertAll.1 hv
    · exact .inl ⟨_, List.mem_append_right _ (List.mem_map.2 ⟨v, hv, rfl⟩), h.best_fresh hv⟩
    · obtain ⟨p, hp, hbest⟩ | hclosed := h.closed v hv
      · obtain rfl | hp := List.mem_cons.1 hp
        · -- the path that left the queue: its neighbours are old or new
          obtain rfl := hbest.route.target_unique h.best_oldest.route
          refine .inr fun w hw haccept => SortedSet.mem_insertAll.2 ?_
          by_cases hseen : w ∈ seen
          · exact .inr hseen
          · exact .inl (mem_fresh.2 ⟨hw, haccept, hseen⟩)
        · exact .inl ⟨p, List.mem_append_left _ hp, hbest⟩
      · exact .inr fun w hw haccept => SortedSet.mem_insertAll.2 (.inr (hclosed w hw haccept))
  · exact SortedSet.mem_insertAll.2 (.inr h.source_mem)
  · exact (SortedSet.mem_insertAll.1 hmem).elim htarget h.target_not_mem

end Round

/-- When no path is left, there is no route: all that can be reached was seen. -/
theorem Sweep.no_route (h : g.Sweep accept source target seen []) (path : List EntityId) :
    ¬ g.Route accept source target path := by
  intro hroute
  obtain ⟨u, v, -, -, -, hu, hv, haccept, hnew, -⟩ :=
    hroute.exists_leaving (S := (· ∈ seen)) h.source_mem h.target_not_mem
  obtain ⟨p, hp, -⟩ | hclosed := h.closed u hu
  · cases hp
  · exact hnew (hclosed v hv haccept)

/-! ## Rounds -/

/-- The ends of all adjacency entries. -/
def ends (g : Graph) : List EntityId := g.adjacency.values.flatMap fun arcs => arcs.map (·.1)

/-- The vertices with an edge that were not seen. -/
def unseen (g : Graph) (seen : SortedSet) : Finset EntityId :=
  {v ∈ g.ends.toFinset | v ∉ seen}

theorem mem_ends_of_mem_around (h : v ∈ g.around u) : v ∈ g.ends := by
  unfold around neighbors at h
  cases harcs : g.adjacency.get? u with
  | none =>
    rw [harcs] at h
    cases h
  | some arcs =>
    rw [harcs] at h
    exact List.mem_flatMap.2
      ⟨arcs, List.mem_map.2 ⟨(u, arcs), SortedMap.get?_eq_some_iff.1 harcs, rfl⟩, h⟩

theorem arcCount_eq (g : Graph) : g.arcCount = g.ends.length := by
  have hfold : ∀ (l : List (List (EntityId × Float))) (n : Nat),
      l.foldl (fun n arcs => n + arcs.length) n =
        n + (l.flatMap fun arcs => arcs.map (·.1)).length := by
    intro l
    induction l with
    | nil => intro n; rfl
    | cons arcs l ih =>
      intro n
      rw [List.foldl_cons, ih, List.flatMap_cons, List.length_append, List.length_map]
      omega
  rw [arcCount, hfold, Nat.zero_add]
  rfl

theorem card_unseen_le (g : Graph) (seen : SortedSet) : (g.unseen seen).card ≤ g.arcCount := by
  rw [arcCount_eq]
  exact le_trans (Finset.card_filter_le _ _) (List.toFinset_card_le _)

/-- Each new neighbour is one vertex less to be seen. -/
theorem card_unseen_insertAll (g : Graph) (accept : EntityId → Bool) (seen : SortedSet)
    (u : EntityId) :
    (g.unseen (seen.insertAll (fresh accept seen (g.around u)))).card +
      (fresh accept seen (g.around u)).length = (g.unseen seen).card := by
  have hsub : (fresh accept seen (g.around u)).toFinset ⊆ g.unseen seen := by
    intro v hv
    obtain ⟨hmem, -, hnew⟩ := mem_fresh.1 (List.mem_toFinset.1 hv)
    exact Finset.mem_filter.2 ⟨List.mem_toFinset.2 (mem_ends_of_mem_around hmem), hnew⟩
  have hrest : g.unseen (seen.insertAll (fresh accept seen (g.around u))) =
      g.unseen seen \ (fresh accept seen (g.around u)).toFinset := by
    ext v
    simp only [unseen, Finset.mem_filter, Finset.mem_sdiff, List.mem_toFinset,
      SortedSet.mem_insertAll]
    tauto
  rw [hrest, ← List.toFinset_card_of_nodup (nodup_fresh accept seen (g.around u))]
  exact Finset.card_sdiff_add_card_eq_card hsub

/-- What the search may answer: the best route, or nothing because there is none. -/
inductive Finds (g : Graph) (accept : EntityId → Bool) (source target : EntityId) :
    Option (List EntityId) → Prop
  | found {path : List EntityId} : g.Best accept source target path →
      Finds g accept source target (some path)
  | missing : (∀ path, ¬ g.Route accept source target path) → Finds g accept source target none

theorem Sweep.finds {fuel : Nat} (h : g.Sweep accept source target seen waiting)
    (hfuel : waiting.length + (g.unseen seen).card < fuel) :
    g.Finds accept source target (g.search accept target fuel ⟨seen, waiting⟩) := by
  induction fuel generalizing seen waiting with
  | zero => exact absurd hfuel (Nat.not_lt_zero _)
  | succ fuel ih =>
    cases waiting with
    | nil =>
      unfold search
      exact .missing h.no_route
    | cons oldest waiting =>
      cases oldest with
      | nil =>
        obtain ⟨v, hbest⟩ := h.best _ List.mem_cons_self
        cases hbest.route.getLast?_eq
      | cons u path =>
        rw [search_cons]
        split_ifs with htarget
        · exact .found (h.best_fresh htarget)
        · refine ih (h.next htarget) ?_
          have hcard := card_unseen_insertAll g accept seen u
          rw [List.length_append, List.length_map]
          rw [List.length_cons] at hfuel
          omega

/-- A shortest path is the best route. -/
theorem finds_shortestPath (g : Graph) (accept : EntityId → Bool) (source target : EntityId) :
    g.Finds accept source target (g.shortestPath accept source target) := by
  unfold shortestPath
  split_ifs with hends heq
  · rw [← heq]
    exact .found (best_single (Bool.and_eq_true _ _ |>.mp hends).1)
  · refine (Sweep.start (Bool.and_eq_true _ _ |>.mp hends).1 heq).finds ?_
    have hcard := card_unseen_le g (SortedSet.empty.insert source)
    rw [List.length_singleton]
    omega
  · refine .missing fun path hroute => hends ?_
    rw [hroute.accept_source, hroute.accept_target]
    rfl

theorem shortestPath_eq_some_iff :
    g.shortestPath accept source target = some path ↔ g.Best accept source target path := by
  cases hpath : g.shortestPath accept source target with
  | none =>
    have hfinds := finds_shortestPath g accept source target
    rw [hpath] at hfinds
    cases hfinds with
    | missing hnone => exact ⟨nofun, fun hbest => absurd hbest.route (hnone path)⟩
  | some found =>
    have hfinds := finds_shortestPath g accept source target
    rw [hpath] at hfinds
    cases hfinds with
    | found hbest =>
      constructor
      · intro heq
        rwa [← Option.some.inj heq]
      · intro hother
        rw [hbest.unique hother]

theorem shortestPath_eq_none_iff :
    g.shortestPath accept source target = none ↔
      ¬ ∃ path, g.Route accept source target path := by
  have hfinds := finds_shortestPath g accept source target
  constructor
  · rintro hnone ⟨path, hroute⟩
    rw [hnone] at hfinds
    cases hfinds with
    | missing hmissing => exact hmissing path hroute
  · intro hmissing
    cases hpath : g.shortestPath accept source target with
    | none => rfl
    | some path => exact absurd ⟨path, (shortestPath_eq_some_iff.1 hpath).route⟩ hmissing

end Graph

end FogNet
