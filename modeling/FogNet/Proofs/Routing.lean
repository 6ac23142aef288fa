import FogNet.Proofs.Routing.Search
import FogNet.World.Transfer

/-!
# Where routes lead

All vertices of a shortest path are accepted (`Graph.accept_of_shortestPath`), and so are both ends
and the first hop. Routes of a network avoid whatever is not routable.
-/

namespace FogNet

namespace Graph

variable {accept : EntityId → Bool} {target source v : EntityId} {path : List EntityId} {g : Graph}

/-- A shortest path leads over accepted vertices from one accepted vertex to another. -/
theorem accept_of_shortestPath (h : g.shortestPath accept source target = some path) :
    accept source = true ∧ accept target = true ∧ ∀ v ∈ path, accept v = true := by
  have hroute := (shortestPath_eq_some_iff.1 h).route
  exact ⟨hroute.accept_source, hroute.accept_target, fun v hv => hroute.accept_of_mem hv⟩

/-- The first hop of a shortest path is accepted, and so are its ends. -/
theorem accept_of_nextHop (h : g.nextHop accept source target = some v) :
    accept source = true ∧ accept target = true ∧ accept v = true := by
  unfold nextHop at h
  obtain ⟨path, hpath, hv⟩ := Option.bind_eq_some_iff.1 h
  obtain ⟨hsource, htarget, hall⟩ := accept_of_shortestPath hpath
  exact ⟨hsource, htarget, hall v (List.mem_of_getElem? hv)⟩

end Graph

namespace World

variable {w : World} {source target k hop : EntityId} {path : List EntityId}

theorem ne_of_isRoutable {v : EntityId} (hk : w.isRoutable k = false)
    (hv : w.isRoutable v = true) : v ≠ k := by
  intro hvk
  rw [hvk, hk] at hv
  cases hv

/-- A route leads past what is not routable. -/
theorem not_mem_of_route (hk : w.isRoutable k = false) (h : w.route source target = some path) :
    source ≠ k ∧ target ≠ k ∧ k ∉ path := by
  obtain ⟨hsource, htarget, hpath⟩ := Graph.accept_of_shortestPath h
  exact ⟨ne_of_isRoutable hk hsource, ne_of_isRoutable hk htarget,
    fun hin => ne_of_isRoutable hk (hpath k hin) rfl⟩

/-- The first hop of a route is routable, and so are its ends. -/
theorem ne_of_nextHop (hk : w.isRoutable k = false) (h : w.nextHop source target = some hop) :
    source ≠ k ∧ target ≠ k ∧ hop ≠ k := by
  obtain ⟨hsource, htarget, hhop⟩ := Graph.accept_of_nextHop h
  exact ⟨ne_of_isRoutable hk hsource, ne_of_isRoutable hk htarget, ne_of_isRoutable hk hhop⟩

end World

end FogNet
