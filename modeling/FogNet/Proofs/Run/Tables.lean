import FogNet.Proofs.Run.Catalogue
import FogNet.Proofs.Run.History

/-!
# Tables that are kept in step

A membership is noted in six places: the standing of the node, the member list of the head and what
the members offer, the modules that run on them, and with the head's parent the copy of the list and
the list of children. Under any regime these agree in every reachable session
(`Reachable.tables_of_unrestricted`), whatever messages are posted from outside and whatever fails:
no branch of a reaction forgets one of them.
-/

namespace FogNet

open Registry

/-- The tables of nodes, heads and parents agree. -/
structure Registry.Tables (r : Registry) : Prop where
  /-- An owned node is on its owner's list. -/
  owned : ∀ {head node}, r.Owns head node → r.Lists head node
  /-- No list holds a node twice. -/
  nodup : ∀ {head h}, r.puddleHead head = .ok h → h.members.Nodup
  /-- Lists hold nodes only. -/
  nodes : ∀ {head h k}, r.puddleHead head = .ok h → k ∈ h.members → r.kind k = .ok .fogNode
  /-- A head knows of its members, and of nobody else, what they offer. -/
  keys : ∀ {head h}, r.puddleHead head = .ok h → ∀ k,
    (h.memberCharacteristics.get? k).isSome ↔ k ∈ h.members
  /-- What a head knows of a member is what the member offers. -/
  offers : ∀ {head h k n}, r.puddleHead head = .ok h → k ∈ h.members → r.fogNode k = .ok n →
    h.memberCharacteristics.get? k = some n.characteristics
  /-- Modules run on members only. -/
  services : ∀ {head h}, r.puddleHead head = .ok h → ∀ k,
    (h.runningServices.get? k).isSome → k ∈ h.members
  /-- The parent of a head has a copy of its list. -/
  copies : ∀ {head h parent}, r.puddleHead head = .ok h → h.parent = some parent →
    ∃ g, r.puddleHead parent = .ok g ∧ g.childPuddles.get? head = some h.members
  /-- Copies are kept for the children and for nobody else. -/
  branches : ∀ {parent g}, r.puddleHead parent = .ok g → ∀ c,
    (g.childPuddles.get? c).isSome ↔ c ∈ g.children
  /-- The children of a head are the heads that have it as their parent. -/
  children : ∀ {parent g}, r.puddleHead parent = .ok g → ∀ c,
    c ∈ g.children ↔ ∃ h, r.puddleHead c = .ok h ∧ h.parent = some parent

variable {r : Registry} {head parent k : EntityId} {h g : PuddleHead} {n : FogNode}

theorem Registry.Enrolled.offers_of_mem (he : r.Enrolled) (hh : r.puddleHead head = .ok h)
    (hk : k ∈ h.members) (hn : r.fogNode k = .ok n) :
    h.memberCharacteristics.get? k = some n.characteristics :=
  (he.offers hh).2 ⟨hk, n, hn, rfl⟩

/-- A head's children are the heads below it: each has its list copied there, and copies are kept
for children only. -/
theorem Registry.mem_children_iff (hc : r.Copied) (hp : r.Pruned) (hb : g.Branched)
    (hg : r.puddleHead parent = .ok g) (k : EntityId) :
    k ∈ g.children ↔ ∃ h, r.puddleHead k = .ok h ∧ h.parent = some parent := by
  rw [← hb k]
  constructor
  · intro hcopy
    obtain ⟨l, hl⟩ := Option.isSome_iff_exists.1 hcopy
    exact hp.copies hg hl
  · rintro ⟨h, hh, hparent⟩
    obtain ⟨g', hg', hcopy⟩ := hc hh hparent
    rw [← puddleHead_inj hg' hg, hcopy]
    rfl

/-- The tables agree in a registry whose records agree, in which nothing is kept for strangers and
the indices are right. -/
theorem Registry.tables_of_orderly {broker : EntityId} (hr : r.Orderly) (hp : r.Pruned)
    (hc : r.Catalogued broker) : r.Tables where
  owned ho := hr.enrolled.owned ho
  nodup hh := hr.enrolled.nodup hh
  nodes hh hk := hr.enrolled.known ⟨_, hh, hk⟩
  keys {head h} hh k := by
    constructor
    · intro hsome
      obtain ⟨c, hc⟩ := Option.isSome_iff_exists.1 hsome
      exact ((hr.enrolled.offers hh).1 hc).1
    · intro hk
      obtain ⟨n, hn⟩ := hr.enrolled.node_of_mem hh hk
      rw [hr.enrolled.offers_of_mem hh hk hn]
      rfl
  offers hh hk hn := hr.enrolled.offers_of_mem hh hk hn
  services {head h} hh k hsome := by
    obtain ⟨l, hl⟩ := Option.isSome_iff_exists.1 hsome
    exact hp.services hh hl
  copies hh hparent := hr.enrolled.copied hh hparent
  branches hg c := hc.branched hg c
  children hg c := mem_children_iff hr.enrolled.copied hp (hc.branched hg) hg c

/-- Whatever is posted from outside and whatever fails, the tables agree. -/
theorem Reachable.tables_of_unrestricted {s : Session World Payload}
    (hs : Reachable .unrestricted s) : s.state.registry.Tables :=
  tables_of_orderly hs.orderly hs.pruned hs.catalogued

/-! ## A head below another one -/

namespace Branch

/-- The head at the top. -/
def root : EntityId := 2

/-- The head below it. -/
def leaf : EntityId := 3

/-- A node of the lower level. -/
def walker : EntityId := 4

/-- The two heads and the node. -/
def draft (b : Builder) : Builder :=
  let b := stateOf (Builder.puddleHead "root" 0 (.rectangle 0 0 12 10) ⟨6, 5⟩ b)
  let b := stateOf (Builder.puddleHead "leaf" 1 (.rectangle 0 0 6 10) ⟨3, 5⟩ b)
  let b := stateOf (Builder.attach leaf root b)
  stateOf (Builder.fogNode ⟨"walker", 1, ⟨3, 5⟩, ⟨0, 0, 12, 10⟩, .stationary, .none⟩ b)

/-- The network at its start. -/
def start : Except Fault (Session World Payload) :=
  match Builder.start .standard with
  | .error fault => .error fault
  | .ok b => (draft b).build

theorem isSome_start : start.toOption.isSome = true := by decide +kernel

/-- The network at its start. -/
def first : Session World Payload := start.toOption.get isSome_start

theorem reachable_first {g : Regime} : Reachable g first := by
  have h : start = .ok first := eq_ok_of_toOption (Option.some_get isSome_start).symm
  unfold start at h
  cases hstart : Builder.start .standard with
  | error fault =>
    rw [hstart] at h
    cases h
  | ok b =>
    rw [hstart] at h
    have hmade : (draft b).Made (g.admits 0) :=
      (((Builder.Made.start hstart).puddleHead _ _ _ _).puddleHead _ _ _ _).attach _ _ |>.fogNode _
    exact .built hmade h

/-- A module is placed on the walker. -/
def equipped : Session World Payload :=
  { first with state := stateOf (World.placeService walker "camera" first.state) }

/-- The root is asked from outside to take the walker in. -/
def asked : Session World Payload :=
  { equipped with
    simulation := equipped.simulation.schedule 1 (.deliver 1 root (.joinPuddle walker)) }

/-- The network when the root has taken the walker in. -/
def shared : Session World Payload := stateOf (asked.step World.handle)

theorem reachable_shared : Reachable .unrestricted shared := by
  have hequipped : Reachable .unrestricted equipped :=
    reachable_first.intervened (.placeService walker "camera")
  have hasked : Reachable .unrestricted asked := hequipped.posted trivial
  obtain ⟨past, hpast⟩ := hasked.history
  exact (hpast.next (by decide +kernel)).reachable

end Branch

/-- Two heads list the walker, one runs a module on it and the other one owns it, and the tables
agree. -/
theorem Reachable.tables_shared :
    Branch.shared.state.registry.Lists Branch.leaf Branch.walker ∧
      Branch.shared.state.registry.Owns Branch.root Branch.walker ∧
      (Branch.shared.state.registry.puddleHead Branch.leaf).toOption.map
        (·.servicesOf Branch.walker) = some ["camera"] ∧ Branch.shared.state.registry.Tables := by
  have howner : (Branch.shared.state.registry.fogNode Branch.walker).toOption.map (·.standing) =
      some (.owned Branch.root) := by decide +kernel
  obtain ⟨n, hn, hs⟩ := Option.map_eq_some_iff.1 howner
  refine ⟨listed_iff.1 (by decide +kernel), ⟨n, eq_ok_of_toOption hn, hs⟩, by decide +kernel, ?_⟩
  exact tables_of_unrestricted Branch.reachable_shared

end FogNet
