import FogNet.Proofs.Topology.Rounds
import Mathlib.Data.List.Sort

/-!
# The opening of a network

A network that has just been completed is as the ledger of the calls says: each node is in the
puddle of the first head of its level around the place where it starts, and the broker, which
decides on nodes by a search of its own, would leave everybody there (`Builder.Records.opening`).
What is to happen is numbered in the order of the ledger, the messages first and then one report of
each node that moves.
-/

namespace FogNet

open Registry

namespace Builder

open Change

variable {l : Ledger} {c : Builder} {r : Registry} {n m : FogNode} {h : PuddleHead}
  {spec : NodeSpec} {s : Session World Payload} {k j a broker : EntityId} {b : Broker}

/-- The nodes that move report in the order of their numbers. -/
theorem timers_eq (hl : l.Agrees r broker) (hr : r.Numbered)
    (hascending : (l.nodes.map Prod.fst).Pairwise (· < ·)) (due : Time) :
    (r.fogNodes.filter (·.motion.mobile)).map (fun n => (due, timer n)) = l.timers due := by
  have hmovers : (r.fogNodes.filter (·.motion.mobile)).map (·.id) =
      (l.nodes.filter fun e => e.2.mobile).map Prod.fst := by
    refine List.Pairwise.eq_of_mem_iff (r := (· < ·)) ?_ ?_ fun k => ?_
    · exact List.pairwise_map.2 ((ascending_fogNodes hr).filter _)
    · exact hascending.sublist (List.filter_sublist.map _)
    · simp only [List.mem_map, List.mem_filter, mem_fogNodes_iff]
      constructor
      · rintro ⟨n, ⟨⟨k, hn⟩, hmobile⟩, rfl⟩
        obtain ⟨spec, hk, hsame⟩ := hl.exists_nodeSpec hn
        obtain ⟨-, -, -, -, hsame, -⟩ := Particulars.fogNode.inj hsame
        exact ⟨_, ⟨hk, hsame ▸ hmobile⟩, (hr.id_fogNode hn).symm⟩
      · rintro ⟨⟨k, spec⟩, ⟨hk, hmobile⟩, rfl⟩
        obtain ⟨n, hn, hsame⟩ := hl.exists_fogNode hk
        obtain ⟨-, -, -, -, hsame, -⟩ := Particulars.fogNode.inj hsame
        exact ⟨n, ⟨⟨k, hn⟩, hsame.trans hmobile⟩, hr.id_fogNode hn⟩
  unfold Ledger.timers
  have htimers := congrArg (List.map fun k => (due, Payload.deliver k k .updateLocation)) hmovers
  rwa [List.map_map, List.map_map] at htimers

/-! ## Where everybody is -/

theorem headAt_eq_home (hn : n.particulars = spec.particulars) :
    l.headAt n.level n.position = l.home spec := by
  obtain ⟨-, hlevel, hposition, -⟩ := Particulars.fogNode.inj hn
  rw [Ledger.home, hlevel, hposition]

theorem Progress.lists_iff_home (hc : c.Records l) (hr : Progress l c c.registry.fogNodes [] r)
    (hk : (k, spec) ∈ l.nodes) : r.Lists a k ↔ l.home spec = some a := by
  obtain ⟨n, hn, hsame⟩ := hc.agrees.exists_fogNode hk
  rw [hr.lists, ← headAt_eq_home hsame]
  constructor
  · rintro ⟨x, hx, rfl, hfound⟩
    obtain ⟨k, hk⟩ := mem_fogNodes_iff.1 hx
    rw [hc.made.draft.orderly.wired.id_fogNode hk] at hn
    rwa [fogNode_inj hn hk]
  · intro hfound
    exact ⟨n, mem_fogNodes_iff.2 ⟨k, hn⟩, (hc.made.draft.orderly.wired.id_fogNode hn).symm, hfound⟩

/-- Nodes that are in no puddle are unassigned. -/
theorem Progress.exists_placed (hc : c.Records l) (hr : Progress l c c.registry.fogNodes [] r)
    (hk : (k, spec) ∈ l.nodes) : ∃ n, r.fogNode k = .ok n ∧ n.level = spec.level ∧
      n.position = spec.start ∧ n.motion.mobile = spec.mobile ∧ n.pending = none ∧
      n.standing = (l.home spec).elim .unassigned .owned := by
  have hagrees := hc.agrees.amend hc.made.draft.broker hr.amended
  obtain ⟨n, hn, hsame⟩ := hagrees.exists_fogNode hk
  obtain ⟨-, hlevel, hposition, -, hmobile, -⟩ := Particulars.fogNode.inj hsame
  obtain ⟨hpending, hlive, hlists⟩ := hr.placing.settled hn
  refine ⟨n, hn, hlevel, hposition, hmobile, hpending, ?_⟩
  simp only [hr.lists_iff_home hc hk] at hlists
  cases hs : n.standing with
  | departed => exact absurd hs hlive
  | owned a => rw [(hlists a).2 hs]; rfl
  | unassigned =>
    cases hhome : l.home spec with
    | none => rfl
    | some a =>
      have howned := (hlists a).1 hhome
      rw [hs] at howned
      cases howned

/-- A head lists the nodes that it owns. -/
theorem Placing.owns_iff_lists {ns : List FogNode} (hr : Placing r broker ns) :
    r.Owns a k ↔ r.Lists a k := by
  constructor
  · exact hr.orderly.enrolled.owned
  · intro hlists
    obtain ⟨n, hn⟩ := kind_eq_fogNode_iff.1 (hr.orderly.enrolled.known hlists)
    exact ⟨n, hn, ((hr.settled hn).2.2 a).1 hlists⟩

/-- When nobody is in the middle of a change, buddies are the nodes of one owner. -/
theorem Placing.befriends_iff {ns : List FogNode} (hr : Placing r broker ns) :
    r.Befriends j k ↔ j ≠ k ∧ ∃ a, r.Owns a j ∧ r.Owns a k := by
  constructor
  · intro hjk
    obtain ⟨a, hj, hk⟩ := hr.orderly.befriended.met hjk
    refine ⟨?_, a, hr.owns_iff_lists.2 hj, hr.owns_iff_lists.2 hk⟩
    rintro rfl
    exact hr.orderly.befriended.proper hjk
  · rintro ⟨hne, a, hj, hk⟩
    exact hr.orderly.befriended.together hj hk hne

/-- The list of a head is that of the nodes that the ledger sends there. -/
theorem Progress.members_eq (hc : c.Records l) (hr : Progress l c c.registry.fogNodes [] r)
    (hh : r.puddleHead a = .ok h) : h.members = l.residents a := by
  have hagrees := hc.agrees.amend hc.made.draft.broker hr.amended
  refine List.Pairwise.eq_of_mem_iff (r := (· < ·)) (hr.increasing hh) ?_ fun k => ?_
  · exact hc.ascending.sublist (List.filter_sublist.map _)
  · unfold Ledger.residents
    simp only [List.mem_map, List.mem_filter, decide_eq_true_eq]
    rw [← lists_iff hh]
    constructor
    · intro hlists
      obtain ⟨n, hn⟩ := kind_eq_fogNode_iff.1 (hr.placing.orderly.enrolled.known hlists)
      obtain ⟨spec, hk, -⟩ := hagrees.exists_nodeSpec hn
      exact ⟨_, ⟨hk, (hr.lists_iff_home hc hk).1 hlists⟩, rfl⟩
    · rintro ⟨⟨k, spec⟩, ⟨hk, hhome⟩, rfl⟩
      exact (hr.lists_iff_home hc hk).2 hhome

/-- The broker decides by a search of its own, and it comes to the same result. -/
theorem Progress.evaluate_eq (hc : c.Records l) (hr : Progress l c c.registry.fogNodes [] r)
    (hb : r.broker c.broker = .ok b) (hk : (k, spec) ∈ l.nodes) :
    r.evaluate b k = .ok (if (l.home spec).isSome then .stay else .depart none) := by
  have hagrees := hc.agrees.amend hc.made.draft.broker hr.amended
  obtain ⟨n, hn, hlevel, hposition, -, hpending, hstanding⟩ := hr.exists_placed hc hk
  have hfind : r.findHead b n.level n.position = .ok (l.home spec) := by
    rw [hagrees.findHead_eq hb, hlevel, hposition, Ledger.home]
  unfold evaluate
  simp only [hn, hpending, hstanding]
  cases hhome : l.home spec with
  | none =>
    show r.newPlace b n none = _
    unfold newPlace
    rw [hfind, hhome]
    rfl
  | some a =>
    rw [hhome] at hfind
    obtain ⟨-, ⟨g, hg, hcovers⟩, -⟩ := firstCovering_least
      ((hc.made.catalogued.1.amend hc.made.draft.broker hr.amended).ascending hb _) hfind
    simp [hg, hcovers]

/-! ## What the ledger says -/

/-- A network is as a ledger says, and its broker would leave everybody there. -/
structure Opening (l : Ledger) (c : Builder) (s : Session World Payload) : Prop where
  /-- Nodes have been numbered in the order of the calls. -/
  numbers : (l.nodes.map Prod.fst).Pairwise (· < ·)
  /-- The nodes are those of the ledger. -/
  nodes : ∀ k, s.state.registry.kind k = .ok .fogNode ↔ k ∈ l.nodes.map Prod.fst
  /-- The heads are those of the ledger. -/
  heads : ∀ k, s.state.registry.kind k = .ok .puddleHead ↔ k ∈ l.heads.map Prod.fst
  /-- A node starts in the puddle of the first head of its level that covers it, if there is one,
  and nothing is pending. -/
  placed : ∀ k spec, (k, spec) ∈ l.nodes → ∃ n, s.state.registry.fogNode k = .ok n ∧
    n.level = spec.level ∧ n.position = spec.start ∧ n.motion.mobile = spec.mobile ∧
    n.pending = none ∧ n.standing = (l.home spec).elim .unassigned .owned
  /-- A head lists the nodes that start in its puddle, in the order of their numbers. -/
  members : ∀ a h, s.state.registry.puddleHead a = .ok h →
    h.members = l.residents a ∧ h.members.Pairwise (· < ·)
  /-- Two nodes are buddies if and only if they have one owner. -/
  buddies : ∀ j k, s.state.registry.Befriends j k ↔
    j ≠ k ∧ ∃ a, s.state.registry.Owns a j ∧ s.state.registry.Owns a k
  /-- The broker leaves the nodes that are in a puddle there, and has no puddle for the others. -/
  decision : ∀ k spec, (k, spec) ∈ l.nodes →
    s.state.evaluate k = .ok (if (l.home spec).isSome then .stay else .depart none)
  /-- If members are linked, a node in a puddle has got one link, which goes to its head, and there
  are no other new links. -/
  links : ∀ k spec, (k, spec) ∈ l.nodes → ∃ id, Tied c.registry s.state.registry k
    (c.settings.memberLink? id k (l.home spec))
  /-- The messages wait, numbered in their order, and then one report for each node that moves. -/
  events : s.simulation.queue.pending.Perm
    (numbered (l.messages ++ l.timers c.settings.locationUpdateInterval) 0)

/-- Whatever the calls, a network that has been completed starts as their ledger says. -/
theorem Records.opening (hc : c.Records l) (h : c.build = .ok s) : Opening l c s := by
  obtain ⟨hplace, hbroker, -, hevents⟩ := placed_of_build h
  have hr := Progress.finish hc hplace
  have hagrees := hc.agrees.amend hc.made.draft.broker hr.amended
  obtain ⟨b, hb⟩ := kind_eq_broker_iff.1 hr.placing.kind
  constructor
  case numbers => exact hc.ascending
  case nodes => exact fun k => hagrees.kind_fogNode_iff
  case heads => exact fun k => hagrees.kind_puddleHead_iff
  case placed => exact fun k spec hk => hr.exists_placed hc hk
  case members => exact fun a h hh => ⟨hr.members_eq hc hh, hr.increasing hh⟩
  case buddies => exact fun j k => hr.placing.befriends_iff
  case decision =>
    intro k spec hk
    unfold World.evaluate
    rw [hbroker, hb]
    exact hr.evaluate_eq hc hb hk
  case links =>
    intro k spec hk
    obtain ⟨n, hn, hsame⟩ := hc.agrees.exists_fogNode hk
    rw [← headAt_eq_home hsame, ← hc.made.draft.orderly.wired.id_fogNode hn]
    exact hr.tied (mem_fogNodes_iff.2 ⟨k, hn⟩)
  case events =>
    have hnumbered := hr.placing.orderly.wired.toNumbered
    rw [hevents, hc.scripted_eq, ← timers_eq hagrees hnumbered hc.ascending]
    exact pending_firstEvents _ _ _

namespace Overlap

/-- Members are linked to their heads. -/
def settings : Settings := { Settings.standard with autoLinkMembers := true }

/-- The head that is added first. -/
def west : HeadSpec := ⟨"west", 0, .rectangle 0 0 8 10, ⟨4, 5⟩⟩

/-- A head of the same level whose area overlaps with that of the first. -/
def east : HeadSpec := ⟨"east", 0, .rectangle 4 0 8 10, ⟨8, 5⟩⟩

/-- A node that both heads cover. -/
def walker : NodeSpec := ⟨"walker", 0, ⟨5, 5⟩, ⟨0, 0, 12, 10⟩, .velocity ⟨1, 0⟩, .none⟩

/-- A node that only the second head covers. -/
def guest : NodeSpec := ⟨"guest", 0, ⟨10, 5⟩, ⟨0, 0, 12, 10⟩, .stationary, .none⟩

/-- A node of a level without heads. -/
def stranger : NodeSpec := ⟨"stranger", 1, ⟨5, 5⟩, ⟨0, 0, 12, 10⟩, .stationary, .none⟩

/-- The two heads, the three nodes and a message. -/
def draft (b : Builder) : Builder :=
  let b := stateOf (Builder.puddleHead west.name west.level west.coverage west.anchor b)
  let b := stateOf (Builder.puddleHead east.name east.level east.coverage east.anchor b)
  let b := stateOf (Builder.fogNode walker b)
  let b := stateOf (Builder.fogNode guest b)
  let b := stateOf (Builder.fogNode stranger b)
  b.schedule 3 6 6 .nodeLeave

theorem isSome_start : (Builder.start settings).toOption.isSome = true := by decide +kernel

/-- The builder before all calls. -/
def fresh : Builder := (Builder.start settings).toOption.get isSome_start

/-- The ledger of the calls. -/
def ledger : Ledger :=
  ⟨[(2, west), (3, east)], [(4, walker), (5, guest), (6, stranger)],
    [(3, .deliver 6 6 .nodeLeave)]⟩

theorem records_draft : Records ledger (draft fresh) := by
  have hfresh : Records .empty fresh :=
    .start (eq_ok_of_toOption (Option.some_get isSome_start).symm)
  exact ((((((hfresh.addHead west).addHead east).addNode walker).addNode guest).addNode
    stranger).schedule 3 6 6 .nodeLeave)

theorem isSome_build : (draft fresh).build.toOption.isSome = true := by decide +kernel

end Overlap

/-- Two heads cover the first node, which goes to the one that has been added first. -/
theorem Records.opening_overlap : ∃ s, (Overlap.draft Overlap.fresh).build = .ok s ∧
    Opening Overlap.ledger (Overlap.draft Overlap.fresh) s ∧
    Overlap.ledger.home Overlap.walker = some 2 ∧ Overlap.ledger.home Overlap.guest = some 3 ∧
    Overlap.ledger.home Overlap.stranger = none := by
  have hbuild := eq_ok_of_toOption (Option.some_get Overlap.isSome_build).symm
  exact ⟨_, hbuild, Records.opening Overlap.records_draft hbuild, by decide +kernel,
    by decide +kernel, by decide +kernel⟩

end Builder

end FogNet
