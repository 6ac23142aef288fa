import FogNet.Proofs.Run.Ranks
import FogNet.Proofs.Run.Timers

/-!
# What is fixed when a network is finished

The blueprint of a network holds what a run may not change: of each entity its kind and all that
membership, movement and traffic have no say in, and besides the broker's number, the routing graph
and the constants. Reactions and interventions are touches that leave every fixture as it is
(`Touch.Fixed`). So the blueprint of a finished network stays, whatever messages are posted from
outside, whatever fails and whatever is done in between (`Builder.Made.frozen`).
-/

namespace FogNet

open Registry

/-! ## Blueprints -/

/-- What of an entity is fixed. -/
inductive Fixture where
  /-- A node stays the same device, with its links and its rectangle. -/
  | fogNode (id : EntityId) (name : String) (level : Level) (characteristics : Characteristics)
      (links : SortedSet) (bounds : Rectangle Float) (mobile : Bool)
  /-- A head stays where it is, with its relatives and its links. -/
  | puddleHead (id : EntityId) (name : String) (level : Level) (coverage : Polygon Float)
      (anchor : Point Float) (parent : Option EntityId) (children : List EntityId)
      (buddies links : SortedSet)
  /-- A link keeps its endpoints and the weights it was built with. -/
  | link (id first second : EntityId) (baseLatency bandwidth : Float)
  /-- The broker keeps its indices of heads and links. -/
  | broker (id : EntityId) (puddleHeads : List EntityId)
      (headsByLevel : SortedMap (List EntityId)) (links : List EntityId)

/-- What of an entity is fixed. -/
def Entity.fixture : Entity → Fixture
  | fogNode n =>
    .fogNode n.id n.name n.level n.characteristics n.links n.motion.bounds n.motion.mobile
  | puddleHead h =>
    .puddleHead h.id h.name h.level h.coverage h.anchor h.parent h.children h.buddies h.links
  | link l => .link l.id l.first l.second l.baseLatency l.bandwidth
  | broker b => .broker b.id b.puddleHeads b.headsByLevel b.links

/-- What is fixed of a network. -/
structure Blueprint where
  /-- What is fixed of each entity, by ascending number. -/
  fixtures : List (EntityId × Fixture)
  /-- The next fresh number. -/
  nextId : EntityId
  /-- The number of the broker. -/
  broker : EntityId
  /-- The links as a graph. -/
  graph : Graph
  /-- The constants of the run. -/
  settings : Settings

/-- What is fixed of the entities of a registry, by ascending number. -/
def Registry.fixtures (r : Registry) : List (EntityId × Fixture) :=
  r.entities.entries.map fun e => (e.1, e.2.fixture)

/-- What is fixed of a network. -/
def World.blueprint (w : World) : Blueprint :=
  ⟨w.registry.fixtures, w.registry.nextId, w.broker, w.graph, w.settings⟩

/-! ## Touches that leave fixtures as they are -/

/-- A touch that leaves what is fixed of every entity as it is. -/
def Touch.Fixed (t : Touch) : Prop := ∀ k e, (t.entity k e).fixture = e.fixture

variable {c : Settings} {broker id : EntityId} {now : Time} {r : Registry} {msg : Message}
  {out : List Outgoing} {t : Touch}

theorem Registry.fixtures_touch (ht : t.Fixed) : (r.touch t).fixtures = r.fixtures := by
  unfold fixtures touch SortedMap.mapEntries
  rw [List.map_map]
  exact List.map_congr_left fun e _ => congrArg (Prod.mk e.1) (ht e.1 e.2)

/-- A faithful touch under which nodes keep their rectangles, and stay mobile or not, leaves all
fixtures as they are. -/
theorem Touch.Faithful.fixed (ht : t.Faithful)
    (hmotion : ∀ k n, (t.node k n).motion.bounds = n.motion.bounds ∧
      (t.node k n).motion.mobile = n.motion.mobile) : t.Fixed := by
  intro k e
  cases e with
  | fogNode n =>
    obtain ⟨hbounds, hmobile⟩ := hmotion k n
    simp only [Touch.entity, Entity.fixture]
    rw [hbounds, hmobile, ht.node k n]
  | puddleHead h =>
    simp only [Touch.entity, Entity.fixture]
    rw [ht.head k h]
  | link l =>
    simp only [Touch.entity, Entity.fixture]
    rw [ht.link k l]
  | broker b =>
    simp only [Touch.entity, Entity.fixture]
    rw [ht.broker k b]

theorem Motion.bounds_advance (m : Motion Float) (now : Time) :
    (m.advance now).bounds = m.bounds := by
  unfold Motion.advance
  dsimp only
  split_ifs <;> rfl

/-- However a node moves, it keeps its rectangle and stays mobile or not. -/
theorem Reaction.fixed (h : Reaction c broker now r id msg out t) : t.Fixed := by
  refine h.faithful.fixed fun k n => ?_
  by_cases hk : msg = .updateLocation ∧ id = k
  · obtain ⟨rfl, rfl⟩ := hk
    cases h with
    | ignores | rests => exact ⟨rfl, rfl⟩
    | moves =>
      unfold Touch.onNode
      dsimp only
      rw [if_pos rfl]
      exact ⟨Motion.bounds_advance n.motion now, Motion.mobile_advance n.motion now⟩
  · rw [h.parks hk n]
    exact ⟨rfl, rfl⟩

theorem Touch.Slight.fixed (ht : t.Slight) : t.Fixed :=
  ht.faithful.fixed fun k n => ⟨ht.bounds k n, (ht.motion k n).1⟩

/-! ## Whole runs -/

variable {g : Regime} {s s' q : Session World Payload}

theorem Session.afterStep_blueprint (hr : s.state.registry.Orderly) :
    s.afterStep.state.blueprint = s.state.blueprint := by
  have hsettings : s.afterStep.state.settings = s.state.settings := (step_spec hr).2.1
  unfold World.blueprint
  rw [afterStep_broker hr, afterStep_graph, hsettings]
  rcases reacts_or_idles hr with ⟨e, receiver, msg, out, t, hreacts⟩ | hidles
  · rw [hreacts.registry, fixtures_touch hreacts.reaction.fixed]
    rfl
  · rw [hidles.registry]

theorem Session.Nudged.blueprint (h : s.Nudged g s') : s'.state.blueprint = s.state.blueprint := by
  obtain ⟨t, ht, hregistry⟩ := h.registry
  unfold World.blueprint
  rw [h.broker, h.graph, h.settings, hregistry, fixtures_touch ht.fixed]
  rfl

theorem Session.Onward.blueprint_eq (hq : Reachable g q) (h : q.Onward g s) :
    s.state.blueprint = q.state.blueprint := by
  induction h with
  | refl => rfl
  | @tail s s' honward hnext ih =>
    rcases hnext.cases with rfl | hnudged
    · rw [afterStep_blueprint (hq.onward honward).orderly, ih]
    · rw [hnudged.blueprint, ih]

/-- Whatever is posted from outside and whatever fails: the blueprint of a finished network stays as
it is. -/
theorem Builder.Made.frozen {b : Builder} {first : Session World Payload}
    (hb : b.Made (Regime.unrestricted.admits 0)) (hbuild : b.build = .ok first)
    (hs : first.Onward .unrestricted s) : s.state.blueprint = first.state.blueprint :=
  Session.Onward.blueprint_eq (.built hb hbuild) hs

namespace Crossing

/-- While the walker is handed over, a message to somebody unknown waits. -/
def misdirected : Session World Payload :=
  { handover with
    simulation := handover.simulation.schedule 12 (.deliver walker 99 .nodeLeave) }

/-- Then the walker is turned round. -/
def turned : Session World Payload :=
  { misdirected.afterStep with
    state := stateOf (World.setDirection walker ⟨-1, 0⟩ misdirected.afterStep.state) }

theorem onward_turned : first.Onward .unrestricted turned := by
  have hmisdirected : handover.Next .unrestricted misdirected := .posted trivial
  have hturned : misdirected.afterStep.Next .unrestricted turned :=
    .intervened (.setDirection walker ⟨-1, 0⟩)
  exact ((onward_handover.tail hmisdirected).tail (.afterStep fun _ => trivial)).tail hturned

end Crossing

/-- The walker has another owner, a step has failed and the walker has been turned round, and the
blueprint is the one at the start. -/
theorem Builder.Made.frozen_turned : Crossing.misdirected.fault?.isSome = true ∧
    (Crossing.first.state.registry.fogNode Crossing.walker).toOption.map (·.standing) =
      some (.owned Crossing.west) ∧
    (Crossing.turned.state.registry.fogNode Crossing.walker).toOption.map (·.standing) =
      some (.owned Crossing.east) ∧
    Crossing.turned.state.blueprint = Crossing.first.state.blueprint := by
  obtain ⟨d, hd, hbuild⟩ := Crossing.made_of_start Crossing.start_eq
  refine ⟨by decide +kernel, by decide +kernel, by decide +kernel, ?_⟩
  exact Builder.Made.frozen hd hbuild Crossing.onward_turned

end FogNet
