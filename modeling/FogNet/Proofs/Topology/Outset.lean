import FogNet.Proofs.Topology.Ranks

/-!
# Before the first event

While a network is put together nothing moves, and no link is measured or used. Amendments leave
both as they are, and a new entity starts that way, so a finished network is `Pristine`: all nodes
stand where they were put, and all links are as they were added.
-/

namespace FogNet

open Registry

/-- A node that has not moved, or a link that was neither measured nor used. -/
def Entity.Pristine : Entity → Prop
  | fogNode n => n.motion.lastUpdate = 0
  | link l => l.original = l
  | puddleHead _ => True
  | broker _ => True

/-- Nothing has happened yet. -/
def Registry.Pristine (r : Registry) : Prop :=
  ∀ ⦃k e⦄, r.entities.get? k = some e → e.Pristine

variable {r q : Registry} {k broker : EntityId} {e d : Entity}

theorem Entity.SameEntry.pristine (h : e.SameEntry d) (he : e.Pristine) : d.Pristine := by
  cases h with
  | fogNode _ hmotion => exact (congrArg Motion.lastUpdate hmotion).trans he
  | link => exact he
  | puddleHead | broker => trivial

namespace Registry.Pristine

theorem fogNode (hr : r.Pristine) {n : FogNode} (hn : r.fogNode k = .ok n) :
    n.motion.lastUpdate = 0 :=
  hr (fogNode_eq_ok_iff.1 hn)

theorem link (hr : r.Pristine) {l : Link} (hl : r.link k = .ok l) : l.original = l :=
  hr (link_eq_ok_iff.1 hl)

theorem amend (hr : r.Pristine) (hq : Amended r q) : q.Pristine := by
  intro k d hd
  cases hk : r.entities.get? k with
  | none =>
    obtain ⟨-, l, rfl, hl⟩ := hq.fresh hd hk
    exact hl
  | some e =>
    obtain ⟨d', hd', hsame⟩ := hq.old hk
    obtain rfl := Option.some.inj (hd.symm.trans hd')
    exact hsame.pristine (hr hk)

end Registry.Pristine

namespace Builder

variable {c : Builder} {make : EntityId → Entity} {note : EntityId → Broker → Broker}

theorem pristine_noted (hr : r.Pristine) (hmake : ∀ id, (make id).Pristine) :
    (noted r broker make note).Pristine := by
  have hbroker : ∀ f k (e : Entity), e.Pristine → ((Touch.onBroker broker f).entity k e).Pristine :=
    fun f k e he => by cases e <;> exact he
  intro k d hd
  rw [get?_noted] at hd
  split_ifs at hd
  · rw [← Option.some.inj hd]
    exact hbroker _ k _ (hmake k)
  · obtain ⟨e, he, rfl⟩ := Option.map_eq_some_iff.1 hd
    exact hbroker _ k _ (hr he)

theorem pristine_start {settings : Settings} (h : Builder.start settings = .ok c) :
    c.registry.Pristine := by
  obtain ⟨-, rfl⟩ := start_eq_ok h
  intro k e he
  rcases get?_put_cases he with ⟨-, rfl⟩ | ⟨-, he⟩
  · trivial
  · cases he

/-- Whatever the calls, nothing happens before the network runs. -/
theorem Made.pristine {admits : Time → Payload → Prop} (h : Made admits c) :
    c.registry.Pristine := by
  induction h with
  | start h => exact pristine_start h
  | @puddleHead c hc name level coverage anchor ih =>
    rw [hc.puddleHead_ok]
    exact pristine_noted ih fun _ => trivial
  | @fogNode c hc spec ih =>
    obtain ⟨motion, generator, hbegins, hadded⟩ := hc.exists_fogNode_ok spec
    rw [hadded]
    exact pristine_noted ih fun _ => hbegins.rested
  | @attach c _ child parent ih =>
    rw [stateOf_attach]
    exact ih.amend (Change.Amends.adoptChild parent child c.registry)
  | @link c _ first second latency bandwidth ih =>
    rw [stateOf_link]
    exact ih.amend (amends_addLink c.broker first second latency bandwidth c.registry)
  | schedule _ _ ih => exact ih

/-- Nothing has happened in a finished network. -/
theorem pristine_of_build {admits : Time → Payload → Prop} {s : Session World Payload}
    (hc : Made admits c) (h : c.build = .ok s) : s.state.registry.Pristine :=
  hc.pristine.amend (amended_of_build h)

end Builder

end FogNet
