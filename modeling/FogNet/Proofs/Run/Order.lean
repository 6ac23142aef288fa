import FogNet.Proofs.Run.Catalogue
import FogNet.Proofs.Run.Sending

/-!
# What the broker orders

Only the broker tells a head to take a node in or over and a node to leave, and it does so in the
step in which it has decided that (`Session.Posts.decides`).
-/

namespace FogNet

open Registry

/-- The messages by which the broker has its decisions carried out. -/
inductive Message.IsOrder : Message → Prop where
  | joinPuddle (node : EntityId) : IsOrder (.joinPuddle node)
  | relocate (node : EntityId) : IsOrder (.relocate node)
  | nodeLeave : IsOrder .nodeLeave

variable {c : Settings} {broker id k : EntityId} {now : Time} {r : Registry} {msg : Message}
  {out : List Outgoing} {t : Touch} {o : Outgoing} {b : Broker} {p : Placement}

/-- An order is sent because the broker has decided on a node. -/
theorem Reaction.decision_of_order (h : Reaction c broker now r id msg out t) (ho : o ∈ out)
    (hmsg : o.message.IsOrder) : ∃ node b p, msg = .processNodeMove node ∧
      r.broker id = .ok b ∧ r.evaluate b node = .ok p ∧ o ∈ p.orders c id node := by
  cases h with
  | ignores | rests | isGone | takesIn | misses | keeps | picksUp | strikesOff | measures =>
    cases ho
  | @moves n =>
    rcases List.mem_append.1 ho with ho | ho
    · rcases List.mem_cons.1 ho with rfl | ho
      · cases hmsg
      · obtain ⟨link, -, rfl⟩ := List.mem_map.1 ho
        cases hmsg
    · obtain rfl := List.mem_singleton.1 ho
      cases hmsg
  | @departs n =>
    obtain ⟨head, -, rfl⟩ := List.mem_map.1 ho
    cases hmsg
  | takesOver =>
    obtain rfl := List.mem_singleton.1 ho
    cases hmsg
  | @places b node n p hb _ _ heval => exact ⟨node, b, p, rfl, hb, heval, ho⟩

theorem World.evaluate_of_broker {w : World} (hb : w.registry.broker w.broker = .ok b) :
    w.evaluate k = w.registry.evaluate b k := by
  unfold World.evaluate
  rw [hb]
  rfl

variable {g : Regime} {s : Session World Payload} {e : Event Payload} {sender receiver : EntityId}

namespace Session

/-- In the next step the broker decides on a node. -/
structure Decides (s : Session World Payload) (node : EntityId) (p : Placement) : Prop where
  /-- The broker is asked to look at the node. -/
  asked : ∃ e, s.Delivers e s.state.broker (.processNodeMove node)
  /-- That is what it decides. -/
  verdict : s.state.evaluate node = .ok p

theorem Decides.evaluate (h : s.Decides k p) : ∃ b n,
    s.state.registry.broker s.state.broker = .ok b ∧ s.state.registry.fogNode k = .ok n ∧
      s.state.registry.evaluate b k = .ok p := by
  have hverdict := h.verdict
  cases hb : s.state.registry.broker s.state.broker with
  | error fault =>
    unfold World.evaluate at hverdict
    rw [hb] at hverdict
    cases hverdict
  | ok b =>
    rw [World.evaluate_of_broker hb] at hverdict
    cases hn : s.state.registry.fogNode k with
    | error fault =>
      rw [evaluate_of_unknown hn] at hverdict
      cases hverdict
    | ok n => exact ⟨b, n, rfl, rfl, hverdict⟩

theorem Idles.not_decides (hidles : s.Idles) : ¬ s.Decides k p := by
  intro h
  obtain ⟨b, n, hb, hn, -⟩ := h.evaluate
  obtain ⟨e, hdelivers⟩ := h.asked
  refine hidles.unresolved hdelivers ⟨⟨_, kind_eq_broker_iff.2 ⟨b, hb⟩⟩, fun node hnode => ?_⟩
  cases hnode
  exact kind_eq_fogNode_iff.2 ⟨n, hn⟩

/-- Who posts an order is the broker, and it has decided on a node then. -/
theorem Posts.decides (hs : Reachable g s) (h : s.Posts e)
    (he : e.payload = .deliver sender receiver msg) (hmsg : msg.IsOrder) :
    ∃ node p, s.Decides node p ∧ ∃ o ∈ p.orders s.state.settings s.state.broker node,
      o.sender = sender ∧ o.receiver = receiver ∧ o.message = msg := by
  obtain ⟨d, id, msg', out, t, hreacts, o, ho, hpayload⟩ := h.answer
  rw [he] at hpayload
  obtain ⟨rfl, rfl, rfl⟩ := Payload.deliver.inj hpayload
  obtain ⟨node, b, p, rfl, hb, heval, ho⟩ := hreacts.reaction.decision_of_order ho hmsg
  obtain rfl := hs.catalogued.single (kind_eq_broker_iff.2 ⟨b, hb⟩)
  refine ⟨node, p, ⟨⟨d, hreacts.delivers⟩, ?_⟩, o, ho, rfl, rfl, rfl⟩
  rw [World.evaluate_of_broker hb, heval]

end Session

end FogNet
