import FogNet.Form.Message
import FogNet.Form.Settings
import FogNet.Form.Snapshot
import FogNet.Proofs.Form.Entity

/-!
# Lossless forms

Events, settings and snapshots are read back like entities. The main result is about the four forms
in which whole states are kept, `Lossless`: a value within the limits whose numbers are finite is
read back unchanged, only such values are ever read, and so what was read survives being written and
read again.
-/

namespace FogNet

open Json

/-! ## Events -/

/-- A message that can be written without loss. -/
def Message.Writable : Message → Prop
  | updateLocation => True
  | processNodeMove node => node ≤ wordLimit
  | joinPuddle node => node ≤ wordLimit
  | leavePuddle node => node ≤ wordLimit
  | relocate node => node ≤ wordLimit
  | nodeLeave => True
  | updateLatency => True

/-- A payload that can be written without loss. -/
def Payload.Writable : Payload → Prop
  | noop => True
  | deliver sender receiver message =>
    sender ≤ wordLimit ∧ receiver ≤ wordLimit ∧ message.Writable

/-- An event that can be written without loss. -/
structure Event.Writable (e : Event Payload) : Prop where
  id : e.id ≤ wordLimit
  time : e.time ≤ wordLimit
  payload : e.payload.Writable

theorem nodeContent_field? {node : EntityId} (h : node ≤ wordLimit) :
    (nodeContent node).field? "node" word? = some node := by
  simp [nodeContent, word_roundTrips.recovers h]

/-- A message about a node is read from content that names the node. -/
theorem exists_node_of_content {content : Option Json} {make : EntityId → Message} {m : Message}
    (h : (do return make (← (← content).field? "node" word?)) = some m) :
    ∃ node ≤ wordLimit, m = make node := by
  simp only [Option.bind_eq_bind, Option.bind_eq_some_iff] at h
  obtain ⟨w, -, node, hnode, h⟩ := h
  cases h
  exact ⟨node, word_roundTrips.of_field hnode, rfl⟩

theorem Message.roundTrips : RoundTrips Message.toJson Message.ofJson? Message.Writable where
  recovers {m} h := by
    cases m with
    | updateLocation => rfl
    | processNodeMove node => simp [toJson, ofJson?, tagged, alternative?, nodeContent_field? h]
    | joinPuddle node => simp [toJson, ofJson?, tagged, alternative?, nodeContent_field? h]
    | leavePuddle node => simp [toJson, ofJson?, tagged, alternative?, nodeContent_field? h]
    | relocate node => simp [toJson, ofJson?, tagged, alternative?, nodeContent_field? h]
    | nodeLeave => rfl
    | updateLatency => rfl
  writable h := by
    simp only [ofJson?] at h
    obtain ⟨⟨name, content⟩, -, h⟩ := Option.bind_eq_some_iff.1 h
    dsimp only at h
    split at h
    · obtain rfl := eq_of_isBare h
      trivial
    · obtain ⟨node, hnode, rfl⟩ := exists_node_of_content h
      exact hnode
    · obtain ⟨node, hnode, rfl⟩ := exists_node_of_content h
      exact hnode
    · obtain ⟨node, hnode, rfl⟩ := exists_node_of_content h
      exact hnode
    · obtain ⟨node, hnode, rfl⟩ := exists_node_of_content h
      exact hnode
    · obtain rfl := eq_of_isBare h
      trivial
    · obtain rfl := eq_of_isBare h
      trivial
    · cases h

theorem Payload.roundTrips : RoundTrips Payload.toJson Payload.ofJson? Payload.Writable where
  recovers {p} h := by
    cases p with
    | noop => rfl
    | deliver sender receiver message =>
      simp [toJson, ofJson?, tagged, alternative?, word_roundTrips.recovers h.1,
        word_roundTrips.recovers h.2.1, Message.roundTrips.recovers h.2.2]
  writable h := by
    simp only [ofJson?, Option.bind_eq_bind, Option.bind_eq_some_iff] at h
    obtain ⟨⟨name, content⟩, -, h⟩ := h
    dsimp only at h
    split at h
    · obtain rfl := eq_of_isBare h
      trivial
    · simp only [Option.bind_eq_some_iff] at h
      obtain ⟨w, -, sender, hsender, receiver, hreceiver, message, hmessage, h⟩ := h
      cases h
      exact ⟨word_roundTrips.of_field hsender, word_roundTrips.of_field hreceiver,
        Message.roundTrips.of_field hmessage⟩
    · cases h

theorem Event.roundTrips : RoundTrips Event.toJson Event.ofJson? Event.Writable where
  recovers h := by
    simp [toJson, ofJson?, word_roundTrips.recovers h.id, word_roundTrips.recovers h.time,
      Payload.roundTrips.recovers h.payload]
  writable h := by
    simp only [ofJson?, Option.bind_eq_bind, Option.bind_eq_some_iff] at h
    obtain ⟨v, -, id, hid, time, htime, payload, hpayload, h⟩ := h
    cases h
    exact ⟨word_roundTrips.of_field hid, word_roundTrips.of_field htime,
      Payload.roundTrips.of_field hpayload⟩

/-! ## Settings -/

/-- Settings that can be written without loss. -/
structure Settings.Writable (s : Settings) : Prop where
  locationUpdateInterval : s.locationUpdateInterval ≤ wordLimit
  messageDelay : s.messageDelay ≤ wordLimit
  handoffDelay : s.handoffDelay ≤ wordLimit
  endTime : s.endTime ≤ wordLimit
  propagationSpeed : s.propagationSpeed.isFinite = true
  memberLinkLatency : s.memberLinkLatency.isFinite = true
  memberLinkBandwidth : s.memberLinkBandwidth.isFinite = true
  seed : s.seed ≤ wordLimit

theorem Settings.standard_writable : standard.Writable := by
  constructor <;> decide +kernel

theorem Settings.roundTrips : RoundTrips Settings.toJson Settings.ofJson? Settings.Writable where
  recovers {s} h := by
    have honly : s.toJson.hasOnly names = true := rfl
    unfold ofJson?
    refine Option.bind_eq_some_iff.2 ⟨s.toJson, rfl, ?_⟩
    refine Option.bind_eq_some_iff.2 ⟨(), if_pos honly, ?_⟩
    refine Option.bind_eq_some_iff.2 ⟨_, word_roundTrips.fieldOr "location_update_interval"
      h.locationUpdateInterval rfl, ?_⟩
    refine Option.bind_eq_some_iff.2 ⟨_, word_roundTrips.fieldOr "message_delay"
      h.messageDelay rfl, ?_⟩
    refine Option.bind_eq_some_iff.2 ⟨_, word_roundTrips.fieldOr "handoff_delay"
      h.handoffDelay rfl, ?_⟩
    refine Option.bind_eq_some_iff.2 ⟨_, word_roundTrips.fieldOr "end_time" h.endTime rfl, ?_⟩
    refine Option.bind_eq_some_iff.2 ⟨_, real_roundTrips.fieldOr "propagation_speed"
      h.propagationSpeed rfl, ?_⟩
    refine Option.bind_eq_some_iff.2 ⟨_, truth_roundTrips.fieldOr "auto_link_members"
      trivial rfl, ?_⟩
    refine Option.bind_eq_some_iff.2 ⟨_, real_roundTrips.fieldOr "member_link_latency"
      h.memberLinkLatency rfl, ?_⟩
    refine Option.bind_eq_some_iff.2 ⟨_, real_roundTrips.fieldOr "member_link_bandwidth"
      h.memberLinkBandwidth rfl, ?_⟩
    refine Option.bind_eq_some_iff.2 ⟨_, word_roundTrips.fieldOr "seed" h.seed rfl, ?_⟩
    refine Option.bind_eq_some_iff.2 ⟨_, truth_roundTrips.fieldOr "check_invariants"
      trivial rfl, ?_⟩
    rfl
  writable h := by
    have hs := standard_writable
    obtain ⟨v, -, h⟩ := Option.bind_eq_some_iff.1 h
    obtain ⟨-, -, h⟩ := Option.bind_eq_some_iff.1 h
    obtain ⟨interval, hinterval, h⟩ := Option.bind_eq_some_iff.1 h
    obtain ⟨messageDelay, hmessage, h⟩ := Option.bind_eq_some_iff.1 h
    obtain ⟨handoffDelay, hhandoff, h⟩ := Option.bind_eq_some_iff.1 h
    obtain ⟨endTime, hend, h⟩ := Option.bind_eq_some_iff.1 h
    obtain ⟨speed, hspeed, h⟩ := Option.bind_eq_some_iff.1 h
    obtain ⟨autoLink, -, h⟩ := Option.bind_eq_some_iff.1 h
    obtain ⟨latency, hlatency, h⟩ := Option.bind_eq_some_iff.1 h
    obtain ⟨bandwidth, hbandwidth, h⟩ := Option.bind_eq_some_iff.1 h
    obtain ⟨seed, hseed, h⟩ := Option.bind_eq_some_iff.1 h
    obtain ⟨check, -, h⟩ := Option.bind_eq_some_iff.1 h
    cases h
    exact ⟨word_roundTrips.of_fieldOr hs.locationUpdateInterval hinterval,
      word_roundTrips.of_fieldOr hs.messageDelay hmessage,
      word_roundTrips.of_fieldOr hs.handoffDelay hhandoff,
      word_roundTrips.of_fieldOr hs.endTime hend,
      real_roundTrips.of_fieldOr hs.propagationSpeed hspeed,
      real_roundTrips.of_fieldOr hs.memberLinkLatency hlatency,
      real_roundTrips.of_fieldOr hs.memberLinkBandwidth hbandwidth,
      word_roundTrips.of_fieldOr hs.seed hseed⟩

/-! ## Snapshots -/

/-- The view of a node that can be written without loss. -/
structure NodeView.Writable (n : NodeView) : Prop where
  id : n.id ≤ wordLimit
  level : n.level ≤ levelLimit
  standing : n.standing.Writable
  position : n.position.Writable
  buddies : ∀ b ∈ n.buddies, b ≤ wordLimit

/-- The view of a head that can be written without loss. -/
structure HeadView.Writable (h : HeadView) : Prop where
  id : h.id ≤ wordLimit
  level : h.level ≤ levelLimit
  parent : ∀ p ∈ h.parent, p ≤ wordLimit
  children : ∀ c ∈ h.children, c ≤ wordLimit
  members : ∀ n ∈ h.members, n ≤ wordLimit

/-- The view of a link that can be written without loss. -/
structure LinkView.Writable (l : LinkView) : Prop where
  id : l.id ≤ wordLimit
  first : l.first ≤ wordLimit
  second : l.second ≤ wordLimit
  latency : l.latency.isFinite = true

/-- A snapshot that can be written without loss. -/
structure Snapshot.Writable (s : Snapshot) : Prop where
  time : s.time ≤ wordLimit
  messagesDelivered : s.messagesDelivered ≤ wordLimit
  activeFogNodes : s.activeFogNodes ≤ wordLimit
  puddleHeads : ∀ h ∈ s.puddleHeads, h.Writable
  fogNodes : ∀ n ∈ s.fogNodes, n.Writable
  links : ∀ l ∈ s.links, l.Writable

theorem NodeView.roundTrips : RoundTrips NodeView.toJson NodeView.ofJson? NodeView.Writable where
  recovers h := by
    simp [toJson, ofJson?, word_roundTrips.recovers h.id, text_roundTrips.recovers,
      level_roundTrips.recovers h.level, Standing.roundTrips.recovers h.standing,
      Point.roundTrips.recovers h.position, ids_roundTrips.recovers h.buddies]
  writable h := by
    simp only [ofJson?, Option.bind_eq_bind, Option.bind_eq_some_iff] at h
    obtain ⟨v, -, id, hid, name, -, level, hlevel, standing, hstanding, position, hposition,
      buddies, hbuddies, h⟩ := h
    cases h
    exact ⟨word_roundTrips.of_field hid, level_roundTrips.of_field hlevel,
      Standing.roundTrips.of_field hstanding, Point.roundTrips.of_field hposition,
      ids_roundTrips.of_field hbuddies⟩

theorem HeadView.roundTrips : RoundTrips HeadView.toJson HeadView.ofJson? HeadView.Writable where
  recovers h := by
    simp [toJson, ofJson?, word_roundTrips.recovers h.id, text_roundTrips.recovers,
      level_roundTrips.recovers h.level,
      word_roundTrips.optional?_ofOption (fun _ => nofun) h.parent,
      ids_roundTrips.recovers h.children, ids_roundTrips.recovers h.members]
  writable h := by
    simp only [ofJson?, Option.bind_eq_bind, Option.bind_eq_some_iff] at h
    obtain ⟨v, -, id, hid, name, -, level, hlevel, parent, hparent, children, hchildren, members,
      hmembers, h⟩ := h
    cases h
    exact ⟨word_roundTrips.of_field hid, level_roundTrips.of_field hlevel,
      word_roundTrips.of_optional hparent, ids_roundTrips.of_field hchildren,
      ids_roundTrips.of_field hmembers⟩

theorem LinkView.roundTrips : RoundTrips LinkView.toJson LinkView.ofJson? LinkView.Writable where
  recovers {l} h := by
    simp [toJson, ofJson?, word_roundTrips.recovers h.id,
      wordPair_roundTrips.recovers (a := (l.first, l.second)) ⟨h.first, h.second⟩,
      real_roundTrips.recovers h.latency]
  writable h := by
    simp only [ofJson?, Option.bind_eq_bind, Option.bind_eq_some_iff] at h
    obtain ⟨v, -, id, hid, ends, hends, latency, hlatency, h⟩ := h
    cases h
    have hends := wordPair_roundTrips.of_field hends
    exact ⟨word_roundTrips.of_field hid, hends.1, hends.2, real_roundTrips.of_field hlatency⟩

theorem Snapshot.roundTrips : RoundTrips Snapshot.toJson Snapshot.ofJson? Snapshot.Writable where
  recovers h := by
    simp [toJson, ofJson?, word_roundTrips.recovers h.time,
      word_roundTrips.recovers h.messagesDelivered, word_roundTrips.recovers h.activeFogNodes,
      HeadView.roundTrips.list.recovers h.puddleHeads,
      NodeView.roundTrips.list.recovers h.fogNodes, LinkView.roundTrips.list.recovers h.links]
  writable h := by
    simp only [ofJson?, Option.bind_eq_bind, Option.bind_eq_some_iff] at h
    obtain ⟨v, -, time, htime, delivered, hdelivered, active, hactive, heads, hheads, nodes, hnodes,
      links, hlinks, h⟩ := h
    cases h
    exact ⟨word_roundTrips.of_field htime, word_roundTrips.of_field hdelivered,
      word_roundTrips.of_field hactive, HeadView.roundTrips.list.of_field hheads,
      NodeView.roundTrips.list.of_field hnodes, LinkView.roundTrips.list.of_field hlinks⟩

/-! ## The main result -/

/-- A form loses nothing: what can be written is read back unchanged, only such values are read, and
what was read is the same after being written and read again. -/
structure Lossless {α : Type} (encode : α → Json) (decode : Json → Option α)
    (Writable : α → Prop) : Prop extends RoundTrips encode decode Writable where
  /-- Writing and reading once more changes nothing. -/
  stable : ∀ {v a}, decode v = some a → decode (encode a) = some a

theorem Json.RoundTrips.lossless {α : Type} {encode : α → Json} {decode : Json → Option α}
    {Writable : α → Prop} (h : RoundTrips encode decode Writable) :
    Lossless encode decode Writable where
  toRoundTrips := h
  stable hv := h.recovers (h.writable hv)

/-- Registries, events, settings and snapshots are written without loss. -/
theorem forms_lossless :
    Lossless Registry.toJson Registry.ofJson? Registry.Writable ∧
      Lossless Event.toJson Event.ofJson? Event.Writable ∧
      Lossless Settings.toJson Settings.ofJson? Settings.Writable ∧
      Lossless Snapshot.toJson Snapshot.ofJson? Snapshot.Writable :=
  ⟨Registry.roundTrips.lossless, Event.roundTrips.lossless, Settings.roundTrips.lossless,
    Snapshot.roundTrips.lossless⟩

end FogNet
