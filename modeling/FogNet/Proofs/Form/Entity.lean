import FogNet.Form.Entity
import FogNet.Proofs.Form.RoundTrip

/-!
# Reading back entities

A value is `Writable` when its numbers are within their limits and its floating-point numbers are
finite. Each kind of record is shown to be read back under exactly this condition, from the parts of
geometry up to the registry (`Registry.roundTrips`).
-/

namespace FogNet

open Json

/-! ## Geometry -/

/-- A displacement that can be written without loss. -/
structure Vec.Writable (v : Vec Float) : Prop where
  x : v.x.isFinite = true
  y : v.y.isFinite = true

/-- A point that can be written without loss. -/
structure Point.Writable (p : Point Float) : Prop where
  x : p.x.isFinite = true
  y : p.y.isFinite = true

/-- A rectangle that can be written without loss. -/
structure Rectangle.Writable (r : Rectangle Float) : Prop where
  x : r.x.isFinite = true
  y : r.y.isFinite = true
  width : r.width.isFinite = true
  height : r.height.isFinite = true

/-- A polygon that can be written without loss. -/
def Polygon.Writable (p : Polygon Float) : Prop := ∀ v ∈ p.vertices, v.Writable

/-- A motion that can be written without loss. -/
structure Motion.Writable (m : Motion Float) : Prop where
  position : m.position.Writable
  velocity : m.velocity.Writable
  bounds : m.bounds.Writable
  lastUpdate : m.lastUpdate ≤ wordLimit

theorem Vec.roundTrips : RoundTrips Vec.toJson Vec.ofJson? Vec.Writable where
  recovers h := by
    simp [toJson, ofJson?, real_roundTrips.recovers h.x, real_roundTrips.recovers h.y]
  writable h := by
    simp only [ofJson?, Option.bind_eq_bind, Option.bind_eq_some_iff] at h
    obtain ⟨v, -, x, hx, y, hy, h⟩ := h
    cases h
    exact ⟨real_roundTrips.of_field hx, real_roundTrips.of_field hy⟩

theorem Point.roundTrips : RoundTrips Point.toJson Point.ofJson? Point.Writable where
  recovers h := by
    simp [toJson, ofJson?, real_roundTrips.recovers h.x, real_roundTrips.recovers h.y]
  writable h := by
    simp only [ofJson?, Option.bind_eq_bind, Option.bind_eq_some_iff] at h
    obtain ⟨v, -, x, hx, y, hy, h⟩ := h
    cases h
    exact ⟨real_roundTrips.of_field hx, real_roundTrips.of_field hy⟩

theorem Rectangle.roundTrips :
    RoundTrips Rectangle.toJson Rectangle.ofJson? Rectangle.Writable where
  recovers h := by
    simp [toJson, ofJson?, real_roundTrips.recovers h.x, real_roundTrips.recovers h.y,
      real_roundTrips.recovers h.width, real_roundTrips.recovers h.height]
  writable h := by
    simp only [ofJson?, Option.bind_eq_bind, Option.bind_eq_some_iff] at h
    obtain ⟨v, -, x, hx, y, hy, width, hwidth, height, hheight, h⟩ := h
    cases h
    exact ⟨real_roundTrips.of_field hx, real_roundTrips.of_field hy,
      real_roundTrips.of_field hwidth, real_roundTrips.of_field hheight⟩

/-- A polygon is written as its vertices, and those of a polygon are enough to make one again. -/
theorem Polygon.roundTrips : RoundTrips Polygon.toJson Polygon.ofJson? Polygon.Writable where
  recovers {p} h := by
    simp [toJson, ofJson?, Point.roundTrips.list.recovers h, ofVertices_eq_ok_iff.2 rfl,
      Except.toOption]
  writable {_ p} h := by
    simp only [ofJson?, Option.bind_eq_bind, Option.bind_eq_some_iff] at h
    obtain ⟨vertices, hvertices, h⟩ := h
    have hp : p.vertices = vertices := by
      refine ofVertices_eq_ok_iff.1 ?_
      cases hq : ofVertices vertices <;> simp_all [Except.toOption]
    rw [Writable, hp]
    exact Point.roundTrips.list.writable hvertices

theorem Motion.roundTrips : RoundTrips Motion.toJson Motion.ofJson? Motion.Writable where
  recovers h := by
    simp [toJson, ofJson?, Point.roundTrips.recovers h.position,
      Vec.roundTrips.recovers h.velocity, Rectangle.roundTrips.recovers h.bounds,
      truth_roundTrips.recovers, word_roundTrips.recovers h.lastUpdate]
  writable h := by
    simp only [ofJson?, Option.bind_eq_bind, Option.bind_eq_some_iff] at h
    obtain ⟨v, -, position, hposition, velocity, hvelocity, bounds, hbounds, mobile, -, last, hlast,
      h⟩ := h
    cases h
    exact ⟨Point.roundTrips.of_field hposition, Vec.roundTrips.of_field hvelocity,
      Rectangle.roundTrips.of_field hbounds, word_roundTrips.of_field hlast⟩

/-! ## Nodes -/

/-- What a device offers, if it can be written without loss. -/
structure Characteristics.Writable (c : Characteristics) : Prop where
  mips : c.mips ≤ wordLimit
  ram : c.ram ≤ wordLimit
  uplink : c.uplink ≤ wordLimit
  downlink : c.downlink ≤ wordLimit

/-- A standing that can be written without loss. -/
def Standing.Writable (s : Standing) : Prop := ∀ head, s = .owned head → head ≤ wordLimit

/-- A transition that can be written without loss. -/
def Transition.Writable : Transition → Prop
  | joining target => target ≤ wordLimit
  | relocating source target => source ≤ wordLimit ∧ target ≤ wordLimit
  | departing source => ∀ head ∈ source, head ≤ wordLimit

/-- A node that can be written without loss. -/
structure FogNode.Writable (n : FogNode) : Prop where
  id : n.id ≤ wordLimit
  level : n.level ≤ levelLimit
  motion : n.motion.Writable
  characteristics : n.characteristics.Writable
  standing : n.standing.Writable
  buddies : ∀ b ∈ n.buddies, b ≤ wordLimit
  links : ∀ l ∈ n.links, l ≤ wordLimit
  pending : ∀ t ∈ n.pending, t.Writable

theorem Characteristics.roundTrips :
    RoundTrips Characteristics.toJson Characteristics.ofJson? Characteristics.Writable where
  recovers h := by
    simp [toJson, ofJson?, word_roundTrips.recovers h.mips, word_roundTrips.recovers h.ram,
      word_roundTrips.recovers h.uplink, word_roundTrips.recovers h.downlink]
  writable h := by
    have hzero : 0 ≤ wordLimit := Nat.zero_le wordLimit
    simp only [ofJson?, Option.bind_eq_bind, Option.bind_eq_some_iff] at h
    obtain ⟨v, -, mips, hmips, ram, hram, uplink, huplink, downlink, hdownlink, h⟩ := h
    cases h
    exact ⟨word_roundTrips.of_fieldOr hzero hmips, word_roundTrips.of_fieldOr hzero hram,
      word_roundTrips.of_fieldOr hzero huplink, word_roundTrips.of_fieldOr hzero hdownlink⟩

theorem Standing.roundTrips : RoundTrips Standing.toJson Standing.ofJson? Standing.Writable where
  recovers {s} h := by
    cases s with
    | unassigned => rfl
    | owned head =>
      simp [toJson, ofJson?, tagged, alternative?, word_roundTrips.recovers (h head rfl)]
    | departed => rfl
  writable h := by
    simp only [ofJson?, Option.bind_eq_bind, Option.bind_eq_some_iff] at h
    obtain ⟨⟨name, content⟩, -, h⟩ := h
    dsimp only at h
    split at h
    · obtain rfl := eq_of_isBare h
      exact fun _ h => nomatch h
    · simp only [Option.bind_eq_some_iff] at h
      obtain ⟨w, -, head, hhead, h⟩ := h
      cases h
      rintro _ ⟨⟩
      exact word_roundTrips.writable hhead
    · obtain rfl := eq_of_isBare h
      exact fun _ h => nomatch h
    · cases h

theorem Transition.roundTrips :
    RoundTrips Transition.toJson Transition.ofJson? Transition.Writable where
  recovers {t} h := by
    cases t with
    | joining target =>
      simp [toJson, ofJson?, tagged, alternative?, word_roundTrips.recovers h]
    | relocating source target =>
      simp [toJson, ofJson?, tagged, alternative?, word_roundTrips.recovers h.1,
        word_roundTrips.recovers h.2]
    | departing source =>
      simp [toJson, ofJson?, tagged, alternative?,
        word_roundTrips.optional?_ofOption (fun _ => nofun) h]
  writable h := by
    simp only [ofJson?, Option.bind_eq_bind, Option.bind_eq_some_iff] at h
    obtain ⟨⟨name, content⟩, -, w, -, h⟩ := h
    dsimp only at h
    split at h
    · obtain ⟨target, htarget, h⟩ := Option.bind_eq_some_iff.1 h
      cases h
      exact word_roundTrips.of_field htarget
    · simp only [Option.bind_eq_some_iff] at h
      obtain ⟨source, hsource, target, htarget, h⟩ := h
      cases h
      exact ⟨word_roundTrips.of_field hsource, word_roundTrips.of_field htarget⟩
    · obtain ⟨source, hsource, h⟩ := Option.bind_eq_some_iff.1 h
      cases h
      exact word_roundTrips.of_optional hsource
    · cases h

theorem Transition.toJson_ne_null (t : Transition) : t.toJson ≠ .null := by
  cases t <;> exact nofun

theorem FogNode.roundTrips : RoundTrips FogNode.toJson FogNode.ofJson? FogNode.Writable where
  recovers h := by
    simp [toJson, ofJson?, word_roundTrips.recovers h.id, text_roundTrips.recovers,
      level_roundTrips.recovers h.level, Motion.roundTrips.recovers h.motion,
      Characteristics.roundTrips.recovers h.characteristics,
      Standing.roundTrips.recovers h.standing, set_roundTrips.recovers h.buddies,
      set_roundTrips.recovers h.links,
      Transition.roundTrips.optional?_ofOption Transition.toJson_ne_null h.pending]
  writable h := by
    simp only [ofJson?, Option.bind_eq_bind, Option.bind_eq_some_iff] at h
    obtain ⟨v, -, id, hid, name, -, level, hlevel, motion, hmotion, characteristics, hoffer,
      standing, hstanding, buddies, hbuddies, links, hlinks, pending, hpending, h⟩ := h
    cases h
    exact ⟨word_roundTrips.of_field hid, level_roundTrips.of_field hlevel,
      Motion.roundTrips.of_field hmotion, Characteristics.roundTrips.of_field hoffer,
      Standing.roundTrips.of_field hstanding, set_roundTrips.of_field hbuddies,
      set_roundTrips.of_field hlinks, Transition.roundTrips.of_optional hpending⟩

/-! ## Heads, links and the broker -/

/-- A head that can be written without loss. -/
structure PuddleHead.Writable (h : PuddleHead) : Prop where
  id : h.id ≤ wordLimit
  level : h.level ≤ levelLimit
  coverage : h.coverage.Writable
  anchor : h.anchor.Writable
  members : ∀ n ∈ h.members, n ≤ wordLimit
  memberCharacteristics :
    ∀ e ∈ h.memberCharacteristics.entries, e.1 ≤ wordLimit ∧ e.2.Writable
  buddies : ∀ b ∈ h.buddies, b ≤ wordLimit
  parent : ∀ p ∈ h.parent, p ≤ wordLimit
  children : ∀ c ∈ h.children, c ≤ wordLimit
  childPuddles : ∀ e ∈ h.childPuddles.entries, e.1 ≤ wordLimit ∧ ∀ n ∈ e.2, n ≤ wordLimit
  runningServices : ∀ e ∈ h.runningServices.entries, e.1 ≤ wordLimit
  links : ∀ l ∈ h.links, l ≤ wordLimit

/-- A link that can be written without loss. -/
structure Link.Writable (l : Link) : Prop where
  id : l.id ≤ wordLimit
  first : l.first ≤ wordLimit
  second : l.second ≤ wordLimit
  baseLatency : l.baseLatency.isFinite = true
  latency : l.latency.isFinite = true
  bandwidth : l.bandwidth.isFinite = true
  forwardQueue : ∀ bytes ∈ l.forwardQueue, bytes ≤ wordLimit
  reverseQueue : ∀ bytes ∈ l.reverseQueue, bytes ≤ wordLimit

/-- A broker that can be written without loss. -/
structure Broker.Writable (b : Broker) : Prop where
  id : b.id ≤ wordLimit
  puddleHeads : ∀ h ∈ b.puddleHeads, h ≤ wordLimit
  headsByLevel : ∀ e ∈ b.headsByLevel.entries, e.1 ≤ levelLimit ∧ ∀ h ∈ e.2, h ≤ wordLimit
  fogNodes : ∀ n ∈ b.fogNodes, n ≤ wordLimit
  links : ∀ l ∈ b.links, l ≤ wordLimit

theorem ids_roundTrips :
    RoundTrips idsToJson (list? word?) fun ids => ∀ id ∈ ids, id ≤ wordLimit :=
  word_roundTrips.list

theorem PuddleHead.roundTrips :
    RoundTrips PuddleHead.toJson PuddleHead.ofJson? PuddleHead.Writable where
  recovers {g} h := by
    have hparent : g.toJson.optional? "parent" word? = some g.parent := by
      simp [toJson, word_roundTrips.optional?_ofOption (fun _ => nofun) h.parent]
    have hservices := (text_roundTrips.list.map wordLimit).field (v := g.toJson)
      (a := g.runningServices) "running_services"
      (fun e he => ⟨h.runningServices e he, fun _ _ => trivial⟩) rfl
    unfold ofJson?
    refine Option.bind_eq_some_iff.2 ⟨g.toJson, rfl, ?_⟩
    refine Option.bind_eq_some_iff.2 ⟨_, word_roundTrips.field "id" h.id rfl, ?_⟩
    refine Option.bind_eq_some_iff.2 ⟨_, text_roundTrips.field "name" trivial rfl, ?_⟩
    refine Option.bind_eq_some_iff.2 ⟨_, level_roundTrips.field "level" h.level rfl, ?_⟩
    refine Option.bind_eq_some_iff.2 ⟨_, Polygon.roundTrips.field "coverage" h.coverage rfl, ?_⟩
    refine Option.bind_eq_some_iff.2 ⟨_, Point.roundTrips.field "anchor" h.anchor rfl, ?_⟩
    refine Option.bind_eq_some_iff.2 ⟨_, ids_roundTrips.field "members" h.members rfl, ?_⟩
    refine Option.bind_eq_some_iff.2 ⟨_, (Characteristics.roundTrips.map wordLimit).field
      "member_characteristics" h.memberCharacteristics rfl, ?_⟩
    refine Option.bind_eq_some_iff.2 ⟨_, set_roundTrips.field "buddies" h.buddies rfl, ?_⟩
    refine Option.bind_eq_some_iff.2 ⟨_, hparent, ?_⟩
    refine Option.bind_eq_some_iff.2 ⟨_, ids_roundTrips.field "children" h.children rfl, ?_⟩
    refine Option.bind_eq_some_iff.2 ⟨_, (ids_roundTrips.map wordLimit).field "child_puddles"
      h.childPuddles rfl, ?_⟩
    refine Option.bind_eq_some_iff.2 ⟨_, hservices, ?_⟩
    refine Option.bind_eq_some_iff.2 ⟨_, set_roundTrips.field "links" h.links rfl, ?_⟩
    rfl
  writable h := by
    obtain ⟨v, -, h⟩ := Option.bind_eq_some_iff.1 h
    obtain ⟨id, hid, h⟩ := Option.bind_eq_some_iff.1 h
    obtain ⟨name, -, h⟩ := Option.bind_eq_some_iff.1 h
    obtain ⟨level, hlevel, h⟩ := Option.bind_eq_some_iff.1 h
    obtain ⟨coverage, hcoverage, h⟩ := Option.bind_eq_some_iff.1 h
    obtain ⟨anchor, hanchor, h⟩ := Option.bind_eq_some_iff.1 h
    obtain ⟨members, hmembers, h⟩ := Option.bind_eq_some_iff.1 h
    obtain ⟨offers, hoffers, h⟩ := Option.bind_eq_some_iff.1 h
    obtain ⟨buddies, hbuddies, h⟩ := Option.bind_eq_some_iff.1 h
    obtain ⟨parent, hparent, h⟩ := Option.bind_eq_some_iff.1 h
    obtain ⟨children, hchildren, h⟩ := Option.bind_eq_some_iff.1 h
    obtain ⟨puddles, hpuddles, h⟩ := Option.bind_eq_some_iff.1 h
    obtain ⟨services, hservices, h⟩ := Option.bind_eq_some_iff.1 h
    obtain ⟨links, hlinks, h⟩ := Option.bind_eq_some_iff.1 h
    cases h
    exact ⟨word_roundTrips.of_field hid, level_roundTrips.of_field hlevel,
      Polygon.roundTrips.of_field hcoverage, Point.roundTrips.of_field hanchor,
      ids_roundTrips.of_field hmembers,
      (Characteristics.roundTrips.map wordLimit).of_field hoffers,
      set_roundTrips.of_field hbuddies, word_roundTrips.of_optional hparent,
      ids_roundTrips.of_field hchildren, (ids_roundTrips.map wordLimit).of_field hpuddles,
      fun e he => ((text_roundTrips.list.map wordLimit).of_field hservices e he).1,
      set_roundTrips.of_field hlinks⟩

theorem Link.roundTrips : RoundTrips Link.toJson Link.ofJson? Link.Writable where
  recovers {l} h := by
    simp [toJson, ofJson?, word_roundTrips.recovers h.id,
      wordPair_roundTrips.recovers (a := (l.first, l.second)) ⟨h.first, h.second⟩,
      real_roundTrips.recovers h.baseLatency, real_roundTrips.recovers h.latency,
      real_roundTrips.recovers h.bandwidth, ids_roundTrips.recovers h.forwardQueue,
      ids_roundTrips.recovers h.reverseQueue]
  writable h := by
    simp only [ofJson?, Option.bind_eq_bind, Option.bind_eq_some_iff] at h
    obtain ⟨v, -, id, hid, ends, hends, baseLatency, hbase, latency, hlatency, bandwidth,
      hbandwidth, forward, hforward, reverse, hreverse, h⟩ := h
    cases h
    have hends := wordPair_roundTrips.of_field hends
    exact ⟨word_roundTrips.of_field hid, hends.1, hends.2, real_roundTrips.of_field hbase,
      real_roundTrips.of_field hlatency, real_roundTrips.of_field hbandwidth,
      ids_roundTrips.of_field hforward, ids_roundTrips.of_field hreverse⟩

theorem Broker.roundTrips : RoundTrips Broker.toJson Broker.ofJson? Broker.Writable where
  recovers h := by
    simp [toJson, ofJson?, word_roundTrips.recovers h.id, ids_roundTrips.recovers h.puddleHeads,
      (ids_roundTrips.map levelLimit).recovers h.headsByLevel,
      set_roundTrips.recovers h.fogNodes, ids_roundTrips.recovers h.links]
  writable h := by
    simp only [ofJson?, Option.bind_eq_bind, Option.bind_eq_some_iff] at h
    obtain ⟨v, -, id, hid, heads, hheads, byLevel, hbyLevel, nodes, hnodes, links, hlinks, h⟩ := h
    cases h
    exact ⟨word_roundTrips.of_field hid, ids_roundTrips.of_field hheads,
      (ids_roundTrips.map levelLimit).of_field hbyLevel, set_roundTrips.of_field hnodes,
      ids_roundTrips.of_field hlinks⟩

/-! ## The registry -/

/-- An entity that can be written without loss. -/
def Entity.Writable : Entity → Prop
  | fogNode n => n.Writable
  | puddleHead h => h.Writable
  | link l => l.Writable
  | broker b => b.Writable

/-- A registry that can be written without loss. -/
structure Registry.Writable (r : Registry) : Prop where
  entities : ∀ e ∈ r.entities.entries, e.1 ≤ wordLimit ∧ e.2.Writable
  nextId : r.nextId ≤ wordLimit

theorem Entity.roundTrips : RoundTrips Entity.toJson Entity.ofJson? Entity.Writable where
  recovers {e} h := by
    cases e with
    | fogNode n => simp [toJson, ofJson?, tagged, alternative?, FogNode.roundTrips.recovers h]
    | puddleHead p =>
      simp [toJson, ofJson?, tagged, alternative?, PuddleHead.roundTrips.recovers h]
    | link l => simp [toJson, ofJson?, tagged, alternative?, Link.roundTrips.recovers h]
    | broker b => simp [toJson, ofJson?, tagged, alternative?, Broker.roundTrips.recovers h]
  writable h := by
    simp only [ofJson?, Option.bind_eq_bind, Option.bind_eq_some_iff] at h
    obtain ⟨⟨name, content⟩, -, w, -, h⟩ := h
    dsimp only at h
    split at h
    · obtain ⟨n, hn, h⟩ := Option.bind_eq_some_iff.1 h
      cases h
      exact FogNode.roundTrips.writable hn
    · obtain ⟨p, hp, h⟩ := Option.bind_eq_some_iff.1 h
      cases h
      exact PuddleHead.roundTrips.writable hp
    · obtain ⟨l, hl, h⟩ := Option.bind_eq_some_iff.1 h
      cases h
      exact Link.roundTrips.writable hl
    · obtain ⟨b, hb, h⟩ := Option.bind_eq_some_iff.1 h
      cases h
      exact Broker.roundTrips.writable hb
    · cases h

theorem Registry.roundTrips : RoundTrips Registry.toJson Registry.ofJson? Registry.Writable where
  recovers h := by
    simp [toJson, ofJson?, (Entity.roundTrips.map wordLimit).recovers h.entities,
      word_roundTrips.recovers h.nextId]
  writable h := by
    simp only [ofJson?, Option.bind_eq_bind, Option.bind_eq_some_iff] at h
    obtain ⟨v, -, entities, hentities, nextId, hnext, h⟩ := h
    cases h
    exact ⟨(Entity.roundTrips.map wordLimit).of_field hentities, word_roundTrips.of_field hnext⟩

end FogNet
