import FogNet.Form.Settings
import FogNet.Scenario.Basic
import FogNet.Toml.Access

/-!
# Reading scenarios

A scenario file is a document of the configuration format. Unknown fields are refused everywhere but
among the characteristics of a device; settings, lists and the optional parts of heads and nodes may
be missing.
-/

namespace FogNet

/-- A count of ticks, bytes or operations. -/
def Toml.count? (v : Toml) : Option Nat := v.natUpTo? Json.wordLimit

/-- A level. -/
def Toml.level? (v : Toml) : Option Level := v.natUpTo? Json.levelLimit

/-- A point. -/
def Toml.point? (v : Toml) : Option (Point Float) := v.realPair?.map fun (x, y) => ⟨x, y⟩

/-- A displacement. -/
def Toml.vec? (v : Toml) : Option (Vec Float) := v.realPair?.map fun (x, y) => ⟨x, y⟩

/-- The settings that a table gives, the standard ones where it gives none. -/
def Settings.ofToml? (v : Toml) : Option Settings := do
  let fields ← v.record? names
  let interval ←
    fields.withDefault "location_update_interval" Toml.count? standard.locationUpdateInterval
  let messageDelay ← fields.withDefault "message_delay" Toml.count? standard.messageDelay
  let handoffDelay ← fields.withDefault "handoff_delay" Toml.count? standard.handoffDelay
  let endTime ← fields.withDefault "end_time" Toml.count? standard.endTime
  let speed ← fields.withDefault "propagation_speed" Toml.real? standard.propagationSpeed
  let autoLink ← fields.withDefault "auto_link_members" Toml.truth? standard.autoLinkMembers
  let latency ← fields.withDefault "member_link_latency" Toml.real? standard.memberLinkLatency
  let bandwidth ←
    fields.withDefault "member_link_bandwidth" Toml.real? standard.memberLinkBandwidth
  let seed ← fields.withDefault "seed" Toml.count? standard.seed
  let check ← fields.withDefault "check_invariants" Toml.truth? standard.checkInvariants
  return ⟨interval, messageDelay, handoffDelay, endTime, speed, autoLink, latency, bandwidth, seed,
    check⟩

/-- What a device offers, nothing where nothing is said. -/
def Characteristics.ofToml? (v : Toml) : Option Characteristics := do
  let fields ← v.openRecord? ["mips", "ram", "uplink_bw", "downlink_bw"]
  let mips ← fields.withDefault "mips" Toml.count? 0
  let ram ← fields.withDefault "ram" Toml.count? 0
  let uplink ← fields.withDefault "uplink_bw" Toml.count? 0
  let downlink ← fields.withDefault "downlink_bw" Toml.count? 0
  return ⟨mips, ram, uplink, downlink⟩

/-- The rectangle with a corner and extents of any sign. -/
def Rectangle.ofToml? (v : Toml) : Option (Rectangle Float) := do
  let fields ← v.record? ["x", "y", "width", "height"]
  let x ← fields.required "x" Toml.real?
  let y ← fields.required "y" Toml.real?
  let width ← fields.required "width" Toml.real?
  let height ← fields.required "height" Toml.real?
  return ⟨x, y, width, height⟩

/-- The description of a head. -/
def HeadEntry.ofToml? (v : Toml) : Option HeadEntry := do
  let fields ← v.record? ["name", "level", "anchor", "coverage", "parent"]
  let name ← fields.required "name" Toml.text?
  let level ← fields.required "level" Toml.level?
  let anchor ← fields.required "anchor" Toml.point?
  let coverage ← fields.required "coverage" (Toml.list? Toml.point?)
  let parent ← fields.optional "parent" Toml.text?
  return ⟨name, level, anchor, coverage, parent⟩

/-- The description of a node, which is mobile unless it says otherwise. -/
def NodeEntry.ofToml? (v : Toml) : Option NodeEntry := do
  let fields ← v.record? ["name", "level", "position", "bounds", "velocity", "speed", "mobile",
    "characteristics", "services"]
  let name ← fields.required "name" Toml.text?
  let level ← fields.required "level" Toml.level?
  let position ← fields.required "position" Toml.point?
  let bounds ← fields.required "bounds" Rectangle.ofToml?
  let velocity ← fields.optional "velocity" Toml.vec?
  let speed ← fields.optional "speed" Toml.real?
  let mobile ← fields.withDefault "mobile" Toml.truth? true
  let characteristics ←
    fields.withDefault "characteristics" Characteristics.ofToml? .none
  let services ← fields.withDefault "services" (Toml.list? Toml.text?) []
  return ⟨name, level, position, bounds, velocity, speed, mobile, characteristics, services⟩

/-- The description of a link. -/
def LinkEntry.ofToml? (v : Toml) : Option LinkEntry := do
  let fields ← v.record? ["a", "b", "latency", "bandwidth"]
  let first ← fields.required "a" Toml.text?
  let second ← fields.required "b" Toml.text?
  let latency ← fields.required "latency" Toml.real?
  let bandwidth ← fields.required "bandwidth" Toml.real?
  return ⟨first, second, latency, bandwidth⟩

namespace Scenario

/-- The scenario that a document gives. -/
def ofToml? (v : Toml) : Option Scenario := do
  let fields ← v.record? ["simulation", "puddle_heads", "fog_nodes", "links"]
  let settings ← fields.withDefault "simulation" Settings.ofToml? .standard
  let heads ← fields.withDefault "puddle_heads" (Toml.list? HeadEntry.ofToml?) []
  let nodes ← fields.withDefault "fog_nodes" (Toml.list? NodeEntry.ofToml?) []
  let links ← fields.withDefault "links" (Toml.list? LinkEntry.ofToml?) []
  return ⟨settings, heads, nodes, links⟩

/-- The scenario in a text. -/
def parse (text : String) : Except Fault Scenario :=
  match (Toml.parse? text).bind ofToml? with
  | some scenario => .ok scenario
  | none => .error (.scenario .malformed)

/-- The scenario in a file, by what reading the file has brought. -/
def load (path : String) : Except ReadFailure String → Except Fault Scenario
  | .ok text => parse text
  | .error cause => .error (.unreadable path cause)

end Scenario

end FogNet
