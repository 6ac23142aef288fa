import FogNet.Json.Access
import FogNet.Membership.Settings

/-!
# Serialized settings

Every setting has a standard value that holds where none is given; unknown settings are refused.
-/

namespace FogNet.Settings

/-- The names of the settings. -/
def names : List String :=
  ["location_update_interval", "message_delay", "handoff_delay", "end_time", "propagation_speed",
    "auto_link_members", "member_link_latency", "member_link_bandwidth", "seed", "check_invariants"]

/-- The serialized form of settings. -/
def toJson (s : Settings) : Json :=
  .obj [("location_update_interval", .ofNat s.locationUpdateInterval),
    ("message_delay", .ofNat s.messageDelay), ("handoff_delay", .ofNat s.handoffDelay),
    ("end_time", .ofNat s.endTime), ("propagation_speed", .ofReal s.propagationSpeed),
    ("auto_link_members", .bool s.autoLinkMembers),
    ("member_link_latency", .ofReal s.memberLinkLatency),
    ("member_link_bandwidth", .ofReal s.memberLinkBandwidth), ("seed", .ofNat s.seed),
    ("check_invariants", .bool s.checkInvariants)]

/-- The settings with a serialized form. -/
def ofJson? (v : Json) : Option Settings := do
  let v ← v.leading? names
  guard (v.hasOnly names)
  let interval ←
    v.fieldOr? "location_update_interval" Json.word? standard.locationUpdateInterval
  let messageDelay ← v.fieldOr? "message_delay" Json.word? standard.messageDelay
  let handoffDelay ← v.fieldOr? "handoff_delay" Json.word? standard.handoffDelay
  let endTime ← v.fieldOr? "end_time" Json.word? standard.endTime
  let speed ← v.fieldOr? "propagation_speed" Json.real? standard.propagationSpeed
  let autoLink ← v.fieldOr? "auto_link_members" Json.truth? standard.autoLinkMembers
  let latency ← v.fieldOr? "member_link_latency" Json.real? standard.memberLinkLatency
  let bandwidth ← v.fieldOr? "member_link_bandwidth" Json.real? standard.memberLinkBandwidth
  let seed ← v.fieldOr? "seed" Json.word? standard.seed
  let check ← v.fieldOr? "check_invariants" Json.truth? standard.checkInvariants
  return ⟨interval, messageDelay, handoffDelay, endTime, speed, autoLink, latency, bandwidth, seed,
    check⟩

end FogNet.Settings
