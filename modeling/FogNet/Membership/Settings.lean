import FogNet.Fault

/-!
# Settings

The constants of one run. `Settings.validate` refuses those under which no run makes sense.
-/

namespace FogNet

/-- The constants of one run. -/
structure Settings where
  /-- Ticks between two reports of a mobile node. -/
  locationUpdateInterval : Nat
  /-- Ticks a message of the protocol takes. -/
  messageDelay : Nat
  /-- Ticks until the former head of a relocated node lets it go. -/
  handoffDelay : Nat
  /-- The instant at which a run ends unless told otherwise. -/
  endTime : Time
  /-- Distance a signal travels in one tick. -/
  propagationSpeed : Float
  /-- Whether each node is linked to the head it starts with. -/
  autoLinkMembers : Bool
  /-- The latency of such a link. -/
  memberLinkLatency : Float
  /-- The bandwidth of such a link. -/
  memberLinkBandwidth : Float
  /-- The seed of the random headings. -/
  seed : Nat
  /-- Whether the records are checked after every message. -/
  checkInvariants : Bool

namespace Settings

/-- The settings that hold where nothing else is said. -/
def standard : Settings :=
  ⟨10, 1, 0, 1000, 299792458.0, false, 2.0, 1000.0, 42, false⟩

/-- Refuse settings under which nodes report all the time or signals do not travel. -/
def validate (s : Settings) : Except Fault Unit :=
  if s.locationUpdateInterval = 0 then .error (.scenario .zeroInterval)
  else if 0 < s.propagationSpeed then .ok ()
  else .error (.scenario .propagationSpeed)

end Settings

end FogNet
