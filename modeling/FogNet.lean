import FogNet.Form.Message
import FogNet.Form.Scenario
import FogNet.Json.Reader
import FogNet.Main
import FogNet.Plane.Rational
import FogNet.World.Script
import FogNet.World.Transfer
import FogNet.Proofs.Collection
import FogNet.Proofs.Routing.Forwarding
import FogNet.Proofs.Routing.Links
import FogNet.Proofs.Topology.Outset
import FogNet.Proofs.Routing
import FogNet.Proofs.Kernel.Loop
import FogNet.Proofs.Kernel.Routine
import FogNet.Proofs.Kernel.Diary
import FogNet.Proofs.Registry.Lookup
import FogNet.Proofs.Registry.Touch
import FogNet.Proofs.Registry.Change
import FogNet.Proofs.Membership.Joining
import FogNet.Proofs.Membership.Leaving
import FogNet.Proofs.Membership.Orderly
import FogNet.Proofs.Membership.Admission
import FogNet.Proofs.Membership.Dismissal
import FogNet.Proofs.Membership.Pruned
import FogNet.Proofs.Membership.Decision
import FogNet.Proofs.Membership.Reaction
import FogNet.Proofs.Membership.Agreement
import FogNet.Proofs.Run.Traffic
import FogNet.Proofs.Topology.Growth
import FogNet.Proofs.Topology.Construction
import FogNet.Proofs.Topology.Completion
import FogNet.Proofs.Topology.Catalogue
import FogNet.Proofs.Topology.Ranks
import FogNet.Proofs.Topology.Tree
import FogNet.Proofs.Topology.Validity
import FogNet.Proofs.Topology.Reliability
import FogNet.Proofs.Run.Intervention
import FogNet.Proofs.Run.Reachable
import FogNet.Proofs.Run.Catalogue
import FogNet.Proofs.Run.Errand
import FogNet.Proofs.Run.Quiet
import FogNet.Proofs.Run.Guarantees
import FogNet.Proofs.Run.History
import FogNet.Proofs.Run.Sending
import FogNet.Proofs.Run.Handover
import FogNet.Proofs.Run.Release
import FogNet.Proofs.Run.Departure
import FogNet.Proofs.Run.Forgetting
import FogNet.Proofs.Run.Tables
import FogNet.Proofs.Run.Order
import FogNet.Proofs.Run.Active
import FogNet.Proofs.Run.Terminal
import FogNet.Proofs.Run.Standing
import FogNet.Proofs.Run.Pieces
import FogNet.Proofs.Run.Conservation
import FogNet.Proofs.Run.Workload
import FogNet.Proofs.Run.Ranks
import FogNet.Proofs.Run.Routes
import FogNet.Proofs.Run.Timers
import FogNet.Proofs.Routing.Shortest
import FogNet.Proofs.Run.Blueprint
import FogNet.Proofs.Form.RoundTrip
import FogNet.Proofs.Form.Entity
import FogNet.Proofs.Form.Lossless
import FogNet.Proofs.Topology.Placement
import FogNet.Proofs.Scenario.Stock
import FogNet.Proofs.Scenario.Assembly
import FogNet.Proofs.Scenario.Acceptance
import FogNet.Proofs.Routing.Ties
import FogNet.Proofs.Routing.Symmetry
import FogNet.Proofs.Run.Transfers
import FogNet.Proofs.Topology.Ascent
import FogNet.Proofs.Membership.Consistent
import FogNet.Proofs.Membership.Undoing
import FogNet.Proofs.Run.Refusal
import FogNet.Proofs.Topology.Opening
import FogNet.Proofs.Membership.Commuting
import FogNet.Proofs.Plane.Loop
import FogNet.Proofs.Plane.Crossing
import FogNet.Proofs.Plane.Extent
import FogNet.Proofs.Plane.Tiling
import FogNet.Proofs.Plane.Outline
import FogNet.Proofs.Plane.Journey
import FogNet.Proofs.Entity.Queues
