import FogNet.Proofs.Membership.Agreement
import FogNet.Proofs.Membership.Reaction
import FogNet.Proofs.Run.Traffic

/-!
# Errands

A change of membership is carried by one message at a time, the errand of the node concerned.
`FogNode.Phase` lists what the standing of a node, its change and its errand can be together, and
`Registry.Expects` adds that heads list the node exactly while they may. A reaction to the errand of
a node hands on the next one (`Reaction.handsOn`), a decision of the broker starts the first
(`Reaction.decides`), and all other nodes are spared (`Reaction.spares`); `Reaction.course` puts the
three together.
-/

namespace FogNet

/-- A message about the membership of a node, with its receiver. -/
abbrev Errand := EntityId × Message

/-- The node whose membership a message to `receiver` is to change. -/
def Message.traveller? (receiver : EntityId) : Message → Option EntityId
  | joinPuddle node => some node
  | relocate node => some node
  | leavePuddle node => some node
  | nodeLeave => some receiver
  | updateLocation => none
  | processNodeMove _ => none
  | updateLatency => none

/-- The errand of a node that a payload carries. -/
def Payload.errand? (node : EntityId) : Payload → Option Errand
  | noop => none
  | deliver _ receiver msg =>
    if msg.traveller? receiver = some node then some (receiver, msg) else none

/-- The errands of a node among some payloads. -/
def errands (node : EntityId) (l : List Payload) : List Errand := l.filterMap (·.errand? node)

/-- The ways in which the standing of a node, its change and its errand go together. -/
inductive FogNode.Phase (n : FogNode) (id : EntityId) (due : Option Errand) : Prop where
  /-- No change has been started. -/
  | rests (hp : n.pending = none) (hdue : due = none)
  /-- A head is to take the node in. -/
  | joins {target : EntityId} (hs : n.standing = .unassigned)
      (hp : n.pending = some (.joining target)) (hdue : due = some (target, .joinPuddle id))
  /-- A head is to take the node over. -/
  | relocates {source target : EntityId} (hne : source ≠ target) (hs : n.standing = .owned source)
      (hp : n.pending = some (.relocating source target)) (hdue : due = some (target, .relocate id))
  /-- The former head is to strike the node off. -/
  | isHandedOver {source target : EntityId} (hne : source ≠ target)
      (hs : n.standing = .owned target) (hp : n.pending = some (.relocating source target))
      (hdue : due = some (source, .leavePuddle id))
  /-- The node is to leave the network. -/
  | isDismissed (hs : n.standing ≠ .departed) (hp : n.pending = some (.departing n.owner?))
      (hdue : due = some (id, .nodeLeave))
  /-- The last head is to strike the node off. -/
  | isGone {head : EntityId} (hs : n.standing = .departed)
      (hp : n.pending = some (.departing (some head))) (hdue : due = some (head, .leavePuddle id))

namespace Registry

/-- A node waits for an errand, or for none, and heads list it exactly while they may. -/
def Expects (r : Registry) (id : EntityId) (due : Option Errand) : Prop :=
  ∃ n, r.fogNode id = .ok n ∧ n.Phase id due ∧ ∀ a, r.Lists a id ↔ mayList a n = true

/-- A touch leaves the membership of a node alone. -/
structure Spares (r : Registry) (t : Touch) (id : EntityId) : Prop where
  /-- The node keeps its standing and its change. -/
  node : ∀ {n}, r.fogNode id = .ok n →
    (t.node id n).standing = n.standing ∧ (t.node id n).pending = n.pending
  /-- No list changes for it. -/
  lists : ∀ a, (r.touch t).Lists a id ↔ r.Lists a id

end Registry

/-! ## Errands among the messages sent -/

theorem mem_errands_iff {k id : EntityId} {msg : Message} {l : List Payload} :
    (id, msg) ∈ errands k l ↔
      msg.traveller? id = some k ∧ ∃ sender, .deliver sender id msg ∈ l := by
  unfold errands
  rw [List.mem_filterMap]
  constructor
  · rintro ⟨p, hp, he⟩
    cases p with
    | noop => cases he
    | deliver sender receiver msg' =>
      have he : (if msg'.traveller? receiver = some k then some (receiver, msg') else none) =
        some (id, msg) := he
      split_ifs at he with htrav
      cases he
      exact ⟨htrav, sender, hp⟩
  · rintro ⟨htrav, sender, hp⟩
    exact ⟨_, hp, if_pos htrav⟩

theorem errands_eq_nil_iff {k : EntityId} {out : List Outgoing} :
    errands k (out.map (·.payload)) = [] ↔
      ∀ o ∈ out, o.message.traveller? o.receiver ≠ some k := by
  unfold errands
  rw [List.filterMap_eq_nil_iff, List.forall_mem_map]
  refine forall₂_congr fun o _ => ?_
  show (if _ then _ else _) = none ↔ _
  split_ifs with h <;> simp [h]

namespace Registry

variable {r : Registry} {s t : Touch} {head node id k : EntityId} {h : PuddleHead} {n : FogNode}
  {due : Option Errand}

/-! ## Touches that spare a node -/

theorem mayList_congr {m : FogNode} {a : EntityId} (hs : m.standing = n.standing)
    (hp : m.pending = n.pending) : mayList a m = mayList a n := by
  unfold mayList
  rw [hs, hp]

theorem Expects.spared (hk : r.Expects k due) (ht : r.Spares t k) : (r.touch t).Expects k due := by
  obtain ⟨n, hn, hphase, hlists⟩ := hk
  obtain ⟨hs, hp⟩ := ht.node hn
  refine ⟨_, fogNode_touch hn, ?_, fun a => ?_⟩
  · cases hphase with
    | rests h1 h2 => exact .rests (hp.trans h1) h2
    | joins h1 h2 h3 => exact .joins (hs.trans h1) (hp.trans h2) h3
    | relocates hne h1 h2 h3 => exact .relocates hne (hs.trans h1) (hp.trans h2) h3
    | isHandedOver hne h1 h2 h3 => exact .isHandedOver hne (hs.trans h1) (hp.trans h2) h3
    | isDismissed h1 h2 h3 =>
      refine .isDismissed (hs ▸ h1) (hp.trans (h2.trans ?_)) h3
      unfold FogNode.owner?
      rw [hs]
    | isGone h1 h2 h3 => exact .isGone (hs.trans h1) (hp.trans h2) h3
  · rw [ht.lists, hlists, mayList_congr hs hp]

theorem Spares.owns_iff (ht : r.Spares t k) {a : EntityId} :
    (r.touch t).Owns a k ↔ r.Owns a k := by
  rw [owns_touch_iff]
  exact exists_congr fun n => and_congr_right fun hn => by rw [(ht.node hn).1]

theorem Spares.lives_iff (ht : r.Spares t k) : (r.touch t).Lives k ↔ r.Lives k := by
  rw [lives_touch_iff]
  exact exists_congr fun n => and_congr_right fun hn => by rw [(ht.node hn).1]

namespace Spares

theorem nothing : r.Spares .nothing k := ⟨fun _ => ⟨rfl, rfl⟩, fun a => by rw [touch_nothing]⟩

theorem andThen (hs : r.Spares s k) (ht : (r.touch s).Spares t k) : r.Spares (s.andThen t) k := by
  refine ⟨fun {n} hn => ?_, fun a => ?_⟩
  · obtain ⟨h1, h2⟩ := hs.node hn
    obtain ⟨g1, g2⟩ := ht.node (fogNode_touch hn)
    exact ⟨g1.trans h1, g2.trans h2⟩
  · rw [← touch_touch, ht.lists, hs.lists]

theorem onNode {f : FogNode → FogNode}
    (hf : k = id → ∀ n, (f n).standing = n.standing ∧ (f n).pending = n.pending) :
    r.Spares (.onNode id f) k := by
  refine ⟨fun {n} _ => ?_, fun a => lists_touch_iff⟩
  unfold Touch.onNode
  simp only
  split_ifs with hk
  · exact hf hk n
  · exact ⟨rfl, rfl⟩

theorem onLink {f : Link → Link} : r.Spares (.onLink id f) k :=
  ⟨fun _ => ⟨rfl, rfl⟩, fun _ => lists_touch_iff⟩

theorem onBroker {f : Broker → Broker} : r.Spares (.onBroker id f) k :=
  ⟨fun _ => ⟨rfl, rfl⟩, fun _ => lists_touch_iff⟩

theorem intake (hh : r.puddleHead head = .ok h) (hk : k ≠ node) :
    r.Spares (r.intake head node h n) k := by
  unfold Registry.intake
  split_ifs with hstale
  · exact nothing
  · rw [not_or] at hstale
    refine ⟨fun _ => ⟨?_, pending_admitting _ _⟩, fun a => ?_⟩
    · rw [standing_admitting, if_neg hk]
    · rw [lists_admitting_iff hh hstale.1]
      simp [hk]

theorem outtake (hk : k ≠ node) : r.Spares (r.outtake head node h n) k := by
  unfold Registry.outtake
  split_ifs
  · refine ⟨fun {m} _ => ⟨?_, ?_⟩, fun a => ?_⟩
    · rw [standing_dismissing, if_neg fun hc => hk hc.1]
    · unfold dismissing Touch.dismissal
      simp only [if_neg hk]
      split_ifs <;> rfl
    · rw [lists_dismissing_iff]
      simp [hk]
  · exact onNode fun hc => absurd hc hk

theorem departing (hk : k ≠ node) : r.Spares (departing node n) k := by
  refine ⟨fun {m} _ => ⟨?_, ?_⟩, fun a => lists_touch_iff⟩
  · rw [standing_departing, if_neg hk]
  · unfold Registry.departing Touch.andThen Touch.onNode Touch.forgetting
    simp only [if_neg hk]
    split_ifs <;> rfl

end Spares

end Registry

/-! ## What a reaction does to nodes it is not about -/

section Reaction

open Registry

variable {s : Settings} {broker : EntityId} {now : Time} {r : Registry} {id k : EntityId}
  {msg : Message} {out : List Outgoing} {t : Touch} {due : Option Errand} {n : FogNode}

theorem errands_reports (n : FogNode) (s : Settings) (broker id k : EntityId) :
    errands k ((n.reports s broker id).map (·.payload)) = [] := by
  refine errands_eq_nil_iff.2 fun o ho => ?_
  unfold FogNode.reports at ho
  rcases List.mem_append.1 ho with ho | ho
  · rcases List.mem_cons.1 ho with rfl | ho
    · exact nofun
    · obtain ⟨link, -, rfl⟩ := List.mem_map.1 ho
      exact nofun
  · obtain rfl := List.mem_singleton.1 ho
    exact nofun

theorem errands_farewell (n : FogNode) (s : Settings) (id : EntityId) :
    errands id ((n.farewell s id).map (·.payload)) =
      (n.owner?.map fun head => (head, .leavePuddle id)).toList := by
  unfold FogNode.farewell
  cases n.owner? with
  | none => rfl
  | some head => simp [errands, Outgoing.payload, Payload.errand?, Message.traveller?]

theorem errands_farewell_of_ne (n : FogNode) (s : Settings) (hk : id ≠ k) :
    errands k ((n.farewell s id).map (·.payload)) = [] := by
  refine errands_eq_nil_iff.2 fun o ho => ?_
  unfold FogNode.farewell at ho
  obtain ⟨head, -, rfl⟩ := List.mem_map.1 ho
  exact fun hc => hk (Option.some.inj hc)

theorem errands_orders_of_ne (p : Placement) (hk : id ≠ k) :
    errands k ((p.orders s broker id).map (·.payload)) = [] := by
  refine errands_eq_nil_iff.2 fun o ho => ?_
  cases p with
  | stay | ignore => cases ho
  | join target | relocate source target | depart source =>
    obtain rfl := List.mem_singleton.1 ho
    exact fun hc => hk (Option.some.inj hc)

/-- The broker moves nobody when it decides. -/
theorem standing_placement (p : Placement) (n : FogNode) :
    ((p.touch broker id).node k n).standing = n.standing := by
  have hstart : ∀ transition,
      ((Touch.onNode id (·.start transition)).node k n).standing = n.standing := fun transition =>
    Touch.standing_onNode (f := (·.start transition)) (fun _ => rfl) n
  cases p with
  | stay | ignore => rfl
  | join target => exact hstart (.joining target)
  | relocate source target => exact hstart (.relocating source target)
  | depart source => exact hstart (.departing source)

theorem spares_placement (p : Placement) (hk : id ≠ k) : r.Spares (p.touch broker id) k := by
  cases p with
  | stay | ignore => exact .nothing
  | join target | relocate source target => exact .onNode fun hc => absurd hc.symm hk
  | depart source => exact .andThen (.onNode fun hc => absurd hc.symm hk) .onBroker

/-- A reaction to a message that is not about a node leaves the node alone and sends no errand of
it. -/
theorem Reaction.spares (h : Reaction s broker now r id msg out t)
    (hk : msg.traveller? id ≠ some k) (hmove : msg ≠ .processNodeMove k) :
    r.Spares t k ∧ errands k (out.map (·.payload)) = [] := by
  have hne : ∀ {a b : EntityId}, some a ≠ some b → b ≠ a := fun h hc => h (congrArg some hc.symm)
  cases h with
  | ignores | rests | isGone | misses => exact ⟨.nothing, rfl⟩
  | moves => exact ⟨.onNode fun _ _ => ⟨rfl, rfl⟩, errands_reports _ _ _ _ _⟩
  | departs => exact ⟨.departing (hne hk), errands_farewell_of_ne _ _ (hne hk).symm⟩
  | takesIn hh => exact ⟨.andThen (.intake hh (hne hk)) (.onNode fun hc => absurd hc (hne hk)), rfl⟩
  | keeps => exact ⟨.onNode fun hc => absurd hc (hne hk), rfl⟩
  | takesOver hh =>
    refine ⟨.intake hh (hne hk), errands_eq_nil_iff.2 fun o ho => ?_⟩
    obtain rfl := List.mem_singleton.1 ho
    exact hk
  | picksUp hh => exact ⟨.andThen (.intake hh (hne hk)) (.onNode fun hc => absurd hc (hne hk)), rfl⟩
  | strikesOff => exact ⟨.outtake (hne hk), rfl⟩
  | places =>
    have hk : _ ≠ k := fun hc => hmove (congrArg Message.processNodeMove hc)
    exact ⟨spares_placement _ hk, errands_orders_of_ne _ hk⟩
  | measures => exact ⟨.onLink, rfl⟩

/-! ## What a reaction does to the node it is about -/

theorem FogNode.Phase.of_joinPuddle {head node : EntityId}
    (h : n.Phase k (some (head, .joinPuddle node))) :
    n.standing = .unassigned ∧ n.pending = some (.joining head) := by
  cases h with
  | joins hs hp hdue =>
    cases hdue
    exact ⟨hs, hp⟩
  | rests _ hdue | relocates _ _ _ hdue | isHandedOver _ _ _ hdue | isDismissed _ _ hdue
  | isGone _ _ hdue => cases hdue

theorem FogNode.Phase.of_relocate {target node : EntityId}
    (h : n.Phase k (some (target, .relocate node))) :
    ∃ source, source ≠ target ∧ n.standing = .owned source ∧
      n.pending = some (.relocating source target) := by
  cases h with
  | relocates hne hs hp hdue =>
    cases hdue
    exact ⟨_, hne, hs, hp⟩
  | rests _ hdue | joins _ _ hdue | isHandedOver _ _ _ hdue | isDismissed _ _ hdue
  | isGone _ _ hdue => cases hdue

theorem FogNode.Phase.of_leavePuddle {head node : EntityId}
    (h : n.Phase k (some (head, .leavePuddle node))) :
    (∃ target, head ≠ target ∧ n.standing = .owned target ∧
      n.pending = some (.relocating head target)) ∨
      n.standing = .departed ∧ n.pending = some (.departing (some head)) := by
  cases h with
  | isHandedOver hne hs hp hdue =>
    cases hdue
    exact .inl ⟨_, hne, hs, hp⟩
  | isGone hs hp hdue =>
    cases hdue
    exact .inr ⟨hs, hp⟩
  | rests _ hdue | joins _ _ hdue | relocates _ _ _ hdue | isDismissed _ _ hdue => cases hdue

theorem FogNode.Phase.of_nodeLeave {a : EntityId} (h : n.Phase k (some (a, .nodeLeave))) :
    n.standing ≠ .departed ∧ n.pending = some (.departing n.owner?) := by
  cases h with
  | isDismissed hs hp _ => exact ⟨hs, hp⟩
  | rests _ hdue | joins _ _ hdue | relocates _ _ _ hdue | isHandedOver _ _ _ hdue
  | isGone _ _ hdue => cases hdue

/-- A node that is to leave the network is listed by its owner alone. -/
theorem lists_iff_owns_of_departing (hn : r.fogNode k = .ok n)
    (hp : n.pending = some (.departing n.owner?)) (hlists : ∀ a, r.Lists a k ↔ mayList a n = true)
    (a : EntityId) : r.Lists a k ↔ r.Owns a k := by
  rw [hlists, mayList_iff, hp, ← owns_iff hn, owns_iff_owner? hn]
  simp

/-- A node that leaves the network while its owner alone lists it waits for its owner to strike it
off. -/
theorem expects_departing (hn : r.fogNode k = .ok n) (hlists : ∀ a, r.Lists a k ↔ r.Owns a k) :
    (r.touch (departing k n)).Expects k (n.owner?.map fun head => (head, .leavePuddle k)) := by
  have hstanding : ((departing k n).node k n).standing = _ := standing_departing k n
  have hpending := pending_departing k n
  rw [if_pos rfl] at hstanding
  refine ⟨_, fogNode_touch hn, ?_, fun a => ?_⟩
  · cases ho : n.owner? with
    | none => exact .rests (by rw [hpending, ho]; rfl) rfl
    | some head => exact .isGone hstanding (by rw [hpending, ho]; rfl) rfl
  · have hsame : (r.touch (departing k n)).Lists a k ↔ r.Lists a k := lists_touch_iff
    rw [hsame, hlists, owns_iff_owner? hn, mayList_iff, hstanding, hpending]
    cases n.owner? <;> simp

/-- A node that a head has taken in waits for nothing. -/
theorem expects_intake {head : EntityId} {h : PuddleHead} (hh : r.puddleHead head = .ok h)
    (hn : r.fogNode k = .ok n) (hs : n.standing = .unassigned)
    (hp : n.pending = some (.joining head)) (hlists : ∀ a, r.Lists a k ↔ mayList a n = true) :
    (r.touch ((r.intake head k h n).andThen (.onNode k (FogNode.settleJoin head)))).Expects k
      none := by
  have hnobody : ∀ a, ¬ r.Lists a k := fun a hl => by
    have := mayList_iff.1 ((hlists a).1 hl)
    simp [hs, hp] at this
  have hnew : k ∉ h.members := fun hin => hnobody head ((lists_iff hh).2 hin)
  have hin : r.intake head k h n = r.admitting head k h n := if_neg (by simp [hnew, hs])
  have hstanding : ((r.admitting head k h n).node k n).standing = _ := standing_admitting k n
  have hpending : ((r.admitting head k h n).node k n).pending = _ := pending_admitting k n
  rw [if_pos rfl] at hstanding
  rw [hp] at hpending
  have hnode : ((r.admitting head k h n).andThen (.onNode k (FogNode.settleJoin head))).node k n =
      ((r.admitting head k h n).node k n).settle := by
    show (if k = k then _ else _) = _
    rw [if_pos rfl, FogNode.settleJoin, if_pos hpending]
  rw [hin]
  refine ⟨_, fogNode_touch hn, ?_, fun a => ?_⟩
  · rw [hnode]
    exact .rests rfl rfl
  · rw [hnode, lists_andThen_onNode_iff, lists_admitting_iff hh hnew, mayList_iff]
    unfold FogNode.settle
    simp [hnobody a, hstanding, eq_comm]

/-- A node that a head has taken over waits for its former owner to strike it off. -/
theorem expects_handover {head source : EntityId} {h : PuddleHead}
    (hh : r.puddleHead head = .ok h) (hn : r.fogNode k = .ok n) (hne : source ≠ head)
    (hs : n.standing = .owned source) (hp : n.pending = some (.relocating source head))
    (hlists : ∀ a, r.Lists a k ↔ mayList a n = true) :
    (r.touch (r.intake head k h n)).Expects k (some (source, .leavePuddle k)) := by
  have hlisted : ∀ a, r.Lists a k ↔ a = source := fun a => by
    rw [hlists, mayList_iff]
    simp [hs, hp, eq_comm]
  have hnew : k ∉ h.members := fun hin => hne ((hlisted head).1 ((lists_iff hh).2 hin)).symm
  have hin : r.intake head k h n = r.admitting head k h n := if_neg (by simp [hnew, hs])
  have hstanding : ((r.admitting head k h n).node k n).standing = _ := standing_admitting k n
  have hpending : ((r.admitting head k h n).node k n).pending = _ := pending_admitting k n
  rw [if_pos rfl] at hstanding
  rw [hp] at hpending
  rw [hin]
  refine ⟨_, fogNode_touch hn, .isHandedOver hne hstanding hpending rfl, fun a => ?_⟩
  rw [lists_admitting_iff hh hnew, hlisted, mayList_iff]
  simp [hstanding, hpending, eq_comm, or_comm]

/-- Who lists a node once a head has taken it in: the head, which owns it then, or who did. -/
theorem lists_intake {head node a : EntityId} {h : PuddleHead} (hh : r.puddleHead head = .ok h)
    (hn : r.fogNode node = .ok n) (hl : (r.touch (r.intake head node h n)).Lists a node) :
    r.Lists a node ∨ (r.touch (r.intake head node h n)).Owns a node := by
  unfold Registry.intake at hl ⊢
  split_ifs at hl ⊢ with hstale
  · rw [touch_nothing] at hl
    exact .inl hl
  · rw [not_or] at hstale
    refine ((lists_admitting_iff hh hstale.1).1 hl).imp_right fun hc => ?_
    exact (owns_admitting_iff hn).2 (.inl ⟨rfl, hc.1⟩)

/-- Taking a node in leaves its change as it is. -/
theorem pending_intake {head node : EntityId} {h : PuddleHead} (m : FogNode) :
    ((r.intake head node h n).node k m).pending = m.pending := by
  unfold Registry.intake
  split_ifs
  · rfl
  · exact pending_admitting k m

/-- Who lists a node once a head has struck one off, listed or not. -/
theorem lists_outtake_iff {head node a : EntityId} {h : PuddleHead}
    (hh : r.puddleHead head = .ok h) :
    (r.touch (r.outtake head node h n)).Lists a k ↔ r.Lists a k ∧ ¬ (a = head ∧ k = node) := by
  unfold Registry.outtake
  split_ifs with hin
  · exact lists_dismissing_iff
  · have hsame : (r.touch (.onNode node (Change.settleLeave head))).Lists a k ↔ r.Lists a k :=
      lists_touch_iff
    rw [hsame, iff_self_and]
    rintro hl ⟨rfl, rfl⟩
    exact hin ((lists_iff hh).1 hl)

/-- Who owns a node once a head has struck one off, listed or not. -/
theorem owns_outtake_iff {head node a : EntityId} {h : PuddleHead} (he : r.Enrolled)
    (hh : r.puddleHead head = .ok h) :
    (r.touch (r.outtake head node h n)).Owns a k ↔ r.Owns a k ∧ ¬ (a = head ∧ k = node) := by
  unfold Registry.outtake
  split_ifs with hin
  · exact owns_dismissing_iff
  · rw [owns_onNode_iff (standing_settleLeave head), iff_self_and]
    rintro ho ⟨rfl, rfl⟩
    exact hin ((lists_iff hh).1 (he.owned ho))

theorem pending_settleLeave_congr {head : EntityId} {m : FogNode} (hp : m.pending = n.pending) :
    (Change.settleLeave head m).pending = (Change.settleLeave head n).pending := by
  unfold Change.settleLeave
  rw [hp]
  split
  · split_ifs
    · rfl
    · exact hp
  · split_ifs
    · rfl
    · exact hp
  · exact hp

/-- A head that strikes a node off finishes the change that waits for it. -/
theorem pending_outtake {head node : EntityId} {h : PuddleHead} (m : FogNode) :
    ((r.outtake head node h n).node node m).pending = (Change.settleLeave head m).pending := by
  unfold Registry.outtake
  split_ifs
  · unfold dismissing Touch.dismissal
    simp only [if_true]
    exact pending_settleLeave_congr ((pending_release _ _).trans (pending_cutOff _ _))
  · exact congrArg FogNode.pending (if_pos rfl : (if node = node then _ else _) = _)

/-- A head that strikes a node off gives up the node if it owns it. -/
theorem standing_outtake {head node : EntityId} {h : PuddleHead} (m : FogNode)
    (hs : m.standing ≠ .owned head) :
    ((r.outtake head node h n).node node m).standing = m.standing := by
  unfold Registry.outtake
  split_ifs
  · rw [standing_dismissing, if_neg fun hc => hs hc.2]
  · exact (congrArg FogNode.standing (if_pos rfl : (if node = node then _ else _) = _)).trans
      (standing_settleLeave head m)

/-- A node that a head has struck off waits for nothing. -/
theorem expects_outtake {head : EntityId} {h : PuddleHead} (hh : r.puddleHead head = .ok h)
    (hn : r.fogNode k = .ok n) (hphase : n.Phase k (some (head, .leavePuddle k)))
    (hlists : ∀ a, r.Lists a k ↔ mayList a n = true) :
    (r.touch (r.outtake head k h n)).Expects k none := by
  have hother : n.standing ≠ .owned head := by
    rcases hphase.of_leavePuddle with ⟨target, hne, hs, -⟩ | ⟨hs, -⟩
    · rw [hs]
      exact fun hc => hne (Standing.owned.inj hc).symm
    · simp [hs]
  have hwaits : (∃ target, n.pending = some (.relocating head target)) ∨
      n.pending = some (.departing (some head)) := by
    rcases hphase.of_leavePuddle with ⟨target, -, -, hp⟩ | ⟨-, hp⟩
    · exact .inl ⟨target, hp⟩
    · exact .inr hp
  have hstanding : ((r.outtake head k h n).node k n).standing = n.standing :=
    standing_outtake n hother
  have hpending : ((r.outtake head k h n).node k n).pending = none :=
    (pending_outtake n).trans (pending_settleLeave hwaits)
  refine ⟨_, fogNode_touch hn, .rests hpending rfl, fun a => ?_⟩
  rw [lists_outtake_iff hh, hlists, mayList_iff, mayList_iff, hstanding, hpending]
  rcases hphase.of_leavePuddle with ⟨target, hne, hs, hp⟩ | ⟨hs, hp⟩
  · rw [hs, hp]
    grind
  · rw [hs, hp]
    grind

/-- A reaction to the errand of a node sends the next one, if the node waits for another. -/
theorem Reaction.handsOn (h : Reaction s broker now r id msg out t)
    (hhandler : r.kind id = .ok msg.handler) (htrav : msg.traveller? id = some k)
    (hk : r.Expects k (some (id, msg))) :
    ∃ due, (r.touch t).Expects k due ∧ errands k (out.map (·.payload)) = due.toList := by
  -- the message tells the phase of the node, which rules out all other outcomes
  obtain ⟨n, hn, hphase, hlists⟩ := hk
  cases h with
  | ignores hkind hne =>
    rw [hkind] at hhandler
    exact absurd (Except.ok.inj hhandler) hne
  | rests | moves | places | measures => cases htrav
  | isGone hm hgone =>
    cases htrav
    rw [fogNode_inj hm hn] at hgone
    exact absurd hgone hphase.of_nodeLeave.1
  | departs hm hlive =>
    cases htrav
    obtain rfl := fogNode_inj hm hn
    have howned := lists_iff_owns_of_departing hn hphase.of_nodeLeave.2 hlists
    exact ⟨_, expects_departing hn howned, errands_farewell _ _ _⟩
  | takesIn hh hm =>
    cases htrav
    obtain rfl := fogNode_inj hm hn
    obtain ⟨hs, hp⟩ := hphase.of_joinPuddle
    exact ⟨none, expects_intake hh hn hs hp hlists, rfl⟩
  | misses _ hm hgone =>
    cases htrav
    obtain rfl := fogNode_inj hm hn
    obtain ⟨source, -, hs, -⟩ := hphase.of_relocate
    rw [hs] at hgone
    cases hgone
  | keeps _ hm howned =>
    cases htrav
    obtain rfl := fogNode_inj hm hn
    obtain ⟨source, hne, hs, -⟩ := hphase.of_relocate
    rw [hs] at howned
    exact absurd (Standing.owned.inj howned) hne
  | takesOver hh hm howned hne =>
    cases htrav
    obtain rfl := fogNode_inj hm hn
    obtain ⟨source, -, hs, hp⟩ := hphase.of_relocate
    rw [hs] at howned
    obtain rfl := Standing.owned.inj howned
    exact ⟨_, expects_handover hh hn hne hs hp hlists,
      by simp [errands, Outgoing.payload, Payload.errand?, Message.traveller?]⟩
  | picksUp _ hm hfree =>
    cases htrav
    obtain rfl := fogNode_inj hm hn
    obtain ⟨source, -, hs, -⟩ := hphase.of_relocate
    rw [hs] at hfree
    cases hfree
  | strikesOff hh hm =>
    cases htrav
    obtain rfl := fogNode_inj hm hn
    exact ⟨none, expects_outtake hh hn hphase hlists, rfl⟩

/-- Two heads that may list a node hand it over from one to the other. -/
theorem FogNode.Phase.two_heads {a b : EntityId} (h : n.Phase k due) (hab : a ≠ b)
    (ha : mayList a n = true) (hb : mayList b n = true) :
    ∃ source target, n.pending = some (.relocating source target) ∧
      (source = a ∧ target = b ∨ source = b ∧ target = a) := by
  rw [mayList_iff] at ha hb
  cases h with
  | rests hp => grind
  | joins hs hp => grind
  | @relocates source target _ hs hp => grind
  | @isHandedOver source target _ hs hp => grind
  | isDismissed hs hp =>
    have howner : ∀ {c}, n.standing = .owned c → n.owner? = some c := fun hc => by
      rw [FogNode.owner?, hc]
      rfl
    grind
  | isGone hs hp => grind

/-- A node that belongs to the new owner of its change waits for the old one to strike it off. -/
theorem FogNode.Phase.due_of_owned {old new : EntityId} (h : n.Phase k due)
    (hs : n.standing = .owned new) (hp : n.pending = some (.relocating old new)) :
    due = some (old, .leavePuddle k) := by
  cases h with
  | rests hc _ => simp [hp] at hc
  | joins hc _ _ => simp [hs] at hc
  | relocates hne hc hc' _ => grind
  | isHandedOver _ _ hc hdue => grind
  | isDismissed _ hc _ => simp [hp] at hc
  | isGone hc _ _ => simp [hs] at hc

/-- A node that two heads may list belongs to the new one already. -/
theorem FogNode.Phase.owned_of_two {a b : EntityId} (h : n.Phase k due)
    (hab : a ≠ b) (ha : mayList a n = true) (hb : mayList b n = true) :
    ∃ old new, n.standing = .owned new ∧ n.pending = some (.relocating old new) := by
  obtain ⟨old, new, hp, -⟩ := h.two_heads hab ha hb
  rw [mayList_iff] at ha hb
  cases h with
  | @relocates source target _ hs hp' => grind
  | isHandedOver _ hs hp' => exact ⟨_, _, hs, hp'⟩
  | rests hp' | joins _ hp' | isDismissed _ hp' | isGone _ hp' =>
    rw [hp] at hp'
    cases hp'

/-- A node that is not between two heads is listed by its owner, or by the head that has still to
strike it off. -/
theorem FogNode.Phase.mayList_iff_of_single {a : EntityId} (h : n.Phase k due)
    (hsingle : ∀ {old new}, n.pending = some (.relocating old new) → n.standing ≠ .owned new) :
    mayList a n = true ↔
      n.standing = .owned a ∨ n.standing = .departed ∧ n.pending = some (.departing (some a)) := by
  rw [mayList_iff]
  cases h with
  | rests hp | joins _ hp => simp [hp]
  | relocates _ hs hp => grind
  | isHandedOver _ hs hp => exact absurd hs (hsingle hp)
  | isDismissed hs hp =>
    have howner : n.owner? = some a → n.standing = .owned a := fun h => by
      unfold FogNode.owner? Standing.owner? at h
      split at h <;> simp_all
    grind
  | isGone hs hp => simp [hs, hp]

/-- A node that lives is listed by its owner, or by the former one that is to strike it off. -/
theorem FogNode.Phase.owned_or_due {a : EntityId} (h : n.Phase k due)
    (hlive : n.standing ≠ .departed) (ha : mayList a n = true) : n.standing = .owned a ∨
      due = some (a, .leavePuddle k) ∧ ∃ new, new ≠ a ∧ n.standing = .owned new := by
  by_cases hover : ∃ old new, n.pending = some (.relocating old new) ∧ n.standing = .owned new
  · obtain ⟨old, new, hp, hs⟩ := hover
    have hdue := h.due_of_owned hs hp
    rw [mayList_iff, hs, hp] at ha
    by_cases hnew : new = a
    · exact .inl (hnew ▸ hs)
    · obtain rfl : old = a := by simpa [hnew] using ha
      exact .inr ⟨hdue, new, hnew, hs⟩
  · have hsingle : ∀ {old new}, n.pending = some (.relocating old new) → n.standing ≠ .owned new :=
      fun hp hs => hover ⟨_, _, hp, hs⟩
    exact .inl (((h.mayList_iff_of_single hsingle).1 ha).resolve_right fun hc => hlive hc.1)

theorem FogNode.Phase.due_eq_none (h : n.Phase k due) (hp : n.pending = none) : due = none := by
  cases h with
  | rests _ hdue => exact hdue
  | joins _ hc _ | relocates _ _ hc _ | isHandedOver _ _ hc _ | isDismissed _ hc _
  | isGone _ hc _ =>
    rw [hp] at hc
    cases hc

/-- A node for which the broker starts a change waits for the first errand of the change. -/
theorem expects_start {transition : Transition} (hn : r.fogNode k = .ok n)
    (hphase : (n.start transition).Phase k due)
    (hmay : ∀ a, mayList a (n.start transition) = true ↔ n.standing = .owned a)
    (hp : n.pending = none) (hlists : ∀ a, r.Lists a k ↔ mayList a n = true) :
    (r.touch (.onNode k (·.start transition))).Expects k due := by
  have hsame : ∀ a, (r.touch (.onNode k (·.start transition))).Lists a k ↔ r.Lists a k :=
    fun a => lists_touch_iff
  have hnode : (Touch.onNode k (·.start transition)).node k n = n.start transition := if_pos rfl
  refine ⟨_, fogNode_touch hn, ?_, fun a => ?_⟩
  · rwa [hnode]
  · rw [hnode, hmay, hsame, hlists, mayList_iff, hp]
    simp

/-- The broker passes over a node that waits for an errand or stays where it is, and sends the first
errand of any other. -/
theorem Reaction.decides (h : Reaction s broker now r id (.processNodeMove k) out t)
    (hk : r.Expects k due) :
    r.Spares t k ∧ errands k (out.map (·.payload)) = [] ∨
      due = none ∧
        ∃ next, (r.touch t).Expects k next ∧ errands k (out.map (·.payload)) = next.toList := by
  obtain ⟨n, hn, hphase, hlists⟩ := hk
  cases h with
  | ignores => exact .inl ⟨.nothing, rfl⟩
  | places _ hm hdecision =>
    obtain rfl := fogNode_inj hn hm
    cases hdecision with
    | ignore | stay => exact .inl ⟨.nothing, rfl⟩
    | join hp hs _ _ =>
      refine .inr ⟨hphase.due_eq_none hp, _,
        expects_start hn (.joins hs rfl rfl) (fun a => ?_) hp hlists, ?_⟩
      · rw [mayList_iff]
        simp [FogNode.start]
      · simp [errands, Placement.orders, Outgoing.payload, Payload.errand?, Message.traveller?]
    | @relocate source target _ _ hp hs hg hout hh hc =>
      have hne : source ≠ target := by
        rintro rfl
        rw [puddleHead_inj hg hh, hc] at hout
        cases hout
      refine .inr ⟨hphase.due_eq_none hp, _,
        expects_start hn (.relocates hne hs rfl rfl) (fun a => ?_) hp hlists, ?_⟩
      · rw [mayList_iff]
        simp [FogNode.start, hs]
      · simp [errands, Placement.orders, Outgoing.payload, Payload.errand?, Message.traveller?]
    | depart hp hs =>
      have howns : ∀ a, some (Transition.departing n.owner?) = some (.departing (some a)) ↔
          n.standing = .owned a := fun a => by
        rw [← owns_iff hn, owns_iff_owner? hn, Option.some_inj, Transition.departing.injEq]
      have hstart : (r.touch (.onNode k (·.start (.departing n.owner?)))).Expects k
          (some (k, .nodeLeave)) := by
        refine expects_start hn (.isDismissed hs rfl rfl) (fun a => ?_) hp hlists
        rw [mayList_iff]
        simp [FogNode.start, howns]
      refine .inr ⟨hphase.due_eq_none hp, some (k, .nodeLeave), ?_, ?_⟩
      · unfold Placement.touch
        rw [← touch_touch]
        exact hstart.spared .onBroker
      · simp [errands, Placement.orders, Outgoing.payload, Payload.errand?, Message.traveller?]

/-- The change of a node goes on when its errand arrives or the broker starts it, and rests
otherwise. -/
theorem Reaction.course (h : Reaction s broker now r id msg out t) (hk : r.Expects k due)
    (harrives : msg.traveller? id = some k → r.kind id = .ok msg.handler ∧ due = some (id, msg)) :
    msg.traveller? id ≠ some k ∧ r.Spares t k ∧ errands k (out.map (·.payload)) = [] ∨
      (msg.traveller? id = some k ∧ due = some (id, msg) ∨ msg = .processNodeMove k ∧ due = none) ∧
        ∃ next, (r.touch t).Expects k next ∧ errands k (out.map (·.payload)) = next.toList := by
  by_cases htrav : msg.traveller? id = some k
  · obtain ⟨hhandler, rfl⟩ := harrives htrav
    exact .inr ⟨.inl ⟨htrav, rfl⟩, h.handsOn hhandler htrav hk⟩
  · by_cases hmove : msg = .processNodeMove k
    · subst hmove
      rcases h.decides hk with ⟨ht, hout⟩ | ⟨hdue, hnext⟩
      · exact .inl ⟨htrav, ht, hout⟩
      · exact .inr ⟨.inr ⟨rfl, hdue⟩, hnext⟩
    · exact .inl ⟨htrav, h.spares htrav hmove⟩

end Reaction

end FogNet
