import FogNet.Membership.Reactions
import FogNet.Proofs.Membership.Decision
import FogNet.Proofs.Membership.Pruned

/-!
# What a reaction does

`Reaction` lists what can come of a message: the messages sent in answer and the touch of the
registry, with what the receiver found before. In an orderly registry every reaction is one of these
or fails without a trace (`react_cases`), and it cannot fail if the receiver and the node that the
message is about exist (`react_of_resolved`). Every reaction leaves an orderly registry behind
(`Reaction.orderly`), in which nothing is kept for strangers (`Reaction.pruned`).
-/

namespace FogNet

namespace Message

/-- The kind of entity that deals with a message. -/
def handler : Message → EntityKind
  | updateLocation => .fogNode
  | processNodeMove _ => .broker
  | joinPuddle _ => .puddleHead
  | leavePuddle _ => .puddleHead
  | relocate _ => .puddleHead
  | nodeLeave => .fogNode
  | updateLatency => .link

/-- The node that a message names. -/
def node? : Message → Option EntityId
  | processNodeMove node => some node
  | joinPuddle node => some node
  | leavePuddle node => some node
  | relocate node => some node
  | updateLocation => none
  | nodeLeave => none
  | updateLatency => none

end Message

namespace Placement

/-- The messages by which the broker carries out a decision. -/
def orders (s : Settings) (broker node : EntityId) : Placement → List Outgoing
  | stay => []
  | ignore => []
  | join target => [⟨s.messageDelay, broker, target, .joinPuddle node⟩]
  | relocate _ target => [⟨s.messageDelay, broker, target, .relocate node⟩]
  | depart _ => [⟨s.messageDelay, broker, node, .nodeLeave⟩]

/-- What the broker notes when it carries out a decision. -/
def touch (broker node : EntityId) : Placement → Touch
  | stay => .nothing
  | ignore => .nothing
  | join target => .onNode node (·.start (.joining target))
  | relocate source target => .onNode node (·.start (.relocating source target))
  | depart source =>
    (Touch.onNode node (·.start (.departing source))).andThen
      (.onBroker broker (·.forgetNode node))

end Placement

/-- The messages by which a node reports its movement. -/
def FogNode.reports (n : FogNode) (s : Settings) (broker id : EntityId) : List Outgoing :=
  ⟨s.locationUpdateInterval, id, id, .updateLocation⟩ ::
    n.links.toList.map (fun link => ⟨s.messageDelay, id, link, .updateLatency⟩) ++
    [⟨s.messageDelay, id, broker, .processNodeMove id⟩]

/-- The message by which a node that leaves the network tells its owner. -/
def FogNode.farewell (n : FogNode) (s : Settings) (id : EntityId) : List Outgoing :=
  n.owner?.toList.map fun head => ⟨s.messageDelay, id, head, .leavePuddle id⟩

/-- Finish the change of a node that waited for a head to take it in. -/
def FogNode.settleJoin (head : EntityId) (n : FogNode) : FogNode :=
  if n.pending = some (.joining head) then n.settle else n

/-- The link after a look at the distance of its ends. -/
def Link.measured (l : Link) (distance speed : Float) : Link :=
  (l.recomputeLatency distance speed).releaseOldest.2

namespace Registry

/-- The touch that joining amounts to. -/
def intake (r : Registry) (head node : EntityId) (h : PuddleHead) (n : FogNode) : Touch :=
  if node ∈ h.members ∨ n.standing = .departed then .nothing else r.admitting head node h n

/-- The touch that leaving amounts to. -/
def outtake (r : Registry) (head node : EntityId) (h : PuddleHead) (n : FogNode) : Touch :=
  if node ∈ h.members then r.dismissing head node h n
  else .onNode node (Change.settleLeave head)

end Registry

/-- What can come of a message to `id`: the messages sent in answer, and the touch of the
registry. -/
inductive Reaction (s : Settings) (broker : EntityId) (now : Time) (r : Registry) (id : EntityId) :
    Message → List Outgoing → Touch → Prop where
  /-- The receiver does not deal with the message. -/
  | ignores {msg : Message} {κ : EntityKind} (hk : r.kind id = .ok κ) (hne : κ ≠ msg.handler) :
      Reaction s broker now r id msg [] .nothing
  /-- A node that has departed or does not move sets no timer. -/
  | rests {n : FogNode} (hn : r.fogNode id = .ok n)
      (hrest : n.standing = .departed ∨ n.motion.mobile = false) :
      Reaction s broker now r id .updateLocation [] .nothing
  /-- A node moves and reports. -/
  | moves {n : FogNode} (hn : r.fogNode id = .ok n) (hlive : n.standing ≠ .departed)
      (hmobile : n.motion.mobile = true) :
      Reaction s broker now r id .updateLocation (n.reports s broker id)
        (.onNode id (·.advance now))
  /-- A node that has departed cannot leave again. -/
  | isGone {n : FogNode} (hn : r.fogNode id = .ok n) (hgone : n.standing = .departed) :
      Reaction s broker now r id .nodeLeave [] .nothing
  /-- A node leaves the network. -/
  | departs {n : FogNode} (hn : r.fogNode id = .ok n) (hlive : n.standing ≠ .departed) :
      Reaction s broker now r id .nodeLeave (n.farewell s id) (Registry.departing id n)
  /-- A head takes in a node that asked to join. -/
  | takesIn {h : PuddleHead} {node : EntityId} {n : FogNode} (hh : r.puddleHead id = .ok h)
      (hn : r.fogNode node = .ok n) :
      Reaction s broker now r id (.joinPuddle node) []
        ((r.intake id node h n).andThen (.onNode node (FogNode.settleJoin id)))
  /-- A node that has departed is not taken over. -/
  | misses {h : PuddleHead} {node : EntityId} {n : FogNode} (hh : r.puddleHead id = .ok h)
      (hn : r.fogNode node = .ok n) (hgone : n.standing = .departed) :
      Reaction s broker now r id (.relocate node) [] .nothing
  /-- A head is to take over a node that it owns. -/
  | keeps {h : PuddleHead} {node : EntityId} {n : FogNode} (hh : r.puddleHead id = .ok h)
      (hn : r.fogNode node = .ok n) (howned : n.standing = .owned id) :
      Reaction s broker now r id (.relocate node) [] (.onNode node (·.settle))
  /-- A head takes a node over from its owner. -/
  | takesOver {h : PuddleHead} {node owner : EntityId} {n : FogNode} (hh : r.puddleHead id = .ok h)
      (hn : r.fogNode node = .ok n) (howned : n.standing = .owned owner) (hne : owner ≠ id) :
      Reaction s broker now r id (.relocate node) [⟨s.handoffDelay, id, owner, .leavePuddle node⟩]
        (r.intake id node h n)
  /-- A head is to take over a node that nobody owns. -/
  | picksUp {h : PuddleHead} {node : EntityId} {n : FogNode} (hh : r.puddleHead id = .ok h)
      (hn : r.fogNode node = .ok n) (hfree : n.standing = .unassigned) :
      Reaction s broker now r id (.relocate node) []
        ((r.intake id node h n).andThen (.onNode node (·.settle)))
  /-- A head strikes a node off. -/
  | strikesOff {h : PuddleHead} {node : EntityId} {n : FogNode} (hh : r.puddleHead id = .ok h)
      (hn : r.fogNode node = .ok n) :
      Reaction s broker now r id (.leavePuddle node) [] (r.outtake id node h n)
  /-- The broker decides on a node. -/
  | places {b : Broker} {node : EntityId} {n : FogNode} {p : Placement} (hb : r.broker id = .ok b)
      (hn : r.fogNode node = .ok n) (hp : r.Decision n p) (heval : r.evaluate b node = .ok p) :
      Reaction s broker now r id (.processNodeMove node) (p.orders s id node) (p.touch id node)
  /-- A link looks at the distance of its ends. -/
  | measures {l : Link} {first second : Entity} {p q : Point Float} (hl : r.link id = .ok l)
      (hfirst : r.entity l.first = .ok first) (hsecond : r.entity l.second = .ok second)
      (hp : first.position? = some p) (hq : second.position? = some q) :
      Reaction s broker now r id .updateLatency []
        (.onLink id (·.measured (p.distanceTo q) s.propagationSpeed))

namespace Change

open Registry

variable {s : Settings} {broker : EntityId} {now : Time} {r : Registry} {id node : EntityId}
  {h : PuddleHead} {n : FogNode}

/-! ## Joining and leaving -/

theorem join_eq (hr : r.Orderly) (hh : r.puddleHead id = .ok h) (hn : r.fogNode node = .ok n) :
    ∃ fresh, join id node r = .ok fresh (r.touch (r.intake id node h n)) := by
  unfold intake
  split_ifs with hstale
  · rw [touch_nothing]
    exact ⟨false, join_of_stale hh hn (hstale.imp_right isDeparted_eq_true_iff.2)⟩
  · rw [not_or] at hstale
    exact ⟨true, join_of_fresh hh hn hstale.1 (isDeparted_eq_false_iff.2 hstale.2)
      (fun m hm => hr.enrolled.node_of_mem hh hm) (hr.enrolled.parent hh)⟩

theorem leave_eq (hr : r.Orderly) (hh : r.puddleHead id = .ok h) (hn : r.fogNode node = .ok n) :
    ∃ listed, leave id node r = .ok listed (r.touch (r.outtake id node h n)) := by
  unfold outtake
  split_ifs with hlisted
  · exact ⟨true, leave_of_listed hh hn hlisted (fun m hm => hr.enrolled.node_of_mem hh hm)
      (hr.enrolled.parent hh)⟩
  · exact ⟨false, leave_of_unlisted hh hn hlisted (hr.enrolled.offer_of_not_mem hh hlisted)⟩

theorem not_mem_of_unknown {fault : Fault} (hr : r.Orderly) (hh : r.puddleHead id = .ok h)
    (hn : r.fogNode node = .error fault) : node ∉ h.members := by
  intro hm
  obtain ⟨n, hn'⟩ := hr.enrolled.node_of_mem hh hm
  rw [hn] at hn'
  cases hn'

/-! ## The handlers -/

/-- A step does what can come of a message. -/
def Answers (s : Settings) (broker : EntityId) (now : Time) (r : Registry) (id : EntityId)
    (msg : Message) (step : Change (List Outgoing)) : Prop :=
  ∃ out t, step r = .ok out (r.touch t) ∧ Reaction s broker now r id msg out t

theorem Answers.idle {msg : Message} {step : Change (List Outgoing)} (h : step r = .ok [] r)
    (hr : Reaction s broker now r id msg [] .nothing) : Answers s broker now r id msg step :=
  ⟨[], .nothing, by rw [touch_nothing]; exact h, hr⟩

theorem reportMovement_answers (hn : r.fogNode id = .ok n) :
    Answers s broker now r id .updateLocation (reportMovement s broker now id) := by
  by_cases hrest : (n.isDeparted || !n.motion.mobile) = true
  · refine .idle ?_ (.rests hn ?_)
    · unfold reportMovement
      rw [bind_of_ok (fogNode_of_ok hn), if_pos hrest]
      rfl
    · simpa [isDeparted_eq_true_iff] using hrest
  · refine ⟨n.reports s broker id, .onNode id (·.advance now), ?_, .moves hn ?_ ?_⟩
    · unfold reportMovement
      rw [bind_of_ok (fogNode_of_ok hn), if_neg hrest, bind_of_ok (updateNode_of_ok _ hn)]
      rfl
    · rw [Bool.or_eq_true, not_or, isDeparted_eq_true_iff] at hrest
      exact hrest.1
    · rw [Bool.or_eq_true, not_or] at hrest
      simpa using hrest.2

theorem leaveNetwork_answers (hr : r.Orderly) (hn : r.fogNode id = .ok n) :
    Answers s broker now r id .nodeLeave (leaveNetwork s id) := by
  by_cases hgone : n.isDeparted = true
  · refine .idle ?_ (.isGone hn (isDeparted_eq_true_iff.1 hgone))
    unfold leaveNetwork
    rw [bind_of_ok (fogNode_of_ok hn), if_pos hgone]
    rfl
  · refine ⟨n.farewell s id, departing id n, ?_,
      .departs hn fun hc => hgone (isDeparted_eq_true_iff.2 hc)⟩
    have hbuddies : ∀ m ∈ n.buddies.toList,
        ∃ x, (r.touch (.onNode id (·.depart))).fogNode m = .ok x := by
      intro m hm
      obtain ⟨x, hx, -⟩ := hr.befriended.symmetric ((befriends_iff hn).2 hm)
      exact ⟨_, fogNode_touch hx⟩
    unfold leaveNetwork
    rw [bind_of_ok (fogNode_of_ok hn), if_neg hgone, bind_of_ok (updateNode_of_ok _ hn),
      bind_of_ok (forM_forget hbuddies), touch_touch]
    unfold FogNode.farewell
    cases n.owner? <;> rfl

theorem takeIn_answers (hr : r.Orderly) (hh : r.puddleHead id = .ok h)
    (hn : r.fogNode node = .ok n) :
    Answers s broker now r id (.joinPuddle node) (takeIn id node) := by
  refine ⟨[], _, ?_, .takesIn hh hn⟩
  obtain ⟨fresh, hjoin⟩ := join_eq hr hh hn
  unfold takeIn
  rw [bind_of_ok (discard_of_ok hjoin), bind_of_ok (updateNode_of_ok _ (fogNode_touch hn)),
    touch_touch]
  rfl

theorem takeOver_answers (hr : r.Orderly) (hh : r.puddleHead id = .ok h)
    (hn : r.fogNode node = .ok n) :
    Answers s broker now r id (.relocate node) (takeOver s id node) := by
  obtain ⟨fresh, hjoin⟩ := join_eq hr hh hn
  cases hs : n.standing with
  | departed =>
    refine .idle ?_ (.misses hh hn hs)
    unfold takeOver
    rw [bind_of_ok (fogNode_of_ok hn), if_pos (isDeparted_eq_true_iff.2 hs)]
    rfl
  | unassigned =>
    have howner : n.owner? = none := by simp [FogNode.owner?, hs, Standing.owner?]
    refine ⟨[], _, ?_, .picksUp hh hn hs⟩
    unfold takeOver
    rw [bind_of_ok (fogNode_of_ok hn), if_neg (by simp [isDeparted_eq_true_iff, hs]), howner]
    show (discard (join id node) >>= fun _ => _) r = _
    rw [bind_of_ok (discard_of_ok hjoin), bind_of_ok (updateNode_of_ok _ (fogNode_touch hn)),
      touch_touch]
    rfl
  | owned owner =>
    have howner : n.owner? = some owner := by simp [FogNode.owner?, hs, Standing.owner?]
    have hlive : ¬ n.isDeparted = true := by simp [isDeparted_eq_true_iff, hs]
    by_cases ho : owner = id
    · refine ⟨[], _, ?_, .keeps hh hn (ho ▸ hs)⟩
      unfold takeOver
      rw [bind_of_ok (fogNode_of_ok hn), if_neg hlive, howner]
      show (if owner = id then _ else _ : Change (List Outgoing)) r = _
      rw [if_pos ho, bind_of_ok (updateNode_of_ok _ hn)]
      rfl
    · refine ⟨_, _, ?_, .takesOver hh hn hs ho⟩
      unfold takeOver
      rw [bind_of_ok (fogNode_of_ok hn), if_neg hlive, howner]
      show (if owner = id then _ else _ : Change (List Outgoing)) r = _
      rw [if_neg ho, bind_of_ok (discard_of_ok hjoin)]
      rfl

theorem strikeOff_answers (hr : r.Orderly) (hh : r.puddleHead id = .ok h)
    (hn : r.fogNode node = .ok n) :
    Answers s broker now r id (.leavePuddle node) (onPuddleHead s id (.leavePuddle node)) := by
  refine ⟨[], _, ?_, .strikesOff hh hn⟩
  obtain ⟨listed, hleave⟩ := leave_eq hr hh hn
  show (discard (leave id node) >>= fun _ => pure []) r = _
  rw [bind_of_ok (discard_of_ok hleave)]
  rfl

theorem place_answers {b : Broker} (hr : r.Orderly) (hb : r.broker id = .ok b)
    (hn : r.fogNode node = .ok n) :
    Answers s broker now r id (.processNodeMove node) (place s id node) := by
  obtain ⟨p, hp, hdec⟩ := evaluate_spec hr hb hn
  refine ⟨_, _, ?_, .places hb hn hdec hp⟩
  have hread : read (fun r => r.broker id >>= fun b => r.evaluate b node) r = .ok p r := by
    refine read_of_ok ?_
    rw [hb]
    exact hp
  unfold place
  rw [bind_of_ok hread]
  cases p with
  | stay => exact congrArg _ (touch_nothing r).symm
  | ignore => exact congrArg _ (touch_nothing r).symm
  | join target =>
    show (updateNode node _ >>= fun _ => pure _) r = _
    rw [bind_of_ok (updateNode_of_ok _ hn)]
    rfl
  | relocate source target =>
    show (updateNode node _ >>= fun _ => pure _) r = _
    rw [bind_of_ok (updateNode_of_ok _ hn)]
    rfl
  | depart source =>
    show (updateNode node _ >>= fun _ => updateBroker id _ >>= fun _ => pure _) r = _
    rw [bind_of_ok (updateNode_of_ok _ hn), bind_of_ok (updateBroker_of_ok _ (broker_touch hb)),
      touch_touch]
    rfl

/-- The ends of a link have positions. -/
theorem position_of_sited {k : EntityId} (hk : r.Sited k) :
    ∃ e p, r.entity k = .ok e ∧ e.position? = some p := by
  rcases hk with hk | hk
  · obtain ⟨n, hn⟩ := kind_eq_fogNode_iff.1 hk
    exact ⟨_, _, entity_eq_ok_iff.2 (fogNode_eq_ok_iff.1 hn), rfl⟩
  · obtain ⟨h, hh⟩ := kind_eq_puddleHead_iff.1 hk
    exact ⟨_, _, entity_eq_ok_iff.2 (puddleHead_eq_ok_iff.1 hh), rfl⟩

theorem measure_answers {l : Link} (hr : r.Orderly) (hl : r.link id = .ok l) :
    Answers s broker now r id .updateLatency (measure s id) := by
  obtain ⟨first, p, hfirst, hp⟩ := position_of_sited (hr.wired.ended hl).1
  obtain ⟨second, q, hsecond, hq⟩ := position_of_sited (hr.wired.ended hl).2
  refine ⟨[], _, ?_, .measures hl hfirst hsecond hp hq⟩
  unfold measure
  rw [bind_of_ok (link_of_ok hl), bind_of_ok (read_of_ok hfirst), bind_of_ok (read_of_ok hsecond),
    hp, hq]
  show (updateLink id _ >>= fun _ => pure _) r = _
  rw [bind_of_ok (updateLink_of_ok _ hl)]
  rfl

/-! ## All reactions -/

/-- The receiver of a message and the node it names exist. -/
def Resolved (r : Registry) (id : EntityId) (msg : Message) : Prop :=
  (∃ κ, r.kind id = .ok κ) ∧ ∀ node, msg.node? = some node → r.kind node = .ok .fogNode

/-- A step does what can come of a message, or fails without a trace because somebody it needs does
not exist. -/
def AnswersOrFails (s : Settings) (broker : EntityId) (now : Time) (r : Registry) (id : EntityId)
    (msg : Message) (step : Change (List Outgoing)) : Prop :=
  Answers s broker now r id msg step ∨ ¬ Resolved r id msg ∧ ∃ fault, step r = .error fault r

theorem not_resolved_of_unknown {msg : Message} {fault : Fault} (hmsg : msg.node? = some node)
    (hn : r.fogNode node = .error fault) : ¬ Resolved r id msg := by
  rintro ⟨-, hnode⟩
  obtain ⟨n, hn'⟩ := kind_eq_fogNode_iff.1 (hnode node hmsg)
  rw [hn] at hn'
  cases hn'

theorem onFogNode_answers (hr : r.Orderly) (hn : r.fogNode id = .ok n) (msg : Message) :
    Answers s broker now r id msg (onFogNode s broker now id msg) := by
  have hk : r.kind id = .ok .fogNode := kind_eq_fogNode_iff.2 ⟨n, hn⟩
  cases msg with
  | updateLocation => exact reportMovement_answers hn
  | nodeLeave => exact leaveNetwork_answers hr hn
  | processNodeMove node => exact .idle rfl (.ignores hk nofun)
  | joinPuddle node => exact .idle rfl (.ignores hk nofun)
  | leavePuddle node => exact .idle rfl (.ignores hk nofun)
  | relocate node => exact .idle rfl (.ignores hk nofun)
  | updateLatency => exact .idle rfl (.ignores hk nofun)

theorem onPuddleHead_answers (hr : r.Orderly) (hh : r.puddleHead id = .ok h) (msg : Message) :
    AnswersOrFails s broker now r id msg (onPuddleHead s id msg) := by
  have hk : r.kind id = .ok .puddleHead := kind_eq_puddleHead_iff.2 ⟨h, hh⟩
  cases msg with
  | updateLocation => exact .inl (.idle rfl (.ignores hk nofun))
  | nodeLeave => exact .inl (.idle rfl (.ignores hk nofun))
  | processNodeMove node => exact .inl (.idle rfl (.ignores hk nofun))
  | updateLatency => exact .inl (.idle rfl (.ignores hk nofun))
  | joinPuddle node =>
    cases hn : r.fogNode node with
    | ok n => exact .inl (takeIn_answers hr hh hn)
    | error fault =>
      refine .inr ⟨not_resolved_of_unknown rfl hn, fault, ?_⟩
      have hjoin := join_of_unknown hh hn (not_mem_of_unknown hr hh hn)
      exact bind_of_error (discard_of_error hjoin)
  | relocate node =>
    cases hn : r.fogNode node with
    | ok n => exact .inl (takeOver_answers hr hh hn)
    | error fault =>
      exact .inr ⟨not_resolved_of_unknown rfl hn, fault, bind_of_error (fogNode_of_error hn)⟩
  | leavePuddle node =>
    cases hn : r.fogNode node with
    | ok n => exact .inl (strikeOff_answers hr hh hn)
    | error fault =>
      refine .inr ⟨not_resolved_of_unknown rfl hn, fault, ?_⟩
      have hnew := not_mem_of_unknown hr hh hn
      have hleave := leave_of_unknown hh hn hnew (hr.enrolled.offer_of_not_mem hh hnew)
      exact bind_of_error (discard_of_error hleave)

theorem onBroker_answers {b : Broker} (hr : r.Orderly) (hb : r.broker id = .ok b) (msg : Message) :
    AnswersOrFails s broker now r id msg (onBroker s id msg) := by
  have hk : r.kind id = .ok .broker := kind_eq_broker_iff.2 ⟨b, hb⟩
  cases msg with
  | updateLocation => exact .inl (.idle rfl (.ignores hk nofun))
  | nodeLeave => exact .inl (.idle rfl (.ignores hk nofun))
  | joinPuddle node => exact .inl (.idle rfl (.ignores hk nofun))
  | leavePuddle node => exact .inl (.idle rfl (.ignores hk nofun))
  | relocate node => exact .inl (.idle rfl (.ignores hk nofun))
  | updateLatency => exact .inl (.idle rfl (.ignores hk nofun))
  | processNodeMove node =>
    cases hn : r.fogNode node with
    | ok n => exact .inl (place_answers hr hb hn)
    | error fault =>
      refine .inr ⟨not_resolved_of_unknown rfl hn, fault, bind_of_error (read_of_error ?_)⟩
      rw [hb]
      exact evaluate_of_unknown hn

theorem onLink_answers {l : Link} (hr : r.Orderly) (hl : r.link id = .ok l) (msg : Message) :
    Answers s broker now r id msg (onLink s id msg) := by
  have hk : r.kind id = .ok .link := kind_eq_link_iff.2 ⟨l, hl⟩
  cases msg with
  | updateLatency => exact measure_answers hr hl
  | updateLocation => exact .idle rfl (.ignores hk nofun)
  | nodeLeave => exact .idle rfl (.ignores hk nofun)
  | processNodeMove node => exact .idle rfl (.ignores hk nofun)
  | joinPuddle node => exact .idle rfl (.ignores hk nofun)
  | leavePuddle node => exact .idle rfl (.ignores hk nofun)
  | relocate node => exact .idle rfl (.ignores hk nofun)

/-- In an orderly registry a reaction is one of those listed, or fails without a trace. -/
theorem react_cases (hr : r.Orderly) (msg : Message) :
    AnswersOrFails s broker now r id msg (react s broker now id msg) := by
  unfold AnswersOrFails Answers
  cases hk : r.kind id with
  | error fault =>
    refine .inr ⟨fun hres => ?_, fault, bind_of_error (read_of_error hk)⟩
    obtain ⟨κ, hκ⟩ := hres.1
    rw [hk] at hκ
    cases hκ
  | ok κ =>
    unfold react
    rw [bind_of_ok (read_of_ok hk)]
    cases κ with
    | fogNode =>
      obtain ⟨n, hn⟩ := kind_eq_fogNode_iff.1 hk
      exact .inl (onFogNode_answers hr hn msg)
    | puddleHead =>
      obtain ⟨h, hh⟩ := kind_eq_puddleHead_iff.1 hk
      exact onPuddleHead_answers hr hh msg
    | broker =>
      obtain ⟨b, hb⟩ := kind_eq_broker_iff.1 hk
      exact onBroker_answers hr hb msg
    | link =>
      obtain ⟨l, hl⟩ := kind_eq_link_iff.1 hk
      exact .inl (onLink_answers hr hl msg)

/-- A reaction to a message whose receiver and node exist does not fail. -/
theorem react_of_resolved {msg : Message} (hr : r.Orderly) (hres : Resolved r id msg) :
    Answers s broker now r id msg (react s broker now id msg) :=
  (react_cases hr msg).resolve_right fun hf => hf.1 hres

end Change

/-! ## Reactions keep the records in agreement -/

namespace Registry

variable {r : Registry} {head node : EntityId} {h : PuddleHead} {n : FogNode}

/-- A node that has departed is not taken in. -/
theorem intake_of_departed (hs : n.standing = .departed) : r.intake head node h n = .nothing :=
  if_pos (.inr hs)

theorem Orderly.intake (hr : r.Orderly) (hh : r.puddleHead head = .ok h)
    (hn : r.fogNode node = .ok n) : (r.touch (r.intake head node h n)).Orderly := by
  unfold Registry.intake
  split_ifs with hstale
  · rwa [touch_nothing]
  · rw [not_or] at hstale
    exact Orderly.admitting hr hh hn hstale.1 hstale.2

theorem Orderly.settleLeave (hr : r.Orderly) :
    (r.touch (.onNode node (Change.settleLeave head))).Orderly :=
  hr.onNode fun n => ⟨FogNode.sameDevice_settleLeave head n, standing_settleLeave head n,
    buddies_settleLeave head n⟩

theorem standing_settleJoin (head : EntityId) (n : FogNode) :
    (FogNode.settleJoin head n).standing = n.standing := by
  unfold FogNode.settleJoin
  split_ifs <;> rfl

theorem Orderly.settleJoin (hr : r.Orderly) :
    (r.touch (.onNode node (FogNode.settleJoin head))).Orderly :=
  hr.onNode fun n => by
    unfold FogNode.settleJoin
    split_ifs <;> exact ⟨rfl, rfl, rfl⟩

theorem Orderly.outtake (hr : r.Orderly) (hh : r.puddleHead head = .ok h)
    (hn : r.fogNode node = .ok n) : (r.touch (r.outtake head node h n)).Orderly := by
  unfold Registry.outtake
  split_ifs
  · exact Orderly.dismissing hr hh hn
  · exact hr.settleLeave

end Registry

namespace Link

theorem sameChannel_setQueue (l : Link) (q : List Nat) (d : Direction) :
    l.SameChannel (l.setQueue q d) := by
  cases d <;> rfl

theorem sameChannel_enqueue (l : Link) (sender : EntityId) (bytes : Nat) :
    l.SameChannel (l.enqueue sender bytes).2 := by
  unfold enqueue
  split
  · exact l.sameChannel_setQueue _ _
  · rfl

theorem latency_enqueue (l : Link) (sender : EntityId) (bytes : Nat) :
    (l.enqueue sender bytes).2.latency = l.latency := by
  unfold enqueue
  split
  · rename_i d _
    cases d <;> rfl
  · rfl

theorem sameChannel_dequeue (l : Link) (sender : EntityId) :
    l.SameChannel (l.dequeue sender).2 := by
  unfold dequeue
  split
  · split
    · rfl
    · exact l.sameChannel_setQueue _ _
  · rfl

theorem sameChannel_measured (l : Link) (distance speed : Float) :
    l.SameChannel (l.measured distance speed) := by
  unfold measured releaseOldest
  refine SameChannel.trans (m := l.recomputeLatency distance speed) rfl ?_
  exact (sameChannel_dequeue _ _).trans (sameChannel_dequeue _ _)

end Link

theorem Placement.orderly {r : Registry} {broker node : EntityId} (hr : r.Orderly) (p : Placement) :
    (r.touch (p.touch broker node)).Orderly := by
  cases p with
  | stay => exact hr.neutral .nothing (fun _ _ => ⟨rfl, rfl⟩) fun _ _ => ⟨rfl, rfl, rfl⟩
  | ignore => exact hr.neutral .nothing (fun _ _ => ⟨rfl, rfl⟩) fun _ _ => ⟨rfl, rfl, rfl⟩
  | join target => exact hr.onNode fun n => ⟨rfl, rfl, rfl⟩
  | relocate source target => exact hr.onNode fun n => ⟨rfl, rfl, rfl⟩
  | depart source =>
    unfold Placement.touch
    rw [← Registry.touch_touch]
    have hstart : (r.touch (.onNode node (·.start (.departing source)))).Orderly :=
      hr.onNode fun n => ⟨rfl, rfl, rfl⟩
    exact hstart.neutral (.onBroker fun b => rfl) (fun _ _ => ⟨rfl, rfl⟩) fun _ _ => ⟨rfl, rfl, rfl⟩

/-- Every reaction leaves an orderly registry behind. -/
theorem Reaction.orderly {s : Settings} {broker : EntityId} {now : Time} {r : Registry}
    {id : EntityId} {msg : Message} {out : List Outgoing} {t : Touch} (hr : r.Orderly)
    (h : Reaction s broker now r id msg out t) : (r.touch t).Orderly := by
  cases h with
  | ignores => rwa [Registry.touch_nothing]
  | rests => rwa [Registry.touch_nothing]
  | moves => exact hr.onNode fun n => ⟨rfl, rfl, rfl⟩
  | isGone => rwa [Registry.touch_nothing]
  | departs hn => exact Registry.Orderly.departing hr hn
  | takesIn hh hn =>
    rw [← Registry.touch_touch]
    exact (hr.intake hh hn).settleJoin
  | misses => rwa [Registry.touch_nothing]
  | keeps => exact hr.onNode fun n => ⟨rfl, rfl, rfl⟩
  | takesOver hh hn => exact hr.intake hh hn
  | picksUp hh hn =>
    rw [← Registry.touch_touch]
    exact (hr.intake hh hn).onNode fun n => ⟨rfl, rfl, rfl⟩
  | strikesOff hh hn => exact hr.outtake hh hn
  | places => exact Placement.orderly hr _
  | measures =>
    exact hr.neutral (.onLink fun l => l.sameChannel_measured _ _) (fun _ _ => ⟨rfl, rfl⟩)
      fun _ _ => ⟨rfl, rfl, rfl⟩

/-- Every reaction keeps the heads pruned. -/
theorem Reaction.pruned {s : Settings} {broker : EntityId} {now : Time} {r : Registry}
    {id : EntityId} {msg : Message} {out : List Outgoing} {t : Touch} (hp : r.Pruned)
    (h : Reaction s broker now r id msg out t) : (r.touch t).Pruned := by
  have hintake : ∀ {node g n}, (r.touch (r.intake id node g n)).Pruned := fun {node g n} => by
    unfold Registry.intake
    split_ifs
    · exact hp.headless rfl
    · exact hp.admitting
  cases h with
  | ignores | rests | moves | isGone | departs | misses | keeps | measures => exact hp.headless rfl
  | takesIn | picksUp =>
    rw [← Registry.touch_touch]
    exact hintake.headless rfl
  | takesOver => exact hintake
  | strikesOff =>
    unfold Registry.outtake
    split_ifs
    · exact hp.dismissing
    · exact hp.headless rfl
  | @places _ _ _ p => cases p <;> exact hp.headless rfl

/-! ## Reactions address their messages well -/

/-- A message is on its way to an entity that deals with it, and whom it names is a node. -/
def Addressed (r : Registry) (receiver : EntityId) (msg : Message) : Prop :=
  r.kind receiver = .ok msg.handler ∧ ∀ node, msg.node? = some node → r.kind node = .ok .fogNode

theorem addressed_touch_iff {r : Registry} {t : Touch} {receiver : EntityId} {msg : Message} :
    Addressed (r.touch t) receiver msg ↔ Addressed r receiver msg := by
  unfold Addressed
  simp only [Registry.kind_touch]

theorem Addressed.resolved {r : Registry} {receiver : EntityId} {msg : Message}
    (h : Addressed r receiver msg) : Change.Resolved r receiver msg :=
  ⟨⟨_, h.1⟩, h.2⟩

section Addressed

open Registry

variable {s : Settings} {broker : EntityId} {now : Time} {r : Registry} {id node : EntityId}
  {n : FogNode}

theorem addressed_reports (hr : r.Orderly) (hbroker : r.kind broker = .ok .broker)
    (hn : r.fogNode id = .ok n) {o : Outgoing} (ho : o ∈ n.reports s broker id) :
    Addressed r o.receiver o.message := by
  have hk : r.kind id = .ok .fogNode := kind_eq_fogNode_iff.2 ⟨n, hn⟩
  unfold FogNode.reports at ho
  rcases List.mem_append.1 ho with ho | ho
  · rcases List.mem_cons.1 ho with rfl | ho
    · exact ⟨hk, nofun⟩
    · obtain ⟨link, hlink, rfl⟩ := List.mem_map.1 ho
      exact ⟨hr.wired.cabled hn hlink, nofun⟩
  · obtain rfl := List.mem_singleton.1 ho
    exact ⟨hbroker, fun node hnode => Option.some.inj hnode ▸ hk⟩

theorem addressed_farewell (hr : r.Orderly) (hn : r.fogNode id = .ok n) {o : Outgoing}
    (ho : o ∈ n.farewell s id) : Addressed r o.receiver o.message := by
  unfold FogNode.farewell at ho
  obtain ⟨head, hhead, rfl⟩ := List.mem_map.1 ho
  have howns : r.Owns head id := (owns_iff_owner? hn).2 (Option.mem_toList.1 hhead)
  exact ⟨kind_eq_puddleHead_iff.2 (hr.enrolled.head_of_owns howns), fun node hnode =>
    Option.some.inj hnode ▸ kind_eq_fogNode_iff.2 ⟨n, hn⟩⟩

theorem addressed_orders {p : Placement} (hn : r.fogNode node = .ok n) (hp : r.Decision n p)
    {o : Outgoing} (ho : o ∈ p.orders s id node) : Addressed r o.receiver o.message := by
  have hk : r.kind node = .ok .fogNode := kind_eq_fogNode_iff.2 ⟨n, hn⟩
  cases hp with
  | ignore => cases ho
  | stay => cases ho
  | join _ _ hh =>
    obtain rfl := List.mem_singleton.1 ho
    exact ⟨kind_eq_puddleHead_iff.2 ⟨_, hh⟩, fun node hnode => Option.some.inj hnode ▸ hk⟩
  | relocate _ _ _ _ hh =>
    obtain rfl := List.mem_singleton.1 ho
    exact ⟨kind_eq_puddleHead_iff.2 ⟨_, hh⟩, fun node hnode => Option.some.inj hnode ▸ hk⟩
  | depart =>
    obtain rfl := List.mem_singleton.1 ho
    exact ⟨hk, nofun⟩

/-- Every message sent in a reaction goes to an entity that deals with it. -/
theorem Reaction.addressed {msg : Message} {out : List Outgoing} {t : Touch} (hr : r.Orderly)
    (hbroker : r.kind broker = .ok .broker) (h : Reaction s broker now r id msg out t) :
    ∀ o ∈ out, Addressed r o.receiver o.message := by
  intro o ho
  cases h with
  | moves hn => exact addressed_reports hr hbroker hn ho
  | departs hn => exact addressed_farewell hr hn ho
  | takesOver _ hn howned =>
    obtain rfl := List.mem_singleton.1 ho
    have hhead := hr.enrolled.head_of_owns ((owns_iff hn).2 howned)
    exact ⟨kind_eq_puddleHead_iff.2 hhead, fun node hnode =>
      Option.some.inj hnode ▸ kind_eq_fogNode_iff.2 ⟨_, hn⟩⟩
  | places _ hn hp => exact addressed_orders hn hp ho
  | ignores | rests | isGone | takesIn | misses | keeps | picksUp | strikesOff
  | measures => cases ho

end Addressed

end FogNet
