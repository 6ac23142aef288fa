import FogNet.Proofs.Run.Reachable
import FogNet.Proofs.Topology.Catalogue

/-!
# The catalogue during a run

No reaction changes more than a faithful touch does (`Reaction.faithful`), and none adds a copy of a
list or throws one away (`Reaction.keepsCopies`). So the broker's lists of heads, and the copies
that heads keep for their children, are right in every reachable session (`Reachable.catalogued`).
-/

namespace FogNet

open Registry

variable {c : Settings} {broker id head node k a : EntityId} {now : Time} {r : Registry}
  {msg : Message} {out : List Outgoing} {t : Touch} {n : FogNode} {h : PuddleHead}

/-! ## Faithful reactions -/

namespace Touch.Faithful

theorem intake : (r.intake head node h n).Faithful := by
  unfold Registry.intake
  split_ifs
  · exact .nothing
  · exact .admission

theorem outtake : (r.outtake head node h n).Faithful := by
  unfold Registry.outtake
  split_ifs
  · exact .dismissal
  · exact .onNode (FogNode.sameDevice_settleLeave head)

theorem placement (p : Placement) : (p.touch broker node).Faithful := by
  cases p with
  | stay | ignore => exact .nothing
  | join target | relocate source target => exact .onNode fun _ => rfl
  | depart source => exact .andThen (.onNode fun _ => rfl) (.onBroker fun _ => rfl)

end Touch.Faithful

/-- A reaction changes of a node only how it moves and where it stands, of a head only its lists, of
a link only its traffic and of the broker only whom it counts. -/
theorem Reaction.faithful (h : Reaction c broker now r id msg out t) : t.Faithful := by
  cases h with
  | ignores | rests | isGone | misses => exact .nothing
  | moves | keeps => exact .onNode fun _ => rfl
  | departs => exact faithful_departing
  | takesIn =>
    refine .andThen .intake (.onNode fun n => ?_)
    unfold FogNode.settleJoin
    split_ifs <;> rfl
  | takesOver => exact .intake
  | picksUp => exact .andThen .intake (.onNode fun _ => rfl)
  | strikesOff => exact .outtake
  | places => exact .placement _
  | measures => exact .onLink fun l => l.sameChannel_measured _ _

/-! ## Copies that stay -/

namespace Touch

/-- A touch neither adds a copy of a list nor throws one away. -/
def KeepsCopies (t : Touch) : Prop :=
  ∀ k h j, ((t.head k h).childPuddles.get? j).isSome = (h.childPuddles.get? j).isSome

theorem KeepsCopies.headless (ht : t.head = Touch.nothing.head) : t.KeepsCopies := by
  intro k h j
  rw [ht]
  rfl

theorem KeepsCopies.relisting {parent : Option EntityId} {f : PuddleHead → PuddleHead}
    {l : List EntityId} (ht : t.head = Touch.relisting head parent f l)
    (hf : ∀ g, (f g).childPuddles = g.childPuddles) : t.KeepsCopies := by
  intro k g j
  rw [ht, get?_childPuddles_relisting (hf g)]
  split_ifs
  · rw [Option.isSome_map]
  · rfl

theorem KeepsCopies.intake : (r.intake head node h n).KeepsCopies := by
  unfold Registry.intake
  split_ifs
  · exact .headless rfl
  · refine .relisting rfl fun g => ?_
    unfold PuddleHead.addMember
    split_ifs <;> rfl

theorem KeepsCopies.outtake : (r.outtake head node h n).KeepsCopies := by
  unfold Registry.outtake
  split_ifs
  · exact .relisting rfl fun g => rfl
  · exact .headless rfl

end Touch

/-- No reaction adds a copy of a list or throws one away. -/
theorem Reaction.keepsCopies (h : Reaction c broker now r id msg out t) : t.KeepsCopies := by
  cases h with
  | ignores | rests | moves | isGone | departs | misses | keeps | measures => exact .headless rfl
  | takesIn | picksUp | takesOver => exact fun k g j => Touch.KeepsCopies.intake k g j
  | strikesOff => exact .outtake
  | @places _ _ _ p => cases p <;> exact .headless rfl

/-! ## Indices that stay right -/

/-- A faithful touch that keeps the copies keeps the indices of the heads right. -/
theorem Registry.Catalogued.touch (hr : r.Catalogued broker) (ht : t.Faithful)
    (hcopies : t.KeepsCopies) : (r.touch t).Catalogued broker := by
  have hat : ∀ k b level, (t.broker k b).headsAt level = b.headsAt level := fun k b level => by
    unfold Broker.headsAt
    rw [(ht.broker k b).headsByLevel]
  have hlevel : ∀ k e, (t.entity k e).headLevel? = e.headLevel? := fun k e => by
    cases e with
    | puddleHead h => exact congrArg some (ht.head k h).level
    | fogNode | link | broker => rfl
  refine ⟨fun {k d} hd => ?_, fun {k g} hg => ?_, fun {k} hk => ?_, fun hb' l => ?_,
    fun hb' l a => ?_⟩
  · rw [get?_touch] at hd
    obtain ⟨e, he, -⟩ := Option.map_eq_some_iff.1 hd
    exact hr.numbers he
  · obtain ⟨h, hh, rfl⟩ := puddleHead_touch_iff.1 hg
    intro j
    rw [hcopies, (ht.head k h).children]
    exact hr.branched hh j
  · rw [kind_touch] at hk
    exact hr.single hk
  · obtain ⟨b, hb, rfl⟩ := broker_touch_iff.1 hb'
    rw [hat]
    exact hr.ascending hb l
  · obtain ⟨b, hb, rfl⟩ := broker_touch_iff.1 hb'
    rw [hat, hr.heads hb, get?_touch]
    simp only [Option.map_eq_some_iff]
    constructor
    · rintro ⟨e, he, hl⟩
      exact ⟨_, ⟨e, he, rfl⟩, (hlevel a e).trans hl⟩
    · rintro ⟨_, ⟨e, he, rfl⟩, hl⟩
      exact ⟨e, he, (hlevel a e).symm.trans hl⟩

theorem Touch.Slight.keepsCopies (ht : t.Slight) : t.KeepsCopies := by
  intro k h j
  rw [(ht.head k h).2.2]

variable {g : Regime} {s s' : Session World Payload}

theorem Session.Advance.catalogued {ok : Prop} (h : s.Advance ok s')
    (hr : s.state.registry.Catalogued broker) : s'.state.registry.Catalogued broker := by
  cases h with
  | rests _ hregistry | passes _ _ hregistry | fails _ _ _ _ hregistry => rwa [hregistry]
  | reacts _ hreact _ _ _ hregistry =>
    rw [hregistry]
    exact hr.touch hreact.faithful hreact.keepsCopies

/-- In every reachable session the indices of the heads are right. -/
theorem Reachable.catalogued (hs : Reachable g s) :
    s.state.registry.Catalogued s.state.broker := by
  induction hs with
  | built hb h => exact (Builder.catalogued_of_build hb h).1
  | stepped hs h ih =>
    obtain ⟨hadvance, hbroker⟩ := Session.advance_of_ok hs.orderly h
    rw [hbroker]
    exact hadvance.catalogued ih
  | failed hs h _ ih =>
    obtain ⟨hadvance, hbroker, -⟩ := Session.advance_of_error hs.orderly h
    rw [hbroker]
    exact hadvance.catalogued ih
  | posted _ _ ih | waited _ _ ih => exact ih
  | intervened _ h ih =>
    obtain ⟨t, ht, rfl⟩ := h.slight
    exact ih.touch ht.faithful ht.keepsCopies

end FogNet
