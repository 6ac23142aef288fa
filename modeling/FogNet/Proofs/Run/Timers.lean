import FogNet.Proofs.Run.Catalogue
import FogNet.Proofs.Run.Terminal
import FogNet.Proofs.Topology.Outset

/-!
# Movement timers

A node that moves has a timer, a message to itself, and sets it again whenever it is handed one
before it departs; nothing else sets one. So as long as no step fails, a node that moves has one
timer on its way, it is handed one at every multiple of the interval up to the first one after its
departure, and it was last moved by the last one before (`History.punctual`). `FogNode.Beating` is
what carries the argument: it counts the timers that have made a node move.
-/

namespace FogNet

open Registry

variable {c : Settings} {broker id k : EntityId} {now : Time} {r : Registry} {msg : Message}
  {out : List Outgoing} {t : Touch} {n m : FogNode} {interval : Nat}

/-! ## Timers among messages -/

/-- Whether an event is the movement timer of a node. -/
def Payload.isTimerOf (k : EntityId) : Payload → Bool
  | deliver _ receiver .updateLocation => receiver == k
  | _ => false

/-- The instants of a node's timers among some events. -/
def timersIn (k : EntityId) (l : List (Time × Payload)) : List Time :=
  (l.filter (·.2.isTimerOf k)).map (·.1)

theorem timersIn_append (k : EntityId) (l l' : List (Time × Payload)) :
    timersIn k (l ++ l') = timersIn k l ++ timersIn k l' := by
  unfold timersIn
  rw [List.filter_append, List.map_append]

theorem timersIn_perm {l l' : List (Time × Payload)} (h : l.Perm l') :
    (timersIn k l).Perm (timersIn k l') :=
  (h.filter _).map _

theorem timersIn_eq_nil {l : List (Time × Payload)} (h : ∀ e ∈ l, e.2.isTimerOf k = false) :
    timersIn k l = [] := by
  unfold timersIn
  rw [List.map_eq_nil_iff, List.filter_eq_nil_iff]
  intro e he
  rw [h e he]
  exact Bool.false_ne_true

/-- A node's own timer is one. -/
theorem timersIn_timer (k sender : EntityId) (now : Time) :
    timersIn k [(now, .deliver sender k .updateLocation)] = [now] := by
  unfold timersIn
  rw [List.filter_cons_of_pos]
  · rfl
  · exact beq_self_eq_true k

theorem isTimerOf_eq_false {sender receiver : EntityId}
    (h : ¬ (msg = .updateLocation ∧ receiver = k)) :
    (Payload.deliver sender receiver msg).isTimerOf k = false := by
  cases msg with
  | updateLocation => exact beq_false_of_ne fun hk => h ⟨rfl, hk⟩
  | processNodeMove | joinPuddle | leavePuddle | relocate | nodeLeave | updateLatency => rfl

theorem timersIn_answers (h : ∀ o ∈ out, o.message ≠ .updateLocation) :
    timersIn k (out.map (Outgoing.entry now)) = [] := by
  apply timersIn_eq_nil
  intro e he
  obtain ⟨o, ho, rfl⟩ := List.mem_map.1 he
  exact isTimerOf_eq_false fun hc => h o ho hc.1

/-! ## One reaction -/

theorem Motion.mobile_advance (m : Motion Float) (now : Time) :
    (m.advance now).mobile = m.mobile := by
  unfold advance wrapped
  dsimp only
  split_ifs <;> rfl

theorem FogNode.timersIn_reports (n : FogNode) :
    timersIn k ((n.reports c broker id).map (Outgoing.entry now)) =
      if id = k then [now + c.locationUpdateInterval] else [] := by
  unfold reports
  rw [List.cons_append, List.map_cons, ← List.singleton_append, timersIn_append,
    timersIn_answers, List.append_nil]
  · by_cases hk : id = k
    · rw [if_pos hk]
      subst hk
      exact timersIn_timer id id _
    · rw [if_neg hk]
      exact timersIn_eq_nil fun e he =>
        List.mem_singleton.1 he ▸ isTimerOf_eq_false fun hc => hk hc.2
  · intro o ho
    rcases List.mem_append.1 ho with ho | ho
    · obtain ⟨link, -, rfl⟩ := List.mem_map.1 ho
      exact nofun
    · obtain rfl := List.mem_singleton.1 ho
      exact nofun

namespace Touch

/-- A touch does not move a node. -/
def Parks (t : Touch) (k : EntityId) : Prop := ∀ n, (t.node k n).motion = n.motion

theorem Parks.andThen {s : Touch} (hs : s.Parks k) (ht : t.Parks k) : (s.andThen t).Parks k :=
  fun n => (ht _).trans (hs n)

theorem Parks.onNode {f : FogNode → FogNode} (hf : k = id → ∀ n, (f n).motion = n.motion) :
    (Touch.onNode id f).Parks k := by
  intro n
  unfold Touch.onNode
  simp only
  split_ifs with hk
  · exact hf hk n
  · rfl

theorem motion_settleLeave (head : EntityId) (n : FogNode) :
    (Change.settleLeave head n).motion = n.motion := by
  unfold Change.settleLeave
  split
  · split_ifs <;> rfl
  · split_ifs <;> rfl
  · rfl

theorem Parks.intake {head node : EntityId} {h : PuddleHead} {n : FogNode} :
    (r.intake head node h n).Parks k := by
  intro m
  unfold Registry.intake Registry.admitting Touch.admission
  split_ifs
  · rfl
  · simp only
    split_ifs <;> rfl

theorem Parks.outtake {head node : EntityId} {h : PuddleHead} {n : FogNode} :
    (r.outtake head node h n).Parks k := by
  unfold Registry.outtake
  split_ifs
  · intro m
    unfold Registry.dismissing Touch.dismissal
    simp only
    split_ifs
    · rw [motion_settleLeave]
      unfold FogNode.release FogNode.cutOff
      split_ifs <;> rfl
    · rfl
    · rfl
  · exact .onNode fun _ => motion_settleLeave head

theorem Parks.departing {n : FogNode} : (Registry.departing id n).Parks k := by
  refine .andThen (.onNode fun _ _ => rfl) fun m => ?_
  unfold Touch.forgetting
  simp only
  split_ifs <;> rfl

end Touch

namespace Reaction

/-- Only a timer moves a node, and only the node it is for. -/
theorem parks (h : Reaction c broker now r id msg out t)
    (hk : ¬ (msg = .updateLocation ∧ id = k)) : t.Parks k := by
  cases h with
  | ignores | rests | isGone | misses | measures => exact fun _ => rfl
  | moves => exact .onNode fun hid => absurd ⟨rfl, hid.symm⟩ hk
  | departs => exact .departing
  | takesIn =>
    refine .andThen .intake (.onNode fun _ n => ?_)
    unfold FogNode.settleJoin
    split_ifs <;> rfl
  | keeps => exact .onNode fun _ _ => rfl
  | takesOver => exact .intake
  | picksUp => exact .andThen .intake (.onNode fun _ _ => rfl)
  | strikesOff => exact .outtake
  | @places _ _ _ p =>
    cases p with
    | stay | ignore => exact fun _ => rfl
    | join | relocate => exact .onNode fun _ _ => rfl
    | depart => exact .andThen (.onNode fun _ _ => rfl) fun _ => rfl

/-- Only a timer sets a timer, and only for the node it is for. -/
theorem timersIn_of_other (h : Reaction c broker now r id msg out t)
    (hk : ¬ (msg = .updateLocation ∧ id = k)) :
    timersIn k (out.map (Outgoing.entry now)) = [] := by
  cases h with
  | ignores | rests | isGone | takesIn | misses | keeps | picksUp | strikesOff | measures => rfl
  | moves => rw [FogNode.timersIn_reports, if_neg fun hid => hk ⟨rfl, hid⟩]
  | @departs n =>
    apply timersIn_answers
    intro o ho
    obtain ⟨head, -, rfl⟩ := List.mem_map.1 ho
    exact nofun
  | takesOver => rfl
  | @places _ _ _ p => cases p <;> rfl

/-- A node that is handed its timer moves and sets it again, unless it has departed or never
moves. -/
theorem of_timer (h : Reaction c broker now r k .updateLocation out t)
    (hn : r.fogNode k = .ok n) :
    (n.standing = .departed ∨ n.motion.mobile = false) ∧ t.node k n = n ∧ out = [] ∨
      n.standing ≠ .departed ∧ t.node k n = n.advance now ∧ out = n.reports c broker k := by
  cases h with
  | ignores hk hne =>
    have hkind := hk.symm.trans (kind_eq_fogNode_iff.2 ⟨n, hn⟩)
    exact absurd (Except.ok.inj hkind) hne
  | rests hx hrest =>
    obtain rfl := fogNode_inj hx hn
    exact .inl ⟨hrest, rfl, rfl⟩
  | moves hx hlive hmobile =>
    obtain rfl := fogNode_inj hx hn
    exact .inr ⟨hlive, if_pos rfl, rfl⟩

end Reaction

/-! ## One step -/

/-- The first multiples of an interval, from the interval itself on. -/
def beats (interval count : Nat) : List Time := (List.range count).map fun i => (i + 1) * interval

theorem length_beats (interval count : Nat) : (beats interval count).length = count := by
  unfold beats
  rw [List.length_map, List.length_range]

theorem beats_succ (interval count : Nat) :
    beats interval (count + 1) = beats interval count ++ [(count + 1) * interval] := by
  unfold beats
  rw [List.range_succ, List.map_append]
  rfl

theorem getLast?_beats (interval count : Nat) :
    (beats interval count).getLast?.getD 0 = count * interval := by
  cases count with
  | zero => exact (Nat.zero_mul interval).symm
  | succ count => rw [beats_succ, List.getLast?_concat, Option.getD_some]

/-- The timers of a node: those on their way, those it has been handed and those that have made it
move. -/
inductive FogNode.Beating (n : FogNode) (interval : Nat) :
    List Time → List Time → List Time → Prop where
  /-- A node that never moves has none. -/
  | still (hmobile : n.motion.mobile = false) (hlast : n.motion.lastUpdate = 0) :
      Beating n interval [] [] []
  /-- The timer goes on. -/
  | runs (count : Nat) (hmobile : n.motion.mobile = true)
      (hlast : n.motion.lastUpdate = count * interval) :
      Beating n interval [(count + 1) * interval] (beats interval count) (beats interval count)
  /-- The node has been handed a timer after its departure. -/
  | ended (count : Nat) (hmobile : n.motion.mobile = true) (hgone : n.standing = .departed)
      (hlast : n.motion.lastUpdate = count * interval) :
      Beating n interval [] (beats interval (count + 1)) (beats interval count)

namespace FogNode.Beating

variable {timers timers' ticks moves : List Time}

/-- What moves no node and sets no timer leaves the timers as they are. -/
theorem keep (h : n.Beating interval timers ticks moves) (hp : timers'.Perm timers)
    (hmobile : m.motion.mobile = n.motion.mobile)
    (hlast : m.motion.lastUpdate = n.motion.lastUpdate)
    (hgone : n.standing = .departed → m.standing = .departed) :
    m.Beating interval timers' ticks moves := by
  cases h with
  | still h1 h2 =>
    rw [hp.eq_nil]
    exact .still (hmobile.trans h1) (hlast.trans h2)
  | runs count h1 h2 =>
    rw [List.perm_singleton.1 hp]
    exact .runs count (hmobile.trans h1) (hlast.trans h2)
  | ended count h1 h2 h3 =>
    rw [hp.eq_nil]
    exact .ended count (hmobile.trans h1) (hgone h2) (hlast.trans h3)

/-- A node whose only timer is handed to it has been handed the one before at the instant before. -/
theorem of_due {rest : List Time} (h : n.Beating interval (now :: rest) ticks moves) :
    ∃ count, now = (count + 1) * interval ∧ rest = [] ∧ ticks = beats interval count ∧
      moves = beats interval count ∧ n.motion.mobile = true ∧
      n.motion.lastUpdate = count * interval := by
  cases h with
  | runs count hmobile hlast => exact ⟨count, rfl, rfl, rfl, rfl, hmobile, hlast⟩

end FogNode.Beating

namespace Session

/-- The instants of a node's timers on their way. -/
def timers (s : Session World Payload) (k : EntityId) : List Time := timersIn k s.entries

/-- The instants at which a node is handed a timer in the next step: one or none. -/
def ticks (s : Session World Payload) (k : EntityId) : List Time := timersIn k (s.entries.take 1)

/-- The same as long as the node has not departed. -/
def moves (s : Session World Payload) (k : EntityId) : List Time :=
  if s.state.registry.isDepartedNode k then [] else s.ticks k

variable {s s' : Session World Payload} {rest : List (Time × Payload)} {p : Payload}
  {handed moved : List Time}

theorem timers_of_entries (h : s.entries = (now, p) :: rest) :
    s.timers k = s.ticks k ++ timersIn k rest := by
  unfold timers ticks
  rw [h, ← timersIn_append]
  rfl

theorem ticks_of_other (h : s.entries = (now, p) :: rest) (hp : p.isTimerOf k = false) :
    s.ticks k = [] := by
  unfold ticks
  rw [h]
  exact timersIn_eq_nil fun e he => by rwa [List.mem_singleton.1 he]

theorem ticks_of_timer {sender : EntityId}
    (h : s.entries = (now, .deliver sender k .updateLocation) :: rest) : s.ticks k = [now] := by
  unfold ticks
  rw [h]
  exact timersIn_timer k sender now

theorem moves_of_ticks (h : s.ticks k = []) : s.moves k = [] := by
  unfold moves
  rw [h, ite_self]

theorem moves_of_departed (hn : s.state.registry.fogNode k = .ok n)
    (hgone : n.standing = .departed) : s.moves k = [] :=
  if_pos (isDepartedNode_eq_true_iff.2 ⟨n, hn, hgone⟩)

theorem moves_of_live (hn : s.state.registry.fogNode k = .ok n) (hlive : n.standing ≠ .departed) :
    s.moves k = s.ticks k := by
  refine if_neg fun hdeparted => ?_
  obtain ⟨x, hx, hgone⟩ := isDepartedNode_eq_true_iff.1 hdeparted
  exact hlive (fogNode_inj hx hn ▸ hgone)

/-- A step that hands no timer to a node leaves its timers as they are. -/
theorem beating_of_other (hticks : s.ticks k = []) (hperm : (s'.timers k).Perm (s.timers k))
    (hmotion : m.motion = n.motion) (hgone : n.standing = .departed → m.standing = .departed)
    (hb : n.Beating interval (s.timers k) handed moved) :
    m.Beating interval (s'.timers k) (handed ++ s.ticks k) (moved ++ s.moves k) := by
  rw [moves_of_ticks hticks, hticks, List.append_nil, List.append_nil]
  exact hb.keep hperm (congrArg _ hmotion) (congrArg _ hmotion) hgone

/-- A node that is handed its timer moves and sets the next one; if it has departed, that was the
last one. -/
theorem beating_of_timer {sender : EntityId} {out : List Outgoing} {t : Touch}
    (hqueue : s.entries = (now, .deliver sender k .updateLocation) :: rest)
    (hreact : Reaction s.state.settings s.state.broker now s.state.registry k .updateLocation out t)
    (hperm : (s'.timers k).Perm (timersIn k (out.map (Outgoing.entry now)) ++ timersIn k rest))
    (hn : s.state.registry.fogNode k = .ok n)
    (hb : n.Beating s.state.settings.locationUpdateInterval (s.timers k) handed moved) :
    (t.node k n).Beating s.state.settings.locationUpdateInterval (s'.timers k)
      (handed ++ s.ticks k) (moved ++ s.moves k) := by
  rw [timers_of_entries hqueue, ticks_of_timer hqueue, List.singleton_append] at hb
  obtain ⟨count, hnow, hempty, rfl, rfl, hmobile, hlast⟩ := hb.of_due
  rw [hempty, List.append_nil] at hperm
  rw [ticks_of_timer hqueue]
  rcases hreact.of_timer hn with ⟨hrests, hsame, rfl⟩ | ⟨hlive, hmoved, rfl⟩
  · have hdeparted : n.standing = .departed := by
      refine hrests.resolve_right fun hstill => ?_
      rw [hmobile] at hstill
      cases hstill
    have hnone : s'.timers k = [] := hperm.eq_nil
    rw [hsame, hnone, moves_of_departed hn hdeparted, List.append_nil, hnow, ← beats_succ]
    exact .ended count hmobile hdeparted hlast
  · rw [FogNode.timersIn_reports, if_pos rfl] at hperm
    have hnext : s'.timers k = [(count + 1 + 1) * s.state.settings.locationUpdateInterval] := by
      rw [Nat.succ_mul, ← hnow]
      exact List.perm_singleton.1 hperm
    rw [hmoved, hnext, moves_of_live hn hlive, ticks_of_timer hqueue, hnow, ← beats_succ]
    refine .runs (count + 1) ?_ ?_
    · exact (Motion.mobile_advance n.motion _).trans hmobile
    · show max n.motion.lastUpdate _ = _
      rw [hlast]
      exact Nat.max_eq_right (Nat.mul_le_mul_right _ (Nat.le_succ count))

/-- A step that succeeds hands a node its only timer or leaves its timers as they are. -/
theorem Turn.beating (h : s.Turn True s') (hn : s.state.registry.fogNode k = .ok n)
    (hm : s'.state.registry.fogNode k = .ok m)
    (hgone : n.standing = .departed → m.standing = .departed)
    (hb : n.Beating s.state.settings.locationUpdateInterval (s.timers k) handed moved) :
    m.Beating s.state.settings.locationUpdateInterval (s'.timers k) (handed ++ s.ticks k)
      (moved ++ s.moves k) := by
  cases h with
  | rests hqueue hsame =>
    subst hsame
    have hticks : s'.ticks k = [] := by
      unfold ticks
      rw [hqueue]
      rfl
    exact beating_of_other hticks (.refl _) (congrArg _ (fogNode_inj hm hn)) hgone hb
  | passes hqueue _ hrest hworld =>
    have hticks := ticks_of_other (k := k) hqueue rfl
    have hsame : s'.timers k = s.timers k := by
      rw [timers_of_entries hqueue, hticks, List.nil_append, ← hrest]
      rfl
    rw [hworld] at hm
    exact beating_of_other hticks (.of_eq hsame) (congrArg _ (fogNode_inj hm hn)) hgone hb
  | fails hok => exact absurd trivial hok
  | @reacts now sender id msg rest out sent t hqueue _ hreact _ hall hrest hregistry =>
    obtain rfl := hall trivial
    rw [hregistry] at hm
    obtain rfl := fogNode_inj hm (fogNode_touch hn)
    have hperm := timersIn_perm (k := k) hrest
    rw [timersIn_append] at hperm
    by_cases hk : msg = .updateLocation ∧ id = k
    · obtain ⟨rfl, rfl⟩ := hk
      exact beating_of_timer hqueue hreact hperm hn hb
    · have hticks := ticks_of_other (k := k) hqueue (isTimerOf_eq_false hk)
      have htimers := timers_of_entries (k := k) hqueue
      rw [hreact.timersIn_of_other hk, List.nil_append] at hperm
      rw [hticks, List.nil_append] at htimers
      exact beating_of_other hticks (htimers ▸ hperm) (hreact.parks hk n) hgone hb

end Session

/-! ## The start -/

/-- The one node that is stored under a number. -/
theorem Registry.filter_fogNodes (hw : r.Wired) (hn : r.fogNode k = .ok n) :
    r.fogNodes.filter (·.id == k) = [n] := by
  obtain rfl := hw.id_fogNode hn
  obtain ⟨before, after, hsplit⟩ := List.append_of_mem (mem_fogNodes_iff.2 ⟨n.id, hn⟩)
  have hascending := ascending_fogNodes hw.toNumbered
  rw [hsplit, List.pairwise_append, List.pairwise_cons] at hascending
  obtain ⟨-, ⟨hafter, -⟩, hbefore⟩ := hascending
  have hnone : ∀ l : List FogNode, (∀ m ∈ l, m.id ≠ n.id) → l.filter (·.id == n.id) = [] := by
    intro l hl
    rw [List.filter_eq_nil_iff]
    intro m hm hid
    exact hl m hm (eq_of_beq hid)
  rw [hsplit, List.filter_append, List.filter_cons_of_pos,
    hnone before fun m hm => Nat.ne_of_lt (hbefore m hm n List.mem_cons_self),
    hnone after fun m hm => Nat.ne_of_gt (hafter m hm), List.nil_append]
  exact beq_self_eq_true n.id

/-- In a finished network each node that moves has its first timer. -/
theorem Builder.beating_of_build {b : Builder} {s : Session World Payload}
    (hb : b.Made (Regime.flawless.admits 0)) (h : b.build = .ok s)
    (hn : s.state.registry.fogNode k = .ok n) :
    n.Beating s.state.settings.locationUpdateInterval (s.timers k) [] [] := by
  obtain ⟨-, -, hsettings, hevents⟩ := placed_of_build h
  have hlast := (pristine_of_build hb h).fogNode hn
  have hperm := timersIn_perm (k := k)
    (entries_firstEvents b.settings b.scripted s.state.registry)
  have hscripted : timersIn k b.scripted = [] := by
    refine timersIn_eq_nil fun e he => ?_
    rw [show e.2 = .noop from hb.draft.scripted e he]
    rfl
  have htimers : timersIn k ((s.state.registry.fogNodes.filter (·.motion.mobile)).map
      fun m => (b.settings.locationUpdateInterval, timer m)) =
      ([n].filter (·.motion.mobile)).map fun _ => b.settings.locationUpdateInterval := by
    have hwired := (built_of_build hb.draft h).orderly.wired
    unfold timersIn
    rw [List.filter_map, List.map_map, List.filter_filter, ← filter_fogNodes hwired hn,
      List.filter_filter]
    exact congrArg _ (List.filter_congr fun m _ => Bool.and_comm _ _)
  rw [timersIn_append, hscripted, List.append_nil, htimers, ← hevents, ← hsettings] at hperm
  cases hmobile : n.motion.mobile with
  | false =>
    rw [show [n].filter (·.motion.mobile) = [] by simp [hmobile]] at hperm
    rw [show s.timers k = [] from hperm.eq_nil]
    exact .still hmobile hlast
  | true =>
    rw [show [n].filter (·.motion.mobile) = [n] by simp [hmobile]] at hperm
    have hfirst : s.timers k = [(0 + 1) * s.state.settings.locationUpdateInterval] := by
      rw [Nat.zero_add, Nat.one_mul]
      exact List.perm_singleton.1 hperm
    rw [hfirst]
    exact .runs 0 hmobile (hlast.trans (Nat.zero_mul _).symm)

/-! ## Whole runs -/

variable {g : Regime} {past : List (Session World Payload)} {s : Session World Payload}

/-- As long as no step fails, the timers of a node go on. -/
theorem History.beating (hs : History .flawless past s)
    (hn : s.state.registry.fogNode k = .ok n) :
    n.Beating s.state.settings.locationUpdateInterval (s.timers k)
      (past.reverse.flatMap (·.ticks k)) (past.reverse.flatMap (·.moves k)) := by
  induction hs generalizing n with
  | built hb h => exact Builder.beating_of_build hb h hn
  | @stepped past s s' e hs h ih =>
    obtain ⟨hturn, -, hsettings⟩ := Session.turn_of_ok hs.reachable.orderly h
    obtain ⟨m, hm⟩ : ∃ m, s.state.registry.fogNode k = .ok m := by
      rw [← kind_eq_fogNode_iff, ← hturn.advance.kind, kind_eq_fogNode_iff]
      exact ⟨n, hn⟩
    have hgone : m.standing = .departed → n.standing = .departed := by
      intro hdeparted
      obtain ⟨x, hx, hgone⟩ := (hs.reachable.departed_next (.stepped h) ⟨m, hm, hdeparted⟩).1
      rwa [fogNode_inj hn hx]
    rw [List.reverse_cons, List.flatMap_append, List.flatMap_append, List.flatMap_singleton,
      List.flatMap_singleton, hsettings]
    exact hturn.beating hm hn hgone (ih hm)
  | failed _ _ hf => exact hf.elim
  | @posted past s due p _ h ih =>
    obtain rfl : p = .noop := h
    have hsame : timersIn k ((due, .noop) :: s.entries) = s.timers k := rfl
    exact (ih hn).keep (hsame ▸ timersIn_perm (entries_post_perm _ _ _)) rfl rfl id
  | waited _ _ ih => exact ih hn
  | intervened _ h ih =>
    obtain ⟨t, ht, rfl⟩ := h.slight
    obtain ⟨m, hm, rfl⟩ := fogNode_touch_iff.1 hn
    exact (ih hm).keep (.refl _) (ht.motion k m).1 (ht.motion k m).2 (ht.node k m).1.trans

/-- What becomes of the timers of a node, given those on their way, those it has been handed and
those it was handed before it departed. -/
structure FogNode.Punctual (n : FogNode) (interval : Nat) (timers ticks moves : List Time) :
    Prop where
  /-- A node that never moves has no timer. -/
  still : n.motion.mobile = false → timers = [] ∧ ticks = []
  /-- A node that moves has one as long as it has not departed. -/
  armed : n.motion.mobile = true → n.standing ≠ .departed → timers.length = 1
  /-- Afterwards it has one at most. -/
  disarmed : n.standing = .departed → timers.length ≤ 1
  /-- The timers come at the multiples of the interval, and none is left out. -/
  regular : ticks = beats interval ticks.length
  /-- So does the one on its way. -/
  next : ∀ due ∈ timers, due = (ticks.length + 1) * interval
  /-- A node that has not departed has been moved by all of them. -/
  lasting : n.standing ≠ .departed → moves = ticks
  /-- Once a node that moves has departed, the next timer is the last one. -/
  ending : n.motion.mobile = true → n.standing = .departed →
    ticks = moves ∧ timers.length = 1 ∨ (∃ time, ticks = moves ++ [time]) ∧ timers = []
  /-- The last one before its departure was the last to move it. -/
  lastUpdate : n.motion.lastUpdate = moves.getLast?.getD 0

theorem FogNode.Beating.toPunctual {timers ticks moves : List Time}
    (h : n.Beating interval timers ticks moves) : n.Punctual interval timers ticks moves := by
  cases h with
  | still hmobile hlast =>
    have hnever : n.motion.mobile ≠ true := by
      rw [hmobile]
      exact Bool.false_ne_true
    exact ⟨fun _ => ⟨rfl, rfl⟩, fun hm => absurd hm hnever, fun _ => Nat.zero_le 1, rfl, nofun,
      fun _ => rfl, fun hm => absurd hm hnever, hlast⟩
  | runs count hmobile hlast =>
    refine ⟨fun hm => ?_, fun _ _ => rfl, fun _ => Nat.le_refl 1, ?_, fun due hdue => ?_,
      fun _ => rfl, fun _ _ => .inl ⟨rfl, rfl⟩, ?_⟩
    · rw [hmobile] at hm
      cases hm
    · rw [length_beats]
    · rw [length_beats]
      exact List.mem_singleton.1 hdue
    · rw [hlast, getLast?_beats]
  | ended count hmobile hgone hlast =>
    refine ⟨fun hm => ?_, fun _ hlive => absurd hgone hlive, fun _ => Nat.zero_le 1, ?_, nofun,
      fun hlive => absurd hgone hlive, fun _ _ => .inr ⟨⟨_, beats_succ interval count⟩, rfl⟩, ?_⟩
    · rw [hmobile] at hm
      cases hm
    · rw [length_beats]
    · rw [hlast, getLast?_beats]

/-- As long as no step fails and no message is posted from outside, timers are neither lost nor
doubled: a node that moves and has not departed has one, one that has departed has one at most and
one that never moves has none; they come at the multiples of the interval, without a gap, up to the
first one after the departure; and the last one before the departure was the last to move the
node. -/
theorem History.punctual (hs : History .flawless past s)
    (hn : s.state.registry.fogNode k = .ok n) :
    n.Punctual s.state.settings.locationUpdateInterval (s.timers k)
      (past.reverse.flatMap (·.ticks k)) (past.reverse.flatMap (·.moves k)) :=
  (hs.beating hn).toPunctual

namespace Stray

/-- A puddle, and a node that walks out of it. -/
def draft (b : Builder) : Builder :=
  let b := stateOf (Builder.puddleHead "west" 0 (.rectangle 0 0 6 10) ⟨3, 5⟩ b)
  stateOf (Builder.fogNode (Crossing.node "walker" 5.5 (.velocity ⟨0.1, 0⟩)) b)

/-- The number of the node. -/
def walker : EntityId := 3

/-- The network at its start. -/
def start : Except Fault (Session World Payload) :=
  match Builder.start Settings.standard with
  | .error fault => .error fault
  | .ok b => (draft b).build

theorem isSome_start : start.toOption.isSome = true := by decide +kernel

/-- The network after some steps. -/
def after : Nat → Session World Payload
  | 0 => start.toOption.get isSome_start
  | count + 1 => (after count).afterStep

/-- The sessions before. -/
def before : Nat → List (Session World Payload)
  | 0 => []
  | count + 1 => after count :: before count

theorem history_of_start (h : start = .ok s) : History g [] s := by
  unfold start at h
  cases hstart : Builder.start Settings.standard with
  | error fault =>
    rw [hstart] at h
    cases h
  | ok b =>
    rw [hstart] at h
    exact .built (((Builder.Made.start hstart).puddleHead _ _ _ _).fogNode _) h

theorem history_after {count : Nat} (h : ∀ i < count, (after i).proceeds = true) :
    History g (before count) (after count) := by
  induction count with
  | zero => exact history_of_start (eq_ok_of_toOption (Option.some_get isSome_start).symm)
  | succ count ih =>
    have hbefore := ih fun i hi => h i (Nat.lt_succ_of_lt hi)
    exact hbefore.next (h count (Nat.lt_succ_self count))

end Stray

/-- The walker is handed two timers, the second one after its departure, and no third one is on its
way. -/
theorem History.punctual_stray :
    (Stray.before 5).reverse.flatMap (·.ticks Stray.walker) = [10, 20] ∧
      (Stray.before 5).reverse.flatMap (·.moves Stray.walker) = [10] ∧
      (Stray.after 5).timers Stray.walker = [] ∧
      ∃ n, (Stray.after 5).state.registry.fogNode Stray.walker = .ok n ∧
        n.standing = .departed ∧ n.motion.lastUpdate = 10 := by
  have hticks : (Stray.before 5).reverse.flatMap (·.ticks Stray.walker) = [10, 20] := by
    decide +kernel
  have hmoves : (Stray.before 5).reverse.flatMap (·.moves Stray.walker) = [10] := by
    decide +kernel
  have hwalker : ((Stray.after 5).state.registry.fogNode Stray.walker).toOption.map
      (fun n => (n.motion.mobile, n.standing)) = some (true, .departed) := by decide +kernel
  obtain ⟨n, hn, hstate⟩ := Option.map_eq_some_iff.1 hwalker
  obtain ⟨hmobile, hgone⟩ := Prod.mk.inj hstate
  have hn := eq_ok_of_toOption hn
  have hs : History .flawless (Stray.before 5) (Stray.after 5) :=
    Stray.history_after (by decide +kernel)
  have hpunctual := History.punctual hs hn
  rw [hticks, hmoves] at hpunctual
  refine ⟨hticks, hmoves, ?_, n, hn, hgone, hpunctual.lastUpdate⟩
  rcases hpunctual.ending hmobile hgone with ⟨hall, -⟩ | ⟨-, hnone⟩
  · cases hall
  · exact hnone

end FogNet
