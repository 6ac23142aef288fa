import FogNet.Proofs.Topology.Catalogue

/-!
# Levels

A head and a node are `Peers` if they are of one level. Nobody who takes a node in looks at levels:
it is the broker that searches among the heads of the node's level, in the order in which they were
registered (`Registry.Catalogued.peers_of_findHead`). So in a finished network heads list nodes of
their own level only (`Builder.ranked_of_build`), and the broker's list of a level is the one that
the calls of the builder give (`Builder.lines_of_build`).
-/

namespace FogNet

open Registry

variable {r q : Registry} {broker head node id k a : EntityId} {level : Level} {h g : PuddleHead}
  {n m : FogNode} {b : Broker} {t : Touch} {p : Point Float}

namespace Registry

/-- A head and a node are of one level. -/
def Peers (r : Registry) (head node : EntityId) : Prop :=
  ∃ h n, r.puddleHead head = .ok h ∧ r.fogNode node = .ok n ∧ n.level = h.level

/-- Heads list nodes of their own level only. -/
def Ranked (r : Registry) : Prop := ∀ ⦃a k⦄, r.Lists a k → r.Peers a k

theorem Peers.touch (ht : t.Faithful) (hpeers : r.Peers a k) : (r.touch t).Peers a k := by
  obtain ⟨h, n, hh, hn, hlevel⟩ := hpeers
  refine ⟨_, _, puddleHead_touch hh, fogNode_touch hn, ?_⟩
  rw [(ht.node k n).level, (ht.head a h).level, hlevel]

theorem Amended.fogNode_of_old (hq : Amended r q) (hn : r.fogNode k = .ok n) :
    ∃ m, q.fogNode k = .ok m ∧ m.level = n.level := by
  obtain ⟨d, hd, hsame⟩ := hq.old (fogNode_eq_ok_iff.1 hn)
  cases hsame with
  | fogNode hsame _ =>
    exact ⟨_, fogNode_eq_ok_iff.2 hd, (Particulars.fogNode.inj hsame).2.1⟩

theorem Amended.puddleHead_of_old (hq : Amended r q) (hh : r.puddleHead k = .ok h) :
    ∃ g, q.puddleHead k = .ok g ∧ g.level = h.level := by
  obtain ⟨d, hd, hsame⟩ := hq.old (puddleHead_eq_ok_iff.1 hh)
  cases hsame with
  | puddleHead hsame _ =>
    exact ⟨_, puddleHead_eq_ok_iff.2 hd, (Particulars.puddleHead.inj hsame).2.1⟩

theorem Peers.amend (hq : Amended r q) (hpeers : r.Peers a k) : q.Peers a k := by
  obtain ⟨h, n, hh, hn, hlevel⟩ := hpeers
  obtain ⟨g, hg, hhead⟩ := hq.puddleHead_of_old hh
  obtain ⟨m, hm, hnode⟩ := hq.fogNode_of_old hn
  exact ⟨g, m, hg, hm, by rw [hnode, hhead, hlevel]⟩

/-- The head that the broker finds for a node is of the node's level. -/
theorem Catalogued.peers_of_findHead (hr : r.Catalogued broker) (hb : r.broker broker = .ok b)
    (hn : r.fogNode k = .ok n) (hfind : r.findHead b n.level p = .ok (some a)) : r.Peers a k := by
  have hlisted : a ∈ b.headsAt n.level := (firstCovering_least (hr.ascending hb _) hfind).1
  obtain ⟨h, hh, hlevel⟩ := (hr.mem_headsAt_iff hb).1 hlisted
  exact ⟨h, n, hh, hn, hlevel.symm⟩

end Registry

namespace Builder

open Change

/-! ## First puddles -/

/-- Placing nodes, one after the other, puts each into a puddle of its level. -/
theorem ranked_forM_placeInitially {s : Settings} {u : Unit} {l : List FogNode}
    (hr : Placing r broker l) (hcat : r.Catalogued broker)
    (hlevel : ∀ n ∈ l, ∀ m, r.fogNode n.id = .ok m → m.level = n.level)
    (hranked : r.Ranked) (h : l.forM (placeInitially s broker) r = .ok u q) : q.Ranked := by
  refine (hr.forM_keeps (P := fun rest q => (∀ n ∈ rest, ∀ m, q.fogNode n.id = .ok m →
    m.level = n.level) ∧ q.Ranked) ?_ hcat h ⟨hlevel, hranked⟩).2
  rintro n rest v r q hr hcat hplace hamend ⟨hlevel, hranked⟩
  obtain ⟨b, hb⟩ := kind_eq_broker_iff.1 hr.kind
  obtain ⟨m, hm, -⟩ := hr.free n List.mem_cons_self
  refine ⟨fun x hx y hy => ?_, fun a k hak => Peers.amend hamend ?_⟩
  · obtain ⟨z, hz, -⟩ := hr.free x (List.mem_cons_of_mem _ hx)
    obtain ⟨y', hy', hsame⟩ := hamend.fogNode_of_old hz
    rw [fogNode_inj hy hy', hsame]
    exact hlevel x (List.mem_cons_of_mem _ hx) z hz
  · rcases (hr.lists_iff hplace hb).1 hak with hold | ⟨rfl, hfind⟩
    · exact hranked hold
    · rw [← hlevel n List.mem_cons_self m hm] at hfind
      exact hcat.peers_of_findHead hb hm hfind

/-- In a finished network heads list nodes of their own level only. -/
theorem ranked_of_build {admits : Time → Payload → Prop} {c : Builder}
    {s : Session World Payload} (hc : Made admits c) (h : c.build = .ok s) :
    s.state.registry.Ranked := by
  have hdraft := hc.draft
  refine ranked_forM_placeInitially hdraft.placing hc.catalogued.1 (fun n hn m hm => ?_)
    (fun a k hl => absurd hl hdraft.unlisted) (placed_of_build h).1
  obtain ⟨k, hk⟩ := mem_fogNodes_iff.1 hn
  rw [hdraft.orderly.wired.id_fogNode hk] at hm
  rw [fogNode_inj hk hm]

/-! ## The order of registration -/

/-- The builders that any calls can make, failing ones included, each with the heads that its calls
have registered and their levels, in the order of the calls. -/
inductive Registers (admits : Time → Payload → Prop) :
    List (EntityId × Level) → Builder → Prop where
  /-- A new builder. -/
  | start {s : Settings} {c : Builder} (h : Builder.start s = .ok c) : Registers admits [] c
  /-- A head is added, which never fails, and the call answers with its number. -/
  | puddleHead {heads : List (EntityId × Level)} {c d : Builder} {id : EntityId}
      (hc : Registers admits heads c) (name : String) (level : Level) (coverage : Polygon Float)
      (anchor : Point Float) (h : Builder.puddleHead name level coverage anchor c = .ok id d) :
      Registers admits (heads ++ [(id, level)]) d
  /-- A head is put below another. -/
  | attach {heads : List (EntityId × Level)} {c : Builder} (hc : Registers admits heads c)
      (child parent : EntityId) : Registers admits heads (stateOf (Builder.attach child parent c))
  /-- A node is added. -/
  | fogNode {heads : List (EntityId × Level)} {c : Builder} (hc : Registers admits heads c)
      (spec : NodeSpec) : Registers admits heads (stateOf (Builder.fogNode spec c))
  /-- A link is added. -/
  | link {heads : List (EntityId × Level)} {c : Builder} (hc : Registers admits heads c)
      (first second : EntityId) (latency bandwidth : Float) :
      Registers admits heads (stateOf (Builder.link first second latency bandwidth c))
  /-- A message is to be delivered. -/
  | schedule {heads : List (EntityId × Level)} {c : Builder} (hc : Registers admits heads c)
      {due : Time} {sender receiver : EntityId} {message : Message}
      (h : admits due (.deliver sender receiver message)) :
      Registers admits heads (c.schedule due sender receiver message)

variable {admits : Time → Payload → Prop} {heads : List (EntityId × Level)} {c d : Builder}

theorem Registers.made (hc : c.Registers admits heads) : c.Made admits := by
  induction hc with
  | start h => exact .start h
  | puddleHead _ name level coverage anchor h ih =>
    have hmade := ih.puddleHead name level coverage anchor
    rwa [h] at hmade
  | attach _ child parent ih => exact ih.attach child parent
  | fogNode _ spec ih => exact ih.fogNode spec
  | link _ first second latency bandwidth ih => exact ih.link first second latency bandwidth
  | schedule _ h ih => exact ih.schedule h

/-- Every builder that can be made has a list of the heads that were registered. -/
theorem Made.registers (hc : c.Made admits) : ∃ heads, c.Registers admits heads := by
  induction hc with
  | start h => exact ⟨[], .start h⟩
  | @puddleHead c hc name level coverage anchor ih =>
    obtain ⟨heads, ih⟩ := ih
    have hadded := hc.puddleHead_ok name level coverage anchor
    rw [hadded]
    exact ⟨_, ih.puddleHead name level coverage anchor hadded⟩
  | attach _ child parent ih => exact ih.imp fun _ ih => ih.attach child parent
  | fogNode _ spec ih => exact ih.imp fun _ ih => ih.fogNode spec
  | link _ first second latency bandwidth ih =>
    exact ih.imp fun _ ih => ih.link first second latency bandwidth
  | schedule _ h ih => exact ih.imp fun _ ih => ih.schedule h

/-- The heads of a level among the registered ones. -/
def ofLevel (heads : List (EntityId × Level)) (level : Level) : List EntityId :=
  (heads.filter fun e => e.2 = level).map Prod.fst

theorem ofLevel_append (heads : List (EntityId × Level)) (id : EntityId) (l level : Level) :
    ofLevel (heads ++ [(id, l)]) level = ofLevel heads level ++ if l = level then [id] else [] := by
  unfold ofLevel
  rw [List.filter_append, List.map_append]
  split_ifs with hl
  · simp [hl]
  · simp [hl]

/-- The broker of a registry lists the heads of each level in some order. -/
def Lines (r : Registry) (broker : EntityId) (heads : List (EntityId × Level)) : Prop :=
  ∀ ⦃b⦄, r.broker broker = .ok b → ∀ level, b.headsAt level = ofLevel heads level

theorem Lines.amend (hr : Lines r broker heads) (hbroker : r.kind broker = .ok .broker)
    (hq : Amended r q) : Lines q broker heads := by
  obtain ⟨b, hb⟩ := kind_eq_broker_iff.1 hbroker
  obtain ⟨b', hb', hheads, -⟩ := hq.broker_of_old hb
  intro d hd level
  rw [← Except.ok.inj (hb'.symm.trans hd), Broker.headsAt, hheads]
  exact hr hb level

theorem Lines.touch (hr : Lines r broker heads) (ht : t.Faithful) :
    Lines (r.touch t) broker heads := by
  intro d hd level
  obtain ⟨b, hb, rfl⟩ := broker_touch_iff.1 hd
  rw [Broker.headsAt, (ht.broker broker b).headsByLevel]
  exact hr hb level

/-- The broker lists the heads of each level in the order of registration. -/
theorem Registers.lines (hc : c.Registers admits heads) : Lines c.registry c.broker heads := by
  induction hc with
  | @start s c h =>
    obtain ⟨-, rfl⟩ := start_eq_ok h
    intro b hb level
    rw [broker_eq_ok_iff] at hb
    rcases get?_put_cases hb with ⟨-, hb⟩ | ⟨-, hb⟩
    · cases hb
      rfl
    · cases hb
  | @puddleHead heads c d id hc name level coverage anchor h ih =>
    obtain ⟨b, hb⟩ := kind_eq_broker_iff.1 hc.made.draft.broker
    have hcat := hc.made.catalogued.1
    rw [puddleHead_ok hcat hb] at h
    cases h
    intro b' hb' l
    rw [← Except.ok.inj ((broker_noted hcat hb).symm.trans hb'), headsAt_registerHead, ih hb,
      ofLevel_append]
  | @fogNode heads c hc spec ih =>
    obtain ⟨b, hb⟩ := kind_eq_broker_iff.1 hc.made.draft.broker
    have hcat := hc.made.catalogued.1
    obtain ⟨motion, generator, -, hadded⟩ := exists_fogNode_ok hcat hb spec
    rw [hadded]
    intro b' hb' l
    rw [← Except.ok.inj ((broker_noted hcat hb).symm.trans hb')]
    exact ih hb l
  | @attach heads c hc child parent ih =>
    rw [stateOf_attach]
    exact ih.amend hc.made.draft.broker (Amends.adoptChild parent child c.registry)
  | @link heads c hc first second latency bandwidth ih =>
    rw [stateOf_link]
    exact ih.amend hc.made.draft.broker
      (amends_addLink c.broker first second latency bandwidth c.registry)
  | schedule _ _ ih => exact ih

/-- The broker of a finished network lists the heads of each level in the order of registration. -/
theorem lines_of_build {s : Session World Payload} (hc : c.Registers admits heads)
    (h : c.build = .ok s) : Lines s.state.registry s.state.broker heads := by
  rw [(placed_of_build h).2.1]
  exact hc.lines.amend hc.made.draft.broker (amended_of_build h)

end Builder

end FogNet
