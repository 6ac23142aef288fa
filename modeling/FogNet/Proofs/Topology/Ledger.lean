import FogNet.Proofs.Topology.Placement

/-!
# What the calls have added

A `Ledger` holds what calls on a builder have added: heads and nodes with the numbers that the calls
have answered with, and messages, in the order of the calls (`Builder.Records`). A registry `Agrees`
with a ledger if it shows what the ledger describes and nothing else, and if its broker lists the
heads of each level in the order of the ledger. So a search for a head is a search in the ledger
(`Ledger.Agrees.findHead_eq`), and amendments do not change what it finds.
-/

namespace FogNet

open Registry

/-- The description of a new head. -/
structure HeadSpec where
  /-- Its name. -/
  name : String
  /-- Its level. -/
  level : Level
  /-- The area it is responsible for. -/
  coverage : Polygon Float
  /-- Where it stands. -/
  anchor : Point Float

/-- What a head is described with. -/
def HeadSpec.particulars (spec : HeadSpec) : Particulars :=
  .puddleHead spec.name spec.level spec.coverage.vertices spec.anchor

/-- What calls on a builder have added, in the order of the calls. -/
structure Ledger where
  /-- The heads with their numbers. -/
  heads : List (EntityId × HeadSpec)
  /-- The nodes with their numbers. -/
  nodes : List (EntityId × NodeSpec)
  /-- The messages to be delivered, with their instants. -/
  messages : List (Time × Payload)

namespace Ledger

/-- The ledger of a new builder. -/
def empty : Ledger := ⟨[], [], []⟩

/-- The heads and nodes, each as it is described. -/
def described (l : Ledger) : List (EntityId × Particulars) :=
  l.heads.map (fun e => (e.1, e.2.particulars)) ++ l.nodes.map fun e => (e.1, e.2.particulars)

/-- The first head of a level that has an area around a point. -/
def headAt (l : Ledger) (level : Level) (p : Point Float) : Option EntityId :=
  (l.heads.find? fun e => decide (e.2.level = level) && e.2.coverage.contains p).map Prod.fst

/-- The head in whose puddle a node starts. -/
def home (l : Ledger) (spec : NodeSpec) : Option EntityId := l.headAt spec.level spec.start

/-- The nodes that start in the puddle of a head. -/
def residents (l : Ledger) (head : EntityId) : List EntityId :=
  (l.nodes.filter fun e => decide (l.home e.2 = some head)).map Prod.fst

/-- The first reports of the nodes that move. -/
def timers (l : Ledger) (due : Time) : List (Time × Payload) :=
  (l.nodes.filter fun e => e.2.mobile).map fun e => (due, .deliver e.1 e.1 .updateLocation)

variable {l : Ledger} {k : EntityId} {p : Particulars}

theorem mem_described_iff : (k, p) ∈ l.described ↔
    (∃ spec, (k, spec) ∈ l.heads ∧ spec.particulars = p) ∨
      ∃ spec, (k, spec) ∈ l.nodes ∧ spec.particulars = p := by
  simp [described]

theorem mem_described_addHead {id : EntityId} {spec : HeadSpec} :
    (k, p) ∈ { l with heads := l.heads ++ [(id, spec)] }.described ↔
      (k, p) ∈ l.described ∨ k = id ∧ spec.particulars = p := by
  simp only [mem_described_iff, List.mem_append, List.mem_singleton, Prod.mk.injEq, or_and_right,
    exists_or, and_assoc, exists_and_left, exists_eq_left]
  rw [or_right_comm]

theorem mem_described_addNode {id : EntityId} {spec : NodeSpec} :
    (k, p) ∈ { l with nodes := l.nodes ++ [(id, spec)] }.described ↔
      (k, p) ∈ l.described ∨ k = id ∧ spec.particulars = p := by
  simp only [mem_described_iff, List.mem_append, List.mem_singleton, Prod.mk.injEq, or_and_right,
    exists_or, and_assoc, exists_and_left, exists_eq_left]
  rw [or_assoc]

end Ledger

variable {l : Ledger} {r q : Registry} {broker k : EntityId} {level : Level} {b : Broker}
  {n : FogNode} {h : PuddleHead} {c d : Builder}

/-! ## Registries that agree with a ledger -/

namespace Ledger

open Builder

/-- A registry holds what a ledger says, and its broker knows the order. -/
structure Agrees (l : Ledger) (r : Registry) (broker : EntityId) : Prop where
  /-- The heads of each level are listed in the order of the ledger. -/
  lines : Lines r broker (l.heads.map fun e => (e.1, e.2.level))
  /-- What is shown is what the ledger describes. -/
  shows : ∀ k p, r.Shows k p ↔ (k, p) ∈ l.described

namespace Agrees

theorem amend (hl : l.Agrees r broker) (hbroker : r.kind broker = .ok .broker)
    (hq : Amended r q) : l.Agrees q broker :=
  ⟨hl.lines.amend hbroker hq, fun k p => hq.shows_iff.trans (hl.shows k p)⟩

theorem exists_puddleHead (hl : l.Agrees r broker) {spec : HeadSpec} (hk : (k, spec) ∈ l.heads) :
    ∃ h, r.puddleHead k = .ok h ∧ ∀ p, h.covers p = spec.coverage.contains p := by
  have hshows := (hl.shows k spec.particulars).2 (mem_described_iff.2 (.inl ⟨spec, hk, rfl⟩))
  obtain ⟨h, hh, hsame⟩ := exists_puddleHead_of_shows hshows
  have hcoverage : h.coverage = spec.coverage :=
    Polygon.eq_of_vertices (Particulars.puddleHead.inj hsame).2.2.1
  exact ⟨h, hh, fun p => by rw [PuddleHead.covers, hcoverage]⟩

theorem exists_fogNode (hl : l.Agrees r broker) {spec : NodeSpec} (hk : (k, spec) ∈ l.nodes) :
    ∃ n, r.fogNode k = .ok n ∧ n.particulars = spec.particulars :=
  exists_fogNode_of_shows
    ((hl.shows k spec.particulars).2 (mem_described_iff.2 (.inr ⟨spec, hk, rfl⟩)))

theorem exists_nodeSpec (hl : l.Agrees r broker) (hn : r.fogNode k = .ok n) :
    ∃ spec, (k, spec) ∈ l.nodes ∧ n.particulars = spec.particulars := by
  rcases mem_described_iff.1 ((hl.shows _ _).1 (shows_of_fogNode hn)) with
    ⟨spec, -, hsame⟩ | ⟨spec, hk, hsame⟩
  · cases hsame
  · exact ⟨spec, hk, hsame.symm⟩

theorem exists_headSpec (hl : l.Agrees r broker) (hh : r.puddleHead k = .ok h) :
    ∃ spec, (k, spec) ∈ l.heads := by
  rcases mem_described_iff.1 ((hl.shows _ _).1 (shows_of_puddleHead hh)) with
    ⟨spec, hk, -⟩ | ⟨spec, -, hsame⟩
  · exact ⟨spec, hk⟩
  · cases hsame

theorem kind_fogNode_iff (hl : l.Agrees r broker) :
    r.kind k = .ok .fogNode ↔ k ∈ l.nodes.map Prod.fst := by
  rw [kind_eq_fogNode_iff, List.mem_map]
  constructor
  · rintro ⟨n, hn⟩
    obtain ⟨spec, hk, -⟩ := hl.exists_nodeSpec hn
    exact ⟨_, hk, rfl⟩
  · rintro ⟨e, he, rfl⟩
    obtain ⟨n, hn, -⟩ := hl.exists_fogNode he
    exact ⟨n, hn⟩

theorem kind_puddleHead_iff (hl : l.Agrees r broker) :
    r.kind k = .ok .puddleHead ↔ k ∈ l.heads.map Prod.fst := by
  rw [kind_eq_puddleHead_iff, List.mem_map]
  constructor
  · rintro ⟨h, hh⟩
    obtain ⟨spec, hk⟩ := hl.exists_headSpec hh
    exact ⟨_, hk, rfl⟩
  · rintro ⟨e, he, rfl⟩
    obtain ⟨h, hh, -⟩ := hl.exists_puddleHead he
    exact ⟨h, hh⟩

/-- The first of some heads that covers a point is found by what they are described with. -/
theorem firstCovering_eq (p : Point Float) {heads : List (EntityId × HeadSpec)}
    (hheads : ∀ e ∈ heads, ∃ h, r.puddleHead e.1 = .ok h ∧
      ∀ p, h.covers p = e.2.coverage.contains p) :
    r.firstCovering p (ofLevel (heads.map fun e => (e.1, e.2.level)) level) =
      .ok ((heads.find? fun e => decide (e.2.level = level) && e.2.coverage.contains p).map
        Prod.fst) := by
  induction heads with
  | nil => rfl
  | cons e rest ih =>
    obtain ⟨⟨h, hh, hcovers⟩, hrest⟩ := List.forall_mem_cons.1 hheads
    have ih := ih hrest
    unfold ofLevel at ih ⊢
    rw [List.map_cons, List.filter_cons, List.find?_cons]
    by_cases hlevel : e.2.level = level
    · rw [if_pos (decide_eq_true hlevel), decide_eq_true hlevel, Bool.true_and, List.map_cons,
        firstCovering]
      simp only [hh, hcovers]
      cases e.2.coverage.contains p
      · exact ih
      · rfl
    · rw [if_neg (by simpa using hlevel), decide_eq_false hlevel, Bool.false_and]
      exact ih

/-- The broker finds the first head of the ledger. -/
theorem findHead_eq (hl : l.Agrees r broker) (hb : r.broker broker = .ok b) (level : Level)
    (p : Point Float) : r.findHead b level p = .ok (l.headAt level p) := by
  unfold findHead
  rw [hl.lines hb level]
  exact firstCovering_eq p fun e he => hl.exists_puddleHead he

end Agrees

end Ledger

/-! ## The calls on a builder -/

namespace Builder

/-- The builders that any calls can make, failing ones included, each with the ledger of its
calls. -/
inductive Records : Ledger → Builder → Prop where
  /-- A new builder. -/
  | start {s : Settings} {c : Builder} (h : Builder.start s = .ok c) : Records .empty c
  /-- A head is added, which never fails, and the call answers with its number. -/
  | puddleHead {l : Ledger} {c d : Builder} {id : EntityId} (hc : Records l c) (spec : HeadSpec)
      (h : Builder.puddleHead spec.name spec.level spec.coverage spec.anchor c = .ok id d) :
      Records { l with heads := l.heads ++ [(id, spec)] } d
  /-- A head is put below another. -/
  | attach {l : Ledger} {c : Builder} (hc : Records l c) (child parent : EntityId) :
      Records l (stateOf (Builder.attach child parent c))
  /-- A node is added, which never fails, and the call answers with its number. -/
  | fogNode {l : Ledger} {c d : Builder} {id : EntityId} (hc : Records l c) (spec : NodeSpec)
      (h : Builder.fogNode spec c = .ok id d) :
      Records { l with nodes := l.nodes ++ [(id, spec)] } d
  /-- A link is added. -/
  | link {l : Ledger} {c : Builder} (hc : Records l c) (first second : EntityId)
      (latency bandwidth : Float) :
      Records l (stateOf (Builder.link first second latency bandwidth c))
  /-- A message is to be delivered. -/
  | schedule {l : Ledger} {c : Builder} (hc : Records l c) (due : Time)
      (sender receiver : EntityId) (message : Message) :
      Records { l with messages := l.messages ++ [(due, .deliver sender receiver message)] }
        (c.schedule due sender receiver message)

namespace Records

theorem made (hc : c.Records l) : c.Made fun _ _ => True := by
  induction hc with
  | start h => exact .start h
  | puddleHead _ spec h ih =>
    have hmade := ih.puddleHead spec.name spec.level spec.coverage spec.anchor
    rwa [h] at hmade
  | attach _ child parent ih => exact ih.attach child parent
  | fogNode _ spec h ih =>
    have hmade := ih.fogNode spec
    rwa [h] at hmade
  | link _ first second latency bandwidth ih => exact ih.link first second latency bandwidth
  | schedule _ due sender receiver message ih => exact ih.schedule trivial

theorem addHead (hc : c.Records l) (spec : HeadSpec) :
    Records { l with heads := l.heads ++ [(c.registry.nextId, spec)] }
      (stateOf (Builder.puddleHead spec.name spec.level spec.coverage spec.anchor c)) := by
  have hadded := hc.made.puddleHead_ok spec.name spec.level spec.coverage spec.anchor
  rw [hadded]
  exact hc.puddleHead spec hadded

theorem addNode (hc : c.Records l) (spec : NodeSpec) :
    Records { l with nodes := l.nodes ++ [(c.registry.nextId, spec)] }
      (stateOf (Builder.fogNode spec c)) := by
  obtain ⟨motion, generator, -, hadded⟩ := hc.made.exists_fogNode_ok spec
  rw [hadded]
  exact hc.fogNode spec hadded

end Records

/-- Every builder that can be made has a ledger. -/
theorem Made.exists_records {admits : Time → Payload → Prop} (hc : c.Made admits) :
    ∃ l, c.Records l := by
  induction hc with
  | start h => exact ⟨.empty, .start h⟩
  | puddleHead _ name level coverage anchor ih =>
    exact ih.elim fun _ ih => ⟨_, ih.addHead ⟨name, level, coverage, anchor⟩⟩
  | attach _ child parent ih => exact ih.imp fun _ ih => ih.attach child parent
  | fogNode _ spec ih => exact ih.elim fun _ ih => ⟨_, ih.addNode spec⟩
  | link _ first second latency bandwidth ih =>
    exact ih.imp fun _ ih => ih.link first second latency bandwidth
  | schedule _ _ ih => exact ih.elim fun _ ih => ⟨_, ih.schedule _ _ _ _⟩

namespace Records

/-- The heads that the ledger tells of are those that have been registered. -/
theorem registers (hc : c.Records l) :
    c.Registers (fun _ _ => True) (l.heads.map fun e => (e.1, e.2.level)) := by
  induction hc with
  | start h => exact .start h
  | puddleHead _ spec h ih =>
    rw [List.map_append]
    exact ih.puddleHead spec.name spec.level spec.coverage spec.anchor h
  | attach _ child parent ih => exact ih.attach child parent
  | @fogNode l c d id _ spec h ih =>
    have hadded := ih.fogNode spec
    rwa [h] at hadded
  | link _ first second latency bandwidth ih => exact ih.link first second latency bandwidth
  | schedule _ due sender receiver message ih => exact ih.schedule trivial

theorem shows_iff (hc : c.Records l) (k : EntityId) (p : Particulars) :
    c.registry.Shows k p ↔ (k, p) ∈ l.described := by
  induction hc with
  | start h =>
    obtain ⟨-, rfl⟩ := start_eq_ok h
    refine iff_of_false ?_ List.not_mem_nil
    rintro ⟨e, he, hp⟩
    rcases get?_put_cases he with ⟨-, rfl⟩ | ⟨-, he⟩
    · cases hp
    · cases he
  | @puddleHead l c d id hc spec h ih =>
    rw [hc.made.puddleHead_ok] at h
    cases h
    rw [shows_noted_iff hc.made.catalogued.1, ih, Ledger.mem_described_addHead]
    exact or_congr_right (and_congr_right fun _ => Option.some_inj)
  | @fogNode l c d id hc spec h ih =>
    obtain ⟨motion, generator, hbegins, hadded⟩ := hc.made.exists_fogNode_ok spec
    rw [hadded] at h
    cases h
    rw [shows_noted_iff hc.made.catalogued.1, ih, Ledger.mem_described_addNode,
      ← hbegins.particulars k]
    exact or_congr_right (and_congr_right fun _ => Option.some_inj)
  | @attach l c hc child parent ih =>
    rw [stateOf_attach]
    exact (Change.Amends.adoptChild parent child c.registry).shows_iff.trans ih
  | @link l c hc first second latency bandwidth ih =>
    rw [stateOf_link]
    exact (amends_addLink c.broker first second latency bandwidth c.registry).shows_iff.trans ih
  | schedule _ _ _ _ _ ih => exact ih

theorem agrees (hc : c.Records l) : l.Agrees c.registry c.broker :=
  ⟨hc.registers.lines, hc.shows_iff⟩

theorem scripted_eq (hc : c.Records l) : c.scripted = l.messages := by
  induction hc with
  | start h =>
    obtain ⟨-, rfl⟩ := start_eq_ok h
    rfl
  | @puddleHead l c d id hc spec h ih =>
    rw [hc.made.puddleHead_ok] at h
    cases h
    exact ih
  | @fogNode l c d id hc spec h ih =>
    obtain ⟨motion, generator, -, hadded⟩ := hc.made.exists_fogNode_ok spec
    rw [hadded] at h
    cases h
    exact ih
  | attach _ child parent ih =>
    rw [stateOf_attach]
    exact ih
  | link _ first second latency bandwidth ih =>
    rw [stateOf_link]
    exact ih
  | schedule _ due sender receiver message ih => exact congrArg (· ++ _) ih

/-- Nodes get their numbers in increasing order. -/
theorem ascending (hc : c.Records l) : (l.nodes.map Prod.fst).Pairwise (· < ·) := by
  induction hc with
  | start h => exact List.Pairwise.nil
  | puddleHead _ _ _ ih => exact ih
  | attach _ _ _ ih => exact ih
  | link _ _ _ _ _ ih => exact ih
  | schedule _ _ _ _ _ ih => exact ih
  | @fogNode l c d id hc spec h ih =>
    obtain ⟨motion, generator, -, hadded⟩ := hc.made.exists_fogNode_ok spec
    rw [hadded] at h
    cases h
    rw [List.map_append]
    refine List.pairwise_append.2 ⟨ih, List.pairwise_singleton _ _, fun k hk id hid => ?_⟩
    obtain ⟨e, he, rfl⟩ := List.mem_map.1 hk
    obtain ⟨n, hn, -⟩ := hc.agrees.exists_fogNode he
    rw [List.mem_singleton.1 hid]
    exact hc.made.catalogued.1.numbers (fogNode_eq_ok_iff.1 hn)

end Records

end Builder

end FogNet
