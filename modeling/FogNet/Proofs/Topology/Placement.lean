import FogNet.Proofs.Topology.Reliability

/-!
# Who is placed

Completing a network leaves nodes and heads as they are described, and whether a head covers a node
depends on their descriptions alone (`Registry.covered_iff`). So every node is judged as if it came
first, and in a finished network exactly the nodes that a head of their level covers are listed
(`Builder.listed_of_build`).
-/

namespace FogNet

open Registry

/-! ## What is shown -/

namespace Registry

variable {r q : Registry} {k a : EntityId} {p : Particulars} {h : PuddleHead} {n : FogNode}
  {name : String} {level : Level} {corners : List (Point Float)} {anchor : Point Float}

theorem Shows.inj {p' : Particulars} (hp : r.Shows k p) (hp' : r.Shows k p') : p = p' := by
  obtain ⟨e, he, hp⟩ := hp
  obtain ⟨d, hd, hp'⟩ := hp'
  obtain rfl := Option.some.inj (he.symm.trans hd)
  exact Option.some.inj (hp.symm.trans hp')

theorem shows_of_puddleHead (hh : r.puddleHead k = .ok h) : r.Shows k h.particulars :=
  ⟨_, puddleHead_eq_ok_iff.1 hh, rfl⟩

theorem shows_of_fogNode (hn : r.fogNode k = .ok n) : r.Shows k n.particulars :=
  ⟨_, fogNode_eq_ok_iff.1 hn, rfl⟩

theorem exists_puddleHead_of_shows (hk : r.Shows k (.puddleHead name level corners anchor)) :
    ∃ g, r.puddleHead k = .ok g ∧ g.particulars = .puddleHead name level corners anchor := by
  obtain ⟨e, he, hp⟩ := hk
  cases e with
  | puddleHead g => exact ⟨g, puddleHead_eq_ok_iff.2 he, Option.some.inj hp⟩
  | fogNode | link | broker => cases hp

theorem exists_fogNode_of_shows {bounds : Rectangle Float} {mobile : Bool} {c : Characteristics}
    (hk : r.Shows k (.fogNode name level anchor bounds mobile c)) :
    ∃ m, r.fogNode k = .ok m ∧ m.particulars = .fogNode name level anchor bounds mobile c := by
  obtain ⟨e, he, hp⟩ := hk
  cases e with
  | fogNode m => exact ⟨m, fogNode_eq_ok_iff.2 he, Option.some.inj hp⟩
  | puddleHead | link | broker => cases hp

/-- Only nodes and heads are described. -/
theorem Shows.sited (hk : r.Shows k p) : r.Sited k := by
  obtain ⟨e, he, hp⟩ := hk
  cases e with
  | fogNode n => exact .inl (kind_eq_ok_iff.2 ⟨_, he, rfl⟩)
  | puddleHead h => exact .inr (kind_eq_ok_iff.2 ⟨_, he, rfl⟩)
  | link | broker => cases hp

end Registry

/-- What is described is a head of a level whose area holds a point. -/
def Particulars.Covers (p : Particulars) (level : Level) (position : Point Float) : Prop :=
  ∃ name anchor, ∃ area : Polygon Float,
    p = .puddleHead name level area.vertices anchor ∧ area.contains position = true

namespace Registry

variable {r q : Registry} {k : EntityId} {n : FogNode}

/-- Whether a head covers a node depends on what is described. -/
theorem covered_iff : r.Covered n ↔ ∃ a p, r.Shows a p ∧ p.Covers n.level n.position := by
  constructor
  · rintro ⟨a, h, hh, hlevel, hcovers⟩
    refine ⟨a, _, shows_of_puddleHead hh, h.name, h.anchor, h.coverage, ?_, hcovers⟩
    rw [← hlevel]
    rfl
  · rintro ⟨a, p, hp, name, anchor, area, rfl, harea⟩
    obtain ⟨g, hg, hsame⟩ := exists_puddleHead_of_shows hp
    obtain ⟨-, hlevel, hcorners, -⟩ := Particulars.puddleHead.inj hsame
    have hcoverage : g.coverage = area := Polygon.eq_of_vertices hcorners
    exact ⟨a, g, hg, hlevel, by rwa [PuddleHead.covers, hcoverage]⟩

theorem Amended.covered_iff (hq : Amended r q) : q.Covered n ↔ r.Covered n := by
  simp only [Registry.covered_iff, hq.shows_iff]

end Registry

/-! ## Who is listed -/

namespace Builder

variable {r q : Registry} {s : Settings} {broker k : EntityId} {n : FogNode} {l : List FogNode}
  {u : Unit} {admits : Time → Payload → Prop} {b : Builder}

/-- Placing a node lists it if a head covers it, and lists nobody else. -/
theorem Placing.listed_iff (hr : Placing r broker (n :: l)) (hcat : r.Catalogued broker)
    (h : placeInitially s broker n r = .ok u q) :
    (∃ a, q.Lists a k) ↔ (∃ a, r.Lists a k) ∨ k = n.id ∧ r.Covered n := by
  obtain ⟨b, hb⟩ := kind_eq_broker_iff.1 hr.kind
  simp only [hr.lists_iff h hb, exists_or, exists_and_left,
    hcat.exists_findHead_iff hr.orderly.wired hb]

/-- Placing nodes one after the other lists those that a head covers. -/
theorem Placing.forM_listed_iff (hr : Placing r broker l) (hcat : r.Catalogued broker)
    (h : l.forM (placeInitially s broker) r = .ok u q) :
    (∃ a, q.Lists a k) ↔ (∃ a, r.Lists a k) ∨ ∃ n ∈ l, k = n.id ∧ r.Covered n := by
  -- who is listed or is going to be stays the same
  have hkept := hr.forM_keeps (P := fun rest q =>
    ((∃ a, q.Lists a k) ∨ ∃ n ∈ rest, k = n.id ∧ q.Covered n) ↔
      (∃ a, r.Lists a k) ∨ ∃ n ∈ l, k = n.id ∧ r.Covered n) ?_ hcat h Iff.rfl
  · simpa using hkept
  · intro n rest v r q hr hcat hplace hamend hsame
    rw [← hsame, hr.listed_iff hcat hplace, or_assoc, List.exists_mem_cons_iff]
    simp only [hamend.covered_iff]

/-- In a finished network the nodes that a head of their level covers are listed, and no others. -/
theorem listed_of_build {session : Session World Payload} (hb : Made admits b)
    (h : b.build = .ok session) : (∃ a, session.state.registry.Lists a k) ↔
      ∃ n, b.registry.fogNode k = .ok n ∧ b.registry.Covered n := by
  rw [hb.draft.placing.forM_listed_iff hb.catalogued.1 (placed_of_build h).1,
    or_iff_right fun ⟨_, hl⟩ => hb.draft.unlisted hl]
  constructor
  · rintro ⟨n, hn, rfl, hcovered⟩
    obtain ⟨k, hk⟩ := mem_fogNodes_iff.1 hn
    exact ⟨n, hb.draft.orderly.wired.id_fogNode hk ▸ hk, hcovered⟩
  · rintro ⟨n, hn, hcovered⟩
    exact ⟨n, mem_fogNodes_iff.2 ⟨k, hn⟩, (hb.draft.orderly.wired.id_fogNode hn).symm, hcovered⟩

end Builder

end FogNet
