import FogNet.Proofs.Run.Intervention
import FogNet.Proofs.Scenario.Assembly

/-!
# Which scenarios can be built

A scenario can be built if and only if it is consistent, and then everything that it describes is
found under its name (`Scenario.judged`). Whether a node is covered decides twice, when it is to be
linked to its head and when a module is to be placed on it. Both times the answer depends on what is
described and not on how far the network has come (`Builder.Stocked.covered_iff`), and placing a
module leaves everybody where they are, so each module is judged as if it came first
(`Scenario.placeAll_cases`).
-/

namespace FogNet

open Registry

/-! ## Placing modules -/

namespace World

variable {w : World} {node head : EntityId}

/-- A module can be placed on a node that is in a puddle, and the node's head keeps it. -/
theorem placeService_of_owned (hw : w.registry.Enrolled) (ho : w.registry.Owns head node)
    (module : String) :
    placeService node module w =
      .ok () { w with registry := w.registry.touch (.onHead head (·.placeService node module)) } ∧
    Amended w.registry (w.registry.touch (.onHead head (·.placeService node module))) := by
  obtain ⟨h, hh, -⟩ := hw.owned ho
  obtain ⟨n, hn, howned⟩ := id ho
  have hupdate := Change.updateHead_of_ok (·.placeService node module) hh
  constructor
  · unfold placeService change
    rw [Change.bind_of_ok (Change.fogNode_of_ok hn), (owns_iff_owner? hn).1 ho]
    dsimp only
    rw [hupdate]
  · have hamends := Change.Amends.updateHead head (f := (·.placeService node module))
      (fun _ => rfl) fun _ hb => hb.congr rfl rfl
    exact hamends.of_ok hupdate

/-- A module cannot be placed on a node that is in no puddle. -/
theorem placeService_of_free (hfree : ¬ ∃ a, w.registry.Owns a node) (module : String) :
    ∃ fault, placeService node module w = .error fault w := by
  unfold placeService change
  cases hn : w.registry.fogNode node with
  | error fault =>
    rw [Change.bind_of_error (Change.fogNode_of_error hn)]
    exact ⟨fault, rfl⟩
  | ok n =>
    have howner : n.owner? = none :=
      Option.eq_none_iff_forall_ne_some.2 fun a ha => hfree ⟨a, (owns_iff_owner? hn).2 ha⟩
    rw [Change.bind_of_ok (Change.fogNode_of_ok hn), howner]
    exact ⟨_, rfl⟩

end World

namespace Scenario

variable {w : World}

/-- Modules can be placed if and only if all their nodes are in puddles, and then the registry is
the same but for them. -/
theorem placeAll_cases (hw : w.registry.Orderly) (l : List (EntityId × String)) :
    (¬ (∀ x ∈ l, ∃ a, w.registry.Owns a x.1) ∧ ∃ fault, placeAll l w = .error fault) ∨
      (∀ x ∈ l, ∃ a, w.registry.Owns a x.1) ∧ ∃ q, placeAll l w = .ok { w with registry := q } ∧
        q.Orderly ∧ Amended w.registry q := by
  induction l generalizing w with
  | nil => exact .inr ⟨nofun, w.registry, rfl, hw, .refl _⟩
  | cons x rest ih =>
    obtain ⟨node, module⟩ := x
    rw [List.forall_mem_cons]
    by_cases howned : ∃ a, w.registry.Owns a node
    · obtain ⟨a, ha⟩ := howned
      obtain ⟨hplace, hamend⟩ := World.placeService_of_owned hw.enrolled ha module
      have hslight := Touch.Slight.onServices a node module
      -- nobody moves by it, so the rest is asked of the same owners as before
      have hrest := ih (w := { w with registry := w.registry.touch _ }) (hslight.orderly hw)
      simp only [hslight.owns_iff] at hrest
      rw [placeAll, hplace]
      rcases hrest with ⟨hno, hfail⟩ | ⟨hall, q, hok, hq, hrestAmended⟩
      · exact .inl ⟨fun h => hno h.2, hfail⟩
      · exact .inr ⟨⟨⟨a, ha⟩, hall⟩, q, hok, hq, hamend.trans hrestAmended⟩
    · obtain ⟨fault, hfail⟩ := World.placeService_of_free howned module
      refine .inl ⟨fun h => howned h.1, fault, ?_⟩
      rw [placeAll, hfail]

end Scenario

/-! ## Finding by name -/

/-- An element is found under its name if no other one has that name. -/
theorem find?_eq_some_of_unique {α : Type} {l : List α} (name : α → String) {a : α} (ha : a ∈ l)
    (hunique : ∀ x ∈ l, name x = name a → x = a) :
    l.find? (fun x => name x == name a) = some a := by
  cases hfind : l.find? (fun x => name x == name a) with
  | none => exact absurd (beq_self_eq_true (name a)) (List.find?_eq_none.1 hfind a ha)
  | some x =>
    have hname := List.find?_some hfind
    rw [hunique x (List.mem_of_find?_eq_some hfind) (beq_iff_eq.1 hname)]

namespace World

variable {w : World} {k : EntityId}

theorem findHead_eq_some {h : PuddleHead} (hw : w.registry.Wired)
    (hh : w.registry.puddleHead k = .ok h)
    (hunique : ∀ ⦃a g⦄, w.registry.puddleHead a = .ok g → g.name = h.name → a = k) :
    w.findHead h.name = some k := by
  unfold findHead
  rw [find?_eq_some_of_unique PuddleHead.name (mem_puddleHeads_iff.2 ⟨k, hh⟩),
    Option.map_some, hw.id_puddleHead hh]
  intro g hg hname
  obtain ⟨a, hg⟩ := mem_puddleHeads_iff.1 hg
  obtain rfl := hunique hg hname
  exact puddleHead_inj hg hh

theorem findNode_eq_some {n : FogNode} (hw : w.registry.Wired)
    (hn : w.registry.fogNode k = .ok n)
    (hunique : ∀ ⦃a m⦄, w.registry.fogNode a = .ok m → m.name = n.name → a = k) :
    w.findNode n.name = some k := by
  unfold findNode
  rw [find?_eq_some_of_unique FogNode.name (mem_fogNodes_iff.2 ⟨k, hn⟩),
    Option.map_some, hw.id_fogNode hn]
  intro m hm hname
  obtain ⟨a, hm⟩ := mem_fogNodes_iff.1 hm
  obtain rfl := hunique hm hname
  exact fogNode_inj hm hn

end World

namespace Builder

variable {s : Scenario} {names : Names} {b : Builder} {w : World} {i : Nat}

theorem Stocked.shows_inj {k a : EntityId} {p q : Particulars}
    (hb : Stocked s.settings s.described names b) (hp : b.registry.Shows k p)
    (hq : b.registry.Shows a q) (hname : q.name = p.name) : a = k := by
  have hk := (hb.named p.name k).2 ⟨p, hp, rfl⟩
  have ha := (hb.named p.name a).2 ⟨q, hq, hname⟩
  exact Option.some.inj (ha.symm.trans hk)

/-- However the registry has been amended, a described head is found under its name. -/
theorem Stocked.findHead {h : HeadEntry} (hb : Stocked s.settings s.described names b)
    (hw : w.registry.Wired) (hamend : Amended b.registry w.registry) (hh : s.heads[i]? = some h) :
    w.findHead h.name = some (i + 2) ∧
      ∃ g, w.registry.puddleHead (i + 2) = .ok g ∧ g.particulars = h.particulars := by
  have hdescribed : s.described[i]? = some h.particulars := by
    have hlt : i < s.heads.length := (List.getElem?_eq_some_iff.1 hh).1
    unfold Scenario.described
    rw [List.getElem?_append_left (by rwa [List.length_map]), List.getElem?_map, hh]
    rfl
  have hshown : b.registry.Shows (i + 2) h.particulars := (hb.shows _ _).2 ⟨i, rfl, hdescribed⟩
  obtain ⟨g, hg, hsame⟩ := exists_puddleHead_of_shows (hamend.shows_iff.2 hshown)
  have hname : g.name = h.name := (Particulars.puddleHead.inj hsame).1
  refine ⟨hname ▸ World.findHead_eq_some hw hg fun a x hx hxname => ?_, g, hg, hsame⟩
  exact hb.shows_inj hshown (hamend.shows_iff.1 (shows_of_puddleHead hx)) (hxname.trans hname)

/-- However the registry has been amended, a described node is found under its name. -/
theorem Stocked.findNode {n : NodeEntry} (hb : Stocked s.settings s.described names b)
    (hw : w.registry.Wired) (hamend : Amended b.registry w.registry) (hn : s.nodes[i]? = some n) :
    w.findNode n.name = some (s.heads.length + i + 2) ∧
      ∃ m, w.registry.fogNode (s.heads.length + i + 2) = .ok m ∧
        m.particulars = n.particulars := by
  have hdescribed : s.described[s.heads.length + i]? = some n.particulars := by
    unfold Scenario.described
    rw [List.getElem?_append_right (by rw [List.length_map]; exact Nat.le_add_right _ _),
      List.length_map, Nat.add_sub_cancel_left, List.getElem?_map, hn]
    rfl
  have hshown : b.registry.Shows (s.heads.length + i + 2) n.particulars :=
    (hb.shows _ _).2 ⟨_, rfl, hdescribed⟩
  obtain ⟨m, hm, hsame⟩ := exists_fogNode_of_shows (hamend.shows_iff.2 hshown)
  have hname : m.name = n.name := (Particulars.fogNode.inj hsame).1
  refine ⟨hname ▸ World.findNode_eq_some hw hm fun a x hx hxname => ?_, m, hm, hsame⟩
  exact hb.shows_inj hshown (hamend.shows_iff.1 (shows_of_fogNode hx)) (hxname.trans hname)

end Builder

/-! ## Who is covered -/

/-- A head has the level of a node, and its area holds the point where the node starts. -/
def HeadEntry.Covers (h : HeadEntry) (n : NodeEntry) : Prop :=
  h.level = n.level ∧ ∃ area : Polygon Float, area.vertices = h.coverage ∧
    area.contains n.start = true

/-- A head that is described covers a node. -/
def Scenario.Covers (s : Scenario) (n : NodeEntry) : Prop := ∃ h ∈ s.heads, h.Covers n

theorem HeadEntry.covers_particulars_iff {h : HeadEntry} {n : NodeEntry} :
    h.particulars.Covers n.level n.start ↔ h.Covers n := by
  unfold HeadEntry.Covers
  constructor
  · rintro ⟨name, anchor, area, hsame, harea⟩
    obtain ⟨-, hlevel, hcorners, -⟩ := Particulars.puddleHead.inj hsame
    exact ⟨hlevel, area, hcorners.symm, harea⟩
  · rintro ⟨hlevel, area, hcorners, harea⟩
    refine ⟨h.name, h.anchor, area, ?_, harea⟩
    rw [HeadEntry.particulars, hlevel, hcorners]

/-- Only heads cover. -/
theorem Scenario.exists_covers_iff {s : Scenario} {n : NodeEntry} :
    (∃ p ∈ s.described, p.Covers n.level n.start) ↔ s.Covers n := by
  unfold Scenario.Covers described
  simp only [List.mem_append, List.mem_map]
  constructor
  · rintro ⟨p, ⟨h, hh, rfl⟩ | ⟨m, -, rfl⟩, hp⟩
    · exact ⟨h, hh, HeadEntry.covers_particulars_iff.1 hp⟩
    · obtain ⟨name, anchor, area, hsame, -⟩ := hp
      cases hsame
  · rintro ⟨h, hh, hp⟩
    exact ⟨_, .inl ⟨h, hh, rfl⟩, HeadEntry.covers_particulars_iff.2 hp⟩

namespace Builder

variable {s : Scenario} {names : Names} {b : Builder} {n : NodeEntry} {m : FogNode} {k : EntityId}

/-- A node that is shown is covered if its description is. -/
theorem Stocked.covered_iff (hb : Stocked s.settings s.described names b)
    (hsame : m.particulars = n.particulars) : b.registry.Covered m ↔ s.Covers n := by
  obtain ⟨-, hlevel, hposition, -⟩ := Particulars.fogNode.inj hsame
  rw [Registry.covered_iff, hlevel, hposition, ← Scenario.exists_covers_iff]
  simp only [← hb.exists_shows_iff]
  exact ⟨fun ⟨a, p, hp, hcovers⟩ => ⟨p, ⟨a, hp⟩, hcovers⟩,
    fun ⟨p, ⟨a, hp⟩, hcovers⟩ => ⟨a, p, hp, hcovers⟩⟩

/-- A described node has been registered under the number that its name stands for. -/
theorem Stocked.exists_fogNode (hb : Stocked s.settings s.described names b) (hn : n ∈ s.nodes) :
    ∃ k m, names.lookup n.name = some k ∧ b.registry.fogNode k = .ok m ∧
      m.particulars = n.particulars := by
  have hdescribed : n.particulars ∈ s.described :=
    List.mem_append.2 (.inr (List.mem_map_of_mem hn))
  obtain ⟨k, hk⟩ := hb.exists_shows_iff.2 hdescribed
  obtain ⟨m, hm, hsame⟩ := exists_fogNode_of_shows hk
  exact ⟨k, m, (hb.named _ _).2 ⟨_, hk, rfl⟩, hm, hsame⟩

/-- Some node is covered if some description is. -/
theorem Stocked.exists_covered_iff (hb : Stocked s.settings s.described names b) :
    (∃ k m, b.registry.fogNode k = .ok m ∧ b.registry.Covered m) ↔ ∃ n ∈ s.nodes, s.Covers n := by
  constructor
  · rintro ⟨k, m, hm, hcovered⟩
    have hdescribed : m.particulars ∈ s.described := hb.exists_shows_iff.1 ⟨k, shows_of_fogNode hm⟩
    rcases List.mem_append.1 hdescribed with hin | hin
    · obtain ⟨h, -, hsame⟩ := List.mem_map.1 hin
      cases hsame
    · obtain ⟨n, hn, hsame⟩ := List.mem_map.1 hin
      exact ⟨n, hn, (hb.covered_iff hsame.symm).1 hcovered⟩
  · rintro ⟨n, hn, hcovers⟩
    obtain ⟨k, m, -, hm, hsame⟩ := hb.exists_fogNode hn
    exact ⟨k, m, hm, (hb.covered_iff hsame).2 hcovers⟩

/-- What has been stocked can be completed unless a node that is covered cannot be linked. -/
theorem Stocked.build_ok_iff (hb : Stocked s.settings s.described names b) :
    (∃ session, b.build = .ok session) ↔
      (s.settings.autoLinkMembers = true → (∃ n ∈ s.nodes, s.Covers n) →
        0 ≤ s.settings.memberLinkLatency ∧ 0 < s.settings.memberLinkBandwidth) := by
  have hbuild : (∃ session, b.build = .ok session) ↔
      ¬ (s.settings.Unlinkable ∧ ∃ n ∈ s.nodes, s.Covers n) := by
    rw [← hb.exists_covered_iff, ← hb.settings, ← build_error_iff hb.made]
    cases b.build <;> simp
  rw [hbuild]
  constructor
  · intro h hauto hcovered
    by_contra hbad
    exact h ⟨⟨hauto, hbad⟩, hcovered⟩
  · rintro h ⟨⟨hauto, hbad⟩, hcovered⟩
    exact hbad (h hauto hcovered)

/-- In the finished network a node is in a puddle if and only if it is covered. -/
theorem Stocked.owned_iff {session : Session World Payload}
    (hb : Stocked s.settings s.described names b) (h : b.build = .ok session)
    (hm : b.registry.fogNode k = .ok m) (hsame : m.particulars = n.particulars) :
    (∃ a, session.state.registry.Owns a k) ↔ s.Covers n := by
  have hbuilt := built_of_build hb.made.draft h
  have howns : ∀ a, session.state.registry.Owns a k ↔ session.state.registry.Lists a k := by
    intro a
    refine ⟨hbuilt.orderly.enrolled.owned, fun hl => ?_⟩
    obtain ⟨x, hx⟩ := kind_eq_fogNode_iff.1 (hbuilt.orderly.enrolled.known hl)
    exact ⟨x, hx, ((hbuilt.settled hx).2.2 a).1 hl⟩
  simp only [howns]
  rw [listed_of_build hb.made h, ← hb.covered_iff hsame]
  exact ⟨fun ⟨x, hx, hcovered⟩ => fogNode_inj hx hm ▸ hcovered, fun hcovered => ⟨m, hm, hcovered⟩⟩

/-- The modules can be placed if and only if each node on which some are to run is covered. -/
theorem Stocked.placeAll_ok_iff {session : Session World Payload}
    (hb : Stocked s.settings s.described names b) (h : b.build = .ok session) :
    (∃ w, Scenario.placeAll (s.services names) session.state = .ok w) ↔
      ∀ n ∈ s.nodes, n.services ≠ [] → s.Covers n := by
  have hplace : (∃ w, Scenario.placeAll (s.services names) session.state = .ok w) ↔
      ∀ x ∈ s.services names, ∃ a, session.state.registry.Owns a x.1 := by
    have horderly := (built_of_build hb.made.draft h).orderly
    rcases Scenario.placeAll_cases horderly (s.services names) with
      ⟨hno, fault, hfail⟩ | ⟨hall, q, hq, -⟩
    · rw [hfail]
      exact iff_of_false nofun hno
    · exact iff_of_true ⟨_, hq⟩ hall
  rw [hplace]
  unfold Scenario.services
  rw [List.forall_mem_flatMap]
  refine forall₂_congr fun n hn => ?_
  obtain ⟨k, m, hk, hm, hsame⟩ := hb.exists_fogNode hn
  rw [hk, ← hb.owned_iff h hm hsame]
  simp only [List.forall_mem_map]
  constructor
  · intro hall hsome
    obtain ⟨module, hmodule⟩ := List.exists_mem_of_ne_nil _ hsome
    exact hall module hmodule
  · intro howned module hmodule
    exact howned (List.ne_nil_of_mem hmodule)

end Builder

/-! ## The whole -/

namespace Scenario

open Builder Build

/-- A scenario that makes sense as a whole. -/
structure Consistent (s : Scenario) : Prop extends s.Assemblable where
  /-- Nodes do not report all the time. -/
  interval : 1 ≤ s.settings.locationUpdateInterval
  /-- Signals travel. -/
  speed : 0 < s.settings.propagationSpeed
  /-- A head covers every node on which modules run. -/
  services : ∀ n ∈ s.nodes, n.services ≠ [] → s.Covers n
  /-- Nodes that are to be linked to their heads can be. -/
  members : s.settings.autoLinkMembers = true → (∃ n ∈ s.nodes, s.Covers n) →
    0 ≤ s.settings.memberLinkLatency ∧ 0 < s.settings.memberLinkBandwidth

/-- What building makes of a scenario. The broker has number one, and what is described has the
numbers from two on. -/
structure Judged (s : Scenario) : Prop where
  /-- The consistent scenarios can be built, and no others. -/
  accepted : (∃ session, s.build = .ok session) ↔ s.Consistent
  /-- The name of a head leads to the head that has been made from its description. -/
  heads : ∀ session, s.build = .ok session → ∀ i h, s.heads[i]? = some h →
    session.state.findHead h.name = some (i + 2) ∧
      ∃ g, session.state.registry.puddleHead (i + 2) = .ok g ∧ g.particulars = h.particulars
  /-- The name of a node leads to the node that has been made from its description. -/
  nodes : ∀ session, s.build = .ok session → ∀ i n, s.nodes[i]? = some n →
    session.state.findNode n.name = some (s.heads.length + i + 2) ∧
      ∃ m, session.state.registry.fogNode (s.heads.length + i + 2) = .ok m ∧
        m.particulars = n.particulars

variable {s : Scenario} {session : Session World Payload}

theorem start_ok_iff {c : Settings} :
    (∃ b, Builder.start c = .ok b) ↔ 1 ≤ c.locationUpdateInterval ∧ 0 < c.propagationSpeed := by
  have hvalid : c.validate = .ok () ↔
      1 ≤ c.locationUpdateInterval ∧ 0 < c.propagationSpeed := by
    unfold Settings.validate
    rw [Nat.one_le_iff_ne_zero]
    split_ifs <;> simp [*]
  rw [← hvalid]
  constructor
  · rintro ⟨b, hb⟩
    exact (start_eq_ok hb).1
  · intro hc
    unfold Builder.start
    rw [hc]
    exact ⟨_, rfl⟩

theorem except_bind_eq_ok_iff {ε α β : Type} {x : Except ε α} {f : α → Except ε β} {b : β} :
    (x >>= f) = .ok b ↔ ∃ a, x = .ok a ∧ f a = .ok b := by
  cases x with
  | error e => exact iff_of_false nofun nofun
  | ok a => exact ⟨fun h => ⟨a, rfl, h⟩, fun ⟨_, ha, h⟩ => Except.ok.inj ha ▸ h⟩

/-- Building is starting, assembling, completing and placing modules, in this order. -/
theorem build_eq_ok_iff : s.build = .ok session ↔
    ∃ b names c first world, Builder.start s.settings = .ok b ∧ s.assemble b = .ok names c ∧
      c.build = .ok first ∧ placeAll (s.services names) first.state = .ok world ∧
      session = { first with state := world } := by
  unfold build
  constructor
  · intro h
    obtain ⟨b, hb, h⟩ := except_bind_eq_ok_iff.1 h
    cases hassemble : s.assemble b with
    | error fault c =>
      rw [hassemble] at h
      cases h
    | ok names c =>
      rw [hassemble] at h
      obtain ⟨first, hfirst, h⟩ := except_bind_eq_ok_iff.1 h
      obtain ⟨world, hworld, h⟩ := except_bind_eq_ok_iff.1 h
      exact ⟨b, names, c, first, world, hb, hassemble, hfirst, hworld, (Except.ok.inj h).symm⟩
  · rintro ⟨b, names, c, first, world, hb, hassemble, hfirst, hworld, rfl⟩
    refine except_bind_eq_ok_iff.2 ⟨b, hb, ?_⟩
    rw [hassemble]
    exact except_bind_eq_ok_iff.2 ⟨first, hfirst, except_bind_eq_ok_iff.2 ⟨world, hworld, rfl⟩⟩

/-- What has been built comes from a stocked builder by amendments. -/
theorem stocked_of_build (h : s.build = .ok session) : ∃ names c,
    Stocked s.settings s.described names c ∧ session.state.registry.Wired ∧
      Amended c.registry session.state.registry := by
  obtain ⟨b, names, c, first, world, hb, hassemble, hfirst, hworld, rfl⟩ := build_eq_ok_iff.1 h
  obtain ⟨-, hc⟩ := (demands_assemble hb).of_eq_ok hassemble
  have horderly := (built_of_build hc.made.draft hfirst).orderly
  rcases placeAll_cases horderly (s.services names) with
    ⟨-, fault, hfail⟩ | ⟨-, q, hq, hplaced, hamend⟩
  · cases hworld.symm.trans hfail
  · obtain rfl := Except.ok.inj (hworld.symm.trans hq)
    exact ⟨names, c, hc, hplaced.wired, (amended_of_build hfirst).trans hamend⟩

/-- Exactly the consistent scenarios can be built. -/
theorem exists_build_iff : (∃ session, s.build = .ok session) ↔ s.Consistent := by
  constructor
  · rintro ⟨session, h⟩
    obtain ⟨b, names, c, first, world, hb, hassemble, hfirst, hworld, -⟩ := build_eq_ok_iff.1 h
    obtain ⟨hinterval, hspeed⟩ := start_ok_iff.1 ⟨b, hb⟩
    obtain ⟨hassemblable, hc⟩ := (demands_assemble hb).of_eq_ok hassemble
    have hmembers := hc.build_ok_iff.1 ⟨first, hfirst⟩
    have hservices := (hc.placeAll_ok_iff hfirst).1 ⟨world, hworld⟩
    exact ⟨hassemblable, hinterval, hspeed, hservices, hmembers⟩
  · rintro ⟨hassemblable, hinterval, hspeed, hservices, hmembers⟩
    obtain ⟨b, hb⟩ := start_ok_iff.2 ⟨hinterval, hspeed⟩
    obtain ⟨names, c, hassemble, hc⟩ := (demands_assemble hb).ok hassemblable
    obtain ⟨first, hfirst⟩ := hc.build_ok_iff.2 hmembers
    obtain ⟨world, hworld⟩ := (hc.placeAll_ok_iff hfirst).2 hservices
    exact ⟨_, build_eq_ok_iff.2
      ⟨b, names, c, first, world, hb, hassemble, hfirst, hworld, rfl⟩⟩

/-- A head that is described before the one above it, and a camera on a node that it covers. -/
def harbour : Scenario where
  settings := { Settings.standard with autoLinkMembers := true }
  heads := [⟨"west", 1, ⟨3, 5⟩, [⟨0, 0⟩, ⟨6, 0⟩, ⟨6, 10⟩, ⟨0, 10⟩], some "root"⟩,
    ⟨"root", 0, ⟨6, 5⟩, [⟨0, 0⟩, ⟨12, 0⟩, ⟨12, 10⟩, ⟨0, 10⟩], none⟩]
  nodes := [⟨"walker", 1, ⟨5, 5⟩, ⟨0, 0, 12, 10⟩, none, none, false, .none, ["camera"]⟩]
  links := [⟨"walker", "root", 1, 100⟩]

example : harbour.build.toOption.isSome = true ∧
    ({ harbour with heads := harbour.heads.take 1 } : Scenario).build.toOption.isSome = false := by
  decide +kernel

/-- A scenario can be built if and only if it is consistent, and then all names lead to what has
been made from the descriptions. -/
theorem judged (s : Scenario) : s.Judged := by
  constructor
  case accepted => exact exists_build_iff
  case heads =>
    intro session h i head hi
    obtain ⟨names, c, hc, hw, hamend⟩ := stocked_of_build h
    exact hc.findHead hw hamend hi
  case nodes =>
    intro session h i n hi
    obtain ⟨names, c, hc, hw, hamend⟩ := stocked_of_build h
    exact hc.findNode hw hamend hi

end Scenario

end FogNet
