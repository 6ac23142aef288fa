import FogNet.Proofs.Topology.Ledger

/-!
# Placing the nodes in rounds

Completing a network places its nodes one after the other, in the order of their numbers, and links
are added in between. A round lists its node where the ledger of the calls sends it
(`Builder.Progress.lists`) and gives it the link that the settings want, and nobody else gets one
(`Builder.Placing.tied`). What holds after some rounds (`Builder.Progress`) is kept by the next and
so holds after all.
-/

namespace FogNet

open Registry

variable {r p q : Registry} {broker head k a b : EntityId} {t : Touch} {new : Option Link}
  {latency bandwidth : Float} {x : Link}

/-! ## New links -/

/-- The link between a node and its head, if members are to be linked. -/
def Settings.memberLink? (s : Settings) (id node : EntityId) (head : Option EntityId) :
    Option Link :=
  if s.autoLinkMembers then
    head.map fun a => .create id node a s.memberLinkLatency s.memberLinkBandwidth
  else none

namespace Registry

/-- A link has been added to a registry. -/
def Adds (r q : Registry) (k : EntityId) (x : Link) : Prop :=
  q.link k = .ok x ∧ r.entities.get? k = none

/-- The links of a node are those it had and a new one, or none but those it had. -/
structure Tied (r q : Registry) (node : EntityId) (new : Option Link) : Prop where
  /-- The node has noted the new link. -/
  noted : ∀ {n}, r.fogNode node = .ok n → ∃ m, q.fogNode node = .ok m ∧
    m.links = new.elim n.links fun x => n.links.insert x.id
  /-- No other link that ends at the node has been added. -/
  added : ∀ k x, Adds r q k x ∧ (x.first = node ∨ x.second = node) ↔ new = some x ∧ k = x.id

theorem Amended.link_of_old (hq : Amended r q) (hx : r.link k = .ok x) : q.link k = .ok x := by
  obtain ⟨d, hd, hsame⟩ := hq.old (link_eq_ok_iff.1 hx)
  cases hsame
  exact link_eq_ok_iff.2 hd

theorem Amended.adds_iff (hp : Amended r p) (hq : Amended p q) :
    Adds r q k x ↔ Adds r p k x ∨ Adds p q k x := by
  constructor
  · rintro ⟨hx, hnone⟩
    cases hk : p.entities.get? k with
    | none => exact .inr ⟨hx, hk⟩
    | some e =>
      obtain ⟨-, y, rfl, -⟩ := hp.fresh hk hnone
      have hy : p.link k = .ok y := link_eq_ok_iff.2 hk
      cases hx.symm.trans (hq.link_of_old hy)
      exact .inl ⟨hy, hnone⟩
  · rintro (⟨hx, hnone⟩ | ⟨hx, hnone⟩)
    · exact ⟨hq.link_of_old hx, hnone⟩
    · refine ⟨hx, ?_⟩
      cases hk : r.entities.get? k with
      | none => rfl
      | some e =>
        obtain ⟨d, hd, -⟩ := hp.old hk
        cases hd.symm.trans hnone

theorem Tied.none_trans (hp : Amended r p) (hq : Amended p q) (h : Tied r p k none)
    (h' : Tied p q k new) : Tied r q k new := by
  refine ⟨fun hn => ?_, fun j x => ?_⟩
  · obtain ⟨m, hm, hlinks⟩ := h.noted hn
    obtain ⟨m', hm', hlinks'⟩ := h'.noted hm
    exact ⟨m', hm', by rw [hlinks', hlinks]; rfl⟩
  · have hnone : ¬ (Adds r p j x ∧ (x.first = k ∨ x.second = k)) := fun hx =>
      nomatch ((h.added j x).1 hx).1
    rw [hp.adds_iff hq, or_and_right, or_iff_right hnone, h'.added]

theorem Tied.trans_none (hp : Amended r p) (hq : Amended p q) (h : Tied r p k new)
    (h' : Tied p q k none) : Tied r q k new := by
  refine ⟨fun hn => ?_, fun j x => ?_⟩
  · obtain ⟨m, hm, hlinks⟩ := h.noted hn
    obtain ⟨m', hm', hlinks'⟩ := h'.noted hm
    exact ⟨m', hm', hlinks'.trans hlinks⟩
  · have hnone : ¬ (Adds p q j x ∧ (x.first = k ∨ x.second = k)) := fun hx =>
      nomatch ((h'.added j x).1 hx).1
    rw [hp.adds_iff hq, or_and_right, or_iff_left hnone, h.added]

theorem Tied.refl (r : Registry) (k : EntityId) : Tied r r k none := by
  refine ⟨fun {n} hn => ⟨n, hn, rfl⟩, fun j x => iff_of_false ?_ nofun⟩
  rintro ⟨⟨hx, hnone⟩, -⟩
  cases (link_eq_ok_iff.1 hx).symm.trans hnone

/-- A touch adds no link. -/
theorem tied_touch (ht : t.Faithful) : Tied r (r.touch t) k none := by
  refine ⟨fun {n} hn => ⟨_, fogNode_touch hn, (ht.node k n).links⟩, fun j x => ?_⟩
  refine iff_of_false ?_ nofun
  rintro ⟨⟨hx, hnone⟩, -⟩
  obtain ⟨y, hy, -⟩ := link_touch_iff.1 hx
  cases (link_eq_ok_iff.1 hy).symm.trans hnone

end Registry

namespace Builder

open Change

/-- A new link is all that adding a link adds. -/
theorem adds_linked_iff (hr : r.Catalogued broker) :
    Adds r (linked r broker a b latency bandwidth) k x ↔
      k = r.nextId ∧ x = .create r.nextId a b latency bandwidth := by
  have hfree : r.entities.get? r.nextId = none :=
    get?_eq_none_of_contains (r := r.allocate.2) (contains_nextId hr)
  unfold Adds linked
  rw [link_touch_iff]
  simp only [link_eq_ok_iff, get?_put]
  constructor
  · rintro ⟨⟨y, hy, rfl⟩, hnone⟩
    split_ifs at hy with hk
    · cases hy
      exact ⟨hk, rfl⟩
    · cases (show r.entities.get? k = _ from hy).symm.trans hnone
  · rintro ⟨rfl, rfl⟩
    exact ⟨⟨_, if_pos rfl, rfl⟩, hfree⟩

theorem fogNode_linked (hr : r.Catalogued broker) {n : FogNode} (hn : r.fogNode k = .ok n) :
    (linked r broker a b latency bandwidth).fogNode k =
      .ok ((Touch.tying broker a b r.nextId).node k n) := by
  refine fogNode_touch (fogNode_eq_ok_iff.2 ?_)
  rw [get?_put, if_neg]
  · exact fogNode_eq_ok_iff.1 hn
  · rintro rfl
    exact absurd (hr.numbers (fogNode_eq_ok_iff.1 hn)) (Nat.lt_irrefl _)

/-- A node that is not the second end gets a new link if it is the first one. -/
theorem tied_linked (hr : r.Catalogued broker) (hk : k ≠ b) :
    Tied r (linked r broker a b latency bandwidth) k
      (if k = a then some (.create r.nextId a b latency bandwidth) else none) := by
  refine ⟨fun {n} hn => ⟨_, fogNode_linked hr hn, ?_⟩, fun j x => ?_⟩
  · show (if k = b then _ else if k = a then n.attachLink r.nextId else n).links = _
    rw [if_neg hk]
    split_ifs <;> rfl
  · rw [adds_linked_iff hr]
    constructor
    · rintro ⟨⟨rfl, rfl⟩, rfl | rfl⟩
      · exact ⟨if_pos rfl, rfl⟩
      · exact absurd rfl hk
    · rintro ⟨hx, rfl⟩
      split_ifs at hx with ha
      cases hx
      exact ⟨⟨rfl, rfl⟩, .inl ha.symm⟩

/-! ## One round -/

variable {l : Ledger} {s : Settings} {n m : FogNode} {ns done rest : List FogNode} {u : Unit}
  {c : Builder}

/-- What a round leaves behind: the node is where it was, or it is in the puddle of the first head
of the ledger that covers it, and if members are to be linked, the two are. -/
theorem Placing.exact (hr : Placing r broker (n :: ns)) (hcat : r.Catalogued broker)
    (hl : l.Agrees r broker) (h : placeInitially s broker n r = .ok u q) :
    (l.headAt n.level n.position = none ∧ q = r) ∨
      ∃ head g m p, l.headAt n.level n.position = some head ∧ r.puddleHead head = .ok g ∧
        p = r.touch (r.admitting head n.id g m) ∧ Amended r p ∧ Amended p q ∧
        q = if s.autoLinkMembers then
          linked p broker n.id head s.memberLinkLatency s.memberLinkBandwidth else p := by
  obtain ⟨b, hb⟩ := kind_eq_broker_iff.1 hr.kind
  obtain ⟨m, hm, hfree⟩ := hr.free n List.mem_cons_self
  have hfind := hl.findHead_eq hb n.level n.position
  rcases hr.placeInitially_cases s hb hm hfree with
    ⟨hnone, hplace⟩ | ⟨head, g, fresh, hfound, hg, -, hjoin, hplace⟩
  · rw [hplace] at h
    cases h
    exact .inl ⟨Except.ok.inj (hfind.symm.trans hnone), rfl⟩
  · have hamend := (Amends.join head n.id).of_ok hjoin
    refine .inr ⟨head, g, m, _, Except.ok.inj (hfind.symm.trans hfound), hg, rfl, hamend, ?_⟩
    rw [hplace] at h
    have hcat' := hcat.amend hr.kind hamend
    have hkind' : (r.touch (r.admitting head n.id g m)).kind broker = .ok .broker :=
      (kind_touch _ _ _).trans hr.kind
    by_cases hauto : s.autoLinkMembers = true
    · rw [if_pos hauto] at h ⊢
      rcases decides_addLink hcat' hkind' n.id head s.memberLinkLatency s.memberLinkBandwidth with
        ⟨-, fault, hfail⟩ | ⟨-, id, p, hok, -, rfl⟩
      · rw [discard_of_error hfail] at h
        cases h
      · rw [discard_of_ok hok] at h
        cases h
        exact ⟨(amends_addLink _ _ _ _ _).of_ok hok, rfl⟩
    · rw [if_neg hauto] at h ⊢
      cases h
      exact ⟨.refl _, rfl⟩

/-- A round gives the node its link and leaves the links of all other nodes alone. -/
theorem Placing.tied (hr : Placing r broker (n :: ns)) (hcat : r.Catalogued broker)
    (hl : l.Agrees r broker) (h : placeInitially s broker n r = .ok u q)
    (hk : r.kind k = .ok .fogNode) :
    ∃ id, Tied r q k
      (if k = n.id then s.memberLink? id k (l.headAt n.level n.position) else none) := by
  rcases hr.exact hcat hl h with ⟨hnone, rfl⟩ | ⟨head, g, m, p, hsome, hg, rfl, hrp, hpq, rfl⟩
  · refine ⟨0, ?_⟩
    rw [hnone, show s.memberLink? 0 k none = none by simp [Settings.memberLink?], ite_self]
    exact .refl _ _
  · have hjoined := tied_touch (r := r) (k := k) (t := r.admitting head n.id g m) .admission
    rw [hsome]
    unfold Settings.memberLink?
    by_cases hauto : s.autoLinkMembers = true
    · have hne : k ≠ head := by
        rintro rfl
        cases hk.symm.trans (kind_eq_puddleHead_iff.2 ⟨g, hg⟩)
      simp only [if_pos hauto] at hpq ⊢
      have hlinked := hjoined.none_trans hrp hpq (tied_linked (hcat.amend hr.kind hrp) hne)
      refine ⟨r.nextId, ?_⟩
      split_ifs at hlinked ⊢ with hkn
      · exact hkn ▸ hlinked
      · exact hlinked
    · simp only [if_neg hauto, ite_self]
      exact ⟨0, hjoined⟩

/-- A round keeps lists in increasing order if the node comes after all that are listed. -/
theorem Placing.increasing (hr : Placing r broker (n :: ns))
    (hlast : ∀ a k, r.Lists a k → k < n.id)
    (hr' : ∀ a g, r.puddleHead a = .ok g → g.members.Pairwise (· < ·))
    (h : placeInitially s broker n r = .ok u q) {g' : PuddleHead} (hg' : q.puddleHead a = .ok g') :
    g'.members.Pairwise (· < ·) := by
  rcases hr.grown_of_ok h with ⟨rfl, -⟩ | ⟨c, head, g, m, -, -, hg, -, hnew, -, hgrown⟩
  · exact hr' a g' hg'
  · rcases hgrown.head hg' with ⟨f', hf', hsame, -⟩ | ⟨-, hvacant, -⟩
    · obtain ⟨f, hf, rfl⟩ := puddleHead_touch_iff.1 hf'
      rw [hsame, Registry.admitting, Touch.admission, members_relisting]
      split_ifs with ha
      · subst ha
        obtain rfl := puddleHead_inj hf hg
        have hmember : f.isMember n.id = false := by simp [PuddleHead.isMember, hnew]
        rw [PuddleHead.addMember, hmember]
        refine List.pairwise_append.2 ⟨hr' a f hf, List.pairwise_singleton _ _, fun k hk j hj => ?_⟩
        rw [List.mem_singleton.1 hj]
        exact hlast a k ⟨f, hf, hk⟩
      · exact hr' a f hf
    · rw [hvacant]
      exact List.Pairwise.nil

/-! ## All rounds -/

/-- Some nodes of a builder have been placed, and the rest are still to be. -/
structure Progress (l : Ledger) (c : Builder) (done rest : List FogNode) (r : Registry) : Prop where
  /-- The rest are still to be placed. -/
  placing : Placing r c.broker rest
  /-- Nothing has been added but links. -/
  amended : Amended c.registry r
  /-- There are no other nodes. -/
  whole : done ++ rest = c.registry.fogNodes
  /-- Nodes are listed where the ledger sends them. -/
  lists : ∀ {a k}, r.Lists a k ↔ ∃ n ∈ done, k = n.id ∧ l.headAt n.level n.position = some a
  /-- Lists are in the order of the numbers. -/
  increasing : ∀ {a h}, r.puddleHead a = .ok h → h.members.Pairwise (· < ·)
  /-- Nodes that have been placed have their links. -/
  tied : ∀ {n}, n ∈ done → ∃ id, Tied c.registry r n.id
    (c.settings.memberLink? id n.id (l.headAt n.level n.position))
  /-- All other nodes have no new links. -/
  untied : ∀ {k}, c.registry.kind k = .ok .fogNode → (∀ n ∈ done, k ≠ n.id) →
    Tied c.registry r k none

namespace Progress

theorem start (hc : c.Records l) : Progress l c [] c.registry.fogNodes c.registry where
  placing := hc.made.draft.placing
  amended := .refl _
  whole := rfl
  lists := iff_of_false hc.made.draft.unlisted (by simp)
  increasing {a h} hh := by
    have hempty : h.members = [] :=
      List.eq_nil_iff_forall_not_mem.2 fun k hk => hc.made.draft.unlisted ⟨h, hh, hk⟩
    rw [hempty]
    exact List.Pairwise.nil
  tied := nofun
  untied _ _ := .refl _ _

theorem known (hc : c.Records l) (hr : Progress l c done rest r) (hn : n ∈ done ++ rest) :
    c.registry.kind n.id = .ok .fogNode := by
  rw [hr.whole] at hn
  obtain ⟨m, hm, -⟩ := hc.made.draft.placing.free n hn
  exact kind_eq_fogNode_iff.2 ⟨m, hm⟩

/-- Another node has been placed. -/
theorem next (hc : c.Records l) (hr : Progress l c done (n :: rest) r)
    (h : placeInitially c.settings c.broker n r = .ok u q) :
    Progress l c (done ++ [n]) rest q := by
  have hcat := hc.made.catalogued.1.amend hc.made.draft.broker hr.amended
  have hagrees := hc.agrees.amend hc.made.draft.broker hr.amended
  have hrq := (amends_placeInitially c.settings c.broker n).of_ok h
  have hbefore : ∀ x ∈ done, x.id < n.id := by
    have horder := hc.made.draft.placing.ascending
    rw [← hr.whole] at horder
    exact fun x hx => (List.pairwise_append.1 horder).2.2 x hx n List.mem_cons_self
  have hnode : ∀ {k}, c.registry.kind k = .ok .fogNode → r.kind k = .ok .fogNode :=
    (hr.amended.kind_iff (by decide)).2
  have hround := fun k (hk : c.registry.kind k = .ok .fogNode) =>
    hr.placing.tied hcat hagrees h (hnode hk)
  constructor
  case placing => exact hr.placing.next h
  case amended => exact hr.amended.trans hrq
  case whole => simpa using hr.whole
  case lists =>
    intro a k
    obtain ⟨b, hb⟩ := kind_eq_broker_iff.1 hr.placing.kind
    simp only [hr.placing.lists_iff h hb, hagrees.findHead_eq hb, Except.ok.injEq, hr.lists,
      List.mem_append, List.mem_singleton, or_and_right, exists_or, exists_eq_left]
  case increasing =>
    intro a g hg
    refine hr.placing.increasing (fun a k hak => ?_) (fun a g => hr.increasing) h hg
    obtain ⟨x, hx, rfl, -⟩ := hr.lists.1 hak
    exact hbefore x hx
  case tied =>
    intro x hx
    rcases List.mem_append.1 hx with hx | hx
    · obtain ⟨id, hold⟩ := hr.tied hx
      obtain ⟨id', hnew⟩ := hround x.id (hr.known hc (List.mem_append_left _ hx))
      rw [if_neg (Nat.ne_of_lt (hbefore x hx))] at hnew
      exact ⟨id, hold.trans_none hr.amended hrq hnew⟩
    · obtain rfl := List.mem_singleton.1 hx
      have hk := hr.known hc (List.mem_append_right _ List.mem_cons_self)
      obtain ⟨id, hnew⟩ := hround x.id hk
      rw [if_pos rfl] at hnew
      have hold := hr.untied hk fun y hy => Nat.ne_of_gt (hbefore y hy)
      exact ⟨id, hold.none_trans hr.amended hrq hnew⟩
  case untied =>
    intro k hk hother
    obtain ⟨id, hnew⟩ := hround k hk
    rw [if_neg (hother n (by simp))] at hnew
    exact (hr.untied hk fun x hx => hother x (by simp [hx])).trans_none hr.amended hrq hnew

/-- All nodes have been placed. -/
theorem finish (hc : c.Records l)
    (h : c.registry.fogNodes.forM (placeInitially c.settings c.broker) c.registry = .ok u q) :
    Progress l c c.registry.fogNodes [] q := by
  have hstart := Progress.start hc
  obtain ⟨done, hdone⟩ := hstart.placing.forM_keeps (P := fun rest q => ∃ done,
    Progress l c done rest q) (fun _ _ hplace _ ⟨done, hr⟩ => ⟨_, hr.next hc hplace⟩)
    hc.made.catalogued.1 h ⟨[], hstart⟩
  have hwhole := hdone.whole
  rw [List.append_nil] at hwhole
  rwa [← hwhole]

end Progress

end Builder

end FogNet
