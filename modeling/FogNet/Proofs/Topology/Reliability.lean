import FogNet.Proofs.Topology.Ranks
import FogNet.Proofs.Topology.Validity
import Mathlib.Data.List.Basic

/-!
# Builders are reliable

What a builder promises after any calls, failing ones included (`Builder.Made.reliable`): a call
that fails has changed nothing, every entity is stored under its own number, two heads are buddies
if and only if they are different children of one parent, and the whole is valid. So building fails
for one reason only: members are to be linked to their heads, the weights for these links make no
sense, and there is such a link to be made. With such weights the first node that a head covers
makes building fail, and before that nothing is changed; with others no node does.
-/

namespace FogNet

open Registry

/-- Links between members and their heads are wanted, but their weights make no sense. -/
def Settings.Unlinkable (s : Settings) : Prop :=
  s.autoLinkMembers = true ∧ ¬ (0 ≤ s.memberLinkLatency ∧ 0 < s.memberLinkBandwidth)

namespace Registry

/-- A head of its level covers a node. -/
def Covered (r : Registry) (n : FogNode) : Prop :=
  ∃ a h, r.puddleHead a = .ok h ∧ h.level = n.level ∧ h.covers n.position = true

variable {r : Registry} {broker : EntityId} {b : Broker} {n : FogNode} {p : Point Float}
  {l : List EntityId}

theorem exists_firstCovering_iff (hl : ∀ a ∈ l, ∃ h, r.puddleHead a = .ok h) :
    (∃ a, r.firstCovering p l = .ok (some a)) ↔
      ∃ a ∈ l, ∃ h, r.puddleHead a = .ok h ∧ h.covers p = true := by
  induction l with
  | nil => simp [firstCovering]
  | cons a rest ih =>
    obtain ⟨⟨h, hh⟩, hrest⟩ := List.forall_mem_cons.1 hl
    have hfirst : r.firstCovering p (a :: rest) =
        if h.covers p then .ok (some a) else r.firstCovering p rest := by
      rw [firstCovering, hh]
    rw [List.exists_mem_cons_iff, ← ih hrest, hfirst, hh]
    by_cases hc : h.covers p = true <;> simp [hc]

/-- The broker finds a head for the nodes that are covered. -/
theorem Catalogued.exists_findHead_iff (hr : r.Catalogued broker) (hw : r.Wired)
    (hb : r.broker broker = .ok b) :
    (∃ a, r.findHead b n.level n.position = .ok (some a)) ↔ r.Covered n := by
  unfold findHead
  rw [exists_firstCovering_iff fun a ha => kind_eq_puddleHead_iff.1 (hw.indexed hb ha)]
  constructor
  · rintro ⟨a, ha, h, hh, hcovers⟩
    obtain ⟨g, hg, hlevel⟩ := (hr.mem_headsAt_iff hb).1 ha
    exact ⟨a, h, hh, puddleHead_inj hg hh ▸ hlevel, hcovers⟩
  · rintro ⟨a, h, hh, hlevel, hcovers⟩
    exact ⟨a, (hr.mem_headsAt_iff hb).2 ⟨h, hh, hlevel⟩, h, hh, hcovers⟩

end Registry

namespace Builder

open Change

variable {r q : Registry} {s : Settings} {broker : EntityId} {n : FogNode} {l : List FogNode}
  {admits : Time → Payload → Prop} {b : Builder}

/-! ## Placing one node -/

/-- A node that no head covers stays where it is. -/
theorem placeInitially_of_uncovered (hr : Placing r broker (n :: l)) (hcat : r.Catalogued broker)
    (hn : ¬ r.Covered n) : placeInitially s broker n r = .ok () r := by
  obtain ⟨c, hc⟩ := kind_eq_broker_iff.1 hr.kind
  obtain ⟨m, hm, hfree⟩ := hr.free n List.mem_cons_self
  rcases hr.placeInitially_cases s hc hm hfree with ⟨-, hplace⟩ | ⟨head, h, fresh, hfound, -⟩
  · exact hplace
  · exact absurd ((hcat.exists_findHead_iff hr.orderly.wired hc).1 ⟨head, hfound⟩) hn

/-- A node that a head covers joins one, and then a link between the two is all that is left. -/
theorem placeInitially_of_covered (hr : Placing r broker (n :: l)) (hcat : r.Catalogued broker)
    (hn : r.Covered n) :
    ∃ head q, placeInitially s broker n r = (if s.autoLinkMembers then
        discard (addLink broker n.id head s.memberLinkLatency s.memberLinkBandwidth)
        else pure () : Change Unit) q ∧
      q.Catalogued broker ∧ q.kind broker = .ok .broker ∧ n.id ≠ head ∧ q.Sited n.id ∧
      q.Sited head := by
  obtain ⟨c, hc⟩ := kind_eq_broker_iff.1 hr.kind
  obtain ⟨m, hm, hfree⟩ := hr.free n List.mem_cons_self
  rcases hr.placeInitially_cases s hc hm hfree with
    ⟨hnone, -⟩ | ⟨head, h, fresh, -, hh, -, hjoin, hplace⟩
  · obtain ⟨head, hfound⟩ := (hcat.exists_findHead_iff hr.orderly.wired hc).2 hn
    cases hnone.symm.trans hfound
  · have hamend := (Amends.join head n.id).of_ok hjoin
    refine ⟨head, _, hplace, hcat.amend hr.kind hamend, (kind_touch r _ broker).trans hr.kind, ?_,
      ?_, ?_⟩
    · intro hsame
      have hkind := kind_eq_fogNode_iff.2 ⟨m, hm⟩
      rw [hsame, kind_eq_puddleHead_iff.2 ⟨h, hh⟩] at hkind
      cases hkind
    · exact sited_touch_iff.2 (.inl (kind_eq_fogNode_iff.2 ⟨m, hm⟩))
    · exact sited_touch_iff.2 (.inr (kind_eq_puddleHead_iff.2 ⟨h, hh⟩))

theorem placeInitially_ok (hs : ¬ s.Unlinkable) (hr : Placing r broker (n :: l))
    (hcat : r.Catalogued broker) : ∃ q, placeInitially s broker n r = .ok () q := by
  by_cases hn : r.Covered n
  · obtain ⟨head, q, hplace, hcat, hbroker, hne, hnode, hhead⟩ :=
      placeInitially_of_covered (s := s) hr hcat hn
    rw [hplace]
    by_cases hauto : s.autoLinkMembers = true
    · have hweights : 0 ≤ s.memberLinkLatency ∧ 0 < s.memberLinkBandwidth := by
        by_contra hbad
        exact hs ⟨hauto, hbad⟩
      obtain ⟨id, p, hlink, -⟩ := (decides_addLink hcat hbroker n.id head s.memberLinkLatency
        s.memberLinkBandwidth).ok ⟨hne, hweights, hnode, hhead⟩
      rw [if_pos hauto, discard_of_ok hlink]
      exact ⟨p, rfl⟩
    · rw [if_neg hauto]
      exact ⟨q, rfl⟩
  · exact ⟨r, placeInitially_of_uncovered hr hcat hn⟩

theorem placeInitially_error (hs : s.Unlinkable) (hr : Placing r broker (n :: l))
    (hcat : r.Catalogued broker) (hn : r.Covered n) :
    ∃ fault q, placeInitially s broker n r = .error fault q := by
  obtain ⟨head, q, hplace, hcat, hbroker, -⟩ := placeInitially_of_covered (s := s) hr hcat hn
  obtain ⟨fault, hlink⟩ := (decides_addLink hcat hbroker n.id head s.memberLinkLatency
    s.memberLinkBandwidth).error fun h => hs.2 h.2.1
  rw [hplace, if_pos hs.1, discard_of_error hlink]
  exact ⟨fault, q, rfl⟩

/-! ## Placing all nodes -/

theorem forM_placeInitially_ok (hs : ¬ s.Unlinkable) (hr : Placing r broker l)
    (hcat : r.Catalogued broker) : ∃ q, l.forM (placeInitially s broker) r = .ok () q := by
  induction l generalizing r with
  | nil => exact ⟨r, rfl⟩
  | cons n rest ih =>
    obtain ⟨p, hplace⟩ := placeInitially_ok hs hr hcat
    have hamend := (amends_placeInitially s broker n).of_ok hplace
    obtain ⟨q, hq⟩ := ih (hr.next hplace) (hcat.amend hr.kind hamend)
    exact ⟨q, (bind_of_ok hplace).trans hq⟩

/-- If the weights make no sense, all goes well as long as no head covers a node. -/
theorem forM_placeInitially_error_iff (hs : s.Unlinkable) (hr : Placing r broker l)
    (hcat : r.Catalogued broker) :
    (∃ fault q, l.forM (placeInitially s broker) r = .error fault q) ↔
      ∃ n ∈ l, r.Covered n := by
  induction l with
  | nil =>
    refine iff_of_false ?_ (by simp)
    rintro ⟨fault, q, h⟩
    cases h
  | cons n rest ih =>
    rw [List.exists_mem_cons_iff]
    have hcons : (n :: rest).forM (placeInitially s broker) =
      (placeInitially s broker n >>= fun _ => rest.forM (placeInitially s broker)) := rfl
    by_cases hn : r.Covered n
    · obtain ⟨fault, q, hfail⟩ := placeInitially_error hs hr hcat hn
      exact iff_of_true ⟨fault, q, (congrFun hcons r).trans (bind_of_error hfail)⟩ (.inl hn)
    · have hplace := placeInitially_of_uncovered (s := s) hr hcat hn
      rw [or_iff_right hn, ← ih (hr.next hplace), hcons, bind_of_ok hplace]

/-! ## What a builder promises -/

/-- Building fails only if members cannot be linked to their heads. -/
theorem build_error_iff (hb : Made admits b) : (∃ fault, b.build = .error fault) ↔
    b.settings.Unlinkable ∧ ∃ k n, b.registry.fogNode k = .ok n ∧ b.registry.Covered n := by
  have hplacing := hb.draft.placing
  have hcat := hb.catalogued.1
  have hbuild : (∃ fault, b.build = .error fault) ↔ ∃ fault q,
      b.registry.fogNodes.forM (placeInitially b.settings b.broker) b.registry =
        .error fault q := by
    unfold build
    rw [hb.validate]
    cases b.registry.fogNodes.forM (placeInitially b.settings b.broker) b.registry <;> simp
  rw [hbuild]
  by_cases hs : b.settings.Unlinkable
  · rw [forM_placeInitially_error_iff hs hplacing hcat, and_iff_right hs]
    simp only [mem_fogNodes_iff]
    constructor
    · rintro ⟨n, ⟨k, hk⟩, hn⟩
      exact ⟨k, n, hk, hn⟩
    · rintro ⟨k, n, hk, hn⟩
      exact ⟨n, ⟨k, hk⟩, hn⟩
  · obtain ⟨q, hq⟩ := forM_placeInitially_ok hs hplacing hcat
    refine iff_of_false ?_ fun h => hs h.1
    rintro ⟨fault, q', hfail⟩
    cases hq.symm.trans hfail

/-- What a builder promises at any time. -/
structure Reliable (b : Builder) : Prop where
  /-- A head can always be added, and it gets the next number. -/
  puddleHead : ∀ name level coverage anchor, ∃ c,
    Builder.puddleHead name level coverage anchor b = .ok b.registry.nextId c
  /-- A node can always be added, and it gets the next number. -/
  fogNode : ∀ spec, ∃ c, Builder.fogNode spec b = .ok b.registry.nextId c
  /-- If a head cannot be put below another one, nothing is changed. -/
  attach : ∀ child parent fault c, Builder.attach child parent b = .error fault c → c = b
  /-- If a link cannot be added, nothing is changed. -/
  link : ∀ first second latency bandwidth fault c,
    Builder.link first second latency bandwidth b = .error fault c → c = b
  /-- Entities are stored under their own numbers, which have been given. -/
  stored : ∀ k e, b.registry.entities.get? k = some e → e.id = k ∧ k < b.registry.nextId
  /-- The buddies of a head are the other heads below its parent. -/
  siblings : ∀ k h a, b.registry.puddleHead k = .ok h →
    (a ∈ h.buddies ↔ a ≠ k ∧ ∃ p, b.registry.Below p k ∧ b.registry.Below p a)
  /-- The registry is valid. -/
  valid : b.registry.validate = .ok ()
  /-- Building fails only if members cannot be linked to their heads. -/
  build : (∃ fault, b.build = .error fault) ↔
    b.settings.Unlinkable ∧ ∃ k n, b.registry.fogNode k = .ok n ∧ b.registry.Covered n

theorem change_error {α : Type} {step : Change α} {fault : Fault} {c : Builder}
    (hstep : ∀ fault q, step b.registry = .error fault q → q = b.registry)
    (h : change step b = .error fault c) : c = b := by
  unfold change at h
  cases hs : step b.registry with
  | ok a q =>
    rw [hs] at h
    cases h
  | error fault q =>
    rw [hs] at h
    cases h
    rw [hstep fault q hs]

/-- Whatever calls have been made on a builder, and however many of them have failed, it is
reliable. -/
theorem Made.reliable (hb : Made admits b) : b.Reliable := by
  obtain ⟨c, hc⟩ := kind_eq_broker_iff.1 hb.draft.broker
  have hcat := hb.catalogued.1
  constructor
  case puddleHead =>
    intro name level coverage anchor
    exact ⟨_, hb.puddleHead_ok name level coverage anchor⟩
  case fogNode =>
    intro spec
    obtain ⟨motion, generator, -, hadded⟩ := hb.exists_fogNode_ok spec
    exact ⟨_, hadded⟩
  case attach =>
    intro child parent fault c
    apply change_error
    intro fault q hq
    exact ((decides_adoptChild hb.treed parent child).of_error hq).2
  case link =>
    intro first second latency bandwidth fault c
    apply change_error
    intro fault q hq
    have hdecides := decides_addLink hcat hb.draft.broker first second latency bandwidth
    exact (hdecides.of_error hq).2
  case stored =>
    intro k e he
    exact ⟨hb.draft.orderly.wired.numbered he, hcat.numbers he⟩
  case siblings =>
    intro k h a hh
    exact hb.treed.siblings hh
  case valid => exact hb.validate
  case build => exact build_error_iff hb

namespace Family

/-- Members are linked to their heads, but a link without bandwidth is refused. -/
def settings : Settings :=
  { Settings.standard with autoLinkMembers := true, memberLinkBandwidth := 0 }

/-- The head above the two others. -/
def parent : EntityId := 2

/-- The head that is put below the parent first. -/
def elder : EntityId := 3

/-- The head that is put below the parent next. -/
def younger : EntityId := 4

/-- A node in the area of the elder child. -/
def guest : EntityId := 5

/-- A parent with two children, which it cannot be put below, and a guest. -/
def draft (b : Builder) : Builder :=
  let b := stateOf (Builder.puddleHead "parent" 0 (.rectangle 0 0 12 10) ⟨6, 5⟩ b)
  let b := stateOf (Builder.puddleHead "elder" 1 (.rectangle 0 0 6 10) ⟨3, 5⟩ b)
  let b := stateOf (Builder.puddleHead "younger" 1 (.rectangle 6 0 6 10) ⟨9, 5⟩ b)
  let b := stateOf (Builder.attach elder parent b)
  let b := stateOf (Builder.attach younger parent b)
  let b := stateOf (Builder.attach parent elder b)
  stateOf (Builder.fogNode ⟨"guest", 1, ⟨3, 5⟩, ⟨0, 0, 12, 10⟩, .stationary, .none⟩ b)

theorem isSome_start : (Builder.start settings).toOption.isSome = true := by decide +kernel

/-- The builder after all calls. -/
def made : Builder := draft ((Builder.start settings).toOption.get isSome_start)

theorem made_draft (hb : Made admits b) : Made admits (draft b) := by
  unfold draft
  apply Made.fogNode
  apply Made.attach
  apply Made.attach
  apply Made.attach
  apply Made.puddleHead
  apply Made.puddleHead
  apply Made.puddleHead
  exact hb

end Family

/-- The two children are buddies, and building fails because of the guest. -/
theorem Made.reliable_family : ∃ h, Family.made.registry.puddleHead Family.elder = .ok h ∧
    Family.younger ∈ h.buddies ∧ ∃ fault, Family.made.build = .error fault := by
  have hmade : Made (fun _ _ => True) Family.made :=
    Family.made_draft (.start (eq_ok_of_toOption (Option.some_get Family.isSome_start).symm))
  have hreliable := Made.reliable hmade
  have helder : (Family.made.registry.puddleHead Family.elder).toOption.map
      (fun h => (h.parent, h.level, h.covers ⟨3, 5⟩)) = some (some Family.parent, 1, true) := by
    decide +kernel
  have hyounger : (Family.made.registry.puddleHead Family.younger).toOption.map (·.parent) =
      some (some Family.parent) := by decide +kernel
  have hguest : (Family.made.registry.fogNode Family.guest).toOption.map
      (fun n => (n.level, n.position)) = some (1, ⟨3, 5⟩) := by decide +kernel
  obtain ⟨h, hh, hhead⟩ := Option.map_eq_some_iff.1 helder
  obtain ⟨g, hg, hparent⟩ := Option.map_eq_some_iff.1 hyounger
  obtain ⟨n, hn, hnode⟩ := Option.map_eq_some_iff.1 hguest
  have hh := eq_ok_of_toOption hh
  have hbelow : Family.made.registry.Below Family.parent Family.elder :=
    ⟨h, hh, congrArg Prod.fst hhead⟩
  have hcovered : Family.made.registry.Covered n := by
    obtain ⟨hlevel, hposition⟩ := Prod.mk.inj hnode
    obtain ⟨hhlevel, hcovers⟩ := Prod.mk.inj (congrArg Prod.snd hhead)
    exact ⟨Family.elder, h, hh, hhlevel.trans hlevel.symm, hposition ▸ hcovers⟩
  refine ⟨h, hh, (hreliable.siblings _ h _ hh).2 ⟨by decide, Family.parent, hbelow, g,
    eq_ok_of_toOption hg, hparent⟩, hreliable.build.2 ⟨⟨?_, ?_⟩, Family.guest, n,
    eq_ok_of_toOption hn, hcovered⟩⟩
  · decide +kernel
  · decide +kernel

end Builder

end FogNet
