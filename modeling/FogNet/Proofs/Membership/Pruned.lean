import FogNet.Proofs.Membership.Admission
import FogNet.Proofs.Membership.Dismissal

/-!
# Nothing is kept for strangers

A head keeps copies of the lists of its children only, and notes modules that run on its members
only (`Registry.Pruned`). Together with the agreement of the records this says that a node which no
head lists is not mentioned anywhere.
-/

namespace FogNet.Registry

/-- Heads keep nothing for heads and nodes that are not below them. -/
structure Pruned (r : Registry) : Prop where
  /-- Who has a copy of a list is the parent of the head whose list it is. -/
  copies : ∀ {a g c l}, r.puddleHead a = .ok g → g.childPuddles.get? c = some l →
    ∃ h, r.puddleHead c = .ok h ∧ h.parent = some a
  /-- Modules run on members. -/
  services : ∀ {a g m l}, r.puddleHead a = .ok g → g.runningServices.get? m = some l →
    m ∈ g.members

variable {r : Registry} {t : Touch} {head node : EntityId} {h : PuddleHead} {n : FogNode}

namespace Pruned

/-- A touch keeps the heads pruned if it moves no head, adds no copy and leaves no module behind. -/
theorem touch (hp : r.Pruned) (hparent : ∀ k h, (t.head k h).parent = h.parent)
    (hcopies : ∀ {k h c l}, (t.head k h).childPuddles.get? c = some l →
      ∃ l', h.childPuddles.get? c = some l')
    (hservices : ∀ {k h m l}, r.puddleHead k = .ok h →
      (t.head k h).runningServices.get? m = some l → m ∈ (t.head k h).members) :
    (r.touch t).Pruned := by
  refine ⟨fun {a g c l} hg hl => ?_, fun {a g m l} hg hl => ?_⟩
  · obtain ⟨h, hh, rfl⟩ := puddleHead_touch_iff.1 hg
    obtain ⟨l', hl'⟩ := hcopies hl
    obtain ⟨f, hf, hfp⟩ := hp.copies hh hl'
    exact ⟨_, puddleHead_touch hf, (hparent c f).trans hfp⟩
  · obtain ⟨h, hh, rfl⟩ := puddleHead_touch_iff.1 hg
    exact hservices hh hl

/-- A touch that leaves parents, lists, copies and modules alone keeps the heads pruned. -/
theorem keep (hp : r.Pruned)
    (hhead : ∀ k h, (t.head k h).parent = h.parent ∧ (t.head k h).members = h.members ∧
      (t.head k h).childPuddles = h.childPuddles ∧
      (t.head k h).runningServices = h.runningServices) : (r.touch t).Pruned := by
  refine hp.touch (fun k h => (hhead k h).1) (fun {k h c l} hl => ⟨l, ?_⟩)
    fun {k h m l} hh hl => ?_
  · rwa [(hhead k h).2.2.1] at hl
  · rw [(hhead k h).2.2.2] at hl
    rw [(hhead k h).2.1]
    exact hp.services hh hl

/-- A touch of no head keeps the heads pruned. -/
theorem headless (hp : r.Pruned) (hhead : t.head = Touch.nothing.head) : (r.touch t).Pruned :=
  hp.keep fun k h => by
    rw [hhead]
    exact ⟨rfl, rfl, rfl, rfl⟩

/-- Renewing the copy that the parent of a changed head keeps leaves the heads pruned if the changed
head is. -/
theorem relisting {parent : Option EntityId} {f : PuddleHead → PuddleHead} {l : List EntityId}
    (hp : r.Pruned) (ht : t.Faithful) (hhead : t.head = Touch.relisting head parent f l)
    (hf : ∀ g, (f g).childPuddles = g.childPuddles)
    (hservices : ∀ {g m l}, (∀ {m l}, g.runningServices.get? m = some l → m ∈ g.members) →
      (f g).runningServices.get? m = some l → m ∈ (f g).members) : (r.touch t).Pruned := by
  refine hp.touch (fun k h => (ht.head k h).parent) (fun {k h c l'} hl => ?_)
    fun {k g m l'} hg hl => ?_
  · rw [hhead, get?_childPuddles_relisting (hf h)] at hl
    split_ifs at hl
    · obtain ⟨l', hl', -⟩ := Option.map_eq_some_iff.1 hl
      exact ⟨l', hl'⟩
    · exact ⟨l', hl⟩
  · have hsame : (Touch.relisting head parent f l k g).runningServices =
        (if k = head then f g else g).runningServices := by
      unfold Touch.relisting
      simp only
      split_ifs <;> rfl
    rw [hhead, hsame] at hl
    rw [hhead, members_relisting]
    split_ifs at hl ⊢
    · exact hservices (hp.services hg) hl
    · exact hp.services hg hl

/-- Taking a node in keeps the heads pruned. -/
theorem admitting (hp : r.Pruned) : (r.touch (r.admitting head node h n)).Pruned := by
  refine hp.relisting Touch.Faithful.admission rfl (fun g => ?_) fun {g m l} hg hl => ?_
  · unfold PuddleHead.addMember
    split_ifs <;> rfl
  · unfold PuddleHead.addMember at hl ⊢
    split_ifs at hl ⊢
    · exact hg hl
    · exact List.mem_append_left _ (hg hl)

/-- Striking a node off keeps the heads pruned: its modules are forgotten. -/
theorem dismissing (hp : r.Pruned) : (r.touch (r.dismissing head node h n)).Pruned := by
  refine hp.relisting Touch.Faithful.dismissal rfl (fun g => rfl) fun {g m l} hg hl => ?_
  change (g.runningServices.erase node).get? m = some l at hl
  rw [SortedMap.get?_erase] at hl
  split_ifs at hl with hm
  exact List.mem_filter.2 ⟨hg hl, bne_iff_ne.2 hm⟩

/-- Placing a module on a listed node keeps the heads pruned. -/
theorem placing {module : String} (hp : r.Pruned) (hl : r.Lists head node) :
    (r.touch (.onHead head (·.placeService node module))).Pruned := by
  have hsame : ∀ k g, ((Touch.onHead head (·.placeService node module)).head k g).parent =
      g.parent ∧ ((Touch.onHead head (·.placeService node module)).head k g).childPuddles =
        g.childPuddles ∧ ((Touch.onHead head (·.placeService node module)).head k g).members =
          g.members := by
    intro k g
    unfold Touch.onHead
    simp only
    split_ifs <;> exact ⟨rfl, rfl, rfl⟩
  refine hp.touch (fun k g => (hsame k g).1) (fun {k g c l} hl => ⟨l, ?_⟩)
    fun {k g m l} hg hm => ?_
  · rwa [(hsame k g).2.1] at hl
  · rw [(hsame k g).2.2]
    unfold Touch.onHead PuddleHead.placeService at hm
    simp only at hm
    split_ifs at hm with hk
    · rw [SortedMap.get?_insert] at hm
      split_ifs at hm with hmn
      · subst hk hmn
        exact (lists_iff hg).1 hl
      · exact hp.services hg hm
    · exact hp.services hg hm

end Pruned

end FogNet.Registry
