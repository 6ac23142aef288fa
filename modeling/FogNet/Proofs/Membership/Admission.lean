import FogNet.Proofs.Membership.Orderly

/-!
# Taking a node in keeps the records in agreement

A head that takes a node in lists it and owns it, and the node meets all members that have not
departed. `Orderly.admitting` concludes that an orderly registry stays orderly: any other node of
the new owner is listed there, so it is among those the node has met.
-/

namespace FogNet

namespace Registry

variable {r : Registry} {head node a b k : EntityId} {h : PuddleHead} {n m : FogNode}

theorem mem_living_iff {l : List EntityId} (hl : ∀ m ∈ l, ∃ x, r.fogNode m = .ok x) :
    k ∈ r.living l ↔ k ∈ l ∧ r.Lives k := by
  unfold living
  rw [List.mem_filter]
  refine and_congr_right fun hk => ?_
  obtain ⟨x, hx⟩ := hl k hk
  rw [isDepartedNode_of_ok hx, lives_iff hx, Bool.not_eq_true', isDeparted_eq_false_iff]

/-- The touch by which a head takes a node in: it meets the members that have not departed. -/
def admitting (r : Registry) (head node : EntityId) (h : PuddleHead) (n : FogNode) : Touch :=
  .admission head node h n.characteristics (r.living h.members)

section Admitting

variable (hr : r.Orderly) (hh : r.puddleHead head = .ok h) (hn : r.fogNode node = .ok n)
  (hnew : node ∉ h.members) (hlive : n.standing ≠ .departed)

theorem standing_admitting (k : EntityId) (m : FogNode) :
    ((r.admitting head node h n).node k m).standing =
      if k = node then .owned head else m.standing := by
  unfold admitting Touch.admission
  simp only
  split_ifs <;> rfl

theorem pending_admitting (k : EntityId) (m : FogNode) :
    ((r.admitting head node h n).node k m).pending = m.pending := by
  unfold admitting Touch.admission
  simp only
  split_ifs <;> rfl

include hh in
theorem lists_admitting_iff (hnew : node ∉ h.members) :
    (r.touch (r.admitting head node h n)).Lists a k ↔ r.Lists a k ∨ a = head ∧ k = node := by
  have hmember : h.isMember node = false := by simp [PuddleHead.isMember, hnew]
  simp only [lists_touch_iff, admitting, Touch.admission, members_relisting]
  constructor
  · rintro ⟨g, hg, hk⟩
    by_cases ha : a = head
    · subst ha
      rw [puddleHead_inj hg hh, if_pos rfl, PuddleHead.addMember, hmember] at hk
      rcases List.mem_append.1 hk with hk | hk
      · exact Or.inl ⟨h, hh, hk⟩
      · exact Or.inr ⟨rfl, List.mem_singleton.1 hk⟩
    · rw [if_neg ha] at hk
      exact Or.inl ⟨g, hg, hk⟩
  · rintro (⟨g, hg, hk⟩ | ⟨rfl, rfl⟩)
    · refine ⟨g, hg, ?_⟩
      split_ifs with ha
      · subst ha
        rw [puddleHead_inj hg hh, PuddleHead.addMember, hmember]
        exact List.mem_append.2 (Or.inl (puddleHead_inj hg hh ▸ hk))
      · exact hk
    · refine ⟨h, hh, ?_⟩
      rw [if_pos rfl, PuddleHead.addMember, hmember]
      exact List.mem_append.2 (Or.inr List.mem_cons_self)

include hn in
theorem owns_admitting_iff :
    (r.touch (r.admitting head node h n)).Owns a k ↔
      k = node ∧ a = head ∨ k ≠ node ∧ r.Owns a k := by
  simp only [owns_touch_iff, standing_admitting]
  by_cases hk : k = node
  · subst hk
    simp [hn, eq_comm]
  · simp [hk, Owns]

include hn hlive in
theorem lives_admitting_iff : (r.touch (r.admitting head node h n)).Lives k ↔ r.Lives k := by
  simp only [lives_touch_iff, standing_admitting]
  by_cases hk : k = node
  · subst hk
    simp [hn, lives_iff hn, hlive]
  · simp [hk, Lives]

include hr hh hn hnew in
theorem befriends_admitting_iff :
    (r.touch (r.admitting head node h n)).Befriends a b ↔
      r.Befriends a b ∨ a = node ∧ b ∈ r.living h.members ∨ b = node ∧ a ∈ r.living h.members := by
  have hmem := fun k => mem_living_iff (r := r) (k := k) fun m hm =>
    hr.enrolled.node_of_mem hh hm
  have hself : node ∉ r.living h.members := fun hin => hnew ((hmem node).1 hin).1
  simp only [befriends_touch_iff, admitting, Touch.admission]
  by_cases ha : a = node
  · subst ha
    have hid := hr.wired.id_fogNode hn
    constructor
    · rintro ⟨m, hm, hb⟩
      rw [fogNode_inj hm hn, if_pos rfl] at hb
      rcases FogNode.mem_addBuddies.1 hb with ⟨hb, -⟩ | hb
      · exact Or.inr (Or.inl ⟨rfl, hb⟩)
      · exact Or.inl ⟨n, hn, hb⟩
    · intro hb
      refine ⟨n, hn, ?_⟩
      rw [if_pos rfl]
      refine FogNode.mem_addBuddies.2 ?_
      rcases hb with hb | ⟨-, hb⟩ | ⟨-, hb⟩
      · exact Or.inr ((befriends_iff hn).1 hb)
      · exact Or.inl ⟨hb, fun he => hself (hid ▸ he ▸ hb)⟩
      · exact absurd hb hself
  · constructor
    · rintro ⟨m, hm, hb⟩
      rw [if_neg ha] at hb
      split_ifs at hb with hF
      · rcases FogNode.mem_addBuddies.1 hb with ⟨hb, -⟩ | hb
        · exact Or.inr (Or.inr ⟨List.mem_singleton.1 hb, hF⟩)
        · exact Or.inl ⟨m, hm, hb⟩
      · exact Or.inl ⟨m, hm, hb⟩
    · rintro (⟨m, hm, hb⟩ | ⟨ha', -⟩ | ⟨rfl, hF⟩)
      · refine ⟨m, hm, ?_⟩
        rw [if_neg ha]
        split_ifs
        · exact FogNode.mem_addBuddies.2 (Or.inr hb)
        · exact hb
      · exact absurd ha' ha
      · obtain ⟨m, hm, -⟩ := ((hmem a).1 hF).2
        refine ⟨m, hm, ?_⟩
        rw [if_neg ha, if_pos hF]
        refine FogNode.mem_addBuddies.2 (Or.inl ⟨List.mem_cons_self, ?_⟩)
        rw [hr.wired.id_fogNode hm]
        exact Ne.symm ha

include hr hh hn hnew in
/-- The lists agree with the nodes once a node has been taken in. -/
theorem Enrolled.admitting : (r.touch (r.admitting head node h n)).Enrolled := by
  have ht : (r.admitting head node h n).Faithful := Touch.Faithful.admission
  have hmember : h.isMember node = false := by simp [PuddleHead.isMember, hnew]
  have hadd : h.addMember node n.characteristics =
      { h with
        members := h.members ++ [node]
        memberCharacteristics := h.memberCharacteristics.insert node n.characteristics } := by
    simp [PuddleHead.addMember, hmember]
  have hlists := fun a k => lists_admitting_iff (a := a) (k := k) (n := n) hh hnew
  have howns : ∀ a k, (r.touch (r.admitting head node h n)).Owns a k ↔ _ := fun a k =>
    owns_admitting_iff hn
  have he := hr.enrolled
  refine ⟨?_, ?_, ?_, ?_, ?_⟩
  · intro k g' hg'
    obtain ⟨g, hg, rfl⟩ := puddleHead_touch_iff.1 hg'
    rw [Registry.admitting, Touch.admission, members_relisting]
    split_ifs with hk
    · subst hk
      rw [puddleHead_inj hg hh, hadd]
      exact List.nodup_append.2 ⟨he.nodup hh, by simp, fun x hx y hy hxy =>
        hnew (List.mem_singleton.1 hy ▸ hxy ▸ hx)⟩
    · exact he.nodup hg
  · intro a k hl
    rw [kind_touch]
    rcases (hlists a k).1 hl with hl | ⟨-, rfl⟩
    · exact he.known hl
    · exact kind_eq_fogNode_iff.2 ⟨n, hn⟩
  · intro k g' m c hg'
    obtain ⟨g, hg, rfl⟩ := puddleHead_touch_iff.1 hg'
    rw [offers_touch_iff ht, Registry.admitting, Touch.admission, members_relisting,
      memberCharacteristics_relisting]
    by_cases hk : k = head
    · subst hk
      rw [if_pos rfl, if_pos rfl, puddleHead_inj hg hh, hadd]
      simp only [SortedMap.get?_insert, List.mem_append, List.mem_singleton]
      by_cases hm : m = node
      · subst hm
        simp [Offers, hn]
      · simp [hm, he.offers hh]
    · rw [if_neg hk, if_neg hk]
      exact he.offers hg
  · intro a k ho
    rcases (howns a k).1 ho with ⟨rfl, rfl⟩ | ⟨-, ho⟩
    · exact (hlists _ _).2 (Or.inr ⟨rfl, rfl⟩)
    · exact (hlists _ _).2 (Or.inl (he.owned ho))
  · refine Copied.relisting (f := (·.addMember node n.characteristics)) he.copied ht hh ?_
      fun g => ?_
    · rw [hadd]
      rfl
    · unfold PuddleHead.addMember
      split_ifs <;> rfl

include hr hh hn hnew hlive in
/-- The buddy sets say who shares a puddle once a node has been taken in. -/
theorem Befriended.admitting : (r.touch (r.admitting head node h n)).Befriended := by
  have hmem := fun k => mem_living_iff (r := r) (k := k) fun m hm =>
    hr.enrolled.node_of_mem hh hm
  have hlists := fun a k => lists_admitting_iff (a := a) (k := k) (n := n) hh hnew
  have howns : ∀ a k, (r.touch (r.admitting head node h n)).Owns a k ↔ _ := fun a k =>
    owns_admitting_iff hn
  have hlives : ∀ k, (r.touch (r.admitting head node h n)).Lives k ↔ _ := fun k =>
    lives_admitting_iff hn hlive
  have hbefriends := fun a b => befriends_admitting_iff (a := a) (b := b) hr hh hn hnew
  have he := hr.enrolled
  have hb := hr.befriended
  refine ⟨?_, ?_, ?_, ?_, ?_⟩
  · intro a b hab
    rcases (hbefriends a b).1 hab with hab | hab | hab
    · exact (hbefriends b a).2 (Or.inl (hb.symmetric hab))
    · exact (hbefriends b a).2 (Or.inr (Or.inr hab))
    · exact (hbefriends b a).2 (Or.inr (Or.inl hab))
  · intro a haa
    rcases (hbefriends a a).1 haa with haa | ⟨rfl, hF⟩ | ⟨rfl, hF⟩
    · exact hb.proper haa
    · exact hnew ((hmem _).1 hF).1
    · exact hnew ((hmem _).1 hF).1
  · intro a b hab
    rw [hlives]
    rcases (hbefriends a b).1 hab with hab | ⟨rfl, -⟩ | ⟨-, hF⟩
    · exact hb.living hab
    · exact ⟨n, hn, hlive⟩
    · exact ((hmem _).1 hF).2
  · intro x a b ha hb' hne
    rw [hbefriends]
    -- the owner's other members are among those the node has just met
    have hmet : ∀ {y}, r.Owns head y → y ∈ r.living h.members := fun {y} ho =>
      (hmem y).2 ⟨(lists_iff hh).1 (he.owned ho), ho.lives⟩
    rcases (howns x a).1 ha with ⟨rfl, rfl⟩ | ⟨hna, hoa⟩
    · rcases (howns _ b).1 hb' with ⟨rfl, -⟩ | ⟨-, hob⟩
      · exact absurd rfl hne
      · exact Or.inr (Or.inl ⟨rfl, hmet hob⟩)
    · rcases (howns x b).1 hb' with ⟨rfl, rfl⟩ | ⟨-, hob⟩
      · exact Or.inr (Or.inr ⟨rfl, hmet hoa⟩)
      · exact Or.inl (hb.together hoa hob hne)
  · intro a b hab
    have hlisted : ∀ {y}, y ∈ r.living h.members → r.Lists head y := fun {y} hF =>
      (lists_iff hh).2 ((hmem y).1 hF).1
    rcases (hbefriends a b).1 hab with hab | ⟨rfl, hF⟩ | ⟨rfl, hF⟩
    · obtain ⟨x, hxa, hxb⟩ := hb.met hab
      exact ⟨x, (hlists x a).2 (Or.inl hxa), (hlists x b).2 (Or.inl hxb)⟩
    · exact ⟨head, (hlists _ _).2 (Or.inr ⟨rfl, rfl⟩), (hlists _ _).2 (Or.inl (hlisted hF))⟩
    · exact ⟨head, (hlists _ _).2 (Or.inl (hlisted hF)), (hlists _ _).2 (Or.inr ⟨rfl, rfl⟩)⟩

include hr hh hn hnew hlive in
/-- Taking in a node that is not listed and has not departed keeps a registry orderly. -/
theorem Orderly.admitting : (r.touch (r.admitting head node h n)).Orderly :=
  ⟨hr.wired.touch Touch.Faithful.admission, Enrolled.admitting hr hh hn hnew,
    Befriended.admitting hr hh hn hnew hlive⟩

end Admitting

end Registry

end FogNet
