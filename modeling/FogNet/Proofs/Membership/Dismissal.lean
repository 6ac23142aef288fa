import FogNet.Proofs.Membership.Orderly

/-!
# Letting a node go keeps the records in agreement

A head that strikes a node off makes it a stranger to the members that remain, except those that
have moved along with it (`Orderly.dismissing`). A node that leaves the network is forgotten by its
buddies (`Orderly.departing`). Both leave an orderly registry behind.
-/

namespace FogNet

namespace Registry

variable {r : Registry} {head node a b k : EntityId} {h : PuddleHead} {n m : FogNode}

/-! ## A head strikes a node off -/

/-- The touch by which a head strikes a node off: the members that have not moved along with it are
strangers to it from then on. -/
def dismissing (r : Registry) (head node : EntityId) (h : PuddleHead) (n : FogNode) : Touch :=
  .dismissal head node h (r.strangers head node h n)

section Dismissing

variable (hr : r.Orderly) (hh : r.puddleHead head = .ok h) (hn : r.fogNode node = .ok n)

/-- A member that has not gone to the same new owner as a node is a stranger to it. -/
theorem mem_strangers_iff (he : r.Enrolled) (hh : r.puddleHead head = .ok h)
    (hn : r.fogNode node = .ok n) :
    k ∈ r.strangers head node h n ↔
      k ∈ h.members ∧ k ≠ node ∧ ∀ o, r.Owns o node → r.Owns o k → o = head := by
  unfold strangers
  rw [List.mem_filter, List.mem_filter, and_assoc, bne_iff_ne]
  refine and_congr_right fun hk => and_congr_right fun _ => ?_
  obtain ⟨x, hx⟩ := he.node_of_mem hh hk
  rw [movedAlong_of_ok hx]
  simp only [owns_iff_owner? hn, owns_iff_owner? hx]
  cases n.owner? with
  | none => simp
  | some o =>
    by_cases ho : o = head
    · simp [ho]
    · simp [ho]

theorem standing_settleLeave (head : EntityId) (n : FogNode) :
    (Change.settleLeave head n).standing = n.standing := by
  unfold Change.settleLeave
  split
  · split_ifs <;> rfl
  · split_ifs <;> rfl
  · rfl

theorem buddies_settleLeave (head : EntityId) (n : FogNode) :
    (Change.settleLeave head n).buddies = n.buddies := by
  unfold Change.settleLeave
  split
  · split_ifs <;> rfl
  · split_ifs <;> rfl
  · rfl

theorem standing_cutOff (n : FogNode) (l : List EntityId) : (n.cutOff l).standing = n.standing := by
  unfold FogNode.cutOff
  split_ifs <;> rfl

theorem standing_release (n : FogNode) (head : EntityId) :
    (n.release head).standing = if n.standing = .owned head then .unassigned else n.standing := by
  unfold FogNode.release
  split_ifs <;> rfl

theorem buddies_release (n : FogNode) (head : EntityId) : (n.release head).buddies = n.buddies := by
  unfold FogNode.release
  split_ifs <;> rfl

theorem pending_cutOff (n : FogNode) (l : List EntityId) : (n.cutOff l).pending = n.pending := by
  unfold FogNode.cutOff
  split_ifs <;> rfl

theorem pending_release (n : FogNode) (head : EntityId) : (n.release head).pending = n.pending := by
  unfold FogNode.release
  split_ifs <;> rfl

/-- A head that lets a node go finishes the change of the node. -/
theorem pending_settleLeave {head : EntityId}
    (hp : (∃ target, n.pending = some (.relocating head target)) ∨
      n.pending = some (.departing (some head))) : (Change.settleLeave head n).pending = none := by
  unfold Change.settleLeave
  rcases hp with ⟨target, hp⟩ | hp
  · rw [hp]
    simp [FogNode.settle]
  · rw [hp]
    simp [FogNode.settle]

theorem standing_dismissing (k : EntityId) (m : FogNode) :
    ((r.dismissing head node h n).node k m).standing =
      if k = node ∧ m.standing = .owned head then .unassigned else m.standing := by
  unfold dismissing Touch.dismissal
  simp only
  by_cases hk : k = node
  · subst hk
    simp only [if_true, standing_settleLeave, standing_release, standing_cutOff, true_and]
  · rw [if_neg hk, if_neg fun hc : k = node ∧ _ => hk hc.1]
    split_ifs <;> rfl

theorem lists_dismissing_iff :
    (r.touch (r.dismissing head node h n)).Lists a k ↔ r.Lists a k ∧ ¬ (a = head ∧ k = node) := by
  simp only [lists_touch_iff, dismissing, Touch.dismissal, members_relisting]
  constructor
  · rintro ⟨g, hg, hk⟩
    by_cases ha : a = head
    · rw [if_pos ha] at hk
      obtain ⟨hk, hne⟩ := List.mem_filter.1 (show k ∈ g.members.filter (· != node) from hk)
      exact ⟨⟨g, hg, hk⟩, fun hc => bne_iff_ne.1 hne hc.2⟩
    · rw [if_neg ha] at hk
      exact ⟨⟨g, hg, hk⟩, fun hc => ha hc.1⟩
  · rintro ⟨⟨g, hg, hk⟩, hne⟩
    refine ⟨g, hg, ?_⟩
    split_ifs with ha
    · exact List.mem_filter.2 ⟨hk, bne_iff_ne.2 fun hc => hne ⟨ha, hc⟩⟩
    · exact hk

theorem owns_dismissing_iff :
    (r.touch (r.dismissing head node h n)).Owns a k ↔ r.Owns a k ∧ ¬ (a = head ∧ k = node) := by
  simp only [owns_touch_iff, standing_dismissing]
  constructor
  · rintro ⟨m, hm, ho⟩
    split_ifs at ho with hc
    refine ⟨⟨m, hm, ho⟩, fun hak => hc ⟨hak.2, hak.1 ▸ ho⟩⟩
  · rintro ⟨⟨m, hm, ho⟩, hne⟩
    refine ⟨m, hm, ?_⟩
    rw [if_neg, ho]
    rintro ⟨hk, hs⟩
    exact hne ⟨Standing.owned.inj (ho.symm.trans hs), hk⟩

theorem lives_dismissing_iff : (r.touch (r.dismissing head node h n)).Lives k ↔ r.Lives k := by
  simp only [lives_touch_iff, standing_dismissing]
  refine exists_congr fun m => and_congr_right fun _ => ?_
  split_ifs with hc
  · simp [hc.2]
  · rfl

include hr hh hn in
theorem befriends_dismissing_iff :
    (r.touch (r.dismissing head node h n)).Befriends a b ↔
      r.Befriends a b ∧ ¬ (a = node ∧ b ∈ r.strangers head node h n) ∧
        ¬ (b = node ∧ a ∈ r.strangers head node h n) := by
  have hself : node ∉ r.strangers head node h n := fun hin =>
    ((mem_strangers_iff hr.enrolled hh hn).1 hin).2.1 rfl
  simp only [befriends_touch_iff, dismissing, Touch.dismissal]
  by_cases ha : a = node
  · subst ha
    simp only [if_pos, buddies_settleLeave, buddies_release]
    have hcut : ∀ m, r.fogNode a = .ok m → (b ∈ (m.cutOff (r.strangers head a h n)).buddies ↔
        b ∈ m.buddies ∧ b ∉ r.strangers head a h n) := by
      intro m hm
      unfold FogNode.cutOff
      split_ifs with hd
      · have hnone : ¬ r.Befriends a b := fun hb =>
          (lives_iff hm).1 (hr.befriended.living hb) (isDeparted_eq_true_iff.1 hd)
        rw [befriends_iff hm] at hnone
        simp [hnone]
      · rw [FogNode.mem_removeBuddies, and_comm]
    constructor
    · rintro ⟨m, hm, hb⟩
      obtain ⟨hb, hS⟩ := (hcut m hm).1 hb
      exact ⟨⟨m, hm, hb⟩, fun hc => hS hc.2, fun hc => hself hc.2⟩
    · rintro ⟨⟨m, hm, hb⟩, hS, -⟩
      exact ⟨m, hm, (hcut m hm).2 ⟨hb, fun hc => hS ⟨trivial, hc⟩⟩⟩
  · simp only [if_neg ha]
    constructor
    · rintro ⟨m, hm, hb⟩
      split_ifs at hb with hS
      · obtain ⟨hne, hb⟩ := FogNode.mem_removeBuddies.1 hb
        exact ⟨⟨m, hm, hb⟩, fun hc => ha hc.1, fun hc => hne (List.mem_singleton.2 hc.1)⟩
      · exact ⟨⟨m, hm, hb⟩, fun hc => ha hc.1, fun hc => hS hc.2⟩
    · rintro ⟨⟨m, hm, hb⟩, -, hS⟩
      refine ⟨m, hm, ?_⟩
      split_ifs with haS
      · refine FogNode.mem_removeBuddies.2 ⟨fun hc => hS ⟨List.mem_singleton.1 hc, haS⟩, hb⟩
      · exact hb

include hr hh in
/-- The lists agree with the nodes once a node has been struck off. -/
theorem Enrolled.dismissing : (r.touch (r.dismissing head node h n)).Enrolled := by
  have ht : (r.dismissing head node h n).Faithful := Touch.Faithful.dismissal
  have hlists : ∀ a k, (r.touch (r.dismissing head node h n)).Lists a k ↔ _ := fun a k =>
    lists_dismissing_iff
  have howns : ∀ a k, (r.touch (r.dismissing head node h n)).Owns a k ↔ _ := fun a k =>
    owns_dismissing_iff
  have he := hr.enrolled
  refine ⟨?_, ?_, ?_, ?_, ?_⟩
  · intro k g' hg'
    obtain ⟨g, hg, rfl⟩ := puddleHead_touch_iff.1 hg'
    rw [Registry.dismissing, Touch.dismissal, members_relisting]
    split_ifs
    · exact (he.nodup hg).filter _
    · exact he.nodup hg
  · intro a k hl
    rw [kind_touch]
    exact he.known ((hlists a k).1 hl).1
  · intro k g' m c hg'
    obtain ⟨g, hg, rfl⟩ := puddleHead_touch_iff.1 hg'
    rw [offers_touch_iff ht, Registry.dismissing, Touch.dismissal, members_relisting,
      memberCharacteristics_relisting]
    split_ifs
    · show (g.memberCharacteristics.erase node).get? m = some c ↔
        m ∈ g.members.filter (· != node) ∧ r.Offers m c
      rw [SortedMap.get?_erase, List.mem_filter, bne_iff_ne]
      by_cases hm : m = node
      · simp [hm]
      · simp [hm, he.offers hg]
    · exact he.offers hg
  · intro a k ho
    obtain ⟨ho, hne⟩ := (howns a k).1 ho
    exact (hlists a k).2 ⟨he.owned ho, hne⟩
  · exact Copied.relisting (f := fun g => (g.removeMember node).teardownServices node) he.copied ht
      hh rfl fun g => rfl

include hr hh hn in
/-- The buddy sets say who shares a puddle once a node has been struck off. -/
theorem Befriended.dismissing : (r.touch (r.dismissing head node h n)).Befriended := by
  have hlists : ∀ a k, (r.touch (r.dismissing head node h n)).Lists a k ↔ _ := fun a k =>
    lists_dismissing_iff
  have howns : ∀ a k, (r.touch (r.dismissing head node h n)).Owns a k ↔ _ := fun a k =>
    owns_dismissing_iff
  have hlives : ∀ k, (r.touch (r.dismissing head node h n)).Lives k ↔ _ := fun k =>
    lives_dismissing_iff
  have hbefriends := fun a b => befriends_dismissing_iff (a := a) (b := b) hr hh hn
  have he := hr.enrolled
  have hb := hr.befriended
  refine ⟨?_, ?_, ?_, ?_, ?_⟩
  · intro a b hab
    obtain ⟨hab, hS, hS'⟩ := (hbefriends a b).1 hab
    exact (hbefriends b a).2 ⟨hb.symmetric hab, hS', hS⟩
  · exact fun {a} haa => hb.proper ((hbefriends a a).1 haa).1
  · exact fun {a b} hab => (hlives a).2 (hb.living ((hbefriends a b).1 hab).1)
  · intro x a b ha hb' hne
    obtain ⟨hoa, hxa⟩ := (howns x a).1 ha
    obtain ⟨hob, hxb⟩ := (howns x b).1 hb'
    refine (hbefriends a b).2 ⟨hb.together hoa hob hne, ?_, ?_⟩
    -- two nodes of another owner have moved along together
    · rintro ⟨rfl, hS⟩
      exact hxa ⟨((mem_strangers_iff he hh hn).1 hS).2.2 x hoa hob, rfl⟩
    · rintro ⟨rfl, hS⟩
      exact hxb ⟨((mem_strangers_iff he hh hn).1 hS).2.2 x hob hoa, rfl⟩
  · intro a b hab
    obtain ⟨hab, hS, hS'⟩ := (hbefriends a b).1 hab
    have hne : a ≠ b := fun hc => hb.proper (hc ▸ hab)
    -- a buddy that the node left behind is kept for their common owner
    have hmoved : ∀ {y}, r.Lists head y → y ≠ node → y ∉ r.strangers head node h n →
        ∃ x, r.Owns x node ∧ r.Owns x y ∧ x ≠ head := by
      intro y hl hy hS
      rw [mem_strangers_iff he hh hn] at hS
      by_contra hnone
      refine hS ⟨(lists_iff hh).1 hl, hy, fun o ho ho' => ?_⟩
      by_contra hoh
      exact hnone ⟨o, ho, ho', hoh⟩
    obtain ⟨x, hxa, hxb⟩ := hb.met hab
    by_cases hx : x = head
    · subst hx
      by_cases han : a = node
      · subst han
        obtain ⟨o, hoa, hob, ho⟩ := hmoved hxb (Ne.symm hne) fun hc => hS ⟨rfl, hc⟩
        exact ⟨o, (hlists o a).2 ⟨he.owned hoa, fun hc => ho hc.1⟩,
          (hlists o b).2 ⟨he.owned hob, fun hc => ho hc.1⟩⟩
      · by_cases hbn : b = node
        · subst hbn
          obtain ⟨o, hob, hoa, ho⟩ := hmoved hxa hne fun hc => hS' ⟨rfl, hc⟩
          exact ⟨o, (hlists o a).2 ⟨he.owned hoa, fun hc => ho hc.1⟩,
            (hlists o b).2 ⟨he.owned hob, fun hc => ho hc.1⟩⟩
        · exact ⟨x, (hlists x a).2 ⟨hxa, fun hc => han hc.2⟩,
            (hlists x b).2 ⟨hxb, fun hc => hbn hc.2⟩⟩
    · exact ⟨x, (hlists x a).2 ⟨hxa, fun hc => hx hc.1⟩, (hlists x b).2 ⟨hxb, fun hc => hx hc.1⟩⟩

include hr hh hn in
/-- Striking a node off keeps a registry orderly. -/
theorem Orderly.dismissing : (r.touch (r.dismissing head node h n)).Orderly :=
  ⟨hr.wired.touch Touch.Faithful.dismissal, Enrolled.dismissing hr hh,
    Befriended.dismissing hr hh hn⟩

end Dismissing

/-! ## A node goes for good -/

/-- The touch by which a node goes for good: its buddies forget it. -/
def departing (node : EntityId) (n : FogNode) : Touch :=
  (Touch.onNode node (·.depart)).andThen (.forgetting node n.buddies.toList)

section Departing

variable (hr : r.Orderly) (hn : r.fogNode node = .ok n)

theorem faithful_departing : (departing node n).Faithful :=
  Touch.Faithful.andThen (Touch.Faithful.onNode fun _ => by rfl) Touch.Faithful.forgetting

theorem standing_departing (k : EntityId) (m : FogNode) :
    ((departing node n).node k m).standing = if k = node then .departed else m.standing := by
  unfold departing Touch.andThen
  simp only [Touch.standing_forgetting, Touch.onNode]
  split_ifs <;> rfl

/-- A node that leaves waits for its owner, if it has one. -/
theorem pending_departing (node : EntityId) (n : FogNode) :
    ((departing node n).node node n).pending =
      n.owner?.map fun head => .departing (some head) := by
  unfold departing Touch.andThen Touch.onNode Touch.forgetting
  simp only [if_true]
  split_ifs <;> rfl

theorem owns_departing_iff :
    (r.touch (departing node n)).Owns a k ↔ r.Owns a k ∧ k ≠ node := by
  simp only [owns_touch_iff, standing_departing]
  by_cases hk : k = node
  · simp [hk]
  · simp [hk, Owns]

theorem lives_departing_iff : (r.touch (departing node n)).Lives k ↔ r.Lives k ∧ k ≠ node := by
  simp only [lives_touch_iff, standing_departing]
  by_cases hk : k = node
  · simp [hk]
  · simp [hk, Lives]

include hr hn in
theorem befriends_departing_iff :
    (r.touch (departing node n)).Befriends a b ↔ r.Befriends a b ∧ a ≠ node ∧ b ≠ node := by
  simp only [befriends_touch_iff, departing, Touch.andThen, Touch.onNode, Touch.forgetting]
  by_cases ha : a = node
  · subst ha
    have hnone : ∀ m : FogNode, b ∉ (if a ∈ n.buddies.toList then m.depart.removeBuddies [a]
        else m.depart).buddies := fun m => by
      split_ifs <;> simp [FogNode.depart]
    simp [hnone]
  · simp only [if_neg ha]
    constructor
    · rintro ⟨m, hm, hb⟩
      split_ifs at hb with hin
      · obtain ⟨hne, hb⟩ := FogNode.mem_removeBuddies.1 hb
        exact ⟨⟨m, hm, hb⟩, ha, fun hc => hne (List.mem_singleton.2 hc)⟩
      · refine ⟨⟨m, hm, hb⟩, ha, fun hc => hin ?_⟩
        subst hc
        exact (befriends_iff hn).1 (hr.befriended.symmetric ⟨m, hm, hb⟩)
    · rintro ⟨⟨m, hm, hb⟩, -, hbn⟩
      refine ⟨m, hm, ?_⟩
      split_ifs
      · exact FogNode.mem_removeBuddies.2 ⟨fun hc => hbn (List.mem_singleton.1 hc), hb⟩
      · exact hb

include hr hn in
/-- A node that goes for good leaves an orderly registry behind. -/
theorem Orderly.departing : (r.touch (departing node n)).Orderly := by
  have hb := hr.befriended
  have howns : ∀ a k, (r.touch (Registry.departing node n)).Owns a k ↔ _ := fun a k =>
    owns_departing_iff
  have hlives : ∀ k, (r.touch (Registry.departing node n)).Lives k ↔ _ := fun k =>
    lives_departing_iff
  have hbefriends := fun a b => befriends_departing_iff (a := a) (b := b) hr hn
  have hlists : ∀ a k, (r.touch (Registry.departing node n)).Lists a k ↔ r.Lists a k :=
    fun a k => lists_touch_iff
  refine ⟨hr.wired.touch faithful_departing, hr.enrolled.keep faithful_departing
    (fun _ _ => ⟨rfl, rfl, rfl⟩) fun {a k} ho => ((howns a k).1 ho).1, ?_⟩
  refine ⟨fun {a b} hab => ?_, fun {a} haa => ?_, fun {a b} hab => ?_, fun {x a b} ha hb' hne => ?_,
    fun {a b} hab => ?_⟩
  · obtain ⟨hab, ha, hb'⟩ := (hbefriends a b).1 hab
    exact (hbefriends b a).2 ⟨hb.symmetric hab, hb', ha⟩
  · exact hb.proper ((hbefriends a a).1 haa).1
  · obtain ⟨hab, ha, -⟩ := (hbefriends a b).1 hab
    exact (hlives a).2 ⟨hb.living hab, ha⟩
  · obtain ⟨hoa, ha⟩ := (howns x a).1 ha
    obtain ⟨hob, hb'⟩ := (howns x b).1 hb'
    exact (hbefriends a b).2 ⟨hb.together hoa hob hne, ha, hb'⟩
  · obtain ⟨x, hxa, hxb⟩ := hb.met ((hbefriends a b).1 hab).1
    exact ⟨x, (hlists x a).2 hxa, (hlists x b).2 hxb⟩

end Departing

end Registry

end FogNet
