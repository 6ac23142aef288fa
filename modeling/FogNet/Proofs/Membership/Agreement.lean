import FogNet.Proofs.Membership.Orderly
import Mathlib.Data.List.Nodup
import Mathlib.Data.List.Pairwise

/-!
# What the consistency checks establish

Each check passes exactly when the records it compares agree, and a registry that is orderly and in
which the heads list a node only while they may passes all of them (`checkAll_of_orderly`).
-/

namespace FogNet

/-- A loop of checks passes if each check does. -/
theorem forM_eq_ok_iff {α ε : Type} {f : α → Except ε Unit} {l : List α} :
    l.forM f = .ok () ↔ ∀ a ∈ l, f a = .ok () := by
  induction l with
  | nil => simp [List.forM, pure, Except.pure]
  | cons a rest ih =>
    show (f a >>= fun _ => rest.forM f) = .ok () ↔ _
    rw [List.forall_mem_cons, ← ih]
    cases f a <;> simp [bind, Except.bind]

theorem seq_eq_ok_iff {ε : Type} {x y : Except ε Unit} :
    (x >>= fun _ => y) = .ok () ↔ x = .ok () ∧ y = .ok () := by
  cases x <;> simp [bind, Except.bind]

theorem guard_eq_ok_iff {ε : Type} {c : Bool} {e : ε} :
    (if c then .ok () else .error e : Except ε Unit) = .ok () ↔ c = true := by
  cases c <;> simp

namespace Registry

variable {r : Registry} {k node a b : EntityId} {n : FogNode} {h : PuddleHead}

/-! ## Lists of entities by number -/

theorem forall_mem_fogNodes_iff (hr : r.Numbered) {P : FogNode → Prop} :
    (∀ n ∈ r.fogNodes, P n) ↔ ∀ k n, r.fogNode k = .ok n → n.id = k → P n := by
  simp only [mem_fogNodes_iff]
  constructor
  · exact fun h k n hn _ => h n ⟨k, hn⟩
  · rintro h n ⟨k, hn⟩
    exact h k n hn (hr.id_fogNode hn)

theorem forall_mem_puddleHeads_iff (hr : r.Numbered) {P : PuddleHead → Prop} :
    (∀ h ∈ r.puddleHeads, P h) ↔ ∀ k h, r.puddleHead k = .ok h → h.id = k → P h := by
  simp only [mem_puddleHeads_iff]
  constructor
  · exact fun hP k h hh _ => hP h ⟨k, hh⟩
  · rintro hP h ⟨k, hh⟩
    exact hP k h hh (hr.id_puddleHead hh)

/-- The entities are listed by ascending number. -/
theorem ascending_values (hr : r.Numbered) :
    r.entities.values.Pairwise fun d e => d.id < e.id := by
  unfold SortedMap.values
  rw [List.pairwise_map]
  refine r.entities.ascending.imp_of_mem fun {d e} hd he hlt => ?_
  rw [hr _ _ (SortedMap.get?_eq_some_iff.2 hd), hr _ _ (SortedMap.get?_eq_some_iff.2 he)]
  exact hlt

/-- The entities of a kind are listed by ascending number. -/
theorem ascending_view {α : Type} {view : Entity → Option α} {number : α → EntityId}
    (hr : r.Numbered) (hview : ∀ e a, view e = some a → e.id = number a) :
    (r.entities.values.filterMap view).Pairwise fun a b => number a < number b := by
  rw [List.pairwise_filterMap]
  refine (ascending_values hr).imp fun {d e} hlt a ha b hb => ?_
  rw [← hview d a ha, ← hview e b hb]
  exact hlt

theorem ascending_fogNodes (hr : r.Numbered) : r.fogNodes.Pairwise fun m n => m.id < n.id :=
  ascending_view hr fun _ _ hn => congrArg Entity.id (Entity.fogNode?_eq_some_iff.1 hn)

theorem ascending_puddleHeads (hr : r.Numbered) : r.puddleHeads.Pairwise fun g h => g.id < h.id :=
  ascending_view hr fun _ _ hh => congrArg Entity.id (Entity.puddleHead?_eq_some_iff.1 hh)

theorem ascending_links (hr : r.Numbered) : r.links.Pairwise fun l m => l.id < m.id :=
  ascending_view hr fun _ _ hl => congrArg Entity.id (Entity.link?_eq_some_iff.1 hl)

/-! ## Buddies -/

theorem checkMutual_eq_ok_iff {lister : EntityId} {answers : EntityId → Bool} {s : SortedSet} :
    checkMutual lister answers s = .ok () ↔ ∀ b ∈ s, answers b = true := by
  unfold checkMutual
  rw [forM_eq_ok_iff]
  simp only [guard_eq_ok_iff, SortedSet.mem_iff]

/-- Whether a node answers a buddy that lists it. -/
theorem answers_node_iff :
    (match r.fogNode b with
      | .ok x => decide (a ∈ x.buddies)
      | .error _ => false) = true ↔ r.Befriends b a := by
  unfold Befriends
  cases r.fogNode b <;> simp

/-- Whether a head answers a sibling that lists it. -/
theorem answers_head_iff :
    (match r.puddleHead b with
      | .ok x => decide (a ∈ x.buddies)
      | .error _ => false) = true ↔ ∃ g, r.puddleHead b = .ok g ∧ a ∈ g.buddies := by
  cases r.puddleHead b <;> simp

theorem checkBuddySymmetry_eq_ok_iff (hr : r.Numbered) :
    r.checkBuddySymmetry = .ok () ↔
      (∀ a b, r.Befriends a b → r.Befriends b a) ∧
      ∀ a h b, r.puddleHead a = .ok h → b ∈ h.buddies →
        ∃ g, r.puddleHead b = .ok g ∧ a ∈ g.buddies := by
  unfold checkBuddySymmetry
  rw [seq_eq_ok_iff, forM_eq_ok_iff, forM_eq_ok_iff]
  simp only [checkMutual_eq_ok_iff]
  rw [forall_mem_fogNodes_iff hr, forall_mem_puddleHeads_iff hr]
  refine and_congr ⟨?_, ?_⟩ ⟨?_, ?_⟩
  · rintro h a b ⟨n, hn, hb⟩
    have := h a n hn (hr.id_fogNode hn) b hb
    rw [hr.id_fogNode hn] at this
    exact answers_node_iff.1 this
  · rintro h k n hn rfl b hb
    exact answers_node_iff.2 (h n.id b ⟨n, hn, hb⟩)
  · intro h a g b hg hb
    have := h a g hg (hr.id_puddleHead hg) b hb
    rw [hr.id_puddleHead hg] at this
    exact answers_head_iff.1 this
  · rintro h k g hg rfl b hb
    exact answers_head_iff.2 (h g.id g b hg hb)

theorem isDepartedNode_eq_true_iff :
    r.isDepartedNode k = true ↔ ∃ n, r.fogNode k = .ok n ∧ n.standing = .departed := by
  unfold isDepartedNode
  cases r.fogNode k <;> simp [isDeparted_eq_true_iff]

theorem checkDepartedIsolated_eq_ok_iff (hr : r.Numbered) :
    r.checkDepartedIsolated = .ok () ↔
      ∀ a b, r.Befriends a b → r.Lives a ∧ r.isDepartedNode b = false := by
  have hguard : ∀ (c d : Bool) (u v : Violation),
      (if c then .error u else if d then .error v else .ok () : Except Violation Unit) = .ok () ↔
        d = false ∧ c = false := by
    intro c d u v
    cases c <;> cases d <;> simp
  unfold checkDepartedIsolated
  rw [forM_eq_ok_iff]
  simp only [forM_eq_ok_iff, hguard, isDeparted_eq_false_iff]
  rw [forall_mem_fogNodes_iff hr]
  constructor
  · rintro h a b ⟨n, hn, hb⟩
    obtain ⟨hlive, hgone⟩ := h a n hn (hr.id_fogNode hn) b hb
    exact ⟨⟨n, hn, hlive⟩, hgone⟩
  · rintro h k n hn - b hb
    obtain ⟨hlive, hgone⟩ := h k b ⟨n, hn, hb⟩
    exact ⟨(lives_iff hn).1 hlive, hgone⟩

/-! ## Owners and copies -/

/-- A head lists a node that belongs to it. -/
def MayList (r : Registry) (head node : EntityId) : Prop :=
  ∃ n, r.fogNode node = .ok n ∧ mayList head n = true

theorem belongs_iff :
    (match r.fogNode node with
      | .ok n => mayList a n
      | .error _ => false) = true ↔ r.MayList a node := by
  unfold MayList
  cases r.fogNode node <;> simp

theorem listed_iff :
    (match r.puddleHead a with
      | .ok h => h.isMember node
      | .error _ => false) = true ↔ r.Lists a node := by
  unfold Lists PuddleHead.isMember
  cases r.puddleHead a <;> simp

theorem checkOwners_eq_ok_iff (hr : r.Numbered) :
    r.checkOwners = .ok () ↔
      (∀ a k, r.Lists a k → r.MayList a k) ∧ ∀ a k, r.Owns a k → r.Lists a k := by
  unfold checkOwners
  rw [seq_eq_ok_iff, forM_eq_ok_iff, forM_eq_ok_iff]
  simp only [forM_eq_ok_iff, guard_eq_ok_iff]
  rw [forall_mem_fogNodes_iff hr, forall_mem_puddleHeads_iff hr]
  refine and_congr ⟨?_, ?_⟩ ⟨?_, ?_⟩
  · rintro h a k ⟨g, hg, hk⟩
    have := h a g hg (hr.id_puddleHead hg) k hk
    rw [hr.id_puddleHead hg] at this
    exact belongs_iff.1 this
  · rintro h k g hg rfl m hm
    exact belongs_iff.2 (h g.id m ⟨g, hg, hm⟩)
  · rintro h a k ⟨n, hn, hs⟩
    have := h k n hn (hr.id_fogNode hn)
    simp only [hs, guard_eq_ok_iff, hr.id_fogNode hn] at this
    exact listed_iff.1 this
  · rintro h k n hn rfl
    cases hs : n.standing with
    | unassigned => rfl
    | departed => rfl
    | owned a => exact guard_eq_ok_iff.2 (listed_iff.2 (h a n.id ⟨n, hn, hs⟩))

/-- Whether a parent's copy of a list is up to date. -/
theorem current_iff {l : List EntityId} :
    (match r.puddleHead a with
      | .ok g => g.childPuddles.get? k == some l
      | .error _ => false) = true ↔
      ∃ g, r.puddleHead a = .ok g ∧ g.childPuddles.get? k = some l := by
  cases r.puddleHead a <;> simp

theorem checkCopies_eq_ok_iff (hr : r.Numbered) : r.checkCopies = .ok () ↔ r.Copied := by
  unfold checkCopies
  rw [forM_eq_ok_iff, forall_mem_puddleHeads_iff hr]
  constructor
  · intro h k g p hg hp
    have := h k g hg (hr.id_puddleHead hg)
    simp only [hp, guard_eq_ok_iff, hr.id_puddleHead hg] at this
    exact current_iff.1 this
  · rintro h k g hg rfl
    cases hp : g.parent with
    | none => rfl
    | some p => exact guard_eq_ok_iff.2 (current_iff.2 (h hg hp))

/-! ## Listings -/

theorem isHandedOver_iff : r.isHandedOver k a b = true ↔
    ∃ n, r.fogNode k = .ok n ∧
      (n.pending = some (.relocating a b) ∨ n.pending = some (.relocating b a)) := by
  unfold isHandedOver
  cases r.fogNode k with
  | error fault => simp
  | ok n =>
    cases hp : n.pending with
    | none => simp [hp]
    | some t => cases t <;> simp [hp]

theorem isHandedOver_symm (h : r.isHandedOver k a b = true) : r.isHandedOver k b a = true := by
  obtain ⟨n, hn, hp⟩ := isHandedOver_iff.1 h
  exact isHandedOver_iff.2 ⟨n, hn, hp.symm⟩

/-- A head hands a node over to one head, or takes it over from one. -/
theorem eq_of_isHandedOver (ha : r.isHandedOver k head a = true)
    (hb : r.isHandedOver k head b = true) : a = b := by
  obtain ⟨n, hn, ha⟩ := isHandedOver_iff.1 ha
  obtain ⟨m, hm, hb⟩ := isHandedOver_iff.1 hb
  obtain rfl := Except.ok.inj (hn.symm.trans hm)
  rcases ha with ha | ha <;> rcases hb with hb | hb <;> rw [ha] at hb <;> simp_all

/-- No two entries name one node unless the node is handed over between their heads. -/
def Undisputed (r : Registry) (l : List (EntityId × EntityId)) : Prop :=
  l.Pairwise fun p q => p.2 = q.2 → r.isHandedOver q.2 p.1 q.1 = true

/-- The pass over the entries compares each with the first one of its node only. That is enough: the
first head hands the node over to one head, so two more entries of the node would be the same. -/
theorem checkListings_eq_ok_iff {l : List (EntityId × EntityId)} {m : SortedMap EntityId}
    (hl : l.Nodup) :
    r.checkListings l m = .ok () ↔ r.Undisputed l ∧
      ∀ p ∈ l, ∀ first, m.get? p.2 = some first → r.isHandedOver p.2 first p.1 = true := by
  induction l generalizing m with
  | nil => simp [checkListings, Undisputed]
  | cons p rest ih =>
    obtain ⟨head, node⟩ := p
    obtain ⟨hfresh, hnodup⟩ := List.nodup_cons.1 hl
    unfold Undisputed at ih ⊢
    rw [List.pairwise_cons, List.forall_mem_cons, checkListings]
    cases hg : m.get? node with
    | none =>
      -- from now on the entry is the first one of its node
      simp only [ih hnodup, SortedMap.get?_insert, reduceCtorEq, false_implies, implies_true,
        true_and]
      constructor
      · rintro ⟨hrest, hnext⟩
        refine ⟨⟨fun q hq hqn => hnext q hq head (if_pos hqn.symm), hrest⟩,
          fun q hq first hfirst => ?_⟩
        have hqn : q.2 ≠ node := by
          rintro rfl
          rw [hg] at hfirst
          cases hfirst
        exact hnext q hq first ((if_neg hqn).trans hfirst)
      · rintro ⟨⟨hnew, hrest⟩, hold⟩
        refine ⟨hrest, fun q hq first hfirst => ?_⟩
        split_ifs at hfirst with hqn
        · obtain rfl := Option.some.inj hfirst
          exact hnew q hq hqn.symm
        · exact hold q hq first hfirst
    | some first =>
      simp only [Option.some.injEq, forall_eq']
      by_cases hover : r.isHandedOver node first head = true
      · rw [if_pos hover, ih hnodup]
        constructor
        · rintro ⟨hrest, hnext⟩
          refine ⟨⟨fun q hq hqn => ?_, hrest⟩, hover, hnext⟩
          obtain rfl : node = q.2 := hqn
          have hsame : (head, q.2) = q :=
            Prod.ext (eq_of_isHandedOver hover (hnext q hq first hg)) rfl
          exact absurd (hsame ▸ hq) hfresh
        · rintro ⟨⟨-, hrest⟩, -, hnext⟩
          exact ⟨hrest, hnext⟩
      · rw [if_neg hover]
        exact iff_of_false nofun fun hall => hover hall.2.1

theorem mem_listings_iff (hr : r.Numbered) {p : EntityId × EntityId} :
    p ∈ r.listings ↔ r.Lists p.1 p.2 := by
  unfold listings Lists
  rw [List.mem_flatMap]
  constructor
  · rintro ⟨h, hh, hp⟩
    obtain ⟨m, hm, rfl⟩ := List.mem_map.1 hp
    exact ⟨h, hr.puddleHead_id hh, hm⟩
  · rintro ⟨h, hh, hm⟩
    refine ⟨h, mem_puddleHeads_iff.2 ⟨p.1, hh⟩, List.mem_map.2 ⟨p.2, hm, ?_⟩⟩
    rw [hr.id_puddleHead hh]

/-- Each head lists a node once, and the heads are told apart by their numbers. -/
theorem nodup_listings (hr : r.Numbered)
    (hnodup : ∀ {k h}, r.puddleHead k = .ok h → h.members.Nodup) : r.listings.Nodup := by
  unfold listings List.Nodup
  rw [List.pairwise_flatMap]
  constructor
  · intro h hh
    rw [List.pairwise_map]
    exact (hnodup (hr.puddleHead_id hh)).imp fun hne he => hne (congrArg Prod.snd he)
  · refine (ascending_puddleHeads hr).imp fun {g h} hlt p hp q hq he => ?_
    obtain ⟨m, -, rfl⟩ := List.mem_map.1 hp
    obtain ⟨m', -, rfl⟩ := List.mem_map.1 hq
    exact absurd (congrArg Prod.fst he) (Nat.ne_of_lt hlt)

/-- A node is listed by two heads only while it is handed over between them. -/
theorem checkSingleOwnership_eq_ok_iff (hr : r.Numbered)
    (hnodup : ∀ {k h}, r.puddleHead k = .ok h → h.members.Nodup) :
    r.checkSingleOwnership = .ok () ↔
      ∀ a b k, a ≠ b → r.Lists a k → r.Lists b k → r.isHandedOver k a b = true := by
  have hl := nodup_listings hr hnodup
  unfold checkSingleOwnership
  rw [checkListings_eq_ok_iff hl]
  constructor
  · rintro ⟨hall, -⟩ a b k hab ha hb
    have : Std.Symm fun p q : EntityId × EntityId =>
        p.2 = q.2 → r.isHandedOver q.2 p.1 q.1 = true :=
      ⟨fun p q hpq hqp => hqp ▸ isHandedOver_symm (hpq hqp.symm)⟩
    have hpa : (a, k) ∈ r.listings := (mem_listings_iff hr).2 ha
    have hpb : (b, k) ∈ r.listings := (mem_listings_iff hr).2 hb
    exact List.Pairwise.forall hall hpa hpb (fun he => hab (congrArg Prod.fst he)) rfl
  · intro hall
    refine ⟨List.Nodup.pairwise_of_forall_ne hl fun p hp q hq hne he => ?_,
      fun p _ first hf => by simp at hf⟩
    have hheads : p.1 ≠ q.1 := fun hpq => hne (Prod.ext hpq he)
    exact hall p.1 q.1 q.2 hheads (he ▸ (mem_listings_iff hr).1 hp) ((mem_listings_iff hr).1 hq)

/-! ## All checks -/

theorem mayList_iff :
    mayList a n = true ↔
      n.standing = .owned a ∨ (∃ target, n.pending = some (.relocating a target)) ∨
        n.pending = some (.departing (some a)) := by
  unfold mayList
  rw [Bool.or_eq_true, beq_iff_eq]
  refine or_congr_right ?_
  cases hp : n.pending with
  | none => simp
  | some t => cases t <;> simp

/-- A head lists a node exactly while it may. -/
def ListedAsDue (r : Registry) : Prop :=
  ∀ ⦃k n⦄, r.fogNode k = .ok n → ∀ a, r.Lists a k ↔ mayList a n = true

/-- An orderly registry passes all checks if its heads list a node exactly while they may and no two
heads may, unless they hand the node over. -/
theorem checkAll_of_orderly (hr : r.Orderly) (hl : r.ListedAsDue)
    (htwo : ∀ {k n a b}, r.fogNode k = .ok n → a ≠ b → mayList a n = true → mayList b n = true →
      r.isHandedOver k a b = true) : r.checkAll = .ok () := by
  have hw := hr.wired.toNumbered
  have hb := hr.befriended
  have hnode : ∀ {a k}, r.Lists a k → ∃ n, r.fogNode k = .ok n := fun h =>
    kind_eq_fogNode_iff.1 (hr.enrolled.known h)
  have hsymmetry : r.checkBuddySymmetry = .ok () :=
    (checkBuddySymmetry_eq_ok_iff hw).2
      ⟨fun a b hab => hb.symmetric hab, fun a h b hh hbh => hr.wired.siblings hh hbh⟩
  have hdeparted : r.checkDepartedIsolated = .ok () := by
    refine (checkDepartedIsolated_eq_ok_iff hw).2 fun a b hab => ⟨hb.living hab, ?_⟩
    rw [← Bool.not_eq_true, isDepartedNode_eq_true_iff]
    rintro ⟨n, hn, hgone⟩
    exact (lives_iff hn).1 (hb.living (hb.symmetric hab)) hgone
  have hsingle : r.checkSingleOwnership = .ok () := by
    refine (checkSingleOwnership_eq_ok_iff hw hr.enrolled.nodup).2 fun a b k hab ha hb => ?_
    obtain ⟨n, hn⟩ := hnode ha
    exact htwo hn hab ((hl hn a).1 ha) ((hl hn b).1 hb)
  have howners : r.checkOwners = .ok () := by
    refine (checkOwners_eq_ok_iff hw).2
      ⟨fun a k hak => ?_, fun a k ho => hr.enrolled.owned ho⟩
    obtain ⟨n, hn⟩ := hnode hak
    exact ⟨n, hn, (hl hn a).1 hak⟩
  have hcopies : r.checkCopies = .ok () := (checkCopies_eq_ok_iff hw).2 hr.enrolled.copied
  unfold checkAll
  simp only [seq_eq_ok_iff]
  exact ⟨hsymmetry, hdeparted, hsingle, howners, hcopies⟩

end Registry

end FogNet
