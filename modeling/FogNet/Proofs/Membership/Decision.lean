import FogNet.Membership.Placement
import FogNet.Proofs.Membership.Orderly

/-!
# The broker's decision

What the broker may decide on a node, and what it has looked at when it does. In an orderly registry
it always decides (`evaluate_spec`), and a decision to ignore a node means that the node is in the
middle of a change or gone.
-/

/-- The head that a decision sends a node to. -/
def FogNet.Placement.target? : FogNet.Placement → Option FogNet.EntityId
  | join target => some target
  | relocate _ target => some target
  | stay => none
  | ignore => none
  | depart _ => none

namespace FogNet.Registry

/-- The decisions that fit a node as it stands. -/
inductive Decision (r : Registry) (n : FogNode) : Placement → Prop where
  /-- A node in the middle of a change or gone for good is passed over. -/
  | ignore (hn : n.pending ≠ none ∨ n.standing = .departed) : Decision r n .ignore
  /-- A node that its owner covers stays. -/
  | stay {owner : EntityId} {h : PuddleHead} (hp : n.pending = none)
      (hs : n.standing = .owned owner) (hh : r.puddleHead owner = .ok h)
      (hc : h.covers n.position = true) : Decision r n .stay
  /-- A node in no puddle joins a head that covers it. -/
  | join {target : EntityId} {h : PuddleHead} (hp : n.pending = none)
      (hs : n.standing = .unassigned) (hh : r.puddleHead target = .ok h)
      (hc : h.covers n.position = true) : Decision r n (.join target)
  /-- A node that has left its owner's region goes to a head that covers it. -/
  | relocate {source target : EntityId} {g h : PuddleHead} (hp : n.pending = none)
      (hs : n.standing = .owned source) (hg : r.puddleHead source = .ok g)
      (hout : g.covers n.position = false) (hh : r.puddleHead target = .ok h)
      (hc : h.covers n.position = true) : Decision r n (.relocate source target)
  /-- A node that no head covers has to leave. -/
  | depart (hp : n.pending = none) (hs : n.standing ≠ .departed) : Decision r n (.depart n.owner?)

variable {r : Registry} {b : Broker} {node : EntityId} {n : FogNode} {p : Point Float}

/-- The search for a head among heads never fails, and what it finds covers the point. -/
theorem firstCovering_spec {l : List EntityId} (hl : ∀ a ∈ l, ∃ h, r.puddleHead a = .ok h) :
    r.firstCovering p l = .ok none ∨
      ∃ a h, r.firstCovering p l = .ok (some a) ∧ r.puddleHead a = .ok h ∧ h.covers p = true := by
  induction l with
  | nil => exact Or.inl rfl
  | cons a rest ih =>
    obtain ⟨h, hh⟩ := hl a List.mem_cons_self
    unfold firstCovering
    simp only [hh]
    by_cases hc : h.covers p = true
    · rw [if_pos hc]
      exact Or.inr ⟨a, h, rfl, hh, hc⟩
    · rw [if_neg hc]
      exact ih fun a ha => hl a (List.mem_cons_of_mem _ ha)

/-- The broker's search for a head never fails, and what it finds covers the point. -/
theorem findHead_spec (hw : r.Wired) {k : EntityId} (hb : r.broker k = .ok b) (level : Level)
    (p : Point Float) : r.findHead b level p = .ok none ∨
      ∃ a h, r.findHead b level p = .ok (some a) ∧ r.puddleHead a = .ok h ∧ h.covers p = true :=
  firstCovering_spec fun _ ha => kind_eq_puddleHead_iff.1 (hw.indexed hb ha)

/-- The broker decides on every node, and its decision fits. -/
theorem evaluate_spec (hr : r.Orderly) {k : EntityId} (hb : r.broker k = .ok b)
    (hn : r.fogNode node = .ok n) : ∃ p, r.evaluate b node = .ok p ∧ r.Decision n p := by
  have hfind := findHead_spec hr.wired hb n.level n.position
  unfold evaluate
  simp only [hn]
  cases hp : n.pending with
  | some t => exact ⟨.ignore, rfl, .ignore (Or.inl (by simp [hp]))⟩
  | none =>
    cases hs : n.standing with
    | departed => exact ⟨.ignore, rfl, .ignore (Or.inr hs)⟩
    | unassigned =>
      have howner : n.owner? = none := by simp [FogNode.owner?, hs, Standing.owner?]
      simp only [Option.isSome_none, Bool.false_eq_true, if_false, newPlace]
      rcases hfind with hfind | ⟨a, h, hfind, hh, hc⟩
      · rw [hfind]
        exact ⟨.depart none, rfl, howner ▸ .depart hp (by simp [hs])⟩
      · rw [hfind]
        exact ⟨.join a, rfl, .join hp hs hh hc⟩
    | owned owner =>
      have howner : n.owner? = some owner := by simp [FogNode.owner?, hs, Standing.owner?]
      obtain ⟨g, hg⟩ := hr.enrolled.head_of_owns ((owns_iff hn).2 hs)
      simp only [Option.isSome_none, Bool.false_eq_true, if_false, hg, newPlace]
      cases hout : g.covers n.position with
      | true => exact ⟨.stay, rfl, .stay hp hs hg hout⟩
      | false =>
        rcases hfind with hfind | ⟨a, h, hfind, hh, hc⟩
        · rw [hfind]
          exact ⟨.depart (some owner), rfl, howner ▸ .depart hp (by simp [hs])⟩
        · rw [hfind]
          exact ⟨.relocate owner a, rfl, .relocate hp hs hg hout hh hc⟩

theorem evaluate_of_unknown {fault : Fault} (hn : r.fogNode node = .error fault) :
    r.evaluate b node = .error fault := by
  unfold evaluate
  rw [hn]

/-- The broker passes over a node in the middle of a change. -/
theorem evaluate_of_pending (hn : r.fogNode node = .ok n) (hp : n.pending ≠ none) :
    r.evaluate b node = .ok .ignore := by
  unfold evaluate
  simp only [hn]
  exact if_pos (Option.isSome_iff_ne_none.2 hp)

/-- If the heads are in the order of their numbers, the search finds the one with the smallest
number that covers the point. -/
theorem firstCovering_least {l : List EntityId} {target : EntityId} (hl : l.Pairwise (· < ·))
    (h : r.firstCovering p l = .ok (some target)) :
    target ∈ l ∧ (∃ g, r.puddleHead target = .ok g ∧ g.covers p = true) ∧
      ∀ a ∈ l, ∀ g, r.puddleHead a = .ok g → g.covers p = true → target ≤ a := by
  induction l with
  | nil => cases h
  | cons a rest ih =>
    obtain ⟨hbelow, hrest⟩ := List.pairwise_cons.1 hl
    unfold firstCovering at h
    cases ha : r.puddleHead a with
    | error fault =>
      rw [ha] at h
      cases h
    | ok g =>
      simp only [ha] at h
      split_ifs at h with hc
      · cases h
        refine ⟨List.mem_cons_self, ⟨g, ha, hc⟩, fun c hcin _ _ _ => ?_⟩
        rcases List.mem_cons.1 hcin with rfl | hcin
        · exact Nat.le_refl _
        · exact Nat.le_of_lt (hbelow c hcin)
      · obtain ⟨hin, hcovers, hleast⟩ := ih hrest h
        refine ⟨List.mem_cons_of_mem _ hin, hcovers, fun c hcin f hf hcf => ?_⟩
        rcases List.mem_cons.1 hcin with rfl | hcin
        · rw [puddleHead_inj hf ha] at hcf
          exact absurd hcf hc
        · exact hleast c hcin f hf hcf

theorem newPlace_eq_relocate {owner : Option EntityId} {source target : EntityId}
    (h : r.newPlace b n owner = .ok (.relocate source target)) :
    owner = some source ∧ r.findHead b n.level n.position = .ok (some target) := by
  unfold newPlace at h
  cases hfind : r.findHead b n.level n.position with
  | error fault =>
    rw [hfind] at h
    cases h
  | ok found =>
    rw [hfind] at h
    cases found with
    | none => cases h
    | some head =>
      cases owner with
      | none => cases h
      | some owner =>
        cases h
        exact ⟨rfl, rfl⟩

/-- What the broker has found when it lets a node go from one head to another. -/
theorem evaluate_eq_relocate {source target : EntityId}
    (h : r.evaluate b node = .ok (.relocate source target)) :
    ∃ n g, r.fogNode node = .ok n ∧ n.standing = .owned source ∧ r.puddleHead source = .ok g ∧
      g.covers n.position = false ∧ r.findHead b n.level n.position = .ok (some target) := by
  unfold evaluate at h
  cases hn : r.fogNode node with
  | error fault =>
    rw [hn] at h
    cases h
  | ok n =>
    simp only [hn] at h
    split_ifs at h
    · cases h
    · cases hs : n.standing with
      | departed =>
        rw [hs] at h
        cases h
      | unassigned =>
        rw [hs] at h
        cases (newPlace_eq_relocate h).1
      | owned owner =>
        simp only [hs] at h
        cases hg : r.puddleHead owner with
        | error fault =>
          rw [hg] at h
          cases h
        | ok g =>
          simp only [hg] at h
          split_ifs at h with hc
          · cases h
          · obtain ⟨howner, hfind⟩ := newPlace_eq_relocate h
            cases howner
            exact ⟨n, g, rfl, hs, hg, Bool.eq_false_iff.2 hc, hfind⟩

theorem newPlace_target {owner : Option EntityId} {placement : Placement} {target : EntityId}
    (h : r.newPlace b n owner = .ok placement) (ht : placement.target? = some target) :
    r.findHead b n.level n.position = .ok (some target) := by
  unfold newPlace at h
  cases hfind : r.findHead b n.level n.position with
  | error fault =>
    rw [hfind] at h
    cases h
  | ok found =>
    rw [hfind] at h
    cases found with
    | none =>
      cases h
      cases ht
    | some head => cases owner <;> cases h <;> exact congrArg Except.ok ht

/-- The broker sends a node only to the head that it has found for the node's level. -/
theorem evaluate_target {placement : Placement} {target : EntityId}
    (h : r.evaluate b node = .ok placement) (ht : placement.target? = some target) :
    ∃ n, r.fogNode node = .ok n ∧ r.findHead b n.level n.position = .ok (some target) := by
  unfold evaluate at h
  cases hn : r.fogNode node with
  | error fault =>
    rw [hn] at h
    cases h
  | ok n =>
    simp only [hn] at h
    refine ⟨n, rfl, ?_⟩
    split_ifs at h
    · cases h
      cases ht
    · cases hs : n.standing with
      | departed =>
        rw [hs] at h
        cases h
        cases ht
      | unassigned =>
        rw [hs] at h
        exact newPlace_target h ht
      | owned owner =>
        simp only [hs] at h
        split at h
        · cases h
          cases ht
        · split_ifs at h
          · cases h
            cases ht
          · exact newPlace_target h ht

end FogNet.Registry
