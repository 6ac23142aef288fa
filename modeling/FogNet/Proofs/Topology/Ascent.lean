import FogNet.Proofs.Topology.Reliability
import Mathlib.Data.Finset.Card

/-!
# Climbing to a root

The climb of the validation is cut off after as many steps as there are heads. Whatever has a parent
is a head, so a longer climb meets one of them twice (`Registry.Numbered.circular_of_climb`) and
would never end (`Registry.Circular.exists_climb`): what is cut off is exactly what runs into a
circle. Where parents are one level above there is no circle, and the levels count the steps to a
root (`Registry.exists_root_of_graded`). So validation accepts the well-formed registries and no
others, also when its local checks have not yet come to the heads that a climb passes
(`Registry.Numbered.validated`).
-/

namespace FogNet

namespace Registry

variable {r : Registry} {id k a p : EntityId} {h g : PuddleHead} {e : Entity} {m n : Nat}

/-! ## Following parents -/

/-- The parent of the head with a number. -/
def parent? (r : Registry) (k : EntityId) : Option EntityId :=
  (r.puddleHead k).toOption.bind (·.parent)

/-- Where a number of steps from children to parents lead. -/
def climb (r : Registry) : Nat → EntityId → Option EntityId
  | 0, k => some k
  | n + 1, k => (r.parent? k).bind (r.climb n)

/-- Following parents leads into a circle. -/
def Circular (r : Registry) (k : EntityId) : Prop :=
  ∃ m n a, r.climb m k = some a ∧ 0 < n ∧ r.climb n a = some a

theorem parent?_of_ok (hh : r.puddleHead k = .ok h) : r.parent? k = h.parent := by
  unfold parent?
  rw [hh]
  rfl

theorem parent?_of_error {fault : Fault} (hk : r.puddleHead k = .error fault) :
    r.parent? k = none := by
  unfold parent?
  rw [hk]
  rfl

/-- Whatever has a parent is a head. -/
theorem exists_head_of_parent? (hp : r.parent? k = some p) :
    ∃ h, r.puddleHead k = .ok h ∧ h.parent = some p := by
  cases hk : r.puddleHead k with
  | error fault =>
    rw [parent?_of_error hk] at hp
    cases hp
  | ok h => exact ⟨h, rfl, (parent?_of_ok hk).symm.trans hp⟩

theorem climb_succ (n : Nat) (k : EntityId) : r.climb (n + 1) k = (r.parent? k).bind (r.climb n) :=
  rfl

theorem climb_one : r.climb 1 k = r.parent? k := Option.bind_fun_some _

theorem climb_add (m n : Nat) (k : EntityId) :
    r.climb (m + n) k = (r.climb m k).bind (r.climb n) := by
  induction m generalizing k with
  | zero => rw [Nat.zero_add]; rfl
  | succ m ih =>
    rw [Nat.add_right_comm, climb_succ, climb_succ, Option.bind_assoc]
    exact Option.bind_congr fun p _ => ih p

/-- A climb passes its earlier stages. -/
theorem exists_climb_of_le (hp : r.climb n k = some p) (hmn : m ≤ n) :
    ∃ a, r.climb m k = some a ∧ r.climb (n - m) a = some p := by
  rw [← Nat.add_sub_cancel' hmn, climb_add] at hp
  exact Option.bind_eq_some_iff.1 hp

/-! ## Climbs that are cut off -/

theorem ne_endless_of_puddleHead {fault : Fault} (hk : r.puddleHead k = .error fault) :
    fault ≠ .topology (.endlessAscent id) := by
  rintro rfl
  revert hk
  unfold puddleHead lookup entity
  cases r.entities.get? k with
  | none => simp
  | some e => cases he : e.puddleHead? <;> simp [he]

/-- A climb is cut off if one more step can be taken than it is given. -/
theorem validateAscent_eq_endless_iff (hh : r.puddleHead k = .ok h) :
    r.validateAscent id n h.parent = .error (.topology (.endlessAscent id)) ↔
      ∃ p, r.climb (n + 1) k = some p := by
  induction n generalizing k h with
  | zero =>
    rw [climb_one, parent?_of_ok hh]
    cases h.parent <;> simp [validateAscent]
  | succ n ih =>
    rw [climb_succ, parent?_of_ok hh]
    cases h.parent with
    | none => simp [validateAscent]
    | some up =>
      rw [validateAscent, Option.bind_some]
      cases hup : r.puddleHead up with
      | error fault =>
        rw [climb_succ, parent?_of_error hup]
        refine iff_of_false (fun hfault => ?_) nofun
        exact ne_endless_of_puddleHead hup (Except.error.inj hfault)
      | ok g => exact ih hup

/-! ## Circles -/

/-- A climb that runs into a circle can always be continued. -/
theorem Circular.exists_climb (hk : r.Circular k) (n : Nat) : ∃ p, r.climb n k = some p := by
  obtain ⟨m, round, a, hm, hround, ha⟩ := hk
  have hrounds : ∀ q, r.climb (q * round) a = some a := by
    intro q
    induction q with
    | zero => rw [Nat.zero_mul]; rfl
    | succ q ih => rw [Nat.succ_mul, climb_add, ih, Option.bind_some, ha]
  have hend : r.climb (m + n * round) k = some a := by
    rw [climb_add, hm, Option.bind_some, hrounds]
  have hle : n ≤ m + n * round := Nat.le_add_left_of_le (Nat.le_mul_of_pos_right n hround)
  obtain ⟨p, hp, -⟩ := exists_climb_of_le hend hle
  exact ⟨p, hp⟩

namespace Numbered

/-- A climb of more steps than there are heads has been somewhere twice. -/
theorem circular_of_climb (hr : r.Numbered)
    (hp : r.climb (r.puddleHeads.length + 1) k = some p) : r.Circular k := by
  have hpassed : ∀ i ∈ Finset.range (r.puddleHeads.length + 1),
      r.climb i k ∈ (r.puddleHeads.map fun h => some h.id).toFinset := by
    intro i hi
    have hi := Finset.mem_range.1 hi
    obtain ⟨b, hb, -⟩ := exists_climb_of_le hp (Nat.succ_le_of_lt hi)
    obtain ⟨a, ha, hab⟩ := exists_climb_of_le hb (Nat.le_succ i)
    rw [Nat.succ_sub (Nat.le_refl i), Nat.sub_self, climb_one] at hab
    obtain ⟨h, hh, -⟩ := exists_head_of_parent? hab
    rw [ha, List.mem_toFinset, List.mem_map]
    exact ⟨h, mem_puddleHeads_iff.2 ⟨a, hh⟩, congrArg some (hr.id_puddleHead hh)⟩
  have hcard : (r.puddleHeads.map fun h => some h.id).toFinset.card <
      (Finset.range (r.puddleHeads.length + 1)).card := by
    rw [Finset.card_range]
    exact Nat.lt_succ_of_le ((List.toFinset_card_le _).trans (List.length_map _).le)
  obtain ⟨i, hi, j, hj, hne, heq⟩ := Finset.exists_ne_map_eq_of_card_lt_of_maps_to hcard hpassed
  wlog hij : i < j generalizing i j
  · exact this j hj i hi hne.symm heq.symm (Nat.lt_of_le_of_ne (Nat.not_lt.1 hij) hne.symm)
  obtain ⟨a, ha, -⟩ := exists_climb_of_le hp (Finset.mem_range.1 hj).le
  obtain ⟨b, hb, hba⟩ := exists_climb_of_le ha hij.le
  rw [← heq, hb] at ha
  obtain rfl := Option.some.inj ha
  exact ⟨i, j - i, b, hb, Nat.sub_pos_of_lt hij, hba⟩

/-- The climb from a head is cut off if and only if it runs into a circle. -/
theorem validateAscent_eq_endless_iff (hr : r.Numbered) (hh : h ∈ r.puddleHeads) :
    r.validateAscent h.id r.puddleHeads.length h.parent =
      .error (.topology (.endlessAscent h.id)) ↔ r.Circular h.id := by
  rw [Registry.validateAscent_eq_endless_iff (hr.puddleHead_id hh)]
  exact ⟨fun ⟨_, hp⟩ => hr.circular_of_climb hp, fun hcircle => hcircle.exists_climb _⟩

end Numbered

/-! ## Roots -/

/-- If parents are one level above, the levels from a head to its root count the steps to it. -/
theorem exists_root_of_graded
    (hr : ∀ {k h p}, r.puddleHead k = .ok h → h.parent = some p →
      ∃ g, r.puddleHead p = .ok g ∧ h.level = g.level + 1)
    (hh : r.puddleHead k = .ok h) :
    ∃ root g, r.climb (h.level - g.level) k = some root ∧ r.puddleHead root = .ok g ∧
      g.parent = none ∧ g.level ≤ h.level := by
  induction hlevel : h.level generalizing k h with
  | zero =>
    cases hp : h.parent with
    | none => exact ⟨k, h, by rw [Nat.zero_sub]; rfl, hh, hp, hlevel.le⟩
    | some p =>
      obtain ⟨g, -, hgap⟩ := hr hh hp
      exact absurd (hgap.symm.trans hlevel) (Nat.succ_ne_zero _)
  | succ level ih =>
    cases hp : h.parent with
    | none => exact ⟨k, h, by rw [hlevel, Nat.sub_self]; rfl, hh, hp, hlevel.le⟩
    | some p =>
      obtain ⟨g, hg, hgap⟩ := hr hh hp
      obtain ⟨root, top, hclimb, htop, hroot, hle⟩ := ih hg (Nat.succ.inj (hgap.symm.trans hlevel))
      refine ⟨root, top, ?_, htop, hroot, Nat.le_succ_of_le hle⟩
      rw [Nat.succ_sub hle, climb_succ, parent?_of_ok hh, hp, Option.bind_some, hclimb]

/-- From each head of a well-formed network there is a way to a root. -/
theorem WellFormed.exists_root (hr : r.WellFormed) (hn : r.Numbered) (hh : h ∈ r.puddleHeads) :
    ∃ g ∈ r.puddleHeads, r.climb (h.level - g.level) h.id = some g.id ∧ g.parent = none ∧
      g.level ≤ h.level := by
  obtain ⟨root, g, hclimb, hg, hroot, hle⟩ := exists_root_of_graded hr.graded (hn.puddleHead_id hh)
  obtain rfl := hn.id_puddleHead hg
  exact ⟨g, mem_puddleHeads_iff.2 ⟨_, hg⟩, hclimb, hroot, hle⟩

/-- What validation tells about a registry. -/
structure Validated (r : Registry) : Prop where
  /-- It accepts well-formed registries and no others. -/
  accepts_iff : r.validate = .ok () ↔ r.WellFormed
  /-- From each head of an accepted registry there is a root as many steps up as levels. -/
  rooted : r.validate = .ok () → ∀ h ∈ r.puddleHeads, ∃ g ∈ r.puddleHeads,
    r.climb (h.level - g.level) h.id = some g.id ∧ g.parent = none ∧ g.level ≤ h.level
  /-- The climb from a head is cut off if and only if it runs into a circle. -/
  endless_iff : ∀ h ∈ r.puddleHeads,
    r.validateAscent h.id r.puddleHeads.length h.parent =
      .error (.topology (.endlessAscent h.id)) ↔ r.Circular h.id
  /-- With a circle the answer is that the registry is not valid. -/
  refuses : ∀ h ∈ r.puddleHeads, r.Circular h.id → ∃ fault, r.validate = .error fault

/-- Validation accepts exactly the well-formed registries, and it comes to an end in all. -/
theorem Numbered.validated (hr : r.Numbered) : r.Validated where
  accepts_iff := ⟨WellFormed.of_validate, WellFormed.validate⟩
  rooted hv h hh := (WellFormed.of_validate hv).exists_root hr hh
  endless_iff h hh := hr.validateAscent_eq_endless_iff hh
  refuses h hh hcircle := by
    cases hv : r.validate with
    | error fault => exact ⟨fault, rfl⟩
    | ok u =>
      have hascent := ((validate_eq_ok_iff.1 hv).1 h hh).2.1
      rw [(hr.validateAscent_eq_endless_iff hh).2 hcircle] at hascent
      cases hascent

namespace Ring

/-- A head between two others, one of which may be the other. -/
def head (id : EntityId) (level : Level) (parent child : EntityId) : PuddleHead :=
  ((PuddleHead.create id "head" level (.rectangle 0 0 1 1) ⟨0, 0⟩).addChild child []).setParent
    parent

/-- Two heads, each of which is the parent of the other. -/
def registry : Registry :=
  (Registry.empty.put 1 (.puddleHead (head 1 1 2 2))).put 2 (.puddleHead (head 2 0 1 1))

-- The parent of the first head is one level above it, so its climb comes before the level gap.
example : registry.validate = .error (.topology (.endlessAscent 1)) := by rfl

end Ring

end Registry

namespace Builder

open Registry

/-- The family is well-formed, with a root above its elder child, and two heads that are each
other's parents are refused. -/
theorem Family.validated_made :
    (made.registry.Numbered ∧ made.registry.WellFormed ∧
      ∃ h, made.registry.puddleHead elder = .ok h ∧ ∃ g ∈ made.registry.puddleHeads,
        made.registry.climb (h.level - g.level) elder = some g.id ∧ g.parent = none) ∧
    Ring.registry.Numbered ∧ ∃ fault, Ring.registry.validate = .error fault := by
  have hmade : Made (fun _ _ => True) made :=
    made_draft (.start (eq_ok_of_toOption (Option.some_get isSome_start).symm))
  have hnumbered : made.registry.Numbered := fun _ _ => hmade.draft.orderly.wired.numbered
  have hfamily := Numbered.validated hnumbered
  have helder : (made.registry.puddleHead elder).toOption.isSome = true := by decide +kernel
  obtain ⟨h, hh⟩ := Option.isSome_iff_exists.1 helder
  have hh := eq_ok_of_toOption hh
  obtain ⟨g, hg, hclimb, hroot, -⟩ :=
    hfamily.rooted hmade.validate h (mem_puddleHeads_iff.2 ⟨elder, hh⟩)
  rw [hnumbered.id_puddleHead hh] at hclimb
  have hring : Ring.registry.Numbered := Numbered.put (Numbered.put Numbered.empty rfl) rfl
  have hcircle : Ring.registry.Circular 1 := ⟨0, 2, 1, rfl, Nat.two_pos, rfl⟩
  exact ⟨⟨hnumbered, hfamily.accepts_iff.1 hmade.validate, h, hh, g, hg, hclimb, hroot⟩, hring,
    (Numbered.validated hring).refuses (Ring.head 1 1 2 2) (mem_puddleHeads_iff.2 ⟨1, rfl⟩) hcircle⟩

end Builder

end FogNet
