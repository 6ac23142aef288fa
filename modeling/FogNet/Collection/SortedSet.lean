/-!
# Sets in ascending order

A `SortedSet` holds natural numbers as one strictly ascending list, so sets with the same members
are equal (`SortedSet.ext_mem`) and are always listed in the same order.
-/

namespace FogNet

/-- A finite set of natural numbers, listed in ascending order. -/
structure SortedSet where
  /-- The members, smallest first. -/
  toList : List Nat
  /-- The members strictly ascend. -/
  ascending : toList.Pairwise (· < ·)
deriving DecidableEq

namespace SortedSet

/-- Put a number into an ascending list unless it is there. -/
def placeMember (k : Nat) : List Nat → List Nat
  | [] => [k]
  | j :: rest =>
    if k < j then k :: j :: rest
    else if k = j then j :: rest
    else j :: placeMember k rest

@[simp] theorem mem_placeMember {k j : Nat} {l : List Nat} :
    j ∈ placeMember k l ↔ j = k ∨ j ∈ l := by
  induction l with
  | nil => simp [placeMember]
  | cons d rest ih => grind [placeMember]

theorem ascending_placeMember (k : Nat) {l : List Nat} (h : l.Pairwise (· < ·)) :
    (placeMember k l).Pairwise (· < ·) := by
  induction l with
  | nil => simp [placeMember]
  | cons d rest ih =>
    obtain ⟨hd, hr⟩ := List.pairwise_cons.1 h
    unfold placeMember
    split
    · exact List.pairwise_cons.2 ⟨by grind, h⟩
    · split
      · exact h
      · refine List.pairwise_cons.2 ⟨fun e he => ?_, ih hr⟩
        rcases mem_placeMember.1 he with rfl | he
        · omega
        · exact hd e he

/-- The set without members. -/
def empty : SortedSet := ⟨[], List.Pairwise.nil⟩

instance : EmptyCollection SortedSet := ⟨empty⟩

instance : Inhabited SortedSet := ⟨empty⟩

instance : Membership Nat SortedSet := ⟨fun s k => k ∈ s.toList⟩

instance (k : Nat) (s : SortedSet) : Decidable (k ∈ s) :=
  inferInstanceAs (Decidable (k ∈ s.toList))

/-- The number of members. -/
def size (s : SortedSet) : Nat := s.toList.length

/-- Add a member. -/
def insert (s : SortedSet) (k : Nat) : SortedSet :=
  ⟨placeMember k s.toList, ascending_placeMember k s.ascending⟩

/-- Take a member out. -/
def erase (s : SortedSet) (k : Nat) : SortedSet :=
  ⟨s.toList.filter (· != k), s.ascending.filter _⟩

/-- Collect numbers given in any order, repeats counted once. -/
def ofList (l : List Nat) : SortedSet := l.foldl insert empty

theorem mem_iff {k : Nat} {s : SortedSet} : k ∈ s ↔ k ∈ s.toList := Iff.rfl

@[simp] theorem not_mem_empty (k : Nat) : k ∉ empty := by simp [mem_iff, empty]

@[simp] theorem mem_insert {s : SortedSet} {k j : Nat} : j ∈ s.insert k ↔ j = k ∨ j ∈ s :=
  mem_placeMember

@[simp] theorem mem_erase {s : SortedSet} {k j : Nat} : j ∈ s.erase k ↔ j ≠ k ∧ j ∈ s := by
  simp [mem_iff, erase, and_comm]

theorem toList_ext {l m : List Nat} (hl : l.Pairwise (· < ·)) (hm : m.Pairwise (· < ·))
    (h : ∀ k, k ∈ l ↔ k ∈ m) : l = m := by
  induction l generalizing m with
  | nil =>
    cases m with
    | nil => rfl
    | cons d _ => exact absurd ((h d).2 List.mem_cons_self) (by simp)
  | cons e l ih =>
    cases m with
    | nil => exact absurd ((h e).1 List.mem_cons_self) (by simp)
    | cons d m =>
      obtain ⟨hl1, hl2⟩ := List.pairwise_cons.1 hl
      obtain ⟨hm1, hm2⟩ := List.pairwise_cons.1 hm
      have hed : e = d := by
        rcases List.mem_cons.1 ((h e).1 List.mem_cons_self) with h1 | h1
        · exact h1
        · rcases List.mem_cons.1 ((h d).2 List.mem_cons_self) with h2 | h2
          · exact h2.symm
          · exact absurd (Nat.lt_trans (hm1 e h1) (hl1 d h2)) (Nat.lt_irrefl _)
      subst hed
      congr 1
      exact ih hl2 hm2 fun x => by grind

/-- Two sets with the same members are equal. -/
theorem ext_mem {s t : SortedSet} (h : ∀ k, k ∈ s ↔ k ∈ t) : s = t := by
  have : s.toList = t.toList := toList_ext s.ascending t.ascending h
  cases s; cases t; simp_all

end SortedSet

end FogNet
