import FogNet.Collection.SortedMap
import FogNet.Collection.SortedSet
import Mathlib.Tactic.ByContra
import Mathlib.Tactic.SplitIfs
import Mathlib.Tactic.Tauto

/-!
# Maps and sets under bulk changes

`SortedMap.mapEntries` changes all values at once, each by its key. `SortedSet.insertAll` and
`SortedSet.eraseAll` add and take out several members. Listing a map or a set and collecting the
list again gives it back (`SortedMap.ofList_entries`, `SortedSet.ofList_toList`).
-/

namespace FogNet

namespace SortedMap

variable {β : Type} {m : SortedMap β} {k j : Nat}

/-- Change each value by its key. -/
def mapEntries (m : SortedMap β) (f : Nat → β → β) : SortedMap β :=
  ⟨m.entries.map fun e => (e.1, f e.1 e.2), List.pairwise_map.2 m.ascending⟩

theorem findEntry_mapEntries (f : Nat → β → β) (es : List (Nat × β)) :
    findEntry k (es.map fun e => (e.1, f e.1 e.2)) = (findEntry k es).map (f k) := by
  induction es with
  | nil => rfl
  | cons e rest ih =>
    simp only [List.map_cons, findEntry]
    by_cases h : k = e.1
    · rw [if_pos h, if_pos h, h]
      rfl
    · rw [if_neg h, if_neg h, ih]

@[simp] theorem get?_mapEntries (m : SortedMap β) (f : Nat → β → β) (k : Nat) :
    (m.mapEntries f).get? k = (m.get? k).map (f k) :=
  findEntry_mapEntries f m.entries

theorem mapEntries_id (m : SortedMap β) : (m.mapEntries fun _ v => v) = m := by
  refine ext_get? fun j => ?_
  simp

theorem mapEntries_mapEntries (m : SortedMap β) (f g : Nat → β → β) :
    (m.mapEntries f).mapEntries g = m.mapEntries fun k v => g k (f k v) := by
  refine ext_get? fun j => ?_
  simp [Function.comp_def]

/-- Taking out a key that holds nothing changes nothing. -/
theorem erase_eq_self (h : m.get? k = none) : m.erase k = m := by
  refine ext_get? fun j => ?_
  rw [get?_erase]
  by_cases hj : j = k
  · rw [if_pos hj, hj, h]
  · rw [if_neg hj]

/-- Taking out a key that held nothing undoes putting it. -/
theorem erase_insert (h : m.get? k = none) (v : β) : (m.insert k v).erase k = m := by
  refine ext_get? fun j => ?_
  rw [get?_erase, get?_insert]
  by_cases hj : j = k
  · rw [if_pos hj, hj, h]
  · rw [if_neg hj, if_neg hj]

/-- Putting back what a key held undoes whatever was made of it. -/
theorem modify_modify {v : β} (h : m.get? k = some v) (f : β → β) :
    ((m.modify k f).modify k fun _ => v) = m := by
  refine ext_get? fun j => ?_
  rw [get?_modify, get?_modify]
  by_cases hj : j = k
  · rw [if_pos hj, if_pos hj, hj, h, Option.map_some, Option.map_some]
  · rw [if_neg hj, if_neg hj]

/-- Changes of the values under two different keys commute. -/
theorem modify_comm (h : k ≠ j) (f g : β → β) :
    (m.modify k f).modify j g = (m.modify j g).modify k f := by
  refine ext_get? fun i => ?_
  simp only [get?_modify]
  by_cases hk : i = k
  · rw [if_pos hk, if_neg (fun hj => h (hk.symm.trans hj)), if_neg (fun hj => h (hk.symm.trans hj)),
      if_pos hk]
  · rw [if_neg hk, if_neg hk]

/-- Ascending entries are all found once they are put; other keys keep what they held. -/
theorem get?_foldl_insert {es : List (Nat × β)} (h : es.Pairwise fun a b => a.1 < b.1)
    (m : SortedMap β) :
    (es.foldl (fun m e => m.insert e.1 e.2) m).get? k = (findEntry k es).or (m.get? k) := by
  induction es generalizing m with
  | nil => rfl
  | cons e rest ih =>
    obtain ⟨he, hr⟩ := List.pairwise_cons.1 h
    rw [List.foldl_cons, ih hr, get?_insert]
    by_cases hk : k = e.1
    · subst hk
      have hnone : findEntry e.1 rest = none := by
        by_contra hsome
        obtain ⟨v, hv⟩ := Option.ne_none_iff_exists'.1 hsome
        exact absurd (he _ ((findEntry_eq_some_iff hr).1 hv)) (Nat.lt_irrefl _)
      simp [findEntry, hnone]
    · simp [findEntry, hk]

theorem ofList_entries (m : SortedMap β) : ofList m.entries = m :=
  ext_get? fun _ => (get?_foldl_insert m.ascending empty).trans (Option.or_none ..)

theorem mem_of_mem_foldl_insert {es : List (Nat × β)} {e : Nat × β}
    (h : e ∈ (es.foldl (fun m e => m.insert e.1 e.2) m).entries) : e ∈ es ∨ e ∈ m.entries := by
  induction es generalizing m with
  | nil => exact .inr h
  | cons d rest ih =>
    rcases ih h with hrest | hput
    · exact .inl (List.mem_cons_of_mem _ hrest)
    · rcases eq_or_mem_of_mem_placeEntry hput with rfl | hm
      · exact .inl List.mem_cons_self
      · exact .inr hm

theorem mem_of_mem_ofList {es : List (Nat × β)} {e : Nat × β} (h : e ∈ (ofList es).entries) :
    e ∈ es :=
  (mem_of_mem_foldl_insert h).resolve_right List.not_mem_nil

end SortedMap

namespace SortedSet

variable {s : SortedSet} {k j : Nat} {l : List Nat}

/-- Add several members. -/
def insertAll (s : SortedSet) (l : List Nat) : SortedSet := l.foldl insert s

/-- Take several members out. -/
def eraseAll (s : SortedSet) (l : List Nat) : SortedSet := l.foldl erase s

@[simp] theorem mem_insertAll : j ∈ s.insertAll l ↔ j ∈ l ∨ j ∈ s := by
  unfold insertAll
  induction l generalizing s with
  | nil => simp
  | cons k rest ih =>
    rw [List.foldl_cons, ih, mem_insert, List.mem_cons]
    tauto

@[simp] theorem mem_eraseAll : j ∈ s.eraseAll l ↔ j ∉ l ∧ j ∈ s := by
  unfold eraseAll
  induction l generalizing s with
  | nil => simp
  | cons k rest ih =>
    rw [List.foldl_cons, ih, mem_erase, List.mem_cons]
    tauto

@[simp] theorem mem_ofList : j ∈ ofList l ↔ j ∈ l :=
  (mem_insertAll (s := empty)).trans (or_iff_left (not_mem_empty j))

theorem ofList_toList (s : SortedSet) : ofList s.toList = s :=
  ext_mem fun _ => mem_ofList

end SortedSet

end FogNet
