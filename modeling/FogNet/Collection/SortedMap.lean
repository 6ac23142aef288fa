/-!
# Maps in key order

A `SortedMap β` keeps its entries as one list whose keys strictly ascend. Two maps that answer every
look-up alike are therefore equal (`SortedMap.ext_get?`), and the order in which a map is listed is
the order of its keys. The operations are described by their effect on look-ups: `get?_insert`,
`get?_erase` and `get?_modify`.
-/

namespace FogNet

/-- A finite map from natural numbers, listed by ascending key. -/
structure SortedMap (β : Type) where
  /-- The entries, smallest key first. -/
  entries : List (Nat × β)
  /-- No key occurs twice and the keys ascend. -/
  ascending : entries.Pairwise (fun a b => a.1 < b.1)

namespace SortedMap

variable {β γ : Type}

/-! ## Entries -/

/-- The value of the first entry with a key. -/
def findEntry (k : Nat) : List (Nat × β) → Option β
  | [] => none
  | e :: rest => if k = e.1 then some e.2 else findEntry k rest

/-- Put a value under a key, replacing what the key held. -/
def placeEntry (k : Nat) (v : β) : List (Nat × β) → List (Nat × β)
  | [] => [(k, v)]
  | e :: rest =>
    if k < e.1 then (k, v) :: e :: rest
    else if k = e.1 then (k, v) :: rest
    else e :: placeEntry k v rest

theorem eq_or_mem_of_mem_placeEntry {k : Nat} {v : β} {e : Nat × β} {es : List (Nat × β)}
    (h : e ∈ placeEntry k v es) : e = (k, v) ∨ e ∈ es := by
  induction es with
  | nil => simpa [placeEntry] using h
  | cons d rest ih => grind [placeEntry]

theorem ascending_placeEntry (k : Nat) (v : β) {es : List (Nat × β)}
    (h : es.Pairwise (fun a b => a.1 < b.1)) :
    (placeEntry k v es).Pairwise (fun a b => a.1 < b.1) := by
  induction es with
  | nil => simp [placeEntry]
  | cons d rest ih =>
    obtain ⟨hd, hr⟩ := List.pairwise_cons.1 h
    unfold placeEntry
    split
    · exact List.pairwise_cons.2 ⟨by grind, h⟩
    · split
      · exact List.pairwise_cons.2 ⟨by grind, hr⟩
      · refine List.pairwise_cons.2 ⟨fun e he => ?_, ih hr⟩
        rcases eq_or_mem_of_mem_placeEntry he with rfl | he
        · simp only; omega
        · exact hd e he

theorem findEntry_placeEntry (k j : Nat) (v : β) (es : List (Nat × β)) :
    findEntry j (placeEntry k v es) = if j = k then some v else findEntry j es := by
  induction es with
  | nil => rfl
  | cons d rest ih => grind [placeEntry, findEntry]

theorem findEntry_filter_ne (k j : Nat) (es : List (Nat × β)) :
    findEntry j (es.filter (fun e => e.1 != k)) = if j = k then none else findEntry j es := by
  induction es with
  | nil => simp [findEntry]
  | cons d rest ih => grind [findEntry]

theorem findEntry_map (k j : Nat) (f : β → β) (es : List (Nat × β)) :
    findEntry j (es.map (fun e => if e.1 = k then (e.1, f e.2) else e)) =
      if j = k then (findEntry j es).map f else findEntry j es := by
  induction es with
  | nil => simp [findEntry]
  | cons d rest ih => grind [findEntry]

theorem findEntry_eq_some_iff {es : List (Nat × β)}
    (h : es.Pairwise (fun a b => a.1 < b.1)) {k : Nat} {v : β} :
    findEntry k es = some v ↔ (k, v) ∈ es := by
  induction es with
  | nil => simp [findEntry]
  | cons e rest ih =>
    obtain ⟨he, hr⟩ := List.pairwise_cons.1 h
    have ih := ih hr
    unfold findEntry
    split
    · rename_i hk
      subst hk
      have : (e.1, v) ∉ rest := fun hv => Nat.lt_irrefl _ (he (e.1, v) hv)
      simp [this, Prod.ext_iff, eq_comm]
    · rename_i hk
      simp [ih, Prod.ext_iff, hk]

/-! ## Operations -/

/-- The map without entries. -/
def empty : SortedMap β := ⟨[], List.Pairwise.nil⟩

instance : EmptyCollection (SortedMap β) := ⟨empty⟩

instance : Inhabited (SortedMap β) := ⟨empty⟩

/-- The value under a key, if there is one. -/
def get? (m : SortedMap β) (k : Nat) : Option β := findEntry k m.entries

/-- Whether a key has a value. -/
def contains (m : SortedMap β) (k : Nat) : Bool := (m.get? k).isSome

/-- The number of entries. -/
def size (m : SortedMap β) : Nat := m.entries.length

/-- The keys, ascending. -/
def keys (m : SortedMap β) : List Nat := m.entries.map (·.1)

/-- The values, by ascending key. -/
def values (m : SortedMap β) : List β := m.entries.map (·.2)

/-- Put a value under a key, replacing what the key held. -/
def insert (m : SortedMap β) (k : Nat) (v : β) : SortedMap β :=
  ⟨placeEntry k v m.entries, ascending_placeEntry k v m.ascending⟩

/-- Take a key and its value out. -/
def erase (m : SortedMap β) (k : Nat) : SortedMap β :=
  ⟨m.entries.filter (fun e => e.1 != k), m.ascending.filter _⟩

/-- Change the value under a key; a map without the key stays as it is. -/
def modify (m : SortedMap β) (k : Nat) (f : β → β) : SortedMap β :=
  ⟨m.entries.map (fun e => if e.1 = k then (e.1, f e.2) else e),
    List.pairwise_map.2 (m.ascending.imp fun {a b} h => by grind)⟩

/-- Collect entries given in any order; of two with one key the later stays. -/
def ofList (es : List (Nat × β)) : SortedMap β :=
  es.foldl (fun m e => m.insert e.1 e.2) empty

/-! ## Look-ups -/

@[simp] theorem get?_empty (k : Nat) : (empty : SortedMap β).get? k = none := rfl

theorem get?_insert (m : SortedMap β) (k j : Nat) (v : β) :
    (m.insert k v).get? j = if j = k then some v else m.get? j :=
  findEntry_placeEntry k j v m.entries

@[simp] theorem get?_insert_self (m : SortedMap β) (k : Nat) (v : β) :
    (m.insert k v).get? k = some v := by
  simp [get?_insert]

theorem get?_erase (m : SortedMap β) (k j : Nat) :
    (m.erase k).get? j = if j = k then none else m.get? j :=
  findEntry_filter_ne k j m.entries

theorem get?_modify (m : SortedMap β) (k j : Nat) (f : β → β) :
    (m.modify k f).get? j = if j = k then (m.get? j).map f else m.get? j :=
  findEntry_map k j f m.entries

theorem get?_eq_some_iff {m : SortedMap β} {k : Nat} {v : β} :
    m.get? k = some v ↔ (k, v) ∈ m.entries :=
  findEntry_eq_some_iff m.ascending

/-! ## Equality -/

theorem entries_ext {es ds : List (Nat × β)} (he : es.Pairwise (fun a b => a.1 < b.1))
    (hd : ds.Pairwise (fun a b => a.1 < b.1)) (h : ∀ e, e ∈ es ↔ e ∈ ds) : es = ds := by
  induction es generalizing ds with
  | nil =>
    cases ds with
    | nil => rfl
    | cons d _ => exact absurd ((h d).2 List.mem_cons_self) (by simp)
  | cons e es ih =>
    cases ds with
    | nil => exact absurd ((h e).1 List.mem_cons_self) (by simp)
    | cons d ds =>
      obtain ⟨he1, he2⟩ := List.pairwise_cons.1 he
      obtain ⟨hd1, hd2⟩ := List.pairwise_cons.1 hd
      have hed : e = d := by
        rcases List.mem_cons.1 ((h e).1 List.mem_cons_self) with h1 | h1
        · exact h1
        · rcases List.mem_cons.1 ((h d).2 List.mem_cons_self) with h2 | h2
          · exact h2.symm
          · exact absurd (Nat.lt_trans (hd1 e h1) (he1 d h2)) (Nat.lt_irrefl _)
      subst hed
      congr 1
      refine ih he2 hd2 fun x => ?_
      have hx := h x
      simp only [List.mem_cons] at hx
      constructor
      · intro hm
        rcases hx.1 (Or.inr hm) with rfl | h'
        · exact absurd (he1 x hm) (Nat.lt_irrefl _)
        · exact h'
      · intro hm
        rcases hx.2 (Or.inr hm) with rfl | h'
        · exact absurd (hd1 x hm) (Nat.lt_irrefl _)
        · exact h'

/-- Two maps that answer every look-up alike are equal. -/
theorem ext_get? {m n : SortedMap β} (h : ∀ k, m.get? k = n.get? k) : m = n := by
  have : m.entries = n.entries := entries_ext m.ascending n.ascending fun ⟨k, v⟩ => by
    rw [← get?_eq_some_iff, ← get?_eq_some_iff, h k]
  cases m; cases n; simp_all

end SortedMap

end FogNet
