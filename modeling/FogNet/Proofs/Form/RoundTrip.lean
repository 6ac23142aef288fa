import FogNet.Json.Access
import FogNet.Proofs.Collection

/-!
# Reading back what was written

An encoder and a decoder belong together when whatever can be written without loss is read back
unchanged, and nothing else is ever read (`Json.RoundTrips`). The second half is what makes reading
and writing stable: what was read can be written without loss again. The pairs for numbers, texts,
lists, maps and sets are shown here, with what a record needs about its fields.
-/

namespace FogNet.Json

variable {α : Type} {encode : α → Json} {decode : Json → Option α} {Writable : α → Prop}

/-- What can be written without loss is read back unchanged, and nothing else is read. -/
structure RoundTrips (encode : α → Json) (decode : Json → Option α) (Writable : α → Prop) :
    Prop where
  /-- Reading undoes writing. -/
  recovers : ∀ {a}, Writable a → decode (encode a) = some a
  /-- What is read can be written without loss. -/
  writable : ∀ {v a}, decode v = some a → Writable a

/-! ## Simple values -/

theorem natUpTo?_ofNat {limit n : Nat} (h : n ≤ limit) : (ofNat n).natUpTo? limit = some n := by
  rw [ofNat, natUpTo?, if_pos ⟨Int.natCast_nonneg n, Int.ofNat_le.2 h⟩, Int.toNat_natCast]

theorem le_of_natUpTo? {limit n : Nat} {v : Json} (h : v.natUpTo? limit = some n) : n ≤ limit := by
  unfold natUpTo? at h
  split at h
  · split_ifs at h with hn
    cases h
    omega
  · cases h

theorem natUpTo_roundTrips (limit : Nat) :
    RoundTrips ofNat (natUpTo? limit) (· ≤ limit) :=
  ⟨natUpTo?_ofNat, le_of_natUpTo?⟩

theorem word_roundTrips : RoundTrips ofNat word? (· ≤ wordLimit) := natUpTo_roundTrips wordLimit

theorem level_roundTrips : RoundTrips ofNat level? (· ≤ levelLimit) := natUpTo_roundTrips levelLimit

theorem isFinite_of_finite? {x y : Float} (h : finite? x = some y) : y.isFinite := by
  unfold finite? at h
  split_ifs at h with hx
  cases h
  exact hx

theorem real_roundTrips : RoundTrips ofReal real? (·.isFinite = true) where
  recovers h := by simp [ofReal, real?, finite?, h]
  writable h := by
    unfold real? at h
    split at h
    · exact isFinite_of_finite? h
    · exact isFinite_of_finite? h
    · cases h

theorem truth_roundTrips : RoundTrips bool truth? fun _ => True := ⟨fun _ => rfl, fun _ => trivial⟩

theorem text_roundTrips : RoundTrips str text? fun _ => True := ⟨fun _ => rfl, fun _ => trivial⟩

/-- A pair of numbers of entities is written as a list of two. -/
theorem wordPair_roundTrips :
    RoundTrips (fun p : Nat × Nat => .arr [ofNat p.1, ofNat p.2]) wordPair?
      fun p => p.1 ≤ wordLimit ∧ p.2 ≤ wordLimit where
  recovers h := by
    simp [wordPair?, word_roundTrips.recovers h.1, word_roundTrips.recovers h.2]
  writable h := by
    unfold wordPair? at h
    split at h
    · simp only [Option.bind_eq_bind, Option.bind_eq_some_iff] at h
      obtain ⟨a, ha, b, hb, hp⟩ := h
      cases hp
      exact ⟨word_roundTrips.writable ha, word_roundTrips.writable hb⟩
    · cases h

/-! ## Lists, sets and maps -/

theorem mapM_map_of_recovers {β : Type} {f : α → β} {g : β → Option α} {l : List α}
    (h : ∀ a ∈ l, g (f a) = some a) : (l.map f).mapM g = some l := by
  induction l with
  | nil => rfl
  | cons a rest ih =>
    rw [List.forall_mem_cons] at h
    simp [List.mapM_cons, h.1, ih h.2]

theorem exists_mem_of_mapM {β : Type} {g : β → Option α} {items : List β} {l : List α}
    (h : items.mapM g = some l) : ∀ a ∈ l, ∃ b ∈ items, g b = some a := by
  induction items generalizing l with
  | nil =>
    cases h
    simp
  | cons b rest ih =>
    simp only [List.mapM_cons, Option.bind_eq_bind, Option.bind_eq_some_iff] at h
    obtain ⟨a, ha, done, hdone, hl⟩ := h
    cases hl
    refine List.forall_mem_cons.2 ⟨⟨b, List.mem_cons_self, ha⟩, fun c hc => ?_⟩
    obtain ⟨d, hd, hc⟩ := ih hdone c hc
    exact ⟨d, List.mem_cons_of_mem _ hd, hc⟩

theorem RoundTrips.list (h : RoundTrips encode decode Writable) :
    RoundTrips (ofList encode) (list? decode) fun l => ∀ a ∈ l, Writable a where
  recovers hl := mapM_map_of_recovers fun a ha => h.recovers (hl a ha)
  writable hv := by
    unfold list? at hv
    split at hv
    · intro a ha
      obtain ⟨w, -, hw⟩ := exists_mem_of_mapM hv a ha
      exact h.writable hw
    · cases hv

theorem set_roundTrips : RoundTrips ofSet set? fun s => ∀ k ∈ s, k ≤ wordLimit where
  recovers {s} hs := by
    rw [set?, ofSet, word_roundTrips.list.recovers hs]
    exact congrArg some s.ofList_toList
  writable hv := by
    obtain ⟨l, hl, rfl⟩ := Option.map_eq_some_iff.1 hv
    exact fun k hk => word_roundTrips.list.writable hl k (SortedSet.mem_ofList.1 hk)

/-- A key is read from the digits it is written in. -/
theorem key?_toString {limit k : Nat} (h : k ≤ limit) : key? limit (toString k) = some k := by
  have hdigits : (toString k).toList = Nat.toDigits 10 k := Nat.toList_repr
  have hall : (Nat.toDigits 10 k).all Char.isDigit :=
    List.all_eq_true.2 fun c hc => Nat.isDigit_of_mem_toDigits (by decide) (by decide) hc
  have hvalue : (Nat.toDigits 10 k).foldl (fun n c => 10 * n + (c.toNat - '0'.toNat)) 0 = k := by
    rw [← Nat.ofDigitChars_eq_foldl, Nat.ofDigitChars_ten_toDigits]
  simp only [key?, hdigits, hall, hvalue]
  simp [Nat.toDigits_ne_nil, h]

theorem le_of_key? {limit k : Nat} {name : String} (h : key? limit name = some k) :
    k ≤ limit := by
  simp only [key?] at h
  split_ifs at h with _ hk
  cases h
  exact hk.2

theorem RoundTrips.entry (h : RoundTrips encode decode Writable) (limit : Nat) {e : Nat × α}
    (hkey : e.1 ≤ limit) (he : Writable e.2) :
    keyed? limit decode (toString e.1, encode e.2) = some e := by
  simp only [keyed?, key?_toString hkey, h.recovers he]
  rfl

theorem RoundTrips.of_entry (h : RoundTrips encode decode Writable) {limit : Nat}
    {f : String × Json} {e : Nat × α} (hf : keyed? limit decode f = some e) :
    e.1 ≤ limit ∧ Writable e.2 := by
  simp only [keyed?, Option.bind_eq_bind, Option.bind_eq_some_iff] at hf
  obtain ⟨k, hk, b, hb, he⟩ := hf
  cases he
  exact ⟨le_of_key? hk, h.writable hb⟩

theorem RoundTrips.map (h : RoundTrips encode decode Writable) (limit : Nat) :
    RoundTrips (ofMap encode) (map? limit decode)
      fun m => ∀ e ∈ m.entries, e.1 ≤ limit ∧ Writable e.2 where
  recovers {m} hm := by
    have hentries : (m.entries.map fun e => (toString e.1, encode e.2)).mapM
        (keyed? limit decode) = some m.entries :=
      mapM_map_of_recovers fun e he => h.entry limit (hm e he).1 (hm e he).2
    simp only [map?, ofMap, fields?, Option.bind_eq_bind, Option.bind_some, hentries,
      Option.pure_def, m.ofList_entries]
  writable hv := by
    simp only [map?, Option.bind_eq_bind, Option.bind_eq_some_iff] at hv
    obtain ⟨fields, -, entries, hentries, hm⟩ := hv
    cases hm
    intro e he
    obtain ⟨f, -, hf⟩ := exists_mem_of_mapM hentries e (SortedMap.mem_of_mem_ofList he)
    exact h.of_entry hf

/-! ## Fields and alternatives -/

section Fields

variable {name other : String} {w : Json} {rest : List (String × Json)} {v : Json}

@[simp] theorem record?_obj {names : List String} : record? names (.obj rest) = some (.obj rest) :=
  rfl

@[simp] theorem leading?_obj {names : List String} :
    leading? names (.obj rest) = some (.obj rest) :=
  rfl

@[simp] theorem lookup_cons_ne (h : name ≠ other) :
    ((other, w) :: rest).lookup name = rest.lookup name := by
  rw [List.lookup_cons, beq_eq_false_iff_ne.2 h]

@[simp] theorem field?_obj_self : field? (.obj ((name, w) :: rest)) name decode = decode w := by
  simp [field?, get?, fields?]

/-- Fields of other names are passed over. -/
@[simp] theorem field?_obj_ne (h : name ≠ other) :
    field? (.obj ((other, w) :: rest)) name decode = field? (.obj rest) name decode := by
  simp [field?, get?, fields?, h]

@[simp] theorem fieldOr?_obj_self {a : α} :
    fieldOr? (.obj ((name, w) :: rest)) name decode a = decode w := by
  simp [fieldOr?]

@[simp] theorem fieldOr?_obj_ne {a : α} (h : name ≠ other) :
    fieldOr? (.obj ((other, w) :: rest)) name decode a = fieldOr? (.obj rest) name decode a := by
  simp [fieldOr?, h]

@[simp] theorem optional?_obj_ne (h : name ≠ other) :
    optional? (.obj ((other, w) :: rest)) name decode = optional? (.obj rest) name decode := by
  simp [optional?, h]

/-- Something optional is read back from its field if nothing in it is written as absent. -/
theorem RoundTrips.optional?_ofOption (h : RoundTrips encode decode Writable)
    (hnull : ∀ a, encode a ≠ .null) {o : Option α} (ho : ∀ a ∈ o, Writable a) :
    optional? (.obj ((name, ofOption encode o) :: rest)) name decode = some o := by
  cases o with
  | none => simp [optional?, ofOption]
  | some a =>
    have ha := h.recovers (ho a rfl)
    simp only [optional?, ofOption, List.lookup_cons, beq_self_eq_true]
    split
    · rename_i heq
      cases heq
    · rename_i heq
      exact absurd (Option.some.inj heq) (hnull a)
    · rename_i heq
      rw [← Option.some.inj heq, ha]
      rfl

/-- What has been written into a field is read back from it. -/
theorem RoundTrips.field (h : RoundTrips encode decode Writable) {a : α} (name : String)
    (ha : Writable a) (hv : v.get? name = some (encode a)) : v.field? name decode = some a := by
  rw [field?, hv]
  exact h.recovers ha

theorem RoundTrips.of_field (h : RoundTrips encode decode Writable) {a : α}
    (hv : v.field? name decode = some a) : Writable a := by
  simp only [field?, Option.bind_eq_bind, Option.bind_eq_some_iff] at hv
  obtain ⟨w, -, hw⟩ := hv
  exact h.writable hw

theorem RoundTrips.of_optional (h : RoundTrips encode decode Writable) {o : Option α}
    (hv : v.optional? name decode = some o) : ∀ a ∈ o, Writable a := by
  unfold optional? at hv
  split at hv
  · split at hv
    · cases hv
      simp
    · cases hv
      simp
    · obtain ⟨a, ha, rfl⟩ := Option.map_eq_some_iff.1 hv
      simpa using h.writable ha
  · cases hv

theorem RoundTrips.fieldOr (h : RoundTrips encode decode Writable) {a default : α}
    (name : String) (ha : Writable a) (hv : v.get? name = some (encode a)) :
    v.fieldOr? name decode default = some a := by
  cases v with
  | obj fields =>
    have hlookup : fields.lookup name = some (encode a) := hv
    simp only [fieldOr?, hlookup, h.recovers ha]
  | _ => cases hv

theorem RoundTrips.of_fieldOr (h : RoundTrips encode decode Writable) {a default : α}
    (hdefault : Writable default) (hv : v.fieldOr? name decode default = some a) : Writable a := by
  unfold fieldOr? at hv
  split at hv
  · split at hv
    · cases hv
      exact hdefault
    · exact h.writable hv
  · cases hv

end Fields

/-- What is read from an alternative without content is the one thing it stands for. -/
theorem eq_of_isBare {content : Option Json} {a b : α}
    (h : (if isBare content then some a else none) = some b) : a = b := by
  split_ifs at h
  exact Option.some.inj h

end FogNet.Json
