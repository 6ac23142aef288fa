import FogNet.Proofs.Topology.Tree

/-!
# What validation establishes

Each part of `Registry.validate` is stated by what it finds out. `Registry.WellFormed` says what a
network must be like without saying how that is found out: parents and children name each other a
level apart, links join two different entities, and the records agree. The climb from a head is cut
off after as many steps as there are heads; as each step reaches a head of a smaller level, no climb
in a well-formed network is that long (`Registry.validateAscent_of_graded`). So the registries that
are well-formed are valid (`Registry.WellFormed.validate`), and no others are
(`Registry.WellFormed.of_validate`). A builder leaves its registry so, as the heads form trees,
whatever the calls (`Builder.Made.validate`).
-/

namespace FogNet

namespace Registry

variable {r : Registry} {k p : EntityId} {h g : PuddleHead} {l : Link}

/-! ## The parts -/

theorem validateParent_eq_ok_iff : r.validateParent h = .ok () ↔
    ∀ p, h.parent = some p → ∃ g, r.puddleHead p = .ok g ∧ g.level + 1 = h.level ∧
      h.id ∈ g.children := by
  unfold validateParent
  cases hp : h.parent with
  | none => exact iff_of_true rfl nofun
  | some p =>
    simp only [Option.some.injEq, forall_eq']
    cases hg : r.puddleHead p with
    | error fault => simp
    | ok g =>
      by_cases hlevel : g.level + 1 = h.level
      · by_cases hin : h.id ∈ g.children <;> simp [hlevel, hin]
      · simp [hlevel]

theorem validateChildren_eq_ok_iff :
    r.validateChildren h = .ok () ↔ ∀ c ∈ h.children, r.Below h.id c := by
  unfold validateChildren
  rw [forM_eq_ok_iff]
  refine forall₂_congr fun c _ => ?_
  unfold Below
  cases r.puddleHead c <;> simp

theorem validateLink_eq_ok_iff : r.validateLink l = .ok () ↔
    l.first ≠ l.second ∧ (∃ e, r.entity l.first = .ok e) ∧ ∃ e, r.entity l.second = .ok e := by
  unfold validateLink
  by_cases hl : l.first = l.second
  · simp [hl]
  · rw [if_neg hl]
    cases r.entity l.first with
    | error fault => simp
    | ok e => cases r.entity l.second <;> simp [hl]

theorem checkRecords_eq_ok_iff : r.checkRecords = .ok () ↔ r.checkAll = .ok () := by
  unfold checkRecords
  cases r.checkAll <;> simp [Except.mapError]

/-- A registry is valid if each head and each link is and the records agree. -/
theorem validate_eq_ok_iff : r.validate = .ok () ↔
    (∀ h ∈ r.puddleHeads, r.validateParent h = .ok () ∧
      r.validateAscent h.id r.puddleHeads.length h.parent = .ok () ∧
      r.validateChildren h = .ok ()) ∧
    (∀ l ∈ r.links, r.validateLink l = .ok ()) ∧ r.checkAll = .ok () := by
  unfold validate
  simp only [seq_eq_ok_iff, forM_eq_ok_iff, checkRecords_eq_ok_iff]

/-! ## Climbing to a root -/

/-- There are more heads below a level than below that of one of them. -/
theorem countP_level_lt {heads : List PuddleHead} {level : Level} (hg : g ∈ heads)
    (hlevel : g.level < level) :
    heads.countP (·.level < g.level) < heads.countP (·.level < level) := by
  have hmono : ∀ l : List PuddleHead,
      l.countP (·.level < g.level) ≤ l.countP (·.level < level) := by
    intro l
    refine List.countP_mono_left fun f _ hf => ?_
    rw [decide_eq_true_eq] at hf ⊢
    exact Nat.lt_trans hf hlevel
  obtain ⟨before, after, rfl⟩ := List.append_of_mem hg
  rw [List.countP_append, List.countP_append, List.countP_cons_of_neg, List.countP_cons_of_pos]
  · have hbefore := hmono before
    have hafter := hmono after
    omega
  · exact decide_eq_true hlevel
  · simp

/-- If parents are one level above, a climb ends once it has met each head of a smaller level. -/
theorem validateAscent_of_graded {id : EntityId} {steps : Nat}
    (hr : ∀ {k h p}, r.puddleHead k = .ok h → h.parent = some p →
      ∃ g, r.puddleHead p = .ok g ∧ h.level = g.level + 1)
    (hh : r.puddleHead k = .ok h) (hsteps : r.puddleHeads.countP (·.level < h.level) ≤ steps) :
    r.validateAscent id steps h.parent = .ok () := by
  have hclimb : ∀ {k h p}, r.puddleHead k = .ok h → h.parent = some p →
      ∃ g, r.puddleHead p = .ok g ∧ r.puddleHeads.countP (·.level < g.level) <
        r.puddleHeads.countP (·.level < h.level) := by
    intro k h p hh hp
    obtain ⟨g, hg, hlevel⟩ := hr hh hp
    refine ⟨g, hg, countP_level_lt (mem_puddleHeads_iff.2 ⟨p, hg⟩) ?_⟩
    rw [hlevel]
    exact Nat.lt_succ_self _
  induction steps generalizing k h with
  | zero =>
    cases hp : h.parent with
    | none => rfl
    | some p =>
      obtain ⟨g, -, hlt⟩ := hclimb hh hp
      omega
  | succ steps ih =>
    cases hp : h.parent with
    | none => rfl
    | some p =>
      obtain ⟨g, hg, hlt⟩ := hclimb hh hp
      unfold validateAscent
      rw [hg]
      exact ih hg (by omega)

/-! ## Well-formed networks -/

/-- Heads and links are as they must be for a network to run. -/
structure WellFormed (r : Registry) : Prop where
  /-- A parent is a head one level above that lists its child. -/
  parents : ∀ h ∈ r.puddleHeads, ∀ p, h.parent = some p →
    ∃ g, r.puddleHead p = .ok g ∧ h.level = g.level + 1 ∧ h.id ∈ g.children
  /-- A child is a head that has the head listing it as its parent. -/
  children : ∀ h ∈ r.puddleHeads, ∀ c ∈ h.children,
    ∃ g, r.puddleHead c = .ok g ∧ g.parent = some h.id
  /-- The ends of a link are different and exist. -/
  links : ∀ l ∈ r.links, l.first ≠ l.second ∧ r.contains l.first = true ∧
    r.contains l.second = true
  /-- The records agree. -/
  records : r.checkAll = .ok ()

theorem contains_eq_true_iff : r.contains k = true ↔ ∃ e, r.entity k = .ok e := by
  simp only [entity_eq_ok_iff]
  exact Option.isSome_iff_exists

theorem WellFormed.graded (hr : r.WellFormed) (hh : r.puddleHead k = .ok h)
    (hp : h.parent = some p) : ∃ g, r.puddleHead p = .ok g ∧ h.level = g.level + 1 := by
  obtain ⟨g, hg, hlevel, -⟩ := hr.parents h (mem_puddleHeads_iff.2 ⟨k, hh⟩) p hp
  exact ⟨g, hg, hlevel⟩

theorem WellFormed.validate (hr : r.WellFormed) : r.validate = .ok () := by
  refine validate_eq_ok_iff.2 ⟨fun h hh => ⟨?_, ?_, ?_⟩, fun l hl => ?_, hr.records⟩
  · refine validateParent_eq_ok_iff.2 fun p hp => ?_
    obtain ⟨g, hg, hlevel, hlisted⟩ := hr.parents h hh p hp
    exact ⟨g, hg, hlevel.symm, hlisted⟩
  · obtain ⟨k, hk⟩ := mem_puddleHeads_iff.1 hh
    exact validateAscent_of_graded hr.graded hk List.countP_le_length
  · exact validateChildren_eq_ok_iff.2 (hr.children h hh)
  · obtain ⟨hne, hfirst, hsecond⟩ := hr.links l hl
    exact validateLink_eq_ok_iff.2 ⟨hne, contains_eq_true_iff.1 hfirst,
      contains_eq_true_iff.1 hsecond⟩

theorem WellFormed.of_validate (hv : r.validate = .ok ()) : r.WellFormed := by
  obtain ⟨hheads, hlinks, hrecords⟩ := validate_eq_ok_iff.1 hv
  refine ⟨fun h hh p hp => ?_, fun h hh => ?_, fun l hl => ?_, hrecords⟩
  · obtain ⟨g, hg, hlevel, hlisted⟩ := validateParent_eq_ok_iff.1 (hheads h hh).1 p hp
    exact ⟨g, hg, hlevel.symm, hlisted⟩
  · exact validateChildren_eq_ok_iff.1 (hheads h hh).2.2
  · obtain ⟨hne, hfirst, hsecond⟩ := validateLink_eq_ok_iff.1 (hlinks l hl)
    exact ⟨hne, contains_eq_true_iff.2 hfirst, contains_eq_true_iff.2 hsecond⟩

theorem Treed.wellFormed (hr : r.Treed) (hw : r.Wired) (hcheck : r.checkAll = .ok ()) :
    r.WellFormed := by
  refine ⟨fun h hh p hp => ?_, fun h hh c hc => ?_, fun l hl => ?_, hcheck⟩
  · obtain ⟨k, hh⟩ := mem_puddleHeads_iff.1 hh
    obtain rfl := hw.id_puddleHead hh
    obtain ⟨g, hg, hlevel⟩ := hr.graded hh hp
    exact ⟨g, hg, hlevel, (hr.listed hg).2 ⟨h, hh, hp⟩⟩
  · obtain ⟨k, hh⟩ := mem_puddleHeads_iff.1 hh
    obtain rfl := hw.id_puddleHead hh
    exact (hr.listed hh).1 hc
  · obtain ⟨k, hl⟩ := mem_links_iff.1 hl
    obtain ⟨hfirst, hsecond⟩ := hw.ended hl
    exact ⟨hr.stretched hl, contains_eq_true_iff.2 (Builder.entity_of_sited hfirst),
      contains_eq_true_iff.2 (Builder.entity_of_sited hsecond)⟩

/-- Trees of heads with agreeing records are valid. -/
theorem Treed.validate (hr : r.Treed) (hw : r.Wired) (hcheck : r.checkAll = .ok ()) :
    r.validate = .ok () :=
  (hr.wellFormed hw hcheck).validate

end Registry

namespace Builder

variable {admits : Time → Payload → Prop} {b : Builder}

/-- While nobody has been placed, the membership records agree. -/
theorem Draft.checkAll (hb : b.Draft admits) : b.registry.checkAll = .ok () := by
  have hnobody : ∀ {k n a}, b.registry.fogNode k = .ok n → Registry.mayList a n ≠ true := by
    intro k n a hn hmay
    obtain ⟨hstanding, hpending, -⟩ := hb.unplaced hn
    rw [Registry.mayList_iff, hstanding, hpending] at hmay
    rcases hmay with hmay | ⟨target, hmay⟩ | hmay <;> cases hmay
  refine Registry.checkAll_of_orderly hb.orderly (fun k n hn a => ?_) fun hn _ hmay _ => ?_
  · exact iff_of_false hb.unlisted (hnobody hn)
  · exact absurd hmay (hnobody hn)

/-- Whatever the calls, a builder's registry is valid. -/
theorem Made.validate (hb : Made admits b) : b.registry.validate = .ok () :=
  hb.treed.validate hb.draft.orderly.wired hb.draft.checkAll

end Builder

end FogNet
