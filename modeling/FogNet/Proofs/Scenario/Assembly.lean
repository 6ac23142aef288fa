import FogNet.Proofs.Scenario.Stock

/-!
# Assembling a scenario

Once all heads are stocked they are put below their parents, and once the nodes are there the links
follow. A parent is looked for among all heads, described before the child or after it, and a link
may join any two heads and nodes. What assembling demands as a whole is what the four loops demand
one after the other (`Scenario.demands_assemble`).
-/

namespace FogNet

open Registry

/-- The parent of a head is described, one level above. -/
def HeadEntry.HasParentIn (h : HeadEntry) (heads : List HeadEntry) : Prop :=
  ∀ parent, h.parent = some parent → ∃ g ∈ heads, g.name = parent ∧ h.level = g.level + 1

/-- A link joins two different entities of a list of names, and its weights make sense. -/
def LinkEntry.Joins (l : LinkEntry) (names : List String) : Prop :=
  l.first ∈ names ∧ l.second ∈ names ∧ l.first ≠ l.second ∧ 0 ≤ l.latency ∧ 0 < l.bandwidth

namespace Builder

open Build Change

variable {s : Settings} {described : List Particulars} {heads rest : List HeadEntry}
  {names : Names} {b c : Builder} {h : HeadEntry} {k child parent : EntityId} {name : String}

theorem Stocked.lookup_inj {name' : String} (hb : Stocked s described names b)
    (hk : names.lookup name = some k) (hk' : names.lookup name' = some k) : name = name' := by
  obtain ⟨p, hp, rfl⟩ := (hb.named name k).1 hk
  obtain ⟨q, hq, rfl⟩ := (hb.named name' k).1 hk'
  rw [hp.inj hq]

/-- Looking up a name demands that something be described with it. -/
theorem Stocked.demands_resolve (hb : Stocked s described names b) (name : String) :
    Demands b (Scenario.lift (names.resolve name)) (name ∈ described.map (·.name))
      fun k c => names.lookup name = some k ∧ c = b := by
  refine ((Demands.lift _).congr ?_).mono fun k c _ hc => ?_
  · simp only [Names.resolve_eq_ok_iff]
    exact hb.exists_lookup_iff
  · exact ⟨Names.resolve_eq_ok_iff.1 hc.1, hc.2⟩

/-! ## Parents -/

/-- A builder that holds all heads, of which some may still get a parent. -/
structure Attaching (s : Settings) (heads : List HeadEntry) (names : Names)
    (rest : List HeadEntry) (b : Builder) : Prop
    extends Growing s (heads.map (·.particulars)) names b where
  /-- The heads still to come have no parents yet. -/
  waiting : ∀ h ∈ rest, ∃ k g, names.lookup h.name = some k ∧ b.registry.puddleHead k = .ok g ∧
    g.level = h.level ∧ g.parent = none
  /-- No head comes twice. -/
  distinct : (rest.map (·.name)).Nodup

theorem Growing.attaching (hb : Growing s (heads.map (·.particulars)) names b)
    (hfree : b.Rootless) : Attaching s heads names heads b where
  toGrowing := hb
  waiting h hh := by
    obtain ⟨k, hk⟩ := hb.exists_shows_iff.2 (List.mem_map_of_mem hh)
    obtain ⟨g, hg, hsame⟩ := exists_puddleHead_of_shows hk
    refine ⟨k, g, (hb.named _ _).2 ⟨_, hk, rfl⟩, hg, ?_, hfree hg⟩
    exact (Particulars.puddleHead.inj hsame).2.1
  distinct := by
    have hnames := hb.nodup
    rwa [List.map_map] at hnames

/-- A head may be put below the one that its parent's name stands for if that is one level above. -/
theorem Attaching.adoptable_iff {name : String} {below : PuddleHead}
    (hb : Attaching s heads names rest b) (hparent : names.lookup name = some parent)
    (hbelow : b.registry.puddleHead child = .ok below) (hfree : below.parent = none) :
    Adoptable b.registry parent child ↔ ∃ g ∈ heads, g.name = name ∧ below.level = g.level + 1 := by
  constructor
  · rintro ⟨above, below', habove, hbelow', -, hlevel⟩
    obtain ⟨p, hp, hname⟩ := (hb.named name parent).1 hparent
    obtain ⟨g, hg, rfl⟩ := List.mem_map.1 (hb.exists_shows_iff.1 ⟨parent, hp⟩)
    obtain ⟨-, habove_level, -⟩ := Particulars.puddleHead.inj ((shows_of_puddleHead habove).inj hp)
    refine ⟨g, hg, hname, ?_⟩
    rw [puddleHead_inj hbelow hbelow', hlevel, habove_level]
  · rintro ⟨g, hg, rfl, hlevel⟩
    obtain ⟨k, hk⟩ := hb.exists_shows_iff.2 (List.mem_map_of_mem hg)
    have hnamed : names.lookup g.name = some k := (hb.named _ _).2 ⟨_, hk, rfl⟩
    obtain rfl := Option.some.inj (hparent.symm.trans hnamed)
    obtain ⟨above, habove, hsame⟩ := exists_puddleHead_of_shows hk
    refine ⟨above, below, habove, hbelow, hfree, ?_⟩
    rw [hlevel, (Particulars.puddleHead.inj hsame).2.1]

/-- Putting a head below its parent leaves the others waiting. -/
theorem Attaching.foster {q : Registry} {siblings members : List EntityId}
    (hb : Attaching s heads names (h :: rest) b) (hchild : names.lookup h.name = some child)
    (hq : q = b.registry.touch (.fostering parent child siblings members))
    (hmade : Made (fun _ _ => True) { b with registry := q }) (hamend : Amended b.registry q) :
    Attaching s heads names rest { b with registry := q } where
  toStocked := hb.amend hmade rfl hamend
  nextId := by
    subst hq
    exact hb.nextId
  waiting x hx := by
    obtain ⟨k, g, hk, hg, hlevel, hfree⟩ := hb.waiting x (List.mem_cons_of_mem _ hx)
    -- the head just put below its parent is none of those still to come
    have hne : k ≠ child := by
      rintro rfl
      have hname : h.name ∉ rest.map (·.name) := (List.nodup_cons.1 hb.distinct).1
      exact hname (List.mem_map.2 ⟨x, hx, hb.lookup_inj hk hchild⟩)
    subst hq
    refine ⟨k, _, hk, puddleHead_touch hg, (Touch.level_fostering k g).trans hlevel, ?_⟩
    rw [Touch.parent_fostering, if_neg hne, hfree]
  distinct := (List.nodup_cons.1 hb.distinct).2

/-- Putting a head below a parent demands that the parent be one level above. -/
theorem Attaching.demands_attach {below : PuddleHead}
    (hb : Attaching s heads names (h :: rest) b) (hchild : names.lookup h.name = some child)
    (hparent : names.lookup name = some parent) (hbelow : b.registry.puddleHead child = .ok below)
    (hlevel : below.level = h.level) (hfree : below.parent = none) :
    Demands b (attach child parent) (∃ g ∈ heads, g.name = name ∧ h.level = g.level + 1)
      fun _ c => Attaching s heads names rest c := by
  have hallowed := hb.adoptable_iff hparent hbelow hfree
  rw [hlevel] at hallowed
  refine ((Demands.change (decides_adoptChild hb.made.treed parent child)).congr hallowed).mono ?_
  rintro _ c - ⟨q, hq, ⟨above, below', -, -, -, -, htouch⟩, rfl⟩
  have hmade := hb.made.attach child parent
  rw [stateOf_attach, hq] at hmade
  exact hb.foster hchild htouch hmade ((Amends.adoptChild parent child).of_ok hq)

/-- Putting a head below its parent demands that the parent be described one level above. -/
theorem demands_attachHead (hb : Attaching s heads names (h :: rest) b) :
    Demands b (Scenario.attachHead names h) (h.HasParentIn heads)
      fun _ c => Attaching s heads names rest c := by
  unfold Scenario.attachHead HeadEntry.HasParentIn
  cases hp : h.parent with
  | none =>
    refine .inr ⟨nofun, (), b, rfl, hb.toGrowing, fun x hx => ?_, (List.nodup_cons.1 hb.distinct).2⟩
    exact hb.waiting x (List.mem_cons_of_mem _ hx)
  | some name =>
    obtain ⟨child, below, hchild, hbelow, hlevel, hfree⟩ := hb.waiting h List.mem_cons_self
    have hresolve : Scenario.lift (names.resolve h.name) b = .ok child b := by
      rw [Names.resolve_eq_ok_iff.2 hchild]
      rfl
    have hattach : ∀ parent c, names.lookup name = some parent ∧ c = b →
        Demands c (attach child parent) (∃ g ∈ heads, g.name = name ∧ h.level = g.level + 1)
          fun _ c => Attaching s heads names rest c := by
      rintro parent c ⟨hparent, rfl⟩
      exact hb.demands_attach hchild hparent hbelow hlevel hfree
    refine .bind_of_ok hresolve (((hb.demands_resolve name).bind hattach).congr ?_)
    simp only [Option.some.injEq, forall_eq']
    -- the name of a head that fits is a name that stands for something
    refine and_iff_right_of_imp ?_
    rintro ⟨g, hg, rfl, -⟩
    exact List.mem_map.2 ⟨_, List.mem_map_of_mem hg, rfl⟩

/-! ## Links -/

/-- Whether a link is allowed depends on its description. -/
theorem Stocked.linkable_iff {l : LinkEntry} {first second : EntityId}
    (hb : Stocked s described names b) (hfirst : names.lookup l.first = some first)
    (hsecond : names.lookup l.second = some second) :
    Linkable b.registry first second l.latency l.bandwidth ↔
      l.first ≠ l.second ∧ 0 ≤ l.latency ∧ 0 < l.bandwidth := by
  obtain ⟨p, hp, -⟩ := (hb.named _ _).1 hfirst
  obtain ⟨q, hq, -⟩ := (hb.named _ _).1 hsecond
  have hne : first ≠ second ↔ l.first ≠ l.second := by
    refine not_congr ⟨fun h => hb.lookup_inj hfirst (h ▸ hsecond), fun h => ?_⟩
    rw [h, hsecond] at hfirst
    exact (Option.some.inj hfirst).symm
  constructor
  · rintro ⟨hends, hweights, -, -⟩
    exact ⟨hne.1 hends, hweights⟩
  · rintro ⟨hends, hweights⟩
    exact ⟨hne.2 hends, hweights, hp.sited, hq.sited⟩

/-- Adding a link demands that it join two different entities and that its weights make sense. -/
theorem demands_addLink (l : LinkEntry) (hb : Stocked s described names b) :
    Demands b (Scenario.addLink names l) (l.Joins (described.map (·.name)))
      fun _ c => Stocked s described names c := by
  unfold Scenario.addLink LinkEntry.Joins
  refine .bind (hb.demands_resolve l.first) fun first c hc => ?_
  obtain ⟨hfirst, rfl⟩ := hc
  refine .bind (hb.demands_resolve l.second) fun second d hd => ?_
  obtain ⟨hsecond, rfl⟩ := hd
  have hdecides := decides_addLink hb.made.catalogued.1 hb.made.draft.broker first second l.latency
    l.bandwidth
  have hlink := (Demands.change hdecides).congr (hb.linkable_iff hfirst hsecond)
  unfold Builder.link
  refine .discard (.bind_of_ok rfl (hlink.mono ?_))
  rintro id c - ⟨q, hq, -, rfl⟩
  have hmade := hb.made.link first second l.latency l.bandwidth
  rw [stateOf_link, hq] at hmade
  exact hb.amend hmade rfl
    ((amends_addLink d.broker first second l.latency l.bandwidth).of_ok hq)

/-! ## The whole -/

/-- A new builder shows nothing. -/
theorem growing_start (hb : Builder.start s = .ok b) : Growing s [] [] b ∧ b.Rootless := by
  have hmade : Made (fun _ _ => True) b := .start hb
  obtain ⟨-, rfl⟩ := start_eq_ok hb
  have honly : ∀ {k e}, ((⟨.empty, 2⟩ : Registry).put 1 (.broker (.create 1))).entities.get? k =
      some e → e = .broker (.create 1) := fun he =>
    ((get?_put_cases he).resolve_right fun hc => nomatch hc.2).2
  have hshows : ∀ {k p}, ¬ ((⟨.empty, 2⟩ : Registry).put 1 (.broker (.create 1))).Shows k p := by
    rintro k p ⟨e, he, hp⟩
    rw [honly he] at hp
    cases hp
  refine ⟨⟨⟨hmade, rfl, fun k p => ?_, fun name k => ?_⟩, rfl⟩, fun k h hh => ?_⟩
  · exact iff_of_false hshows (by simp)
  · exact iff_of_false nofun fun ⟨p, hp, _⟩ => hshows hp
  · cases honly (puddleHead_eq_ok_iff.1 hh)

end Builder

namespace Scenario

open Builder Build

/-- What a scenario describes, in the order of the numbers. -/
def described (s : Scenario) : List Particulars :=
  s.heads.map (·.particulars) ++ s.nodes.map (·.particulars)

/-- The names that a scenario gives, in the same order. -/
def named (s : Scenario) : List String := s.heads.map (·.name) ++ s.nodes.map (·.name)

theorem map_name_described (s : Scenario) : s.described.map (·.name) = s.named := by
  unfold described named
  rw [List.map_append, List.map_map, List.map_map]
  rfl

/-- What assembling a scenario demands. -/
structure Assemblable (s : Scenario) : Prop where
  /-- Every area has three corners. -/
  coverage : ∀ h ∈ s.heads, 3 ≤ h.coverage.length
  /-- No name is given twice. -/
  distinct : s.named.Nodup
  /-- Every parent is described one level above. -/
  parents : ∀ h ∈ s.heads, h.HasParentIn s.heads
  /-- Every node that is to move is told how fast. -/
  steered : ∀ n ∈ s.nodes, n.Steered
  /-- Every link joins two different heads or nodes with sensible weights. -/
  links : ∀ l ∈ s.links, l.Joins s.named

variable {s : Scenario} {names : Names} {b : Builder}

theorem demands_heads (hb : Builder.start s.settings = .ok b) :
    Demands b (s.heads.foldlM addHead [])
      ((∀ h ∈ s.heads, 3 ≤ h.coverage.length) ∧
        ((s.heads.map (·.particulars)).map (·.name)).Nodup)
      fun names c => Growing s.settings (s.heads.map (·.particulars)) names c ∧ c.Rootless := by
  obtain ⟨hstart, hfree⟩ := growing_start hb
  exact Growing.foldlM (fun h hb hfree => demands_addHead h hb hfree) s.heads hstart hfree

theorem demands_parents (hb : Growing s.settings (s.heads.map (·.particulars)) names b)
    (hfree : b.Rootless) :
    Demands b (s.heads.forM (attachHead names)) (∀ h ∈ s.heads, h.HasParentIn s.heads)
      fun _ c => Growing s.settings (s.heads.map (·.particulars)) names c :=
  (Demands.forM (Attaching s.settings s.heads names) (fun _ _ _ hb => demands_attachHead hb)
    (hb.attaching hfree)).mono fun _ _ _ h => h.toGrowing

theorem demands_nodes (hb : Growing s.settings (s.heads.map (·.particulars)) names b) :
    Demands b (s.nodes.foldlM addNode names)
      ((∀ n ∈ s.nodes, n.Steered) ∧ s.named.Nodup)
      fun names c => Growing s.settings s.described names c := by
  rw [← s.map_name_described]
  exact (Growing.foldlM (fun n hb (_ : True) => (demands_addNode n hb).mono
    fun _ _ _ h => ⟨h, trivial⟩) s.nodes hb trivial).mono fun _ _ _ h => h.1

theorem demands_links (hb : Stocked s.settings s.described names b) :
    Demands b (s.links.forM (addLink names)) (∀ l ∈ s.links, l.Joins s.named)
      fun _ c => Stocked s.settings s.described names c := by
  rw [← s.map_name_described]
  exact Demands.forM (fun _ c => Stocked s.settings s.described names c)
    (fun l _ _ hb => demands_addLink l hb) hb

/-- Assembling a scenario demands what its loops demand. -/
theorem demands_assemble (hb : Builder.start s.settings = .ok b) :
    Demands b s.assemble s.Assemblable fun names c => Stocked s.settings s.described names c := by
  unfold assemble
  have hwhole := (demands_heads hb).bind fun names c hc =>
    (demands_parents hc.1 hc.2).bind fun _ d hd =>
      (demands_nodes hd).bind fun names' e he =>
        (demands_links he.toStocked).bind fun _ f hf =>
          Demands.of_ok (x := pure names') rfl hf
  refine hwhole.congr ?_
  constructor
  · rintro ⟨⟨hcoverage, -⟩, hparents, ⟨hsteered, hdistinct⟩, hlinks, -⟩
    exact ⟨hcoverage, hdistinct, hparents, hsteered, hlinks⟩
  · rintro ⟨hcoverage, hdistinct, hparents, hsteered, hlinks⟩
    refine ⟨⟨hcoverage, ?_⟩, hparents, ⟨hsteered, hdistinct⟩, hlinks, trivial⟩
    rw [← s.map_name_described, described, List.map_append] at hdistinct
    exact (List.nodup_append.1 hdistinct).1

end Scenario

end FogNet
