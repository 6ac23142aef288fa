import FogNet.Proofs.Topology.Placement
import FogNet.Scenario.Build

/-!
# Stocking a builder

A scenario describes heads and nodes, and putting it together gives them numbers in the order of
their descriptions. A builder is `Stocked` with some descriptions if it shows them under these
numbers and nothing else, and if the names tell the numbers apart. Each step demands something of
what it is given and succeeds if and only if that holds (`Build.Demands`); what a whole loop of
steps demands is put together from what its rounds do.
-/

namespace FogNet

open Registry

/-! ## What a step demands -/

namespace Build

variable {α β γ : Type} {b c : Builder} {x : Build α} {f : α → Build β} {A B : Prop}
  {R : α → Builder → Prop} {S : β → Builder → Prop}

/-- A step succeeds if and only if a condition holds, and then it has a result. -/
def Demands (b : Builder) (x : Build α) (condition : Prop) (result : α → Builder → Prop) : Prop :=
  (¬ condition ∧ ∃ fault c, x b = .error fault c) ∨ condition ∧ ∃ a c, x b = .ok a c ∧ result a c

namespace Demands

theorem of_ok {a : α} (hx : x b = .ok a c) (hR : R a c) : Demands b x True R :=
  .inr ⟨trivial, a, c, hx, hR⟩

theorem ok (hx : Demands b x A R) (hA : A) : ∃ a c, x b = .ok a c ∧ R a c := by
  rcases hx with ⟨hna, -⟩ | ⟨-, hok⟩
  · exact absurd hA hna
  · exact hok

/-- A step that has succeeded has been given what it demands. -/
theorem of_eq_ok {a : α} (hx : Demands b x A R) (h : x b = .ok a c) : A ∧ R a c := by
  rcases hx with ⟨-, fault, d, herror⟩ | ⟨hA, a', c', hok, hR⟩
  · cases h.symm.trans herror
  · cases h.symm.trans hok
    exact ⟨hA, hR⟩

theorem congr (hx : Demands b x A R) (hAB : A ↔ B) : Demands b x B R := propext hAB ▸ hx

theorem mono {T : α → Builder → Prop} (hx : Demands b x A R)
    (hR : ∀ a c, x b = .ok a c → R a c → T a c) : Demands b x A T := by
  rcases hx with hfail | ⟨hA, a, c, hok, ha⟩
  · exact .inl hfail
  · exact .inr ⟨hA, a, c, hok, hR a c hok ha⟩

/-- Of two steps the first fault counts, and both demands have to be met. -/
theorem bind (hx : Demands b x A R) (hf : ∀ a c, R a c → Demands c (f a) B S) :
    Demands b (x >>= f) (A ∧ B) S := by
  show Demands b (EStateM.bind x f) (A ∧ B) S
  rcases hx with ⟨hA, fault, c, herror⟩ | ⟨hA, a, c, hok, ha⟩
  · refine .inl ⟨fun h => hA h.1, fault, c, ?_⟩
    simp only [EStateM.bind, herror]
  · rcases hf a c ha with ⟨hB, fault, d, herror⟩ | ⟨hB, e, d, hok', hS⟩
    · refine .inl ⟨fun h => hB h.2, fault, d, ?_⟩
      simp only [EStateM.bind, hok, herror]
    · refine .inr ⟨⟨hA, hB⟩, e, d, ?_, hS⟩
      simp only [EStateM.bind, hok, hok']

/-- A step that succeeds in any case demands nothing. -/
theorem bind_of_ok {a : α} (hx : x b = .ok a c) (hf : Demands c (f a) B S) :
    Demands b (x >>= f) B S := by
  show Demands b (EStateM.bind x f) B S
  have hbind : EStateM.bind x f b = f a c := by simp only [EStateM.bind, hx]
  unfold Demands
  rwa [hbind]

theorem discard {P : Builder → Prop} (hx : Demands b x A fun _ c => P c) :
    Demands b (discard x) A fun _ c => P c := by
  show Demands b (EStateM.map (Function.const α ()) x) A _
  rcases hx with ⟨hA, fault, c, herror⟩ | ⟨hA, a, c, hok, hc⟩
  · refine .inl ⟨hA, fault, c, ?_⟩
    simp only [EStateM.map, herror]
  · refine .inr ⟨hA, (), c, ?_, hc⟩
    simp only [EStateM.map, hok]

/-- What is computed beside the builder leaves it alone. -/
theorem lift (result : Except Fault α) :
    Demands b (Scenario.lift result) (∃ a, result = .ok a) fun a c => result = .ok a ∧ c = b := by
  cases result with
  | error fault => exact .inl ⟨nofun, fault, b, rfl⟩
  | ok a => exact .inr ⟨⟨a, rfl⟩, a, b, rfl, rfl, rfl⟩

/-- A step on the registry demands what it is allowed by. -/
theorem change {step : Change α} {allowed : Prop} {result : α → Registry → Prop}
    (h : Change.Decides b.registry step allowed result) :
    Demands b (Builder.change step) allowed fun a c =>
      ∃ q, step b.registry = .ok a q ∧ result a q ∧ c = { b with registry := q } := by
  unfold Demands Builder.change
  rcases h with ⟨hna, fault, herror⟩ | ⟨ha, a, q, hok, hq⟩
  · rw [herror]
    exact .inl ⟨hna, fault, _, rfl⟩
  · rw [hok]
    exact .inr ⟨ha, a, _, rfl, q, rfl, hq, rfl⟩

/-- A loop demands what its rounds demand, if each round leaves the rest ready. -/
theorem forM {l : List γ} {body : γ → Build Unit} {demand : γ → Prop}
    (Ready : List γ → Builder → Prop)
    (hbody : ∀ a rest c, Ready (a :: rest) c →
      Demands c (body a) (demand a) fun _ d => Ready rest d)
    (hb : Ready l b) : Demands b (l.forM body) (∀ a ∈ l, demand a) fun _ c => Ready [] c := by
  induction l generalizing b with
  | nil => exact .inr ⟨nofun, (), b, rfl, hb⟩
  | cons a rest ih =>
    refine .congr ?_ List.forall_mem_cons.symm
    exact .bind (hbody a rest b hb) fun _ c hc => ih hc

end Demands

end Build

/-! ## Names -/

/-- The name in a description. -/
def Particulars.name : Particulars → String
  | fogNode name .. => name
  | puddleHead name .. => name

namespace Names

variable {names names' : Names} {name : String} {id : EntityId}

theorem resolve_eq_ok_iff : names.resolve name = .ok id ↔ names.lookup name = some id := by
  unfold resolve
  cases names.lookup name <;> simp

theorem define_eq_ok_iff :
    names.define name id = .ok names' ↔
      names.lookup name = none ∧ names' = (name, id) :: names := by
  unfold define
  cases names.lookup name <;> simp [eq_comm]

end Names

namespace Builder

open Build Change

variable {α : Type} {s : Settings} {described : List Particulars} {names : Names} {b c : Builder}
  {p : Particulars} {k : EntityId} {name : String} {make : EntityId → Entity}
  {note : EntityId → Broker → Broker}

/-- A builder shows some descriptions under the numbers from two on, in their order, and nothing
else, and their names stand for these numbers. -/
structure Stocked (s : Settings) (described : List Particulars) (names : Names) (b : Builder) :
    Prop where
  /-- The builder has been made by calls. -/
  made : Made (fun _ _ => True) b
  /-- The constants are the given ones. -/
  settings : b.settings = s
  /-- What is shown is what has been described. -/
  shows : ∀ k p, b.registry.Shows k p ↔ ∃ i, k = i + 2 ∧ described[i]? = some p
  /-- A name stands for what is described with it. -/
  named : ∀ name k, names.lookup name = some k ↔ ∃ p, b.registry.Shows k p ∧ p.name = name

/-- A stocked builder to which no links have been added. -/
structure Growing (s : Settings) (described : List Particulars) (names : Names) (b : Builder) :
    Prop extends Stocked s described names b where
  /-- The next number follows those of the descriptions. -/
  nextId : b.registry.nextId = described.length + 2

namespace Stocked

theorem exists_shows_iff (hb : Stocked s described names b) :
    (∃ k, b.registry.Shows k p) ↔ p ∈ described := by
  rw [List.mem_iff_getElem?]
  constructor
  · rintro ⟨k, hk⟩
    obtain ⟨i, -, hi⟩ := (hb.shows k p).1 hk
    exact ⟨i, hi⟩
  · rintro ⟨i, hi⟩
    exact ⟨i + 2, (hb.shows _ p).2 ⟨i, rfl, hi⟩⟩

theorem exists_lookup_iff (hb : Stocked s described names b) :
    (∃ k, names.lookup name = some k) ↔ name ∈ described.map (·.name) := by
  simp only [hb.named, List.mem_map, ← hb.exists_shows_iff]
  exact ⟨fun ⟨k, p, hk, hp⟩ => ⟨p, ⟨k, hk⟩, hp⟩, fun ⟨p, ⟨k, hk⟩, hp⟩ => ⟨k, p, hk, hp⟩⟩

theorem lookup_eq_none_iff (hb : Stocked s described names b) :
    names.lookup name = none ↔ name ∉ described.map (·.name) := by
  rw [← hb.exists_lookup_iff, not_exists, Option.eq_none_iff_forall_ne_some]

/-- The names are all different. -/
theorem nodup (hb : Stocked s described names b) : (described.map (·.name)).Nodup := by
  have hnumber : ∀ i p, described[i]? = some p → names.lookup p.name = some (i + 2) :=
    fun i p hp => (hb.named _ _).2 ⟨p, (hb.shows _ p).2 ⟨i, rfl, hp⟩, rfl⟩
  refine List.pairwise_iff_getElem.2 fun i j hi hj hlt heq => ?_
  have hi : i < described.length := by simpa using hi
  have hj : j < described.length := by simpa using hj
  rw [List.getElem_map, List.getElem_map] at heq
  have hfirst := hnumber i _ (List.getElem?_eq_getElem hi)
  have hsecond := hnumber j _ (List.getElem?_eq_getElem hj)
  rw [heq, hsecond] at hfirst
  have hsame : j + 2 = i + 2 := Option.some.inj hfirst
  omega

/-- Amending the registry leaves the stock as it is. -/
theorem amend (hb : Stocked s described names b) (hmade : Made (fun _ _ => True) c)
    (hsettings : c.settings = b.settings) (hc : Amended b.registry c.registry) :
    Stocked s described names c where
  made := hmade
  settings := hsettings.trans hb.settings
  shows k p := hc.shows_iff.trans (hb.shows k p)
  named name k := by simp only [hc.shows_iff, hb.named]

end Stocked

/-! ## Heads and nodes -/

theorem getElem?_concat_eq_some_iff {l : List Particulars} {a p : Particulars} {i : Nat} :
    (l ++ [a])[i]? = some p ↔ l[i]? = some p ∨ i = l.length ∧ a = p := by
  rcases Nat.lt_or_ge i l.length with hlt | hge
  · simp [List.getElem?_append_left hlt, Nat.ne_of_lt hlt]
  · rw [List.getElem?_append_right hge, List.getElem?_eq_none hge, List.getElem?_singleton]
    by_cases hi : i = l.length
    · simp [hi]
    · simp [hi, show i - l.length ≠ 0 by omega]

/-- What has just been registered is shown beside what was shown before. -/
theorem Growing.shows_iff_of_noted (hb : Growing s described names b)
    (hc : c.registry = noted b.registry b.broker make note)
    (hmake : (make b.registry.nextId).particulars? = some p) {q : Particulars} :
    c.registry.Shows k q ↔ b.registry.Shows k q ∨ k = b.registry.nextId ∧ p = q := by
  rw [hc, shows_noted_iff hb.made.catalogued.1]
  refine or_congr_right (and_congr_right fun hk => ?_)
  rw [hk, hmake, Option.some.injEq]

/-- What is registered under the next number and given a new name is described next. -/
theorem Growing.concat (hb : Growing s described names b) (hmade : Made (fun _ _ => True) c)
    (hsettings : c.settings = b.settings) (hc : c.registry = noted b.registry b.broker make note)
    (hmake : (make b.registry.nextId).particulars? = some p)
    (hnew : names.lookup p.name = none) :
    Growing s (described ++ [p]) ((p.name, b.registry.nextId) :: names) c where
  made := hmade
  settings := hsettings.trans hb.settings
  shows k q := by
    rw [hb.shows_iff_of_noted hc hmake, hb.shows, hb.nextId]
    simp only [getElem?_concat_eq_some_iff]
    constructor
    · rintro (⟨i, rfl, hi⟩ | ⟨rfl, rfl⟩)
      · exact ⟨i, rfl, .inl hi⟩
      · exact ⟨described.length, rfl, .inr ⟨rfl, rfl⟩⟩
    · rintro ⟨i, rfl, hi | ⟨rfl, rfl⟩⟩
      · exact .inl ⟨i, rfl, hi⟩
      · exact .inr ⟨rfl, rfl⟩
  named name k := by
    simp only [hb.shows_iff_of_noted hc hmake]
    rw [List.lookup_cons]
    by_cases hname : name = p.name
    · subst hname
      rw [beq_self_eq_true]
      constructor
      · intro hk
        cases hk
        exact ⟨p, .inr ⟨rfl, rfl⟩, rfl⟩
      · rintro ⟨q, hq | ⟨rfl, rfl⟩, hqp⟩
        · have hold := (hb.named p.name k).2 ⟨q, hq, hqp⟩
          rw [hnew] at hold
          cases hold
        · rfl
    · rw [beq_eq_false_iff_ne.2 hname]
      refine (hb.named name k).trans (exists_congr fun q => and_congr_left fun hq => ?_)
      refine (or_iff_left ?_).symm
      rintro ⟨-, rfl⟩
      exact hname hq.symm
  nextId := by
    rw [hc, List.length_append, List.length_singleton]
    show b.registry.nextId + 1 = _
    rw [hb.nextId]

/-- A loop that registers what is described demands of each description what its round demands, and
that all names be different. -/
theorem Growing.foldlM {γ : Type} {add : Names → γ → Build Names} {fits : γ → Prop}
    {describe : γ → Particulars} {Kept : Builder → Prop}
    (hadd : ∀ {described names b} a, Growing s described names b → Kept b →
      Demands b (add names a) (fits a ∧ (describe a).name ∉ described.map (·.name))
        fun names c => Growing s (described ++ [describe a]) names c ∧ Kept c)
    (l : List γ) (hb : Growing s described names b) (hkept : Kept b) :
    Demands b (l.foldlM add names)
      ((∀ a ∈ l, fits a) ∧ ((described ++ l.map describe).map (·.name)).Nodup)
      fun names c => Growing s (described ++ l.map describe) names c ∧ Kept c := by
  induction l generalizing described names b with
  | nil =>
    rw [List.map_nil, List.append_nil]
    exact .inr ⟨⟨nofun, hb.nodup⟩, names, b, rfl, hb, hkept⟩
  | cons a rest ih =>
    have hsplit : described ++ (a :: rest).map describe =
        (described ++ [describe a]) ++ rest.map describe := by
      simp
    rw [List.foldlM_cons, hsplit]
    refine .congr (.bind (hadd a hb hkept) fun names c hc => ih hc.1 hc.2) ?_
    rw [List.forall_mem_cons]
    constructor
    · rintro ⟨⟨ha, -⟩, hrest, hnames⟩
      exact ⟨⟨ha, hrest⟩, hnames⟩
    · rintro ⟨⟨ha, hrest⟩, hnames⟩
      -- a name that was given before would now come twice
      refine ⟨⟨ha, fun hin => ?_⟩, hrest, hnames⟩
      rw [List.map_append, List.map_append] at hnames
      have hfirst := (List.nodup_append.1 (List.nodup_append.1 hnames).1).2.2
      exact hfirst _ hin _ (List.mem_singleton_self _) rfl

end Builder

/-! ## Descriptions -/

/-- What a head is described with. -/
def HeadEntry.particulars (h : HeadEntry) : Particulars :=
  .puddleHead h.name h.level h.coverage h.anchor

/-- The rectangle that a node stays in. -/
def NodeEntry.area (n : NodeEntry) : Rectangle Float :=
  .sized n.bounds.x n.bounds.y n.bounds.width n.bounds.height

/-- Where a node starts, its position brought into its rectangle. -/
def NodeEntry.start (n : NodeEntry) : Point Float :=
  ⟨wrapAxis n.position.x n.area.x n.area.width, wrapAxis n.position.y n.area.y n.area.height⟩

/-- What a node is described with. -/
def NodeEntry.particulars (n : NodeEntry) : Particulars :=
  .fogNode n.name n.level n.start n.area n.mobile n.characteristics

/-- A node that is to move is told how fast. -/
def NodeEntry.Steered (n : NodeEntry) : Prop :=
  n.mobile = true → n.velocity.isSome = true ∨ n.speed.isSome = true

namespace Builder

open Build Change

variable {s : Settings} {described : List Particulars} {names : Names} {b : Builder}

/-- No head has a parent. -/
def Rootless (b : Builder) : Prop := ∀ ⦃k h⦄, b.registry.puddleHead k = .ok h → h.parent = none

theorem exists_polygon_iff {vertices : List (Point Float)} :
    (∃ p, (Polygon.ofVertices vertices).mapError Fault.shape = .ok p) ↔ 3 ≤ vertices.length := by
  unfold Polygon.ofVertices
  by_cases h : 3 ≤ vertices.length <;> simp [h, Except.mapError]

theorem vertices_of_polygon {vertices : List (Point Float)} {p : Polygon Float}
    (h : (Polygon.ofVertices vertices).mapError Fault.shape = .ok p) : p.vertices = vertices := by
  refine Polygon.ofVertices_eq_ok_iff.1 ?_
  cases hp : Polygon.ofVertices vertices <;> simp_all [Except.mapError]

/-- Naming what has just been registered demands a new name. -/
theorem Growing.define {c : Builder} {p : Particulars} (make : EntityId → Entity)
    (note : EntityId → Broker → Broker) (hb : Growing s described names b)
    (hmade : Made (fun _ _ => True) c) (hsettings : c.settings = b.settings)
    (hc : c.registry = noted b.registry b.broker make note)
    (hmake : (make b.registry.nextId).particulars? = some p) :
    Demands c (Scenario.lift (names.define p.name b.registry.nextId))
      (p.name ∉ described.map (·.name)) fun names' d =>
        Growing s (described ++ [p]) names' d ∧ d = c := by
  refine ((Demands.lift _).congr ?_).mono ?_
  · simp only [Names.define_eq_ok_iff, exists_and_left, exists_eq, and_true]
    exact hb.lookup_eq_none_iff
  · rintro names' d - ⟨hdefined, rfl⟩
    obtain ⟨hnew, rfl⟩ := Names.define_eq_ok_iff.1 hdefined
    exact ⟨hb.concat hmade hsettings hc hmake hnew, rfl⟩

/-- Adding a head demands a polygon and a new name. -/
theorem demands_addHead (h : HeadEntry) (hb : Growing s described names b) (hfree : b.Rootless) :
    Demands b (Scenario.addHead names h)
      (3 ≤ h.coverage.length ∧ h.particulars.name ∉ described.map (·.name))
      fun names c => Growing s (described ++ [h.particulars]) names c ∧ c.Rootless := by
  unfold Scenario.addHead
  refine .bind ((Demands.lift _).congr exists_polygon_iff) fun coverage c hc => ?_
  obtain ⟨hcoverage, rfl⟩ := hc
  have hadded := hb.made.puddleHead_ok h.name h.level coverage h.anchor
  have hmade := hb.made.puddleHead h.name h.level coverage h.anchor
  rw [hadded] at hmade
  have hmake : (PuddleHead.create c.registry.nextId h.name h.level coverage
      h.anchor).particulars = h.particulars := by
    rw [HeadEntry.particulars, ← vertices_of_polygon hcoverage]
    rfl
  refine .bind_of_ok hadded ((Growing.define (fun id => .puddleHead
    (.create id h.name h.level coverage h.anchor)) (fun id broker => broker.registerHead id h.level)
    hb hmade rfl rfl (congrArg some hmake)).mono ?_)
  rintro names' d - ⟨hgrown, rfl⟩
  refine ⟨hgrown, fun k g hg => ?_⟩
  rcases puddleHead_of_noted hg with hg | hg
  · exact hfree hg
  · cases hg
    rfl

/-- A node has a plan to move by if it is told how fast to, or if it does not move. -/
theorem exists_spec_iff {n : NodeEntry} : (∃ spec, n.spec = .ok spec) ↔ n.Steered := by
  unfold NodeEntry.spec NodeEntry.plan NodeEntry.Steered
  cases n.mobile with
  | false => simp [Except.map]
  | true => cases n.velocity <;> cases n.speed <;> simp [Except.map]

/-- However a node moves, it starts as it is described. -/
theorem particulars_of_spec {n : NodeEntry} {spec : NodeSpec} (h : n.spec = .ok spec) :
    spec.particulars = n.particulars := by
  unfold NodeEntry.spec at h
  cases hplan : n.plan with
  | error fault =>
    rw [hplan] at h
    cases h
  | ok plan =>
    rw [hplan] at h
    obtain rfl := Except.ok.inj h
    unfold NodeEntry.plan at hplan
    unfold NodeEntry.particulars
    split_ifs at hplan with hmobile
    · rw [hmobile]
      split at hplan
      · obtain rfl := Except.ok.inj hplan
        rfl
      · obtain rfl := Except.ok.inj hplan
        rfl
      · cases hplan
    · rw [Bool.not_eq_true] at hmobile
      obtain rfl := Except.ok.inj hplan
      rw [hmobile]
      rfl

/-- Adding a node demands a plan to move by and a new name. -/
theorem demands_addNode (n : NodeEntry) (hb : Growing s described names b) :
    Demands b (Scenario.addNode names n)
      (n.Steered ∧ n.particulars.name ∉ described.map (·.name))
      fun names c => Growing s (described ++ [n.particulars]) names c := by
  unfold Scenario.addNode
  refine .bind ((Demands.lift _).congr exists_spec_iff) fun spec c hc => ?_
  obtain ⟨hspec, rfl⟩ := hc
  obtain ⟨motion, generator, hbegins, hadded⟩ := hb.made.exists_fogNode_ok spec
  have hmade := hb.made.fogNode spec
  rw [hadded] at hmade
  have hmake := (hbegins.particulars c.registry.nextId).trans (particulars_of_spec hspec)
  refine .bind_of_ok hadded ((Growing.define
    (fun id => .fogNode (.create id spec.name spec.level motion spec.characteristics))
    (fun id broker => broker.registerNode id) hb hmade rfl rfl (congrArg some hmake)).mono ?_)
  exact fun _ _ _ h => h.1

end Builder

end FogNet
