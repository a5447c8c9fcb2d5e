import ObjectValidation.Proofs.Frame
/-!
# What a hierarchy demands

Along a hierarchy each constraint has its turn once: a class brings those that it and the interfaces it
leads to declare, unless a class further down has brought them, and a class that redefines the default
group brings all that there are from itself upwards and ends the walk. Whatever filters there are, what
a type demands of its instances is demanded (`exists_mem_demandedFrom`).
-/

namespace ObjectValidation

namespace Registry

variable {r : Registry}

/-- Whether a type leads to another one, or is it, through the interfaces that types list. -/
inductive LeadsTo (r : Registry) (name : TypeName) : TypeName → Prop
  | refl : LeadsTo r name name
  | step {above interface : TypeName} {d : TypeDefinition} : LeadsTo r name above →
    r.get? above = some d → interface ∈ d.interfaces → LeadsTo r name interface

theorem LeadsTo.head {name interface x : TypeName} {d : TypeDefinition}
    (hd : r.get? name = some d) (hi : interface ∈ d.interfaces) (h : r.LeadsTo interface x) :
    r.LeadsTo name x := by
  induction h with
  | refl => exact .step .refl hd hi
  | step _ he hj ih => exact .step ih he hj

theorem LeadsTo.trans {name interface x : TypeName} (h : r.LeadsTo name interface)
    (h' : r.LeadsTo interface x) : r.LeadsTo name x := by
  induction h' with
  | refl => exact h
  | step _ hd hi ih => exact .step ih hd hi

/-- What a collection has. -/
structure Collects (r : Registry) (seen pending names : List TypeName) : Prop where
  seen_prefix : seen <+: names
  pending_subset : pending ⊆ names
  sound : ∀ x ∈ names, x ∈ seen ∨ ∃ name ∈ pending, r.LeadsTo name x
  closed : ∀ x ∈ names, x ∉ seen → ∀ d, r.get? x = some d → d.interfaces ⊆ names

theorem collect_ok : ∀ {seen pending names : List TypeName},
    r.collect seen pending = .ok names → r.Collects seen pending names := by
  intro seen pending names h
  fun_induction r.collect seen pending with
  | case1 seen =>
    cases h
    exact ⟨List.prefix_refl _, by simp, fun _ => .inl, fun x hx hn => absurd hx hn⟩
  | case2 seen name rest hs ih =>
    obtain ⟨hp, hsub, hsound, hclosed⟩ := ih h
    refine ⟨hp, List.cons_subset.2 ⟨hp.subset hs, hsub⟩, ?_, hclosed⟩
    intro x hx
    exact (hsound x hx).imp_right fun ⟨y, hy, hl⟩ => ⟨y, List.mem_cons_of_mem _ hy, hl⟩
  | case3 => cases h
  | case4 seen name rest hs d hd ih =>
    obtain ⟨hp, hsub, hsound, hclosed⟩ := ih h
    have hname : name ∈ names := hp.subset (by simp)
    refine ⟨(List.prefix_append _ _).trans hp, ?_, ?_, ?_⟩
    · exact List.cons_subset.2 ⟨hname, fun y hy => hsub (List.mem_append_right _ hy)⟩
    · intro x hx
      rcases hsound x hx with hx | ⟨y, hy, hl⟩
      · rcases List.mem_append.1 hx with hx | hx
        · exact .inl hx
        · exact .inr ⟨name, by simp, List.mem_singleton.1 hx ▸ .refl⟩
      · rcases List.mem_append.1 hy with hy | hy
        · exact .inr ⟨name, by simp, hl.head hd hy⟩
        · exact .inr ⟨y, List.mem_cons_of_mem _ hy, hl⟩
    · intro x hx hn e he
      by_cases hxn : x = name
      · rw [hxn, hd] at he
        cases he
        exact fun y hy => hsub (List.mem_append_left _ hy)
      · exact hclosed x hx (by simp [hn, hxn]) e he

/-- Names that get one they do not have yet stay apart. -/
theorem nodup_concat {names : List TypeName} {name : TypeName} (h : names.Nodup)
    (hn : name ∉ names) : (names ++ [name]).Nodup := by
  refine List.nodup_append.2 ⟨h, by simp, ?_⟩
  rintro x hx y hy rfl
  exact hn (List.mem_singleton.1 hy ▸ hx)

theorem nodup_collect {seen pending names : List TypeName}
    (h : r.collect seen pending = .ok names) (hseen : seen.Nodup) : names.Nodup := by
  fun_induction r.collect seen pending with
  | case1 seen =>
    cases h
    exact hseen
  | case2 seen name rest _ ih => exact ih h hseen
  | case3 => cases h
  | case4 seen name rest hs d hd ih => exact ih h (nodup_concat hseen hs)

/-- Whether the types of a list are the superclasses above a type, in order. -/
def Ascends (r : Registry) : TypeDefinition → List TypeName → Prop
  | d, [] => d.superclass = none
  | d, name :: above => d.superclass = some name ∧ ∃ e, r.get? name = some e ∧ r.Ascends e above

theorem Ascends.unique : ∀ {d : TypeDefinition} {classes classes' : List TypeName},
    r.Ascends d classes → r.Ascends d classes' → classes = classes'
  | d, [], [], _, _ => rfl
  | d, [], _ :: _, h, h' => by simp_all [Ascends]
  | d, _ :: _, [], h, h' => by simp_all [Ascends]
  | d, name :: above, name' :: above', ⟨hs, e, he, h⟩, ⟨hs', e', he', h'⟩ => by
    rw [hs] at hs'
    cases hs'
    rw [he] at he'
    cases he'
    rw [Ascends.unique h h']

theorem chainFrom_ok {chain names : List TypeName} {last : TypeDefinition}
    (h : r.chainFrom chain last = .ok names) :
    ∃ above, names = chain ++ above ∧ r.Ascends last above := by
  fun_induction r.chainFrom chain last with
  | case1 chain last hs =>
    cases h
    exact ⟨[], by simp, hs⟩
  | case2 => cases h
  | case3 => cases h
  | case4 chain last name hs hn e he ih =>
    obtain ⟨above, rfl, ha⟩ := ih h
    exact ⟨name :: above, by simp, hs, e, he, ha⟩

theorem nodup_chainFrom {chain names : List TypeName} {last : TypeDefinition}
    (h : r.chainFrom chain last = .ok names) (hchain : chain.Nodup) : names.Nodup := by
  fun_induction r.chainFrom chain last with
  | case1 chain last hs =>
    cases h
    exact hchain
  | case2 => cases h
  | case3 => cases h
  | case4 chain last name hs hn e he ih => exact ih h (nodup_concat hchain hn)

/-- The superinterfaces of a type, with the type itself, are what it leads to. -/
theorem mem_superInterfaces {name : TypeName} {names : List TypeName}
    (h : r.superInterfaces name = .ok names) (x : TypeName) :
    x ∈ name :: names ↔ r.LeadsTo name x := by
  obtain ⟨d, hd, h⟩ := bind_eq_ok.1 h
  obtain ⟨all, hall, h⟩ := bind_eq_ok.1 h
  cases h
  obtain ⟨⟨rest, rfl⟩, hsub, hsound, hclosed⟩ := collect_ok hall
  have hd := resolve_eq_ok.1 hd
  simp only [List.singleton_append, List.drop_succ_cons, List.drop_zero] at *
  constructor
  · intro hx
    rcases hsound x hx with hx | ⟨y, hy, hl⟩
    · exact List.mem_singleton.1 hx ▸ .refl
    · exact hl.head hd hy
  · intro hl
    induction hl with
    | refl => simp
    | @step above interface e _ he hi ih =>
      by_cases ha : above = name
      · rw [ha, hd] at he
        cases he
        exact hsub hi
      · exact hclosed above ih (by simpa using ha) e he hi

/-- A type and its superinterfaces come once each. -/
theorem nodup_superInterfaces {name : TypeName} {names : List TypeName}
    (h : r.superInterfaces name = .ok names) : (name :: names).Nodup := by
  obtain ⟨d, -, h⟩ := bind_eq_ok.1 h
  obtain ⟨all, hall, h⟩ := bind_eq_ok.1 h
  cases h
  obtain ⟨rest, rfl⟩ := Collects.seen_prefix (collect_ok hall)
  exact nodup_collect hall (by simp)

/-- A hierarchy begins with a type and its superclasses and consists of what these lead to. -/
theorem hierarchy_ok {name : TypeName} {names : List TypeName} (h : r.hierarchy name = .ok names) :
    ∃ d classes rest, r.get? name = some d ∧ r.Ascends d classes ∧ names = name :: classes ++ rest ∧
      ∀ x, x ∈ names ↔ ∃ type ∈ name :: classes, r.LeadsTo type x := by
  obtain ⟨_, -, h⟩ := bind_eq_ok.1 h
  obtain ⟨all, hall, h⟩ := bind_eq_ok.1 h
  obtain ⟨listed, hlisted, h⟩ := bind_eq_ok.1 h
  obtain ⟨d, hd, hall⟩ := bind_eq_ok.1 hall
  obtain ⟨classes, rfl, hascends⟩ := chainFrom_ok hall
  obtain ⟨⟨rest, rfl⟩, hsub, hsound, hclosed⟩ := collect_ok h
  refine ⟨d, classes, rest, resolve_eq_ok.1 hd, hascends, rfl, fun x => ⟨fun hx => ?_, ?_⟩⟩
  · rcases hsound x hx with hx | ⟨y, hy, hl⟩
    · exact ⟨x, hx, .refl⟩
    · obtain ⟨interfaces, hi, hy⟩ := List.mem_flatten.1 hy
      obtain ⟨type, htype, hr⟩ := (mapM_eq_ok hlisted).1 interfaces hi
      obtain ⟨e, he, hr⟩ := bind_eq_ok.1 hr
      cases hr
      exact ⟨type, htype, hl.head (resolve_eq_ok.1 he) hy⟩
  · rintro ⟨type, htype, hl⟩
    induction hl with
    | refl => exact List.mem_append_left _ htype
    | @step above interface e _ he hi ih =>
      by_cases ha : above ∈ [name] ++ classes
      · obtain ⟨interfaces, hmem, hr⟩ := (mapM_eq_ok hlisted).2 above ha
        obtain ⟨e', he', hr⟩ := bind_eq_ok.1 hr
        cases hr
        rw [resolve_eq_ok, he] at he'
        cases he'
        exact hsub (List.mem_flatten.2 ⟨_, hmem, hi⟩)
      · exact hclosed above ih ha e he hi

/-- No type is in a hierarchy twice. -/
theorem nodup_hierarchy {name : TypeName} {names : List TypeName} (h : r.hierarchy name = .ok names) :
    names.Nodup := by
  obtain ⟨_, -, h⟩ := bind_eq_ok.1 h
  obtain ⟨classes, hclasses, h⟩ := bind_eq_ok.1 h
  obtain ⟨listed, -, h⟩ := bind_eq_ok.1 h
  obtain ⟨d, -, hclasses⟩ := bind_eq_ok.1 hclasses
  exact nodup_collect h (nodup_chainFrom hclasses (by simp))

end Registry

theorem Metadata.type_mem_hierarchy {r : Registry} {rules : List MethodRule} {type : TypeName}
    {m : Metadata} (h : assemble r rules type = .ok m) : type ∈ m.hierarchy := by
  obtain ⟨rfl, own, definitions, elements, hs⟩ := sources h
  obtain ⟨d, classes, rest, -, -, hnames, -⟩ := Registry.hierarchy_ok hs.hierarchy_eq
  simp [hnames]

open Assembly in
/-- What a type declares on instances of another type it declares on those of any type: private
methods alone differ, and they belong to their own type. -/
theorem occurrencesOf_subset {type : TypeName} {d : TypeDefinition} (h : d.name ≠ type)
    (type' : TypeName) : occurrencesOf type d ⊆ occurrencesOf type' d := by
  have hmethods : ∀ x ∈ memberMethods type d, x ∈ memberMethods type' d := by
    intro x hx
    unfold memberMethods at hx ⊢
    simp_all
  have hproperties : ∀ p ∈ propertiesOf type d, p ∈ propertiesOf type' d := by
    intro p hp
    unfold propertiesOf at hp ⊢
    refine (List.mem_append.1 hp).elim (List.mem_append_left _) ?_
    intro hp
    obtain ⟨x, hx, hp⟩ := List.mem_filterMap.1 hp
    exact List.mem_append_right _ (List.mem_filterMap.2 ⟨x, hmethods x hx, hp⟩)
  intro o ho
  unfold occurrencesOf at ho ⊢
  refine (List.mem_append.1 ho).elim (List.mem_append_left _) ?_
  intro ho
  obtain ⟨p, hp, ho⟩ := List.mem_flatMap.1 ho
  exact List.mem_append_right _ (List.mem_flatMap.2 ⟨p, hproperties p hp, ho⟩)

namespace Call

variable {c : Call}

theorem uncovered_nil (bs : List BoundConstraint) : uncovered [] bs = bs := by simp [uncovered]

theorem mem_uncovered {covered : List TypeName} {bs : List BoundConstraint} {b : BoundConstraint} :
    b ∈ uncovered covered bs ↔ b ∈ bs ∧ ¬ (b.onInterface ∧ b.declaredBy ∈ covered) := by
  cases h : b.onInterface <;> simp [uncovered, h]

/-- The hierarchy of a class has what the class and its superclasses lead to. -/
theorem mem_hierarchy {type : TypeName} {m : Metadata} {d : TypeDefinition}
    {classes : List TypeName} (hm : c.Assembles type m) (hd : c.registry.get? type = some d)
    (hclasses : c.registry.Ascends d classes) (x : TypeName) :
    x ∈ m.hierarchy ↔ ∃ class_ ∈ type :: classes, c.registry.LeadsTo class_ x := by
  obtain ⟨rfl, own, definitions, elements, hs⟩ := Metadata.sources hm
  obtain ⟨d', classes', rest, hd', hclasses', -, hmem⟩ := Registry.hierarchy_ok hs.hierarchy_eq
  rw [hd] at hd'
  cases hd'
  rw [hclasses.unique hclasses']
  exact hmem x

/-- A hierarchy has whatever its types lead to. -/
theorem mem_hierarchy_of_leadsTo {type t x : TypeName} {m : Metadata} (hm : c.Assembles type m)
    (ht : t ∈ m.hierarchy) (hleads : c.registry.LeadsTo t x) : x ∈ m.hierarchy := by
  obtain ⟨rfl, own, definitions, elements, hs⟩ := Metadata.sources hm
  obtain ⟨d, classes, rest, -, -, -, hmem⟩ := Registry.hierarchy_ok hs.hierarchy_eq
  obtain ⟨class_, hclass, hl⟩ := (hmem t).1 ht
  exact (hmem x).2 ⟨class_, hclass, hl.trans hleads⟩

theorem mem_directTypes {type : TypeName} {m : Metadata} (hm : c.Assembles type m) (x : TypeName) :
    x ∈ m.directTypes ↔ c.registry.LeadsTo type x := by
  obtain ⟨rfl, own, definitions, elements, hs⟩ := Metadata.sources hm
  obtain ⟨direct, hdirect, htypes⟩ := hs.direct_eq
  rw [htypes]
  exact Registry.mem_superInterfaces hdirect x

/-- Whether a walk along types comes to one that brings what the declaring type declares. -/
def Hosts (c : Call) (declaring : TypeName) : List TypeName → Prop
  | [] => False
  | type :: above => ∃ m, c.Assembles type m ∧ declaring ∈ m.hierarchy ∧
    ((m.redefinesDefault = false → declaring ∈ m.directTypes) ∨
      (m.redefinesDefault = false ∧ c.Hosts declaring above))

/-- Whether the types that a walk along a list comes to have metadata. -/
def Walkable (c : Call) : List TypeName → Prop
  | [] => True
  | type :: above =>
    ∃ m, c.Assembles type m ∧ (m.redefinesDefault = false → c.Walkable above)

/-- What a class or one of its superclasses leads to is hosted along them. -/
theorem hosts_of_leadsTo {declaring : TypeName} {rest : List TypeName} :
    ∀ {classes : List TypeName} {type : TypeName} {d : TypeDefinition},
    c.registry.get? type = some d → c.registry.Ascends d classes →
    (∃ class_ ∈ type :: classes, c.registry.LeadsTo class_ declaring) →
    c.Walkable (type :: classes ++ rest) → c.Hosts declaring (type :: classes ++ rest) := by
  intro classes
  induction classes with
  | nil =>
    rintro type d hd hclasses hleads ⟨m, hm, -⟩
    refine ⟨m, hm, (mem_hierarchy hm hd hclasses _).2 hleads, .inl ?_⟩
    intro _
    obtain ⟨class_, hclass, hl⟩ := hleads
    exact (mem_directTypes hm _).2 (List.mem_singleton.1 hclass ▸ hl)
  | cons name above ih =>
    rintro type d hd hclasses hleads ⟨m, hm, habove⟩
    refine ⟨m, hm, (mem_hierarchy hm hd hclasses _).2 hleads, ?_⟩
    obtain ⟨-, e, he, hclasses⟩ := hclasses
    obtain ⟨class_, hclass, hl⟩ := hleads
    rcases List.mem_cons.1 hclass with rfl | hclass
    · exact .inl fun _ => (mem_directTypes hm _).2 hl
    · cases hr : m.redefinesDefault with
      | true => exact .inl fun h => by simp at h
      | false => exact .inr ⟨rfl, ih he hclasses ⟨class_, hclass, hl⟩ (habove hr)⟩

section

variable {declaring : TypeName} {P : BoundConstraint → Prop}
  (hP : ∀ b, P b → b.declaredBy = declaring)

include hP

/-- The first type of a walk brings what it hosts, unless that is an interface which is covered. -/
theorem exists_mem_of_first {type : TypeName} {above covered : List TypeName} {m : Metadata}
    (hm : c.Assembles type m) (hb : ∃ b ∈ m.constraints, P b)
    (hdirect : m.redefinesDefault = false → declaring ∈ m.directTypes) :
    (∃ b ∈ c.demandedFrom covered (type :: above), P b) ∨ declaring ∈ covered := by
  obtain ⟨b, hb, hPb⟩ := hb
  have hdeclared := hP b hPb
  by_cases hc : declaring ∈ covered
  · exact .inr hc
  · have hfree : ¬ (b.onInterface ∧ b.declaredBy ∈ covered) := fun h => hc (hdeclared ▸ h.2)
    refine .inl ⟨b, ?_, hPb⟩
    cases hr : m.redefinesDefault with
    | true =>
      rw [demandedFrom_redefined hm hr]
      exact mem_uncovered.2 ⟨hb, hfree⟩
    | false =>
      rw [demandedFrom_ordinary hm hr]
      refine List.mem_append_left _ (mem_uncovered.2 ⟨List.mem_filter.2 ⟨hb, ?_⟩, hfree⟩)
      simpa [hdeclared] using hdirect hr

/-- What is hosted along types is demanded along them. -/
theorem exists_mem_of_hosts : ∀ {types covered : List TypeName},
    (∀ type ∈ types, ∀ m, c.Assembles type m → declaring ∈ m.hierarchy → ∃ b ∈ m.constraints, P b) →
    c.Hosts declaring types → (∃ b ∈ c.demandedFrom covered types, P b) ∨ declaring ∈ covered
  | type :: above, covered, hhas, ⟨m, hm, hin, hhosts⟩ => by
    have hb := hhas type (by simp) m hm hin
    rcases hhosts with hdirect | ⟨hr, hhosts⟩
    · exact exists_mem_of_first hP hm hb hdirect
    · rcases exists_mem_of_hosts (fun t ht => hhas t (List.mem_cons_of_mem _ ht)) hhosts with
        ⟨b, hb, hPb⟩ | hcovered
      · left
        rw [demandedFrom_ordinary hm hr]
        exact ⟨b, List.mem_append_right _ hb, hPb⟩
      · -- An interface is covered by a type that brings all of its constraints.
        rcases List.mem_append.1 hcovered with hcovered | hcovered
        · exact .inr hcovered
        · obtain ⟨b', hb', rfl⟩ := List.mem_map.1 hcovered
          have hdirect := (List.mem_filter.1 (List.mem_filter.1 hb').1).2
          exact exists_mem_of_first hP hm hb fun _ => by simpa using hdirect

/-- What is in the metadata of a type, and of each type above it that has the declaring type in its
hierarchy, is demanded along the hierarchy of the type. What the type declares itself need not be in
the metadata of other types. -/
theorem exists_mem_demandedFrom_of {type : TypeName} {m : Metadata} (hm : c.Assembles type m)
    (hwalkable : c.Walkable m.hierarchy) (hin : declaring ∈ m.hierarchy)
    (hhas : ∀ t m', c.Assembles t m' → declaring ∈ m'.hierarchy → (t = type ∨ declaring ≠ type) →
      ∃ b ∈ m'.constraints, P b) :
    ∃ b ∈ c.demandedFrom [] m.hierarchy, P b := by
  have hfirst := hhas type m hm hin (.inl rfl)
  obtain ⟨rfl, own, definitions, elements, hs⟩ := Metadata.sources hm
  obtain ⟨e, classes, rest, he, hclasses, hnames, hmem⟩ := Registry.hierarchy_ok hs.hierarchy_eq
  rw [hnames] at hwalkable ⊢
  by_cases hself : declaring = m.type
  · refine (exists_mem_of_first hP hm hfirst ?_).resolve_right (by simp)
    intro _
    rw [hself]
    exact (mem_directTypes hm _).2 .refl
  · refine (exists_mem_of_hosts hP (fun t _ m' hm' hin' => hhas t m' hm' hin' (.inr hself))
      ?_).resolve_right (by simp)
    exact hosts_of_leadsTo he hclasses ((hmem _).1 hin) hwalkable

end

/-- Whatever a type demands of its instances is demanded along its hierarchy. -/
theorem exists_mem_demandedFrom {type : TypeName} {m : Metadata} (hm : c.Assembles type m)
    (hwalkable : c.Walkable m.hierarchy) {b : BoundConstraint} (hb : b ∈ m.constraints) :
    ∃ b' ∈ c.demandedFrom [] m.hierarchy, b'.toOccurrence = b.toOccurrence := by
  obtain ⟨hin, d, hd, ho⟩ := Metadata.occurrence_of_mem hm hb
  refine exists_mem_demandedFrom_of (fun b' hb' => congrArg Occurrence.declaredBy hb') hm hwalkable
    hin fun t m' hm' hin' ht => ?_
  rcases ht with rfl | hself
  · rw [hm'.unique hm]
    exact ⟨b, hb, rfl⟩
  · have hname : d.name ≠ type := Registry.name_of_get? hd ▸ hself
    exact Metadata.exists_mem_of_occurrence hm' hin' hd (occurrencesOf_subset hname t ho)

end Call

end ObjectValidation
