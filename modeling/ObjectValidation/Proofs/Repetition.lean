import ObjectValidation.Proofs.Declarations
import ObjectValidation.Proofs.Interfaces
import ObjectValidation.Proofs.Outcome
/-!
# Constraints that are checked twice

A constraint of several groups is noted as done where it has been checked, by the number that it has in
the metadata it comes from. So what the metadata of one type has is checked once at a path
(`Tidy.nodup_checkedBy`). But a walk of the default group takes what a superclass declares from the
metadata of that superclass, and walks for other groups take it from the metadata of the object's own
type: what both have is checked by both (`checked_by_two_hosts`), once by each.

Two things carry this. Along a hierarchy a declaration is demanded at one type alone
(`type_eq_of_declaration`), and a call is `Noted` in all states it can come to.
-/

namespace ObjectValidation

open Run

/-! ### Where a declaration is hosted -/

namespace Registry

/-- Whether the types that types list as interfaces are interfaces. -/
def ListsInterfaces (r : Registry) : Prop :=
  ∀ d ∈ r.definitions, ∀ name ∈ d.interfaces, (r.get? name).all (·.isInterface)

instance (r : Registry) : Decidable r.ListsInterfaces :=
  inferInstanceAs (Decidable (∀ d ∈ r.definitions, _))

variable {r : Registry}

/-- No type leads to a class but the class itself. -/
theorem LeadsTo.eq_of_class (h : r.ListsInterfaces) {name above : TypeName} {d : TypeDefinition}
    (hleads : r.LeadsTo name above) (hd : r.get? above = some d) (hclass : d.isInterface = false) :
    above = name := by
  cases hleads with
  | refl => rfl
  | @step lister _ e _ he hi =>
    have hinterface := h e (mem_of_get? he) above hi
    simp [hd, hclass] at hinterface

/-- The superclasses of a superclass are those behind it. -/
theorem Ascends.behind : ∀ {before after : List TypeName} {name host : TypeName}
    {d e : TypeDefinition} {classes : List TypeName}, r.get? name = some d → r.Ascends d classes →
    name :: classes = before ++ host :: after → r.get? host = some e → r.Ascends e after
  | [], after, name, host, d, e, classes, hd, hclasses, h, he => by
    obtain ⟨rfl, rfl⟩ := List.cons.inj h
    rw [hd] at he
    cases he
    exact hclasses
  | _ :: before, after, name, host, d, e, classes, _, hclasses, h, he => by
    obtain ⟨-, rfl⟩ := List.cons.inj h
    cases before with
    | nil =>
      obtain ⟨-, e', he', hafter⟩ := hclasses
      rw [he] at he'
      cases he'
      exact hafter
    | cons first before =>
      obtain ⟨-, e', he', hrest⟩ := hclasses
      have happend : first :: (before ++ host :: after) = first :: before ++ host :: after := rfl
      exact Ascends.behind he' hrest happend he

end Registry

theorem Metadata.class_of_redefinesDefault {r : Registry} {rules : List MethodRule}
    {type : TypeName} {m : Metadata} (h : assemble r rules type = .ok m) (hm : m.redefinesDefault)
    {d : TypeDefinition} (hd : r.get? type = some d) : d.isInterface = false := by
  obtain ⟨rfl, own, definitions, elements, hs⟩ := sources h
  rw [hs.own_eq] at hd
  cases hd
  have hdefault := hs.default_eq
  unfold Assembly.defaultSequence at hdefault
  split at hdefault
  · rw [redefinesDefault, ← Except.ok.inj hdefault] at hm
    cases hm
  · next hclass => simpa using hclass

namespace Call

variable {c : Call}

/-- A class of a hierarchy is the type itself or one of its superclasses. -/
theorem mem_classes_of_mem_hierarchy (hlists : c.registry.ListsInterfaces) {type : TypeName}
    {m : Metadata} {d : TypeDefinition} {classes : List TypeName} (hm : c.Assembles type m)
    (hd : c.registry.get? type = some d) (hclasses : c.registry.Ascends d classes)
    {above : TypeName} (habove : above ∈ m.hierarchy) {e : TypeDefinition}
    (he : c.registry.get? above = some e) (hclass : e.isInterface = false) :
    above ∈ type :: classes := by
  obtain ⟨class_, hmem, hleads⟩ := (mem_hierarchy hm hd hclasses above).1 habove
  rwa [hleads.eq_of_class hlists he hclass]

/-- What one class hosts no class above it has in its hierarchy. -/
theorem not_mem_hierarchy_of_before (hlists : c.registry.ListsInterfaces) {type : TypeName}
    {m m' : Metadata} (hm : c.Assembles type m) {before above : List TypeName} {host : TypeName}
    (htypes : m.hierarchy = before ++ host :: above) (hm' : c.Assembles host m')
    {d e : TypeDefinition} (hd : c.registry.get? host = some d) (hclass : d.isInterface = false)
    {first : TypeName} (hfirst : first ∈ before) (he : c.registry.get? first = some e)
    (hclass' : e.isInterface = false) : first ∉ m'.hierarchy := by
  intro hin
  obtain ⟨rfl, own, definitions, elements, hs⟩ := Metadata.sources hm
  obtain ⟨d₀, classes, rest, hd₀, hclasses, hnames, -⟩ := Registry.hierarchy_ok hs.hierarchy_eq
  have hnodup := Registry.nodup_hierarchy hs.hierarchy_eq
  have hhost : host ∈ m.type :: classes := mem_classes_of_mem_hierarchy hlists hm hd₀ hclasses
    (by simp [htypes]) hd hclass
  -- The host stands among the classes, with its own superclasses behind it.
  obtain ⟨after, hafter⟩ : ∃ after, m.type :: classes = before ++ host :: after := by
    rw [hnames] at htypes hnodup
    rcases List.append_eq_append_iff.1 htypes with ⟨others, hbefore, hrest⟩ | ⟨others, hothers, hrest⟩
    · exact absurd rfl ((List.nodup_append.1 hnodup).2.2 _ hhost _ (hrest ▸ by simp))
    · cases others with
      | nil =>
        exact absurd rfl ((List.nodup_append.1 hnodup).2.2 _ hhost _ (by simp at hrest; simp [← hrest]))
      | cons x others =>
        obtain ⟨rfl, rfl⟩ := List.cons.inj hrest
        exact ⟨others, hothers⟩
  have hbehind := hclasses.behind hd₀ hafter hd
  have hmem := mem_classes_of_mem_hierarchy hlists hm' hd hbehind hin he hclass'
  rw [hnames, hafter] at hnodup
  exact absurd rfl ((List.nodup_append.1 (List.nodup_append.1 hnodup).1).2.2 _ hfirst _ hmem)

/-- What the walk along a hierarchy demands at one type it does not demand again at a type above. -/
theorem not_hosted_again (hlists : c.registry.ListsInterfaces) {type : TypeName} {m : Metadata}
    (hm : c.Assembles type m) {before above : List TypeName} {host : TypeName}
    (htypes : m.hierarchy = before ++ host :: above) (hord : c.Ordinary before) {first : TypeName}
    {m₁ m₂ : Metadata} (hm₁ : c.Assembles first m₁) (hfirst : first ∈ before) (hm₂ : c.Assembles host m₂)
    {b b' : BoundConstraint} (hb : b ∈ m₁.hosted) (hb' : b' ∈ m₂.hosted)
    (hfree : ¬ (b'.onInterface ∧ b'.declaredBy ∈ c.coveredBy before)) :
    b'.toOccurrence ≠ b.toOccurrence := by
  intro hsame
  have hinterface : b'.onInterface = b.onInterface := congrArg Occurrence.onInterface hsame
  have hdeclared : b'.declaredBy = b.declaredBy := congrArg Occurrence.declaredBy hsame
  have hordinary := hord first hfirst m₁ hm₁
  have hdirect : b ∈ m₁.directConstraints := by simpa [Metadata.hosted, hordinary] using hb
  obtain ⟨hb, hleads⟩ := List.mem_filter.1 hdirect
  obtain ⟨-, d, hd, ho⟩ := Metadata.occurrence_of_mem hm₁ hb
  have hkind := (Metadata.location_of_mem_occurrencesOf ho).2.2
  cases hclass : b.onInterface with
  | true =>
    -- The type has covered the interface.
    refine hfree ⟨by rw [hinterface, hclass], List.mem_flatMap.2 ⟨first, hfirst, ?_⟩⟩
    unfold Assembles at hm₁
    rw [hm₁, hdeclared]
    exact List.mem_map_of_mem (List.mem_filter.2 ⟨hdirect, hclass⟩)
  | false =>
    -- The class has declared it itself. So it is not the host, nor above the host.
    have hclass' : d.isInterface = false := hkind.symm.trans hclass
    have hdeclares : b.declaredBy = first :=
      ((mem_directTypes hm₁ _).1 (by simpa using hleads)).eq_of_class hlists hd hclass'
    rw [hdeclares] at hd hdeclared
    cases hr : m₂.redefinesDefault with
    | true =>
      obtain ⟨rfl, own, definitions, elements, hs⟩ := Metadata.sources hm₂
      have he := hs.own_eq
      have hin := (Metadata.occurrence_of_mem hm₂ (m₂.hosted_subset hb')).1
      exact not_mem_hierarchy_of_before hlists hm htypes hm₂ he
        (Metadata.class_of_redefinesDefault hm₂ hr he) hfirst hd hclass' (hdeclared ▸ hin)
    | false =>
      have hdirect' : b' ∈ m₂.directConstraints := by simpa [Metadata.hosted, hr] using hb'
      have hleads' := (mem_directTypes hm₂ b'.declaredBy).1
        (by simpa using (List.mem_filter.1 hdirect').2)
      rw [hdeclared] at hleads'
      obtain rfl := hleads'.eq_of_class hlists hd hclass'
      obtain ⟨rfl, own, definitions, elements, hs⟩ := Metadata.sources hm
      have hnodup := Registry.nodup_hierarchy hs.hierarchy_eq
      rw [htypes] at hnodup
      exact (List.nodup_append.1 hnodup).2.2 _ hfirst _ (by simp) rfl

/-- Along the hierarchy of a type, a declaration is demanded at one type alone. -/
theorem type_eq_of_declaration (hlists : c.registry.ListsInterfaces) {type : TypeName} {m : Metadata}
    (hm : c.Assembles type m) {b b' : BoundConstraint} (hb : b ∈ c.demandedFrom [] m.hierarchy)
    (hb' : b' ∈ c.demandedFrom [] m.hierarchy) {d : Declaration}
    (hd : c.registry.declaration? b = some d) (hd' : c.registry.declaration? b' = some d) :
    b.type = b'.type := by
  obtain ⟨before, host, above, mh, htypes, hord, hmh, hmem, hfree⟩ := host_of_mem_demandedFrom hb
  obtain ⟨before', host', above', mh', htypes', hord', hmh', hmem', hfree'⟩ :=
    host_of_mem_demandedFrom hb'
  have hb := mh.hosted_subset hmem
  have hb' := mh'.hosted_subset hmem'
  have hown := Metadata.toOccurrence_eq_of_declaration hmh hb hmh' hb' hd hd'
  rw [(Metadata.declared_of_mem hmh hb).1, (Metadata.declared_of_mem hmh' hb').1]
  rcases List.append_eq_append_iff.1 (htypes.symm.trans htypes') with
    ⟨others, rfl, hrest⟩ | ⟨others, rfl, hrest⟩
  · cases others with
    | nil => simpa using (List.cons.inj hrest).1
    | cons first others =>
      obtain ⟨rfl, rfl⟩ := List.cons.inj hrest
      exact absurd hown.symm (not_hosted_again hlists hm htypes' hord' hmh (by simp) hmh' hmem hmem'
        (by simpa using hfree'))
  · cases others with
    | nil => simpa using (List.cons.inj hrest).1.symm
    | cons first others =>
      obtain ⟨rfl, rfl⟩ := List.cons.inj hrest
      exact absurd hown (not_hosted_again hlists hm htypes hord hmh' (by simp) hmh hmem' hmem
        (by simpa using hfree))

end Call

/-! ### What a call keeps track of -/

/-- What a check of a constraint of several groups is noted as. -/
def Event.mark? : Event → Option (Option ObjectId × Path × TypeName × Nat)
  | .checked object path b _ _ => if 1 < b.groups.length then some (object, path, b.key) else none
  | _ => none

/-- The checks of constraints of several groups, as they are noted. -/
def marksOf (j : List Event) : List (Option ObjectId × Path × TypeName × Nat) :=
  j.filterMap Event.mark?

theorem marksOf_append (j j' : List Event) : marksOf (j ++ j') = marksOf j ++ marksOf j' :=
  List.filterMap_append

theorem Event.mark?_of_isTrace {e : Event} (h : e.isTrace) : e.mark? = none := by
  cases e <;> simp_all [isTrace, mark?]

namespace Call

variable (c : Call)

/-- What a journal tells of a call that may go on or not: walks demand the checks, and those of
constraints of several groups are all noted differently. -/
structure Tidy (p : Progress) : Prop where
  traced : ∀ e ∈ p.journal, c.Traced p.journal e
  once : (marksOf p.journal).Nodup

/-- The invariant of a call: its checks are noted, apart from those under way. -/
structure Noted (underway : List (Option ObjectId × Path × TypeName × Nat)) (p : Progress) : Prop
    extends c.Tidy p where
  coherent : c.Coherent p
  noted : ∀ mark ∈ marksOf p.journal, mark ∈ underway ∨ mark ∈ p.processedConstraints

variable {c} {underway : List (Option ObjectId × Path × TypeName × Nat)} {p : Progress}

theorem Tidy.append (h : c.Tidy p) {e : Event} (he : ∀ added, c.Traced (p.journal ++ added) e)
    (hnew : ∀ mark ∈ e.mark?, mark ∉ marksOf p.journal) :
    c.Tidy { p with journal := p.journal ++ [e] } where
  traced e' he' := by
    rcases List.mem_append.1 he' with he' | he'
    · exact traced_lasting.mono _ _ _ (h.traced e' he')
    · obtain rfl := List.mem_singleton.1 he'
      exact he _
  once := by
    rw [marksOf_append]
    refine List.nodup_append.2 ⟨h.once, ?_, ?_⟩
    · cases hmark : e.mark? <;> simp [marksOf, hmark]
    · rintro mark hmark _ hmark' rfl
      exact hnew mark (by simpa [marksOf] using hmark') hmark

/-- Events that are no checks leave all as it is. -/
theorem Noted.trace (h : c.Noted underway p) {e : Event} (he : ∀ j, c.Traced j e)
    (hnone : e.mark? = none) : c.Noted underway { p with journal := p.journal ++ [e] } where
  toTidy := h.toTidy.append (fun _ => he _) (by simp [hnone])
  coherent := h.coherent
  noted mark hmark := h.noted mark (by simpa [marksOf_append, marksOf, hnone] using hmark)

theorem noted_evaluateBound {s : Subject} {value : Value} {path : Path} {b : BoundConstraint} :
    Meets (c.evaluateBound s value path b) (c.Noted underway) Any fun _ => c.Tidy := by
  refine meets_evaluateBound (fun _ _ hp => hp.toTidy) (fun p e he hp => ?_)
    fun p _ hp => ⟨⟨hp.traced, hp.once⟩, hp.coherent, hp.noted⟩
  have htrace := Event.isTrace_of_isConsulted he
  exact hp.trace (fun j => traced_lasting.trace j e htrace) (Event.mark?_of_isTrace htrace)

/-- Events of checks that are not noted yet get under way. -/
theorem Noted.check (h : c.Noted [] p) {e : Event} (he : ∀ added, c.Traced (p.journal ++ added) e)
    (hnew : ∀ mark ∈ e.mark?, mark ∉ p.processedConstraints) :
    c.Noted e.mark?.toList { p with journal := p.journal ++ [e] } where
  toTidy := h.toTidy.append he fun mark hmark hmem =>
    hnew mark hmark ((h.noted mark hmem).resolve_left (by simp))
  coherent := h.coherent
  noted mark hmark := by
    rw [marksOf_append, List.mem_append] at hmark
    rcases hmark with hmark | hmark
    · exact .inr ((h.noted mark hmark).resolve_left (by simp))
    · exact .inl (by simpa [marksOf, Option.mem_toList] using hmark)

/-- A check that is under way gets noted. -/
theorem Noted.noting {object : Option ObjectId} {path : Path} {b : BoundConstraint} {group : TypeName}
    {value : Value} (h : c.Noted (Event.checked object path b group value).mark?.toList p) :
    c.Noted [] (p.noting object path b) where
  traced := h.traced
  once := h.once
  coherent := h.coherent
  noted mark hmark := by
    right
    rcases h.noted mark hmark with hmark | hmark
    · obtain ⟨htracked, rfl⟩ : 1 < b.groups.length ∧ (object, path, b.key) = mark := by
        simpa [Event.mark?] using hmark
      simp [Progress.noting, htracked]
    · unfold Progress.noting
      dsimp only
      split
      · exact List.mem_cons_of_mem _ hmark
      · exact hmark

/-- A check that a walk demands is made only if it is not noted yet, and gets noted. -/
theorem noted_checkConstraint {s : Subject} {group walked : TypeName} {value : Value} {path : Path}
    {b : BoundConstraint} (htraced : ∀ j, .began s.object s.path walked ∈ j →
      b.appliesTo group → c.Traced j (.checked s.object path b group value)) :
    Meets (c.checkConstraint s group value path b)
      (fun p => c.Noted [] p ∧ .began s.object s.path walked ∈ p.journal) Any fun _ => c.Tidy := by
  have hbegan : Meets (c.evaluateBound s value path b)
      (fun p => .began s.object s.path walked ∈ p.journal) Any AnyHalt :=
    meets_evaluateBound (fun _ _ _ => trivial) (fun _ _ _ => List.mem_append_left _) fun _ _ => id
  rintro p ⟨hp, hp'⟩
  by_cases hdone : b.appliesTo group = false ∨
      (1 < b.groups.length ∧ (s.object, path, b.key) ∈ p.processedConstraints)
  · rw [exec_checkConstraint_of_done hdone]
    exact ⟨⟨hp, hp'⟩, trivial⟩
  obtain ⟨ha, hmark⟩ := not_or.1 hdone
  let check : Event := .checked s.object path b group value
  have hnew : ∀ mark ∈ check.mark?, mark ∉ p.processedConstraints := by
    intro mark h
    obtain ⟨htracked, rfl⟩ : 1 < b.groups.length ∧ (s.object, path, b.key) = mark := by
      simpa [check, Event.mark?] using h
    exact fun hmem => hmark ⟨htracked, hmem⟩
  have hchecked := hp.check (e := check)
    (fun added => htraced _ (List.mem_append_left _ hp') (by simpa using ha)) hnew
  have hbound := (noted_evaluateBound.both hbegan) _ ⟨hchecked, List.mem_append_left _ hp'⟩
  rw [exec_checkConstraint_of_due hdone]
  revert hbound
  cases exec (c.evaluateBound s value path b) { p with journal := p.journal ++ [check] } with
  | mk a q =>
    cases a with
    | error e => exact id
    | ok holds =>
      rintro ⟨⟨hq, hq'⟩, -⟩
      exact ⟨⟨hq.noting, hq'⟩, trivial⟩

/-- What a walk keeps. -/
theorem noted_runGroup {s : Subject} (hs : c.Knows s) (group : TypeName) :
    Meets (c.runGroup s group) (c.Noted []) Any fun _ => c.Tidy := by
  have hfail (e : Error) (p : Progress)
      (hp : c.Noted [] p ∧ .began s.object s.path group ∈ p.journal) : c.Tidy p := hp.1.toTidy
  have hwalk : KeptByWalk c s
      (fun p => c.Noted [] p ∧ .began s.object s.path group ∈ p.journal) (fun _ => c.Tidy)
      (c.Serves s.metadata.hierarchy group) (· ∈ c.demanded s group) := by
    refine ⟨⟨fun type m hm => ?_, fun g b hg hb => ?_, fun g _ => ?_⟩, ?_⟩
    · exact meets_defaultMeaning hfail
        (fun p _ _ hp => ⟨hp.1.trace (fun _ => trivial) rfl, List.mem_append_left _ hp.2⟩)
        (fun p _ hp => ⟨⟨⟨hp.1.traced, hp.1.once⟩, hp.1.coherent, hp.1.noted⟩, hp.2⟩) s.object m
    · refine meets_checkBound_of fun path value hplace => ?_
      exact noted_checkConstraint fun j hbegan ha => ⟨s, group, hs, rfl, hbegan, hg, hb, ha, hplace⟩
    · refine meets_markProcessed fun p q hp hm => ?_
      have hcoherent := hp.1.coherent
      unfold Coherent at hcoherent
      rw [← hm.memory] at hcoherent
      have htidy : c.Tidy q := ⟨hm.journal ▸ hp.1.traced, hm.journal ▸ hp.1.once⟩
      exact ⟨⟨htidy, hcoherent, hm.journal ▸ hm.constraints ▸ hp.1.noted⟩, hm.journal ▸ hp.2⟩
    · exact meets_metadataOf (fun p hp => hp.1.coherent) hfail
        fun p _ hcache hp => ⟨⟨⟨hp.1.traced, hp.1.once⟩, hcache, hp.1.noted⟩, hp.2⟩
  refine hwalk.runGroup (fun _ => id) (fun _ => id) (fun p hp => ⟨?_, by simp⟩) fun p hp => hp.1
  exact hp.trace (fun _ => trivial) rfl

theorem noted_cascades : KeptByCascades c (c.Noted []) fun _ => c.Tidy where
  failed _ _ hp := hp.toTidy
  exhausted _ hp := hp.toTidy
  metadata := meets_metadataOf (fun _ hp => hp.coherent) (fun _ _ hp => hp.toTidy)
    fun _ _ hcache hp => ⟨⟨hp.traced, hp.once⟩, hcache, hp.noted⟩
  meaning object _ m _ := meets_defaultMeaning (fun _ _ hp => hp.toTidy)
    (fun _ _ _ hp => hp.trace (fun _ => trivial) rfl)
    (fun _ _ hp => ⟨⟨hp.traced, hp.once⟩, hp.coherent, hp.noted⟩) object m
  expand := meets_expanding (fun _ _ hp => hp.toTidy)
    fun _ _ hp => ⟨⟨hp.traced, hp.once⟩, hp.coherent, hp.noted⟩
  chain _ _ hp := ⟨⟨hp.traced, hp.once⟩, hp.coherent, hp.noted⟩
  halted _ _ _ hp := ⟨hp.traced, hp.once⟩
  group _ group hs := noted_runGroup hs group

theorem noted_validate (root : ObjectId) (gs : List TypeName) :
    Meets (c.validate root gs) (c.Noted []) Any fun _ => c.Tidy := by
  refine (noted_cascades.metadata _).bind fun m hm => ?_
  refine (noted_cascades.expand _).next fun order => ?_
  refine (noted_cascades.runSubject ⟨⟨root, rfl, hm⟩, rfl⟩ (noted_cascades.cascade _) order).next ?_
  exact fun _ => Meets.get.any.next fun _ => .pure trivial

/-! ### Checks of a declaration -/

/-- The type from whose metadata an object is checked at a path for a declaration of several groups,
where the event is such a check. -/
def checkedBy (c : Call) (x : ObjectId) (path : Path) (d : Declaration) : Event → Option TypeName
  | .checked object path' b _ _ =>
    if object = some x ∧ path' = path ∧ 1 < b.groups.length ∧ c.registry.declaration? b = some d then
      some b.type
    else none
  | _ => none

/-- Whether walks of an object take a declaration from two types: what the type of the object and its
direct interfaces do not declare the walk of the default group takes from a type above, and walks for
other groups take from the type of the object. -/
structure Divides (c : Call) (x : ObjectId) (d : Declaration) (j : List Event) : Prop where
  ordinary : ∀ m, c.Assembles (c.store.typeOf x) m → m.redefinesDefault = false
  above : ¬ c.registry.LeadsTo (c.store.typeOf x) d.declaredBy
  default : ∃ path, .began (some x) path TypeName.defaultGroup ∈ j
  other : ∃ path group, .began (some x) path group ∈ j ∧ group.isDefault = false

variable {x : ObjectId} {path : Path} {d : Declaration}

theorem checkedBy_eq_some {e : Event} {host : TypeName} :
    c.checkedBy x path d e = some host ↔ ∃ b group value,
      e = .checked (some x) path b group value ∧ 1 < b.groups.length ∧
        c.registry.declaration? b = some d ∧ b.type = host := by
  cases e with
  | checked object path' b group value =>
    simp only [checkedBy, Option.ite_none_right_eq_some, Option.some.injEq, Event.checked.injEq]
    constructor
    · rintro ⟨⟨rfl, rfl, hgroups, hd⟩, rfl⟩
      exact ⟨b, group, value, ⟨rfl, rfl, rfl, rfl, rfl⟩, hgroups, hd, rfl⟩
    · rintro ⟨b', group', value', ⟨rfl, rfl, rfl, rfl, rfl⟩, hgroups, hd, rfl⟩
      exact ⟨⟨rfl, rfl, hgroups, hd⟩, rfl⟩
  | _ => simp [checkedBy]

/-- Whether the walk of the default group takes a declaration from a type. -/
def TakesFrom (c : Call) (m : Metadata) (d : Declaration) (host : TypeName) : Prop :=
  ∃ b ∈ c.demandedFrom [] m.hierarchy, c.registry.declaration? b = some d ∧ b.type = host

variable {m : Metadata} {host host' : TypeName}

theorem TakesFrom.unique (hlists : c.registry.ListsInterfaces) (hm : c.Assembles (c.store.typeOf x) m)
    (h : c.TakesFrom m d host) (h' : c.TakesFrom m d host') : host = host' := by
  obtain ⟨b, hb, hd, rfl⟩ := h
  obtain ⟨b', hb', hd', rfl⟩ := h'
  exact type_eq_of_declaration hlists hm hb hb' hd hd'

/-- What a type declares, or a direct interface, its own walk takes from the type; and so it takes all
that the type demands if the type redefines the default group. -/
theorem takesFrom_own {type : TypeName} (hm : c.Assembles type m) {b : BoundConstraint}
    (hb : b ∈ m.constraints) (hd : c.registry.declaration? b = some d)
    (h : m.redefinesDefault ∨ c.registry.LeadsTo type d.declaredBy) : c.TakesFrom m d type := by
  have htype := (Metadata.declared_of_mem hm hb).1
  obtain ⟨rfl, own, definitions, elements, hs⟩ := Metadata.sources hm
  obtain ⟨-, classes, rest, -, -, hnames, -⟩ := Registry.hierarchy_ok hs.hierarchy_eq
  refine ⟨b, ?_, hd, htype⟩
  rw [hnames]
  cases hr : m.redefinesDefault with
  | true =>
    rw [List.cons_append, demandedFrom_redefined hm hr]
    exact mem_uncovered.2 ⟨hb, by simp⟩
  | false =>
    rw [List.cons_append, demandedFrom_ordinary hm hr]
    have hdirect := (mem_directTypes hm _).2 (h.resolve_left (by simp [hr]))
    rw [(Metadata.declaration_of_mem hm hb hd).1] at hdirect
    refine List.mem_append_left _ (mem_uncovered.2 ⟨List.mem_filter.2 ⟨hb, ?_⟩, by simp⟩)
    simpa using hdirect

/-- A check of a declaration takes it from the object's own type, in a walk for another group than the
default one, or from where the walk of the default group does. -/
theorem Tidy.host_of_mem (h : c.Tidy p) (hm : c.Assembles (c.store.typeOf x) m)
    (hhost : host ∈ p.journal.filterMap (c.checkedBy x path d)) :
    (host = c.store.typeOf x ∧ (∃ b ∈ m.constraints, c.registry.declaration? b = some d) ∧
        ∃ path group, .began (some x) path group ∈ p.journal ∧ group.isDefault = false) ∨
      (c.TakesFrom m d host ∧ ∃ path, .began (some x) path TypeName.defaultGroup ∈ p.journal) := by
  obtain ⟨e, he, hhost⟩ := List.mem_filterMap.1 hhost
  obtain ⟨b, group, value, rfl, -, hd, rfl⟩ := checkedBy_eq_some.1 hhost
  obtain ⟨s, walked, hs, hobject, hbegan, -, hb, -, -⟩ := h.traced _ he
  obtain ⟨y, hy, hsm⟩ := hs.object
  obtain rfl : y = x := Option.some.inj (hy.symm.trans hobject)
  obtain rfl := hsm.unique hm
  unfold demanded at hb
  split at hb
  · next hwalked =>
    obtain rfl : walked = TypeName.defaultGroup := by simpa [TypeName.isDefault] using hwalked
    exact .inr ⟨⟨b, hb, hd, rfl⟩, s.path, hbegan⟩
  · next hwalked =>
    exact .inl ⟨(Metadata.declared_of_mem hm hb).1, ⟨b, hb, hd⟩, s.path, walked, hbegan,
      by simpa using hwalked⟩

/-- Checks that are told of check a declaration once for each type that they take it from. -/
theorem Tidy.nodup_checkedBy (h : c.Tidy p) (x : ObjectId) (path : Path) (d : Declaration) :
    (p.journal.filterMap (c.checkedBy x path d)).Nodup := by
  refine List.pairwise_filterMap.2 ((List.pairwise_filterMap.1 h.once).imp_of_mem ?_)
  intro e e' he he' hne host hhost host' hhost'
  rintro rfl
  have htraced := h.traced e he
  have htraced' := h.traced e' he'
  obtain ⟨b, group, value, rfl, hgroups, hd, hb⟩ := checkedBy_eq_some.1 hhost
  obtain ⟨b', group', value', rfl, hgroups', hd', hb'⟩ := checkedBy_eq_some.1 hhost'
  obtain ⟨s, walked, hs, -, -, -, hmem, -, -⟩ := htraced
  obtain ⟨s', walked', hs', -, -, -, hmem', -, -⟩ := htraced'
  obtain ⟨_, -, hsm⟩ := hs.object
  obtain ⟨_, -, hsm'⟩ := hs'.object
  obtain ⟨_, m, hm, hbm⟩ := exists_mem_of_mem_demanded hsm hmem
  obtain ⟨_, m', hm', hbm'⟩ := exists_mem_of_mem_demanded hsm' hmem'
  have hkey := Metadata.key_eq_of_declaration hm hbm hm' hbm' hd hd' (hb.trans hb'.symm)
  exact hne (some x, path, b.key) (by simp [Event.mark?, hgroups]) (some x, path, b'.key)
    (by simp [Event.mark?, hgroups']) (by rw [hkey])

/-- Different items of which one alone has a property, and all others are one and the same, are two at
most. -/
theorem perm_pair {α : Type} {xs : List α} {own : α} {A : Prop} {P : α → Prop} (hnodup : xs.Nodup)
    (h : ∀ y ∈ xs, (y = own ∧ A) ∨ P y) (hunique : ∀ y z, P y → P z → y = z) :
    xs.length ≤ 1 ∨ ∃ other, other ≠ own ∧ xs.Perm [own, other] ∧ A ∧ P other := by
  rcases xs with _ | ⟨first, _ | ⟨second, others⟩⟩
  · exact .inl (Nat.zero_le _)
  · exact .inl (Nat.le_refl _)
  right
  have hne : first ≠ second := by
    rintro rfl
    simp at hnodup
  obtain ⟨other, hother, hown, hmem, hA, hP⟩ : ∃ other ∈ first :: second :: others, other ≠ own ∧
      own ∈ first :: second :: others ∧ A ∧ P other := by
    rcases h first (by simp) with ⟨rfl, hA⟩ | hfirst
    · rcases h second (by simp) with ⟨rfl, -⟩ | hsecond
      · exact absurd rfl hne
      · exact ⟨second, by simp, hne.symm, by simp, hA, hsecond⟩
    · rcases h second (by simp) with ⟨rfl, hA⟩ | hsecond
      · exact ⟨first, by simp, hne, by simp, hA, hfirst⟩
      · exact absurd (hunique _ _ hfirst hsecond) hne
  refine ⟨other, hown, (List.perm_ext_iff_of_nodup hnodup (by simp [hown.symm])).2 fun y => ?_, hA, hP⟩
  rw [List.mem_cons (a := y) (b := own), List.mem_singleton]
  constructor
  · exact fun hy => (h y hy).imp (·.1) fun hy => hunique _ _ hy hP
  · rintro (rfl | rfl)
    · exact hmem
    · exact hother

/-- Where a declaration is taken from two types, one of them is the type of the object. -/
theorem Tidy.checkedBy_divides (h : c.Tidy p) (hlists : c.registry.ListsInterfaces) (x : ObjectId)
    (path : Path) (d : Declaration) :
    (p.journal.filterMap (c.checkedBy x path d)).length ≤ 1 ∨ ∃ host, host ≠ c.store.typeOf x ∧
      (p.journal.filterMap (c.checkedBy x path d)).Perm [c.store.typeOf x, host] ∧
      c.Divides x d p.journal := by
  rcases hm : Metadata.assemble c.registry c.config.methodRules (c.store.typeOf x) with e | m
  · -- What is checked on the object has been demanded of it.
    left
    rw [List.filterMap_eq_nil_iff.2, List.length_nil]
    · exact Nat.zero_le _
    intro e he
    refine Option.eq_none_iff_forall_ne_some.2 fun host hhost => ?_
    obtain ⟨b, group, value, rfl, -⟩ := checkedBy_eq_some.1 hhost
    obtain ⟨s, walked, hs, hobject, -⟩ := h.traced _ he
    obtain ⟨y, hy, hsm⟩ := hs.object
    obtain rfl : y = x := Option.some.inj (hy.symm.trans hobject)
    cases hm.symm.trans hsm
  rcases perm_pair (h.nodup_checkedBy x path d) (fun _ => h.host_of_mem hm)
      fun _ _ hhost hhost' => hhost.1.unique hlists hm hhost'.1 with
    hle | ⟨host, hother, hperm, ⟨⟨b, hb, hd⟩, hnamed⟩, htakes, hdefault⟩
  · exact .inl hle
  · have hnot : ¬ (m.redefinesDefault ∨ c.registry.LeadsTo (c.store.typeOf x) d.declaredBy) :=
      fun hown => hother (htakes.unique hlists hm (takesFrom_own hm hb hd hown))
    refine .inr ⟨host, hother, hperm, fun m' hm' => ?_, fun h => hnot (.inr h), hdefault, hnamed⟩
    rw [← Assembles.unique hm hm']
    exact Bool.eq_false_iff.2 fun h => hnot (.inl h)

end Call

namespace Validator

open Call

variable {v : Validator}

/-- A declaration of several groups is checked on an object at a path once for each type from whose
metadata walks take it. If types list no classes as interfaces, there is one such type, unless the
object is walked both for the default group and for another one, does not redefine the default group,
and has the declaration from a type above that its direct interfaces do not lead to: then there are two
at most, and one of them is the type of the object. -/
theorem validate_checks_once (hv : v.Coherent) (root : ObjectId) (gs : List TypeName) (x : ObjectId)
    (path : Path) (d : Declaration) :
    let c := v.callOn root
    let journal := (v.validate root gs).journal
    let hosts := journal.filterMap (c.checkedBy x path d)
    hosts.Nodup ∧ (v.registry.ListsInterfaces → hosts.length ≤ 1 ∨
      ∃ host, host ≠ v.store.typeOf x ∧ hosts.Perm [v.store.typeOf x, host] ∧
        c.Divides x d journal) := by
  intro c journal hosts
  obtain ⟨q, hexec, hjournal⟩ := exec_validateWithin v v.depth root gs
  have hjournal : journal = q.journal := hjournal.symm
  have htidy : c.Tidy q := by
    have hends := noted_validate (c := c) root gs (startOf v.memory root)
      ⟨⟨by simp [startOf], by simp [startOf, marksOf]⟩, hv, by simp [startOf, marksOf]⟩
    rw [hexec] at hends
    revert hends
    cases (v.validateWithin v.depth root gs).answer with
    | error e => exact id
    | ok vs => exact fun hq => hq.1.toTidy
  simp only [hosts, hjournal]
  exact ⟨htidy.nodup_checkedBy x path d, fun hlists => htidy.checkedBy_divides hlists x path d⟩

/-- An object of a class whose superclass demands a property for two groups. -/
def inheriting : Validator where
  registry := [
    { name := ⟨"A"⟩, kind := .interface },
    { name := ⟨"Super"⟩, kind := .concrete, fields := [
      ⟨"x", { own := { constraints := [
        { kind := "NotNull", groups := [TypeName.defaultGroup, ⟨"A"⟩] }] } }⟩] },
    { name := ⟨"Sub"⟩, kind := .concrete, superclass := some ⟨"Super"⟩ : TypeDefinition }
    ].foldl Registry.register .initial
  evaluators := Standard.evaluators
  config := {}
  store := ⟨[(⟨"s"⟩, ⟨⟨"Sub"⟩, [("x", .str "v")]⟩)]⟩
  memory := {}

theorem validate_checks_once_inheriting :
    let v := inheriting
    let c := v.callOn ⟨"s"⟩
    let journal := (v.validate ⟨"s"⟩ [TypeName.defaultGroup, ⟨"A"⟩]).journal
    let hosts := journal.filterMap (c.checkedBy ⟨"s"⟩ (Path.root.property "x") ⟨⟨"Super"⟩, 0⟩)
    hosts.Nodup ∧ ∃ host, host ≠ v.store.typeOf ⟨"s"⟩ ∧
      hosts.Perm [v.store.typeOf ⟨"s"⟩, host] ∧ c.Divides ⟨"s"⟩ ⟨⟨"Super"⟩, 0⟩ journal := by
  intro v c journal hosts
  have h := validate_checks_once (v := v) (MetadataCache.coherent_nil _ _) ⟨"s"⟩
    [TypeName.defaultGroup, ⟨"A"⟩] ⟨"s"⟩ (Path.root.property "x") ⟨⟨"Super"⟩, 0⟩
  exact ⟨h.1, (h.2 (by decide +kernel)).resolve_left (by decide +kernel)⟩

/-- A request of both groups has the evaluator judge the property twice for one declaration. -/
theorem checked_by_two_hosts :
    let v := inheriting
    let journal := (v.validate ⟨"s"⟩ [TypeName.defaultGroup, ⟨"A"⟩]).journal
    journal.filterMap ((v.callOn ⟨"s"⟩).checkedBy ⟨"s"⟩ (Path.root.property "x") ⟨⟨"Super"⟩, 0⟩) =
        [⟨"Super"⟩, ⟨"Sub"⟩] ∧
      journal.countP (fun | .consulted "NotNull" _ (.str "v") _ => true | _ => false) = 2 := by
  exact ⟨by decide +kernel, by decide +kernel⟩

end Validator

end ObjectValidation
