import ObjectValidation.Proofs.Clean
/-!
# Where the constraints of interfaces have their turn

A walk of the default group takes up the constraints of an interface at the first type that leads to
the interface, and turns them away wherever it meets them again. Up to the first type that redefines
the default group it checks for the default group and no other. So what it turns away has had its turn
if it belongs to the default group, and never has one if it does not (`turned_away`): a superclass that
redefines the default group asks in vain for what a class below it covers.
-/

namespace ObjectValidation

open Run

/-- The constraints that a walk of the default group meets at a type. -/
def Metadata.hosted (m : Metadata) : List BoundConstraint :=
  if m.redefinesDefault then m.constraints else m.directConstraints

/-- Whether a type demands of its instances what some type declares. -/
def Metadata.Demands (m : Metadata) (o : Occurrence) : Prop :=
  ∃ b ∈ m.constraints, b.toOccurrence = o

theorem Metadata.hosted_subset (m : Metadata) : m.hosted ⊆ m.constraints := by
  unfold hosted
  split
  · exact List.Subset.refl _
  · exact fun b hb => (List.mem_filter.1 hb).1

namespace Call

variable {c : Call}

/-- The interfaces that types of a hierarchy cover. -/
def coveredBy (c : Call) (types : List TypeName) : List TypeName :=
  types.flatMap fun type =>
    match Metadata.assemble c.registry c.config.methodRules type with
    | .ok m => interfacesOf m.directConstraints
    | .error _ => []

theorem coveredBy_cons {type : TypeName} {m : Metadata} (hm : c.Assembles type m)
    (types : List TypeName) :
    c.coveredBy (type :: types) = interfacesOf m.directConstraints ++ c.coveredBy types := by
  unfold Assembles at hm
  simp [coveredBy, hm]

/-! ### A walk in two parts -/

/-- A walk along types of which the first ones do not redefine the default group is a walk along these
and, unless the call has found all it looks for, one along the others, where the first ones cover
interfaces. -/
theorem exec_runHierarchy_append {s : Subject} {rest : List TypeName} :
    ∀ {before covered : List TypeName} {p r : Progress}, c.Ordinary before → c.Remembers p →
    (c.runHierarchy s covered before).exec p = (.ok (), r) → c.stops r = false →
    (c.runHierarchy s covered (before ++ rest)).exec p =
      (c.runHierarchy s (covered ++ c.coveredBy before) rest).exec r
  | [], covered, p, r, _, _, h, _ => by
    cases h
    simp [coveredBy]
  | type :: before, covered, p, r, hord, hp, h, hr => by
    obtain ⟨m, p₁, hmeta, h⟩ := exec_bind_ok.1 h
    have hm := ((follows_walk s p).metadata type).answer hmeta (.refl hp)
    have hp₁ := ((follows_walk s p).metadata type).kept hmeta (.refl hp)
    have hm' : m.redefinesDefault = false := hord type (by simp) m hm
    rw [if_neg (by simp [hm'])] at h
    obtain ⟨holds, p₂, hall, h⟩ := exec_bind_ok.1 h
    have hp₂ := ((follows_walk s p).checkAll (fun _ _ => trivial) trivial).kept hall hp₁
    obtain ⟨hp₂', h⟩ := exec_unless_isStopped h hr
    obtain ⟨_, p₃, hmark, h⟩ := exec_bind_ok.1 h
    have hp₃ := ((follows_walk s p).mark _ trivial).kept hmark hp₂
    rw [List.cons_append, Call.runHierarchy, exec_bind, hmeta]
    simp only [hm', Bool.false_eq_true, if_false, exec_bind, hall, exec_isStopped, hp₂', hmark]
    rw [exec_runHierarchy_append hord.above hp₃.remembers h hr, coveredBy_cons hm, List.append_assoc]

/-! ### What is covered and what is demanded -/

/-- What is demanded along types is met at one of them, and does not come from an interface that the
types before it cover. -/
theorem host_of_mem_demandedFrom {b : BoundConstraint} : ∀ {types covered : List TypeName},
    b ∈ c.demandedFrom covered types → ∃ before host above m, types = before ++ host :: above ∧
      c.Ordinary before ∧ c.Assembles host m ∧ b ∈ m.hosted ∧
      ¬ (b.onInterface ∧ b.declaredBy ∈ covered ++ c.coveredBy before)
  | [], _, h => by simp [demandedFrom] at h
  | type :: above, covered, h => by
    cases ha : Metadata.assemble c.registry c.config.methodRules type with
    | error e => simp [demandedFrom, ha] at h
    | ok m =>
      have hfirst (hb : b ∈ uncovered covered m.hosted) : ∃ before host above' m',
          type :: above = before ++ host :: above' ∧ c.Ordinary before ∧ c.Assembles host m' ∧
          b ∈ m'.hosted ∧ ¬ (b.onInterface ∧ b.declaredBy ∈ covered ++ c.coveredBy before) :=
        ⟨[], type, above, m, rfl, by simp [Ordinary], ha, (mem_uncovered.1 hb).1,
          by simpa [coveredBy] using (mem_uncovered.1 hb).2⟩
      cases hr : m.redefinesDefault with
      | true =>
        rw [demandedFrom_redefined ha hr] at h
        exact hfirst (by simpa [Metadata.hosted, hr] using h)
      | false =>
        rw [demandedFrom_ordinary ha hr] at h
        rcases List.mem_append.1 h with h | h
        · exact hfirst (by simpa [Metadata.hosted, hr] using h)
        · obtain ⟨before, host, above', m', rfl, hord, hm', hb, hfree⟩ := host_of_mem_demandedFrom h
          refine ⟨type :: before, host, above', m', rfl, ?_, hm', hb, ?_⟩
          · intro t ht m'' hm''
            rcases List.mem_cons.1 ht with rfl | ht
            · rwa [hm''.unique ha]
            · exact hord t ht m'' hm''
          · rwa [coveredBy_cons ha, ← List.append_assoc]

/-- What is demanded along a hierarchy does not come from interfaces that are covered before. -/
theorem not_covered_of_mem_demandedFrom {b : BoundConstraint} {types covered : List TypeName}
    (h : b ∈ c.demandedFrom covered types) : ¬ (b.onInterface ∧ b.declaredBy ∈ covered) := by
  obtain ⟨before, host, above, m, -, -, -, -, hfree⟩ := host_of_mem_demandedFrom h
  exact fun hcovered => hfree ⟨hcovered.1, List.mem_append_left _ hcovered.2⟩

/-- What an interface declares is demanded where the interface gets covered. -/
theorem exists_mem_of_coveredBy {declaring : TypeName} {P : BoundConstraint → Prop}
    (hP : ∀ b, P b → b.declaredBy = declaring) :
    ∀ {types covered : List TypeName}, c.Walkable types → c.Ordinary types →
    (∀ type ∈ types, ∀ m, c.Assembles type m → declaring ∈ m.hierarchy → ∃ b ∈ m.constraints, P b) →
    declaring ∈ c.coveredBy types →
    (∃ b ∈ c.demandedFrom covered types, P b) ∨ declaring ∈ covered
  | [], _, _, _, _, h => by simp [coveredBy] at h
  | type :: above, covered, hwalkable, hord, hhas, h => by
    obtain ⟨m, hm, habove⟩ := hwalkable
    have hm' : m.redefinesDefault = false := hord type (by simp) m hm
    have hfirst : declaring ∈ interfacesOf m.directConstraints →
        (∃ b ∈ c.demandedFrom covered (type :: above), P b) ∨ declaring ∈ covered := by
      intro hi
      obtain ⟨b, hb, rfl⟩ := List.mem_map.1 hi
      obtain ⟨hb, hdirect⟩ := List.mem_filter.1 (List.mem_filter.1 hb).1
      have hin := (Metadata.occurrence_of_mem hm hb).1
      exact exists_mem_of_first hP hm (hhas type (by simp) m hm hin) fun _ => by simpa using hdirect
    rw [coveredBy_cons hm] at h
    rcases List.mem_append.1 h with h | h
    · exact hfirst h
    · rcases exists_mem_of_coveredBy hP (habove hm') hord.above
        (fun t ht => hhas t (List.mem_cons_of_mem _ ht)) h with ⟨b, hb, hPb⟩ | h
      · left
        rw [demandedFrom_ordinary hm hm']
        exact ⟨b, List.mem_append_right _ hb, hPb⟩
      · exact (List.mem_append.1 h).elim .inr hfirst

/-! ### What a walk along types checks -/

/-- What is so of the checks of a walk along types: the walk demands them, on the subject. -/
def ChecksAlong (c : Call) (s : Subject) (covered types : List TypeName) (_ : List Event) :
    Event → Prop
  | .checked object path b g value => object = s.object ∧ c.Serves types TypeName.defaultGroup g ∧
      b ∈ c.demandedFrom covered types ∧ b.appliesTo g ∧ s.place c.store b = some (path, value)
  | _ => True

theorem checksAlong_lasting (s : Subject) (covered types : List TypeName) :
    Lasting (c.ChecksAlong s covered types) where
  mono _ _ _ := id
  trace j e h := by
    cases e with
    | checked => cases h
    | _ => trivial

theorem logs_runHierarchy {s : Subject} {types covered : List TypeName} {p : Progress} :
    Meets (c.runHierarchy s covered types) (c.Logs (c.ChecksAlong s covered types) p) Any
      AnyHalt := by
  have hΦ := checksAlong_lasting (c := c) s covered types
  have hwalk : KeptByWalk c s (c.Logs (c.ChecksAlong s covered types) p) AnyHalt
      (c.Serves types TypeName.defaultGroup) (· ∈ c.demandedFrom covered types) := by
    refine ⟨⟨fun type m hm => logs_defaultMeaning hΦ hm s.object, ?_,
      fun g _ => logs_markProcessed s g⟩, logs_metadataOf hΦ⟩
    intro g b hg hb
    refine meets_checkBound_of fun path value hplace => ?_
    have hcheck : Meets (c.checkConstraint s g value path b)
        (fun q => c.Logs (c.ChecksAlong s covered types) p q ∧ True) Any AnyHalt :=
      logs_checkConstraint hΦ (fun _ _ _ _ => trivial) fun _ _ _ ha => ⟨rfl, hg, hb, ha, hplace⟩
    simpa only [and_true] using hcheck
  exact hwalk.runHierarchy types covered (fun _ => id) fun _ => id

/-- Whether a constraint of a subject has been checked for the default group between two progresses,
where it applies; one of several groups may have been done before the first. -/
def HadTurn (c : Call) (s : Subject) (b : BoundConstraint) (p q : Progress) : Prop :=
  ∀ path value, s.place c.store b = some (path, value) →
    .checked s.object path b TypeName.defaultGroup value ∈ q.since p ∨
      (1 < b.groups.length ∧ (s.object, path, b.key) ∈ p.processedConstraints)

/-- What a walk demands that is not stopped and meets no redefined default group has its turn. -/
theorem hadTurn_of_runHierarchy {s : Subject} {types covered : List TypeName} {p q : Progress}
    (h : (c.runHierarchy s covered types).exec p = (.ok (), q)) (hq : c.stops q = false)
    (hp : c.Remembers p) (hord : c.Ordinary types) {b : BoundConstraint}
    (hb : b ∈ c.demandedFrom covered types) (ha : b.appliesTo TypeName.defaultGroup) :
    c.HadTurn s b p q := by
  intro path value hplace
  have hlogs := logs_runHierarchy.kept h (.refl hp)
  -- The number of a constraint tells it from all others, and nothing is checked for another group.
  have hsame {b' : BoundConstraint} {g : TypeName} {value' : Value}
      (he : .checked s.object path b' g value' ∈ q.since p) (hk : b'.key = b.key) :
      .checked s.object path b TypeName.defaultGroup value ∈ q.since p := by
    obtain ⟨-, hg, hb', -, hplace'⟩ := hlogs.2 _ he
    obtain ⟨_, -, m, hm, hbm⟩ := mem_of_mem_demandedFrom hb
    obtain ⟨_, -, m', hm', hbm'⟩ := mem_of_mem_demandedFrom hb'
    obtain rfl := (owns_of_mem hm' (m'.constraints_subset hbm')).eq_of_key_eq
      (owns_of_mem hm (m.constraints_subset hbm)) hk
    rw [hplace] at hplace'
    cases hplace'
    obtain rfl := hg.resolve_right fun hg => hg.2 hord
    exact he
  rcases runHierarchy_settles h hq hp (.inr hord) b hb ha path value hplace with
    ⟨g, he⟩ | ⟨hgroups, hmark | ⟨b', g, value', he, hk⟩⟩
  · exact .inl (hsame he rfl)
  · exact .inr ⟨hgroups, hmark⟩
  · exact .inl (hsame he hk)

/-! ### What is turned away -/

/-- What covers an interface leads to it. -/
theorem mem_hierarchy_of_coveredBy {type : TypeName} {m : Metadata} (hm : c.Assembles type m)
    {types : List TypeName} (htypes : types ⊆ m.hierarchy) {interface : TypeName}
    (h : interface ∈ c.coveredBy types) : interface ∈ m.hierarchy := by
  obtain ⟨t, ht, hcovered⟩ := List.mem_flatMap.1 h
  split at hcovered
  · next m' hm' =>
    obtain ⟨b, hb, rfl⟩ := List.mem_map.1 hcovered
    have hdirect := (List.mem_filter.1 (List.mem_filter.1 hb).1).2
    exact mem_hierarchy_of_leadsTo hm (htypes ht)
      ((mem_directTypes hm' b.declaredBy).1 (by simpa using hdirect))
  · cases hcovered

/-- What one type sees of a type of a hierarchy from outside is demanded at the end of the hierarchy. -/
theorem demands_of_outside {type t : TypeName} {m m' : Metadata} (hm : c.Assembles type m)
    (hm' : c.Assembles t m') {b : BoundConstraint} (hb : b ∈ m'.constraints)
    (hne : b.declaredBy ≠ t) (hin : b.declaredBy ∈ m.hierarchy) : m.Demands b.toOccurrence := by
  obtain ⟨-, d, hd, ho⟩ := Metadata.occurrence_of_mem hm' hb
  have hne' : d.name ≠ t := Registry.name_of_get? hd ▸ hne
  exact Metadata.exists_mem_of_occurrence hm hin hd (occurrencesOf_subset hne' type ho)

/-- What a type demands that comes from an interface which the first types of its hierarchy cover is
demanded along these. -/
theorem exists_mem_of_demands {type : TypeName} {m : Metadata} (hm : c.Assembles type m)
    {before rest : List TypeName} (htypes : m.hierarchy = before ++ rest)
    (hwalkable : c.Walkable before) (hord : c.Ordinary before) {o : Occurrence} (ho : m.Demands o)
    (hcovered : o.declaredBy ∈ c.coveredBy before) :
    ∃ b ∈ c.demandedFrom [] before, b.toOccurrence = o := by
  obtain ⟨b, hb, rfl⟩ := ho
  obtain ⟨hin, d, hd, ho⟩ := Metadata.occurrence_of_mem hm hb
  have hP (b' : BoundConstraint) (h : b'.toOccurrence = b.toOccurrence) :
      b'.declaredBy = b.declaredBy := congrArg Occurrence.declaredBy h
  by_cases htype : b.declaredBy = type
  · -- The interface is the type itself, where the walk begins.
    obtain ⟨rfl, own, definitions, elements, hs⟩ := Metadata.sources hm
    obtain ⟨-, classes, others, -, -, hnames, -⟩ := Registry.hierarchy_ok hs.hierarchy_eq
    rw [hnames] at htypes
    cases before with
    | nil => simp [coveredBy] at hcovered
    | cons first before =>
      obtain rfl : m.type = first := (List.cons.inj htypes).1
      refine (exists_mem_of_first hP hm ⟨b, hb, rfl⟩ fun _ => ?_).resolve_right (by simp)
      rw [htype]
      exact (mem_directTypes hm _).2 .refl
  · have hne : d.name ≠ type := Registry.name_of_get? hd ▸ htype
    refine (exists_mem_of_coveredBy hP hwalkable hord (fun t _ m' hm' hin' => ?_)
      hcovered).resolve_right (by simp)
    exact Metadata.exists_mem_of_occurrence hm' hin' hd (occurrencesOf_subset hne t ho)

section

variable {s : Subject} {type host : TypeName} {before above : List TypeName} {m : Metadata}
  {b : BoundConstraint}

/-- What is turned away elsewhere than at its own interface is demanded of the subject. -/
theorem demands_of_turnedAway (hs : c.Assembles type s.metadata)
    (htypes : s.metadata.hierarchy = before ++ host :: above) (hm : c.Assembles host m)
    (hb : b ∈ m.hosted) (haway : b ∉ uncovered (c.coveredBy before) m.hosted)
    (hne : b.declaredBy ≠ host) : s.metadata.Demands b.toOccurrence := by
  have hcovered : b.declaredBy ∈ c.coveredBy before :=
    Classical.byContradiction fun h => haway (mem_uncovered.2 ⟨hb, fun hfree => h hfree.2⟩)
  have hbefore : before ⊆ s.metadata.hierarchy := htypes ▸ List.subset_append_left _ _
  exact demands_of_outside hs hm (m.hosted_subset hb) hne (mem_hierarchy_of_coveredBy hs hbefore hcovered)

/-- What types before an interface in a hierarchy demand of it is demanded of the subject. -/
theorem demands_of_mem_demandedFrom (hs : c.Assembles type s.metadata)
    (htypes : s.metadata.hierarchy = before ++ b.declaredBy :: above) {covered : List TypeName}
    (hb : b ∈ c.demandedFrom covered before) : s.metadata.Demands b.toOccurrence := by
  obtain ⟨t, ht, m', hm', hb'⟩ := mem_of_mem_demandedFrom hb
  have hin : b.declaredBy ∈ s.metadata.hierarchy := by simp [htypes]
  refine demands_of_outside hs hm' hb' ?_ hin
  rintro rfl
  -- No type has two turns in a hierarchy.
  obtain ⟨rfl, own, definitions, elements, hsources⟩ := Metadata.sources hs
  have hnodup := Registry.nodup_hierarchy hsources.hierarchy_eq
  rw [htypes] at hnodup
  exact (List.nodup_append.1 hnodup).2.2 _ ht _ (by simp) rfl

/-- What a walk of the default group turns away at a type, as coming from an interface that the types
before cover, has had its turn if it belongs to the default group and is demanded of the subject, and
it gets none in the whole walk if not. -/
theorem turned_away (hs : c.Assembles type s.metadata)
    (htypes : s.metadata.hierarchy = before ++ host :: above) (hord : c.Ordinary before)
    {p r : Progress} (hp : c.Remembers p)
    (hbefore : (c.runHierarchy s [] before).exec p = (.ok (), r)) (hr : c.stops r = false)
    (hm : c.Assembles host m) (hb : b ∈ m.hosted)
    (haway : b ∉ uncovered (c.coveredBy before) m.hosted) :
    (b.appliesTo TypeName.defaultGroup ∧ s.metadata.Demands b.toOccurrence →
      ∃ b', b'.toOccurrence = b.toOccurrence ∧ c.HadTurn s b' p r) ∧
    (¬ (b.appliesTo TypeName.defaultGroup ∧ s.metadata.Demands b.toOccurrence) → ∀ q,
      (c.runHierarchy s [] s.metadata.hierarchy).exec p = (.ok (), q) →
      ∀ object path b' g value, .checked object path b' g value ∈ q.since p →
        b'.toOccurrence ≠ b.toOccurrence) := by
  have hcovered : b.onInterface ∧ b.declaredBy ∈ c.coveredBy before :=
    Classical.byContradiction fun hfree => haway (mem_uncovered.2 ⟨hb, hfree⟩)
  constructor
  · rintro ⟨ha, hdemands⟩
    obtain ⟨b', hb', hsame⟩ := exists_mem_of_demands hs htypes
      (walkable_of_runHierarchy hbefore hr hp) hord hdemands hcovered.2
    have ha' : b'.appliesTo TypeName.defaultGroup := by
      rw [BoundConstraint.appliesTo_congr hsame, ha]
    exact ⟨b', hsame, hadTurn_of_runHierarchy hbefore hr hp hord hb' ha'⟩
  · intro hnot q hrun object path b' g value he hsame
    have hdeclared : b'.declaredBy = b.declaredBy := congrArg Occurrence.declaredBy hsame
    have hfirst := logs_runHierarchy.kept hbefore (.refl hp)
    rw [htypes, exec_runHierarchy_append hord hp hbefore hr, List.nil_append] at hrun
    have hrest := logs_runHierarchy.kept hrun (.refl hfirst.1.remembers)
    rw [hfirst.1.extends.since_append hrest.1.extends] at he
    rcases List.mem_append.1 he with he | he
    · -- The types before the host check for the default group alone.
      obtain ⟨-, hg, hb', ha', -⟩ := hfirst.2 _ he
      obtain rfl := hg.resolve_right fun hg => hg.2 hord
      rw [BoundConstraint.appliesTo_congr hsame] at ha'
      refine hnot ⟨ha', ?_⟩
      by_cases hhost : b.declaredBy = host
      · rw [← hsame]
        exact demands_of_mem_demandedFrom hs (hdeclared ▸ hhost ▸ htypes) hb'
      · exact demands_of_turnedAway hs htypes hm hb haway hhost
    · obtain ⟨-, -, hb', -⟩ := hrest.2 _ he
      have honInterface : b'.onInterface = b.onInterface := congrArg Occurrence.onInterface hsame
      refine not_covered_of_mem_demandedFrom hb' ?_
      rw [honInterface, hdeclared]
      exact hcovered

end

end Call

namespace Validator

open Call

/-- A getter of an interface that demands a value. -/
def demandingGetter (interface : TypeName) (name : String) (groups : List TypeName) : Executable where
  kind := .getter
  name := name
  declaredBy := interface
  parameters := []
  returnType := some ⟨"string"⟩
  returnValue := { own := { constraints := [{ kind := "NotNull", groups }] } }
  crossParameter := []
  isPrivate := false
  isStatic := false

/-- An object of a class below one that implements an interface and puts itself behind another group in
its default sequence. The class may list interfaces, too. -/
def shared (interfaces : List TypeName) : Validator where
  registry := [
    { name := ⟨"A"⟩, kind := .interface },
    { name := ⟨"Named"⟩, kind := .interface, methods := [
      demandingGetter ⟨"Named"⟩ "getName" [TypeName.defaultGroup],
      demandingGetter ⟨"Named"⟩ "getTitle" [⟨"A"⟩]] },
    { name := ⟨"Super"⟩, kind := .concrete, interfaces := [⟨"Named"⟩],
      sequence := some [⟨"A"⟩, ⟨"Super"⟩] },
    { name := ⟨"Sub"⟩, kind := .concrete, superclass := some ⟨"Super"⟩, interfaces : TypeDefinition }
    ].foldl Registry.register .initial
  evaluators := Standard.evaluators
  config := {}
  store := ⟨[(⟨"s"⟩, ⟨⟨"Sub"⟩, [("name", .str "Ada")]⟩)]⟩
  memory := {}

/-- The metadata of the classes, where both list the interface. -/
def sharedMetadata : Metadata × Metadata :=
  let v := shared [⟨"Named"⟩]
  let assemble name := Metadata.assemble v.registry v.config.methodRules ⟨name⟩
  ((assemble "Super").toOption.get (by decide +kernel),
    (assemble "Sub").toOption.get (by decide +kernel))

/-- The superclass meets the constraints of the interface that the class covers. That of the default
group has had its turn, and that of the other group never gets one. -/
theorem turned_away_shared :
    let v := shared [⟨"Named"⟩]
    let c := v.callOn ⟨"s"⟩
    let p := startOf v.memory ⟨"s"⟩
    let s : Subject := { object := some ⟨"s"⟩, metadata := sharedMetadata.2, path := .root }
    let r := ((c.runHierarchy s [] [⟨"Sub"⟩]).exec p).2
    sharedMetadata.2.hierarchy = [⟨"Sub"⟩] ++ ⟨"Super"⟩ :: [⟨"Named"⟩] ∧
      (∃ b ∈ sharedMetadata.1.hosted, b.location = .property "name" ∧
        ∃ b', b'.toOccurrence = b.toOccurrence ∧ c.HadTurn s b' p r) ∧
      ∃ b ∈ sharedMetadata.1.hosted, b.location = .property "title" ∧ ∀ q,
        (c.runHierarchy s [] sharedMetadata.2.hierarchy).exec p = (.ok (), q) →
        ∀ object path b' g value, .checked object path b' g value ∈ q.since p →
          b'.toOccurrence ≠ b.toOccurrence := by
  intro v c p s r
  have hs : c.Assembles ⟨"Sub"⟩ sharedMetadata.2 := toOption_eq_some (Option.some_get _).symm
  have hm : c.Assembles ⟨"Super"⟩ sharedMetadata.1 := toOption_eq_some (Option.some_get _).symm
  have hp : c.Remembers p := remembers_startOf (MetadataCache.coherent_nil _ _) _
  have htypes : sharedMetadata.2.hierarchy = [⟨"Sub"⟩] ++ ⟨"Super"⟩ :: [⟨"Named"⟩] := by
    decide +kernel
  have hord : c.Ordinary [⟨"Sub"⟩] := by
    intro t ht m hm'
    obtain rfl := List.mem_singleton.1 ht
    obtain rfl : sharedMetadata.2 = m := hs.unique hm'
    decide +kernel
  have hran : ((c.runHierarchy s [] [⟨"Sub"⟩]).exec p).1.toOption = some () := by decide +kernel
  have hbefore : (c.runHierarchy s [] [⟨"Sub"⟩]).exec p = (.ok (), r) :=
    Prod.ext (toOption_eq_some hran) rfl
  have hr : c.stops r = false := by decide +kernel
  have hcovered : c.coveredBy [⟨"Sub"⟩] = [⟨"Named"⟩, ⟨"Named"⟩] := by decide +kernel
  have hnamed : ∀ b ∈ sharedMetadata.1.hosted, b.onInterface ∧ b.declaredBy = ⟨"Named"⟩ := by
    decide +kernel
  have haway : ∀ b ∈ sharedMetadata.1.hosted,
      b ∉ uncovered (c.coveredBy [⟨"Sub"⟩]) sharedMetadata.1.hosted := by
    intro b hb h
    refine (mem_uncovered.1 h).2 ⟨(hnamed b hb).1, ?_⟩
    simp [hcovered, (hnamed b hb).2]
  have hdemands : ∀ b ∈ sharedMetadata.1.hosted, s.metadata.Demands b.toOccurrence := by
    intro b hb
    refine demands_of_turnedAway hs htypes hm hb (haway b hb) ?_
    simp [(hnamed b hb).2]
  have hname : sharedMetadata.1.hosted.any (fun b => b.location = .property "name" &&
      b.appliesTo TypeName.defaultGroup) = true := by decide +kernel
  have htitle : sharedMetadata.1.hosted.any (fun b => b.location = .property "title" &&
      !b.appliesTo TypeName.defaultGroup) = true := by decide +kernel
  simp only [List.any_eq_true, Bool.and_eq_true, decide_eq_true_eq, Bool.not_eq_true'] at hname htitle
  obtain ⟨b, hb, hlocation, ha⟩ := hname
  obtain ⟨b', hb', hlocation', ha'⟩ := htitle
  exact ⟨htypes,
    ⟨b, hb, hlocation, (turned_away hs htypes hord hp hbefore hr hm hb (haway b hb)).1
      ⟨ha, hdemands b hb⟩⟩,
    b', hb', hlocation', (turned_away hs htypes hord hp hbefore hr hm hb' (haway b' hb')).2
      (by simp [ha'])⟩

/-- The class loses a demand by listing the interface that its superclass implements. -/
theorem repeated_interface_hides :
    (((shared []).validate ⟨"s"⟩ []).answer.toOption.map (·.map (·.path.text))) = some ["title"] ∧
    (((shared [⟨"Named"⟩]).validate ⟨"s"⟩ []).answer.toOption.map (·.map (·.path.text))) = some [] := by
  exact ⟨by decide +kernel, by decide +kernel⟩

end Validator

end ObjectValidation
