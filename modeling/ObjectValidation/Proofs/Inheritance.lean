import ObjectValidation.Proofs.Repetition
/-!
# Whether what is checked is inherited

Private getters are not inherited: the metadata of a type has what its hierarchy declares on its
instances, except on private getters of other types (`Metadata.exists_mem_iff_declares`). But the walk
of the default group takes the metadata of each type of the hierarchy in turn, and the metadata of a
superclass has the private getters of that superclass. So they are checked on instances of all classes
below it (`superclass_getter_is_checked`). All else that is checked is inherited
(`validate_checks_inherited`).
-/

namespace ObjectValidation

open Run

namespace Call

variable {c : Call} {type host : TypeName} {m m' : Metadata}

/-- A class of a hierarchy brings its own hierarchy along. -/
theorem hierarchy_subset_of_class (hlists : c.registry.ListsInterfaces) (hm : c.Assembles type m)
    (hhost : host ∈ m.hierarchy) (hm' : c.Assembles host m') {d : TypeDefinition}
    (hd : c.registry.get? host = some d) (hclass : d.isInterface = false) :
    m'.hierarchy ⊆ m.hierarchy := by
  obtain ⟨rfl, own, definitions, elements, hs⟩ := Metadata.sources hm
  obtain ⟨d₀, classes, rest, hd₀, hclasses, -, hmem⟩ := Registry.hierarchy_ok hs.hierarchy_eq
  have hin := mem_classes_of_mem_hierarchy hlists hm hd₀ hclasses hhost hd hclass
  obtain ⟨before, after, hafter⟩ := List.append_of_mem hin
  have hbehind := hclasses.behind hd₀ hafter hd
  intro x hx
  obtain ⟨class_, hmem', hleads⟩ := (mem_hierarchy hm' hd hbehind x).1 hx
  exact (hmem x).2 ⟨class_, hafter ▸ List.mem_append_right _ hmem', hleads⟩

/-- What is demanded along a hierarchy is declared in it. -/
theorem declaredBy_mem_hierarchy (hlists : c.registry.ListsInterfaces) (hm : c.Assembles type m)
    {b : BoundConstraint} (hb : b ∈ c.demandedFrom [] m.hierarchy) : b.declaredBy ∈ m.hierarchy := by
  obtain ⟨before, host, above, m', htypes, -, hm', hhosted, -⟩ := host_of_mem_demandedFrom hb
  have hhost : host ∈ m.hierarchy := by simp [htypes]
  cases hr : m'.redefinesDefault with
  | true =>
    obtain ⟨rfl, own, definitions, elements, hs⟩ := Metadata.sources hm'
    have hclass := Metadata.class_of_redefinesDefault hm' hr hs.own_eq
    exact hierarchy_subset_of_class hlists hm hhost hm' hs.own_eq hclass
      (Metadata.occurrence_of_mem hm' (m'.hosted_subset hhosted)).1
  | false =>
    have hdirect : b ∈ m'.directConstraints := by simpa [Metadata.hosted, hr] using hhosted
    exact mem_hierarchy_of_leadsTo hm hhost
      ((mem_directTypes hm' _).1 (by simpa using (List.mem_filter.1 hdirect).2))

/-- What is demanded of a subject it has in its own metadata just if it is declared in its hierarchy, on
no private getter but one of the subject's own type. -/
theorem demanded_is_own_iff {s : Subject} (hs : c.Assembles type s.metadata) {group : TypeName}
    {b : BoundConstraint} (hb : b ∈ c.demanded s group) :
    ∃ (d : Declaration) (isPrivate : Bool), c.registry.declaration? b = some d ∧
      d.declaredBy = b.declaredBy ∧ c.registry.declares? d = some (isPrivate, b.toOccurrence) ∧
      ((∃ b' ∈ s.metadata.constraints,
          c.registry.declaration? b' = some d ∧ b'.toOccurrence = b.toOccurrence) ↔
        b.declaredBy ∈ s.metadata.hierarchy ∧ (isPrivate → b.declaredBy = type)) := by
  obtain ⟨host, m, hm, hmem⟩ := exists_mem_of_mem_demanded hs hb
  obtain ⟨d, hd⟩ := Metadata.exists_declaration hm hmem
  obtain ⟨hdeclares, isPrivate, hplace, -⟩ := Metadata.declaration_of_mem hm hmem hd
  refine ⟨d, isPrivate, hd, hdeclares, hplace, ?_⟩
  rw [Metadata.exists_mem_iff_declares hs, hdeclares, hplace]
  simp

end Call

namespace Validator

open Call

variable {v : Validator}

/-- All that a validation does, also one that fails, is told of by its walks. -/
theorem traced_of_mem_journal (hv : v.Coherent) {root : ObjectId} {gs : List TypeName} {e : Event}
    (he : e ∈ (v.validate root gs).journal) :
    (v.callOn root).Traced (v.validate root gs).journal e := by
  obtain ⟨q, hexec, hjournal⟩ := v.exec_validate root gs
  have hends := noted_validate (c := v.callOn root) root gs (startOf v.memory root)
    ⟨⟨by simp [startOf], by simp [startOf, marksOf]⟩, hv, by simp [startOf, marksOf]⟩
  have htidy : (v.callOn root).Tidy q := by
    rw [hexec] at hends
    revert hends
    cases (v.validate root gs).answer with
    | error e => exact id
    | ok vs => exact fun hq => hq.1.toTidy
  rw [← hjournal] at he ⊢
  exact htidy.traced e he

/-- Whatever is checked on an object is in the metadata of its own type, as the same declaration, unless
it stands on a private getter of another type. If types list no classes as interfaces, this is the one
exception; and only walks of the default group come to it. -/
theorem validate_checks_inherited (hv : v.Coherent) (root : ObjectId) (gs : List TypeName)
    {x : ObjectId} {path : Path} {b : BoundConstraint} {group : TypeName} {value : Value}
    (h : .checked (some x) path b group value ∈ (v.validate root gs).journal) :
    ∃ (m : Metadata) (d : Declaration) (isPrivate : Bool),
      (v.callOn root).Assembles (v.store.typeOf x) m ∧ v.registry.declaration? b = some d ∧
      d.declaredBy = b.declaredBy ∧ v.registry.declares? d = some (isPrivate, b.toOccurrence) ∧
      ((∃ b' ∈ m.constraints,
          v.registry.declaration? b' = some d ∧ b'.toOccurrence = b.toOccurrence) ↔
        b.declaredBy ∈ m.hierarchy ∧ (isPrivate → b.declaredBy = v.store.typeOf x)) ∧
      (v.registry.ListsInterfaces → b.declaredBy ∈ m.hierarchy) ∧
      (b ∈ m.constraints ∨
        ∃ path, .began (some x) path TypeName.defaultGroup ∈ (v.validate root gs).journal) := by
  obtain ⟨s, walked, hs, hobject, hbegan, -, hb, -, -⟩ := traced_of_mem_journal hv h
  obtain ⟨y, hy, hm⟩ := hs.object
  obtain rfl : y = x := Option.some.inj (hy.symm.trans hobject)
  obtain ⟨d, isPrivate, hd, hdeclares, hplace, howns⟩ := demanded_is_own_iff hm hb
  refine ⟨s.metadata, d, isPrivate, hm, hd, hdeclares, hplace, howns, fun hlists => ?_, ?_⟩
  · unfold demanded at hb
    split at hb
    · exact declaredBy_mem_hierarchy hlists hm hb
    · exact (Metadata.occurrence_of_mem hm hb).1
  · unfold demanded at hb
    split at hb
    · next hwalked =>
      obtain rfl : walked = TypeName.defaultGroup := by simpa [TypeName.isDefault] using hwalked
      exact .inr ⟨s.path, hbegan⟩
    · exact .inl hb

/-- An object of a class whose superclass demands one thing of a field and another of a private
getter. -/
def secretive : Validator where
  registry := [
    { name := ⟨"Super"⟩, kind := .concrete,
      fields := [⟨"name", { own := { constraints := [{ kind := "NotBlank" }] } }⟩],
      methods := [{ demandingGetter ⟨"Super"⟩ "getCode" [TypeName.defaultGroup] with
        isPrivate := true }] },
    { name := ⟨"Sub"⟩, kind := .concrete, superclass := some ⟨"Super"⟩ : TypeDefinition }
    ].foldl Registry.register .initial
  evaluators := Standard.evaluators
  config := {}
  store := ⟨[(⟨"s"⟩, ⟨⟨"Sub"⟩, [("name", .str "Ada")]⟩)]⟩
  memory := {}

/-- The check of a property of the object that the superclass declares. -/
def secretive.checks (property : String) : Event → Bool
  | .checked (some object) _ b _ _ =>
    object = ⟨"s"⟩ && b.declaredBy = ⟨"Super"⟩ && b.location = .property property
  | _ => false

theorem secretive.of_checks {property : String} {e : Event} (h : secretive.checks property e) :
    ∃ path b group value, e = .checked (some ⟨"s"⟩) path b group value ∧ b.declaredBy = ⟨"Super"⟩ ∧
      b.location = .property property := by
  unfold secretive.checks at h
  split at h
  · next object path b group value =>
    simp only [Bool.and_eq_true, decide_eq_true_eq] at h
    obtain ⟨⟨rfl, hdeclares⟩, hlocation⟩ := h
    exact ⟨path, b, group, value, rfl, hdeclares, hlocation⟩
  · cases h

/-- What is demanded of the field is checked, and the class of the object has it in its metadata. -/
theorem validate_checks_inherited_field :
    ∃ (path : Path) (b : BoundConstraint) (group : TypeName) (value : Value) (m : Metadata),
      .checked (some ⟨"s"⟩) path b group value ∈ (secretive.validate ⟨"s"⟩ []).journal ∧
      (secretive.callOn ⟨"s"⟩).Assembles ⟨"Sub"⟩ m ∧ b.location = .property "name" ∧
      ∃ b' ∈ m.constraints, b'.toOccurrence = b.toOccurrence := by
  have hany : (secretive.validate ⟨"s"⟩ []).journal.any (secretive.checks "name") := by decide +kernel
  obtain ⟨e, he, hchecks⟩ := List.any_eq_true.1 hany
  obtain ⟨path, b, group, value, rfl, hdeclares, hlocation⟩ := secretive.of_checks hchecks
  obtain ⟨m, d, isPrivate, hm, -, -, hplace, howns, hin, -⟩ :=
    validate_checks_inherited (v := secretive) (MetadataCache.coherent_nil _ _) ⟨"s"⟩ [] he
  have hpublic : ∀ definition ∈ secretive.registry.definitions,
      ∀ x ∈ Assembly.declarationsOf definition, x.2.location = .property "name" → x.1 = false := by
    decide +kernel
  obtain ⟨definition, hget, hplace⟩ := Option.bind_eq_some_iff.1 hplace
  have hprivate : isPrivate = false :=
    hpublic definition (Registry.mem_of_get? hget) _ (List.mem_of_getElem? hplace) hlocation
  obtain ⟨b', hb', -, ho⟩ := howns.2 ⟨hin (by decide +kernel), by simp [hprivate]⟩
  exact ⟨path, b, group, value, m, he, hm, hlocation, b', hb', ho⟩

/-- The private getter is checked on the object, of whose class the metadata has nothing for it. -/
theorem superclass_getter_is_checked :
    (∃ (path : Path) (b : BoundConstraint) (group : TypeName) (value : Value),
      .checked (some ⟨"s"⟩) path b group value ∈ (secretive.validate ⟨"s"⟩ []).journal ∧
      b.declaredBy = ⟨"Super"⟩ ∧ b.location = .property "code") ∧
    ∃ m, (secretive.callOn ⟨"s"⟩).Assembles (secretive.store.typeOf ⟨"s"⟩) m ∧
      ∀ b ∈ m.constraints, b.location ≠ .property "code" := by
  have hany : (secretive.validate ⟨"s"⟩ []).journal.any (secretive.checks "code") := by decide +kernel
  obtain ⟨e, he, hchecks⟩ := List.any_eq_true.1 hany
  obtain ⟨path, b, group, value, rfl, hb⟩ := secretive.of_checks hchecks
  have hmeta : ∃ m ∈ (Metadata.assemble secretive.registry secretive.config.methodRules
      ⟨"Sub"⟩).toOption, ∀ b ∈ m.constraints, b.location ≠ .property "code" := by decide +kernel
  obtain ⟨m, hm, hnone⟩ := hmeta
  exact ⟨⟨path, b, group, value, he, hb⟩, m, toOption_eq_some hm, hnone⟩

end Validator

end ObjectValidation
