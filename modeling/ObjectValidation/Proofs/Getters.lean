import ObjectValidation.Proofs.Merging
import ObjectValidation.Type.Draft
/-!
# Getters and their properties

A getter is named for a property: `get` and the name with a capital in front. What it reads is found by
going back: the rest of its name with a small letter in front, unless it begins with two capitals. For
names of ASCII letters and digits that begin with a small letter the way back leads to the property just
if no capital stands second in its name, and then the getter and a field of that name make one property
(`Metadata.getter_joins_field_iff`). Of a name like `xCoordinate` the getter makes a property of its own.
-/

namespace ObjectValidation

/-! ### Letters -/

namespace Text

/-- What is so of the 128 characters of ASCII is so of each character among them. -/
theorem of_ascii {P : Char → Prop} (h : ∀ n : Fin 128, P (Char.ofNat n)) {c : Char}
    (hc : c.toNat < 128) : P c := by
  have hP := h ⟨c.toNat, hc⟩
  rwa [Char.ofNat_toNat] at hP

theorem toNat_lt_of_isAlphanum {c : Char} (h : c.isAlphanum) : c.toNat < 128 := by
  -- Capitals and digits stand before the small letters.
  have hval : c.val ≤ 'z'.val := by
    have h : (c.isUpper || c.isLower || c.isDigit) = true := h
    simp only [Bool.or_eq_true] at h
    rcases h with (hupper | hlower) | hdigit
    · exact UInt32.le_trans (of_decide_eq_true hupper).2 (by decide)
    · exact of_decide_eq_true (Bool.and_eq_true_iff.1 hlower).2
    · exact UInt32.le_trans (of_decide_eq_true (Bool.and_eq_true_iff.1 hdigit).2) (by decide)
  exact Nat.lt_of_le_of_lt (UInt32.le_iff_toNat_le.1 hval) (by decide)

theorem isAlphanum_of_isLower {c : Char} (h : c.isLower) : c.isAlphanum :=
  show (c.isUpper || c.isLower || c.isDigit) = true by simp [h]

theorem isUpper_of_isAlphanum {c : Char} (h : c.isAlphanum) : isUpper c = c.isUpper :=
  of_ascii (P := fun c => c.isAlphanum → isUpper c = c.isUpper) (by decide +kernel)
    (toNat_lt_of_isAlphanum h) h

/-- A small letter has one capital, which leads back to it. -/
theorem case_of_isLower {c : Char} (h : c.isLower) :
    upper c = [c.toUpper] ∧ lower c.toUpper = [c] ∧ isUpper c.toUpper ∧ c.toUpper ≠ c :=
  of_ascii (P := fun c => c.isLower →
      upper c = [c.toUpper] ∧ lower c.toUpper = [c] ∧ isUpper c.toUpper ∧ c.toUpper ≠ c)
    (by decide +kernel) (toNat_lt_of_isAlphanum (isAlphanum_of_isLower h)) h

end Text

/-! ### Names of getters -/

namespace Property

/-- Whether a name is made of ASCII letters and digits and begins with a small letter. -/
def IsPlain (name : String) : Prop :=
  ∃ first rest, name.toList = first :: rest ∧ first.isLower ∧ ∀ c ∈ rest, c.isAlphanum

/-- Whether a capital stands second in a name. -/
def hasSecondCapital (name : String) : Bool := name.toList[1]?.any Char.isUpper

/-- The name with a capital in front. -/
def capitalized (name : String) : String := String.ofList (name.toList.modifyHead Char.toUpper)

/-- The property that a getter reads which is built for a property of a plain name. -/
def exposed (name : String) : String := if hasSecondCapital name then capitalized name else name

variable {name : String}

theorem toList_capitalized {first : Char} {rest : List Char} (h : name.toList = first :: rest) :
    (capitalized name).toList = first.toUpper :: rest := by
  simp [capitalized, h]

theorem exposed_eq_iff (h : IsPlain name) : exposed name = name ↔ hasSecondCapital name = false := by
  obtain ⟨first, rest, hname, hfirst, -⟩ := h
  have hne : capitalized name ≠ name := by
    rw [ne_eq, ← String.toList_inj, toList_capitalized hname, hname, List.cons.injEq]
    exact fun heq => (Text.case_of_isLower hfirst).2.2.2 heq.1
  unfold exposed
  cases hasSecondCapital name <;> simp [hne]

theorem getterName_of_isPlain (h : IsPlain name) : getterName name = "get" ++ capitalized name := by
  obtain ⟨first, rest, hname, hfirst, -⟩ := h
  simp [getterName, capitalized, hname, (Text.case_of_isLower hfirst).1]

theorem after?_append (start rest : List Char) : after? start (start ++ rest) = some rest := by
  simp [after?]

theorem truthStem?_get (stem : String) (returnType : Option TypeName) :
    truthStem? ("get" ++ stem) returnType = none := by
  simp [truthStem?, after?]

theorem ofStem_capitalized (h : IsPlain name) :
    ofStem (capitalized name).toList = some (exposed name) := by
  obtain ⟨first, rest, hname, hfirst, hrest⟩ := h
  obtain ⟨-, hlower, hupper, -⟩ := Text.case_of_isLower hfirst
  have hcapitalized := toList_capitalized hname
  have hsecond : hasSecondCapital name = rest.head?.any Text.isUpper := by
    cases rest with
    | nil => simp [hasSecondCapital, hname]
    | cons second rest =>
      simp [hasSecondCapital, hname, Text.isUpper_of_isAlphanum (hrest second (by simp))]
  rw [hcapitalized, ofStem, hupper, hlower, exposed, hsecond, Bool.true_and]
  split
  · rw [← hcapitalized, String.ofList_toList]
  · rw [List.singleton_append, ← hname, String.ofList_toList]

end Property

namespace ExecutableDraft

/-- A method with a name is defined as what it is drafted as. -/
theorem define_method {d : ExecutableDraft} (hmethod : d.isConstructor = false) (hname : d.name ≠ "")
    (owner : TypeName) : ∃ e, d.define owner = .ok e ∧ e.kind = d.kind ∧ e.name = d.name ∧
      e.returnType = d.returnType ∧ e.returnValue = d.returnValue.located owner d.returnSite ∧
      e.isStatic = d.isStatic ∧ e.isPrivate = d.isPrivate := by
  have hempty : d.name.isEmpty = false := by simpa using hname
  unfold define
  simp only [hmethod, hempty, Bool.false_and, Bool.and_false, Bool.not_false, Bool.false_eq_true, if_false]
  exact ⟨_, rfl, rfl, rfl, rfl, rfl, rfl, rfl⟩

variable {name : String}

/-- A getter that is built for a property of a plain name is defined as a getter. -/
theorem define_getter (h : Property.IsPlain name) (type : TypeName) (element : Element)
    (owner : TypeName) : ∃ e, (getter name type element).define owner = .ok e ∧ e.kind = .getter ∧
      e.property? = some (Property.exposed name) ∧
      e.returnValue = element.located owner (.getter e.name) ∧ e.isStatic = false ∧
      e.isPrivate = false := by
  have hgetter : (getter name type element).name = "get" ++ Property.capitalized name :=
    Property.getterName_of_isPlain h
  have hstem : Property.after? "get".toList ("get" ++ Property.capitalized name).toList =
      some (Property.capitalized name).toList := by
    rw [String.toList_append, Property.after?_append]
  have hne : Property.capitalized name ≠ "" := by
    obtain ⟨first, rest, hname, -⟩ := h
    simp [← String.toList_eq_nil_iff, Property.toList_capitalized hname]
  have hkind : (getter name type element).kind = .getter := by
    have hisGetter : Property.isGetter (getter name type element).name 0 (some type) false := by
      rw [hgetter, Property.isGetter, hstem]
      simp [hne]
    exact if_pos hisGetter
  obtain ⟨e, he, hk, hn, ht, hvalue, hstatic, hprivate⟩ :=
    define_method (d := getter name type element) rfl (by simp [hgetter]) owner
  have hsite : (getter name type element).returnSite = .getter e.name := by
    rw [returnSite, hkind, hn]
  refine ⟨e, he, hk.trans hkind, ?_, hsite ▸ hvalue, hstatic, hprivate⟩
  rw [Executable.property?, if_pos (hk.trans hkind), hn, hgetter, Property.truthStem?_get, hstem]
  exact Property.ofStem_capitalized h

end ExecutableDraft

/-! ### Properties -/

/-- Whether a property goes by a name and demands all that an element does. -/
structure PropertyMetadata.Takes (p : PropertyMetadata) (name : String) (e : Element) : Prop where
  name_eq : p.name = name
  demands : ∀ part x, e.Demands part x → p.element.Demands part x

/-- Whether a type of the hierarchy of a type is such as is asked for. -/
def Registry.HierarchyHas (r : Registry) (type : TypeName) (P : TypeDefinition → Prop) : Prop :=
  ∃ names, r.hierarchy type = .ok names ∧ ∃ name ∈ names, ∃ t, r.get? name = some t ∧ P t

namespace Metadata

open Assembly

variable {r : Registry} {rules : List MethodRule} {type : TypeName} {m : Metadata}

/-- No two properties of a type go by one name. -/
theorem nodup_properties (h : assemble r rules type = .ok m) : (m.properties.map (·.name)).Nodup := by
  obtain ⟨-, own, definitions, elements, hs⟩ := sources h
  obtain ⟨-, -, hnodup⟩ := mergeAll_names hs.elements_eq
  have hnames := hs.properties_perm.map (·.name)
  rw [List.map_map] at hnames
  exact hnames.nodup_iff.2 (hnodup (by simp))

/-- There is a property for each declaration that a type of the hierarchy makes of one. -/
theorem exists_takes (h : assemble r rules type = .ok m) {d : PropertyDeclaration}
    (hd : r.HierarchyHas type (d ∈ propertiesOf type ·)) : ∃ p ∈ m.properties, p.Takes d.name d.element := by
  obtain ⟨names, hnames, name, hname, t, ht, hd⟩ := hd
  obtain ⟨rfl, own, definitions, elements, hs⟩ := sources h
  obtain rfl := Except.ok.inj (hs.hierarchy_eq.symm.trans hnames)
  obtain ⟨-, hadded, -⟩ := mergeAll_names hs.elements_eq
  have hmem : d ∈ definitions.flatMap (propertiesOf m.type) :=
    List.mem_flatMap.2 ⟨t, hs.mem_definitions.2 ⟨name, hname, ht⟩, hd⟩
  obtain ⟨⟨_, element⟩, helement, hd'⟩ := List.mem_map.1 (hadded d hmem)
  have hp := (hs.properties_iff _).2 ⟨_, element, helement, rfl⟩
  exact ⟨_, hp, hd', fun part x => demands_of_mem_propertiesOf h hp hname ht hd hd'.symm⟩

theorem exists_takes_field (h : assemble r rules type = .ok m) {f : Field}
    (hf : r.HierarchyHas type (f ∈ ·.fields)) : ∃ p ∈ m.properties, p.Takes f.name f.element := by
  obtain ⟨names, hnames, name, hname, t, ht, hf⟩ := hf
  have hd : (⟨f.name, f.element, t.name, t.isInterface, true⟩ : PropertyDeclaration) ∈
      propertiesOf type t := List.mem_append_left _ (List.mem_map.2 ⟨f, hf, rfl⟩)
  exact exists_takes h ⟨names, hnames, name, hname, t, ht, hd⟩

/-- A getter that is neither static nor private is there for all types below its own. -/
theorem exists_takes_getter (h : assemble r rules type = .ok m) {e : Executable}
    (he : r.HierarchyHas type (e ∈ ·.methods)) (hstatic : e.isStatic = false)
    (hprivate : e.isPrivate = false) {name : String} (hname : e.property? = some name) :
    ∃ p ∈ m.properties, p.Takes name e.returnValue := by
  obtain ⟨names, hnames, owner, howner, t, ht, he⟩ := he
  have hmember : e ∈ memberMethods type t := by simp [memberMethods, he, hstatic, hprivate]
  have hd : (⟨name, e.returnValue, t.name, t.isInterface, false⟩ : PropertyDeclaration) ∈
      propertiesOf type t :=
    List.mem_append_right _ (List.mem_filterMap.2 ⟨e, hmember, by rw [hname]; rfl⟩)
  exact exists_takes h ⟨names, hnames, owner, howner, t, ht, hd⟩

/-- A getter that is built for a property of a plain name is a getter, and it reads that property just if
no capital stands second in the name. Where a hierarchy declares it and a field of the name, there is a
property that takes the field and one that takes the getter, and they are one just if no capital stands
second. -/
theorem getter_joins_field_iff {name : String} (hname : Property.IsPlain name) (type : TypeName)
    (element : Element) (owner : TypeName) :
    (Property.exposed name = name ↔ Property.hasSecondCapital name = false) ∧
    ∃ e, (ExecutableDraft.getter name type element).define owner = .ok e ∧ e.kind = .getter ∧
      e.property? = some (Property.exposed name) ∧
      e.returnValue = element.located owner (.getter e.name) ∧
      ∀ (r : Registry) (rules : List MethodRule) (bean : TypeName) (m : Metadata),
        assemble r rules bean = .ok m → r.HierarchyHas bean (e ∈ ·.methods) →
        ∀ f, r.HierarchyHas bean (f ∈ ·.fields) → f.name = name →
        ∃ p ∈ m.properties, ∃ q ∈ m.properties, p.Takes name f.element ∧
          q.Takes (Property.exposed name) e.returnValue ∧
          (p = q ↔ Property.hasSecondCapital name = false) := by
  obtain ⟨e, he, hkind, hproperty, hvalue, hstatic, hprivate⟩ :=
    ExecutableDraft.define_getter hname type element owner
  refine ⟨Property.exposed_eq_iff hname, e, he, hkind, hproperty, hvalue, ?_⟩
  rintro r rules bean m hm hdeclares f hf rfl
  obtain ⟨p, hp, hfield⟩ := exists_takes_field hm hf
  obtain ⟨q, hq, hgetter⟩ := exists_takes_getter hm hdeclares hstatic hprivate hproperty
  refine ⟨p, hp, q, hq, hfield, hgetter, ?_⟩
  rw [← Property.exposed_eq_iff hname, ← hgetter.name_eq]
  constructor
  · rintro rfl
    exact hfield.name_eq
  · intro hnames
    exact List.inj_on_of_nodup_map (nodup_properties hm) hp hq (hfield.name_eq.trans hnames.symm)

/-- A point with a field and a getter for each of two properties. -/
def point : TypeDefinition where
  name := ⟨"Point"⟩
  kind := .concrete
  fields := ["label", "xCoordinate"].map fun name =>
    ⟨name, { own := { constraints := [{ kind := "NotNull" }] } }⟩
  methods := ["label", "xCoordinate"].filterMap fun name =>
    ((ExecutableDraft.getter name ⟨"string"⟩ { own := { constraints := [{ kind := "NotEmpty" }] } }).define
      ⟨"Point"⟩).toOption

def plane : Registry := Registry.initial.register point

/-- The getter built for the coordinate reads another property than the field, so a point has three
properties for two names. -/
theorem coordinate_is_apart :
    Property.IsPlain "xCoordinate" ∧
    ((ExecutableDraft.getter "xCoordinate" ⟨"string"⟩ {}).define ⟨"Point"⟩).toOption.bind (·.property?) =
      some "XCoordinate" ∧
    (assemble plane (MethodRule.active {}) ⟨"Point"⟩).toOption.map (·.properties.map (·.name)) =
      some ["XCoordinate", "label", "xCoordinate"] := by
  refine ⟨⟨'x', "Coordinate".toList, rfl, rfl, List.all_eq_true.1 (by decide)⟩, ?_, ?_⟩ <;> decide +kernel

theorem plane_has {P : TypeDefinition → Prop} (h : P point) : plane.HierarchyHas ⟨"Point"⟩ P :=
  ⟨[⟨"Point"⟩], toOption_eq_some (by decide +kernel), ⟨"Point"⟩, by simp, point, rfl, h⟩

/-- The field and the getter of the label are one property. -/
theorem getter_joins_field_label :
    ∃ m, assemble plane (MethodRule.active {}) ⟨"Point"⟩ = .ok m ∧ ∃ p ∈ m.properties, p.name = "label" ∧
      p.element.Demands none (.constraint { kind := "NotNull" }) ∧
      p.element.Demands none (.constraint { kind := "NotEmpty" }) := by
  let m := (assemble plane (MethodRule.active {}) ⟨"Point"⟩).toOption.get (by decide +kernel)
  have hm : assemble plane (MethodRule.active {}) ⟨"Point"⟩ = .ok m :=
    toOption_eq_some (Option.some_get _).symm
  have hplain : Property.IsPlain "label" := ⟨'l', "abel".toList, rfl, rfl, List.all_eq_true.1 (by decide)⟩
  obtain ⟨-, e, he, -, -, hvalue, hjoins⟩ := getter_joins_field_iff hplain ⟨"string"⟩
    { own := { constraints := [{ kind := "NotEmpty" }] } } ⟨"Point"⟩
  have hmethod : e ∈ point.methods :=
    List.mem_filterMap.2 ⟨"label", by simp, by rw [he]; rfl⟩
  obtain ⟨p, hp, q, hq, hfield, hgetter, hsame⟩ := hjoins plane (MethodRule.active {}) ⟨"Point"⟩ m hm
    (plane_has hmethod) ⟨"label", { own := { constraints := [{ kind := "NotNull" }] } }⟩
    (plane_has (by simp [point])) rfl
  obtain rfl := hsame.2 (by decide)
  refine ⟨m, hm, p, hp, hfield.name_eq, hfield.demands none _ ?_, hgetter.demands none _ ?_⟩
  · exact Element.demands_constraint_iff.2 ⟨_, List.mem_singleton_self _, by decide⟩
  · rw [hvalue]
    exact Element.demands_constraint_iff.2 ⟨_, List.mem_singleton_self _, rfl⟩

end Metadata

end ObjectValidation
