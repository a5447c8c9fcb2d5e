import ObjectValidation.Proofs.Demands
import ObjectValidation.Proofs.References
/-!
# What registries convert and redefine

The conversions of a reference are some of those that the registry has
(`convertsBy_of_mem_references`): the properties that the types of a hierarchy make together convert no
other groups than the declarations do. If no type converts groups, every reference of an object keeps
the group (`keepsGroups_of_withoutConversions`). If no class redefines the default group, the default
group of every object stands for itself (`ordinary_of_withoutRedefinitions`).
-/

namespace ObjectValidation

/-- Whether neither the element nor what it contains converts groups. -/
def Element.Unconverted (e : Element) : Prop :=
  e.own.conversions = [] ∧ ∀ x ∈ e.containers, x.2.conversions = []

instance (e : Element) : Decidable e.Unconverted := inferInstanceAs (Decidable (_ ∧ _))

/-- Whether no property of a type converts groups. -/
def Registry.WithoutConversions (r : Registry) : Prop :=
  ∀ d ∈ r.definitions,
    (∀ f ∈ d.fields, f.element.Unconverted) ∧ ∀ m ∈ d.methods, m.returnValue.Unconverted

instance (r : Registry) : Decidable r.WithoutConversions :=
  inferInstanceAs (Decidable (∀ d ∈ r.definitions, _))

/-- Whether no class redefines the default group. -/
def Registry.WithoutRedefinitions (r : Registry) : Prop :=
  ∀ d ∈ r.definitions, d.isInterface = false → d.sequence = none ∧ d.provider = none

instance (r : Registry) : Decidable r.WithoutRedefinitions :=
  inferInstanceAs (Decidable (∀ d ∈ r.definitions, _))

/-- Whether all conversions of the element, and of what it contains, have `P`. -/
def Element.ConvertsBy (P : Conversion → Prop) (e : Element) : Prop :=
  (∀ x ∈ e.own.conversions, P x) ∧ ∀ y ∈ e.containers, ∀ x ∈ y.2.conversions, P x

instance (P : Conversion → Prop) [DecidablePred P] (e : Element) : Decidable (e.ConvertsBy P) :=
  inferInstanceAs (Decidable (_ ∧ _))

/-- Whether all conversions of the properties of a type have `P`. -/
def Registry.ConvertsBy (P : Conversion → Prop) (r : Registry) : Prop :=
  ∀ d ∈ r.definitions,
    (∀ f ∈ d.fields, f.element.ConvertsBy P) ∧ ∀ m ∈ d.methods, m.returnValue.ConvertsBy P

instance (P : Conversion → Prop) [DecidablePred P] (r : Registry) : Decidable (r.ConvertsBy P) :=
  inferInstanceAs (Decidable (∀ d ∈ r.definitions, _))

variable {P : Conversion → Prop}

namespace Facet

theorem convertsBy_merge {f g : Facet} (hf : ∀ x ∈ f.conversions, P x)
    (hg : ∀ x ∈ g.conversions, P x) : ∀ x ∈ (f.merge g).conversions, P x :=
  fun x hx => (mem_addConversions.1 hx).elim (hf x) (hg x)

/-- A group goes on as it is or as one of the conversions has it. -/
theorem converted_cases (f : Facet) (group : TypeName) :
    f.converted group = group ∨ ∃ x ∈ f.conversions, f.converted group = x.target := by
  unfold converted convert
  cases h : f.conversions.find? (·.source = group) with
  | none => exact .inl rfl
  | some x => exact .inr ⟨x, List.mem_of_find?_eq_some h, rfl⟩

end Facet

namespace Element

theorem unconverted_iff {e : Element} : e.Unconverted ↔ e.ConvertsBy fun _ => False := by
  simp [Unconverted, ConvertsBy, List.eq_nil_iff_forall_not_mem]

theorem ConvertsBy.union {e d : Element} (he : e.ConvertsBy P) (hd : d.ConvertsBy P) :
    (e.union d).ConvertsBy P :=
  Each.union (P := fun f => ∀ x ∈ f.conversions, P x) Facet.convertsBy_merge he hd

/-- The references of an element convert groups as the element does. -/
theorem ConvertsBy.references {e : Element} (h : e.ConvertsBy P) {name : String} {value : Value} :
    ∀ r ∈ e.references name value, ∀ x ∈ r.facet.conversions, P x := by
  intro r hr
  unfold Element.references at hr
  rcases List.mem_append.1 hr with hr | hr
  · split at hr
    · obtain ⟨x, -, rfl⟩ := List.mem_map.1 hr
      exact h.1
    · simp at hr
  · obtain ⟨x, hx, hr⟩ := List.mem_flatMap.1 hr
    obtain ⟨y, -, rfl⟩ := List.mem_map.1 hr
    exact h.2 x (List.mem_filter.1 hx).1

end Element

theorem Registry.withoutConversions_iff {r : Registry} :
    r.WithoutConversions ↔ r.ConvertsBy fun _ => False := by
  simp [WithoutConversions, ConvertsBy, Element.unconverted_iff]

namespace Assembly

variable {r : Registry}

theorem convertsBy_of_mem_propertiesOf (h : r.ConvertsBy P) {type : TypeName}
    {d : TypeDefinition} (hd : d ∈ r.definitions) {p : PropertyDeclaration}
    (hp : p ∈ propertiesOf type d) : p.element.ConvertsBy P := by
  unfold propertiesOf at hp
  rcases List.mem_append.1 hp with hp | hp
  · obtain ⟨f, hf, rfl⟩ := List.mem_map.1 hp
    exact (h d hd).1 f hf
  · obtain ⟨m, hm, hp⟩ := List.mem_filterMap.1 hp
    obtain ⟨name, -, rfl⟩ := Option.map_eq_some_iff.1 hp
    exact (h d hd).2 m (List.mem_filter.1 hm).1

theorem convertsBy_mergeProperty {merged merged' : List (String × Element)}
    {p : PropertyDeclaration} (h : mergeProperty r merged p = .ok merged')
    (hp : p.element.ConvertsBy P) (hmerged : ∀ x ∈ merged, x.2.ConvertsBy P) :
    ∀ x ∈ merged', x.2.ConvertsBy P := by
  rcases mergeProperty_ok h with ⟨-, rfl⟩ | ⟨e, he, rfl⟩
  · intro x hx
    rcases List.mem_append.1 hx with hx | hx
    · exact hmerged x hx
    · rw [List.mem_singleton.1 hx]
      exact hp
  · intro x hx
    obtain ⟨y, hy, rfl⟩ := List.mem_map.1 hx
    split
    · exact (hmerged _ (mem_of_lookup he)).union hp
    · exact hmerged y hy

end Assembly

theorem Metadata.Sources.convertsBy {r : Registry} {m : Metadata} {own : TypeDefinition}
    {definitions : List TypeDefinition} {elements : List (String × Element)}
    (hs : m.Sources r own definitions elements) (h : r.ConvertsBy P) :
    ∀ p ∈ m.properties, p.element.ConvertsBy P := by
  have helements : ∀ x ∈ elements, x.2.ConvertsBy P := by
    refine foldlM_keeps (I := fun merged => ∀ x ∈ merged, x.2.ConvertsBy P) (fun merged p merged' hp
      hI hm => Assembly.convertsBy_mergeProperty hm ?_ hI) hs.elements_eq (by simp)
    obtain ⟨d, hd, hp⟩ := List.mem_flatMap.1 hp
    obtain ⟨name, -, hget⟩ := hs.mem_definitions.1 hd
    exact Assembly.convertsBy_of_mem_propertiesOf h (Registry.mem_of_get? hget) hp
  intro p hp
  obtain ⟨name, element, hmem, rfl⟩ := (hs.properties_iff p).1 hp
  exact helements _ hmem

namespace Call

/-- References convert groups as the registry does. -/
theorem convertsBy_of_mem_references {c : Call} (h : c.registry.ConvertsBy P) {x : ObjectId}
    {r : Reference} (hr : r ∈ c.references x) : ∀ y ∈ r.facet.conversions, P y := by
  unfold references at hr
  split at hr
  · next m hm =>
    obtain ⟨-, own, definitions, elements, hs⟩ := Metadata.sources hm
    obtain ⟨name, -, hr⟩ := List.mem_flatMap.1 hr
    split at hr
    · simp at hr
    · next p hp => exact (hs.convertsBy h p (List.mem_of_find?_eq_some hp)).references r hr
  · simp at hr

/-- Where no type converts groups, no reference does. -/
theorem keepsGroups_of_withoutConversions {c : Call} (h : c.registry.WithoutConversions)
    {x : ObjectId} {r : Reference} (hr : r ∈ c.references x) : r.KeepsGroups :=
  Reference.keepsGroups_of_nil <| List.eq_nil_iff_forall_not_mem.2 <|
    convertsBy_of_mem_references (Registry.withoutConversions_iff.1 h) hr

/-- Where no class redefines the default group, no type of a hierarchy does. -/
theorem ordinary_of_withoutRedefinitions {c : Call} (h : c.registry.WithoutRedefinitions)
    (types : List TypeName) : c.Ordinary types := by
  intro type _ m hm
  obtain ⟨-, own, definitions, elements, hs⟩ := Metadata.sources hm
  have hdefault := hs.default_eq
  have hown := h own (Registry.mem_of_get? hs.own_eq)
  unfold Assembly.defaultSequence at hdefault
  split at hdefault
  · cases hdefault' : m.default <;> simp_all [Metadata.redefinesDefault]
  · next hinterface =>
    obtain ⟨hsequence, hprovider⟩ := hown (by simpa using hinterface)
    rw [hsequence, hprovider] at hdefault
    cases hdefault' : m.default <;> simp_all [Metadata.redefinesDefault]

end Call

end ObjectValidation
