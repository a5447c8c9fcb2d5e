import ObjectValidation.Proofs.Supertypes
/-!
# What a type can be assigned to

A type can be assigned to what its classes lead to through interfaces (`isAssignable_eq`), and all of
that is above it. The converse fails where an interface list names a class: what that class extends is
above the type, but no way through interfaces comes to it. If the hierarchy has the superclass of each
of its types, there is no such class, and only then is assignability the order of the types
(`isAssignable_iff_lists`).
-/

namespace ObjectValidation

namespace Registry

open Relation

variable {r : Registry}

/-- The superclass of a type. -/
def superclass? (r : Registry) (name : TypeName) : Option TypeName :=
  (r.get? name).bind (·.superclass)

/-- Whether a type is the superclass of another one. -/
def Extends (r : Registry) (above name : TypeName) : Prop := r.superclass? name = some above

/-- Whether types have among them the superclass of each of them. -/
def HasSuperclasses (r : Registry) (names : List TypeName) : Prop :=
  ∀ name ∈ names, ∀ above ∈ r.superclass? name, above ∈ names

instance (r : Registry) (names : List TypeName) : Decidable (r.HasSuperclasses names) :=
  inferInstanceAs (Decidable (∀ name ∈ names, ∀ above ∈ r.superclass? name, above ∈ names))

theorem Extends.lists {above name : TypeName} (h : r.Extends above name) : r.Lists above name := by
  obtain ⟨d, hd, hsuperclass⟩ := Option.bind_eq_some_iff.1 h
  exact ⟨d, hd, List.mem_append_left _ (by simp [hsuperclass])⟩

/-- The superclasses in order are those that are reached by going from superclass to superclass. -/
theorem Ascends.mem_iff : ∀ {above : List TypeName} {name : TypeName} {d : TypeDefinition},
    r.get? name = some d → r.Ascends d above → ∀ x, x ∈ name :: above ↔ ReflTransGen r.Extends x name
  | [], name, d, hd, hs, x => by
    have hnone : ∀ y, ¬ r.Extends y name := by
      have hs : d.superclass = none := hs
      simp [Extends, superclass?, hd, hs]
    rw [List.mem_singleton, ReflTransGen.cases_tail_iff]
    simp [hnone, eq_comm]
  | superclass :: above, name, d, hd, ⟨hs, e, he, hascends⟩, x => by
    have hone : ∀ y, r.Extends y name ↔ y = superclass := by
      simp [Extends, superclass?, hd, hs, eq_comm]
    rw [List.mem_cons, hascends.mem_iff he x, ReflTransGen.cases_tail_iff r.Extends x name]
    simp [hone, eq_comm]

/-- A hierarchy has what is reached by going from superclass to superclass first and through interfaces
then. -/
theorem mem_hierarchy_iff {name : TypeName} {names : List TypeName} (h : r.hierarchy name = .ok names)
    (x : TypeName) :
    x ∈ names ↔ ∃ class_, ReflTransGen r.Extends class_ name ∧ r.LeadsTo class_ x := by
  obtain ⟨d, above, rest, hd, hascends, -, hmem⟩ := hierarchy_ok h
  simp only [hmem, hascends.mem_iff hd]

theorem lists_of_mem_hierarchy {name x : TypeName} {names : List TypeName}
    (h : r.hierarchy name = .ok names) (hx : x ∈ names) : ReflTransGen r.Lists x name := by
  obtain ⟨class_, hclass, hleads⟩ := (mem_hierarchy_iff h x).1 hx
  exact hleads.reflTransGen.trans (hclass.lift id fun _ _ => Extends.lists)

/-- Where the hierarchy of a type can be found, it decides what the type can be assigned to. -/
theorem isAssignable_eq {sub : TypeName} {names : List TypeName} (h : r.hierarchy sub = .ok names)
    (sup : TypeName) : r.isAssignable sup sub = .ok (decide (sup ∈ names)) := by
  unfold isAssignable
  split
  · next heq =>
    have hmem : sup ∈ names := (mem_hierarchy_iff h sup).2 ⟨sub, .refl, heq ▸ .refl⟩
    simp [hmem, pure, Except.pure]
  · rw [h]
    simp [bind, Except.bind, pure, Except.pure]

theorem isAssignable_iff_mem {sub sup : TypeName} {names : List TypeName}
    (h : r.hierarchy sub = .ok names) : r.isAssignable sup sub = .ok true ↔ sup ∈ names := by
  simp [isAssignable_eq h]

theorem lists_of_isAssignable {sub sup : TypeName} (h : r.isAssignable sup sub = .ok true) :
    ReflTransGen r.Lists sup sub := by
  by_cases heq : sub = sup
  · exact heq ▸ .refl
  · exact ((isAssignable_eq_true heq).1 h).transGen.to_reflTransGen

/-- All that is above a type is in its hierarchy just if the hierarchy has the superclass of each of its
types. -/
theorem hasSuperclasses_iff {name : TypeName} {names : List TypeName}
    (h : r.hierarchy name = .ok names) :
    r.HasSuperclasses names ↔ ∀ x, ReflTransGen r.Lists x name → x ∈ names := by
  constructor
  · intro hsuperclasses x hx
    induction hx using ReflTransGen.head_induction_on with
    | refl => exact (mem_hierarchy_iff h name).2 ⟨name, .refl, .refl⟩
    | @head above below hlists _ ih =>
      obtain ⟨d, hd, habove⟩ := hlists
      rcases List.mem_append.1 habove with hextends | hinterface
      · refine hsuperclasses below ih above ?_
        simpa [superclass?, hd] using hextends
      · obtain ⟨class_, hclass, hleads⟩ := (mem_hierarchy_iff h below).1 ih
        exact (mem_hierarchy_iff h above).2 ⟨class_, hclass, .step hleads hd hinterface⟩
  · intro hall x hx above hextends
    exact hall above (.head (Extends.lists hextends) (lists_of_mem_hierarchy h hx))

/-- Where interface lists name no type that has a superclass, the superclasses in a hierarchy are those of
its classes. -/
theorem hasSuperclasses_of_lists (h : ∀ d ∈ r.definitions, ∀ x ∈ d.interfaces, r.superclass? x = none)
    {name : TypeName} {names : List TypeName} (hnames : r.hierarchy name = .ok names) :
    r.HasSuperclasses names := by
  intro x hx above hextends
  obtain ⟨class_, hclass, hleads⟩ := (mem_hierarchy_iff hnames x).1 hx
  cases hleads with
  | refl => exact (mem_hierarchy_iff hnames above).2 ⟨above, .head hextends hclass, .refl⟩
  | step _ hd hlisted =>
    rw [h _ (mem_of_get? hd) x hlisted] at hextends
    cases hextends

/-- What a type with a hierarchy can be assigned to is what is above it, and what that can be assigned to,
just if the hierarchy has the superclass of each of its types. No two types can be assigned to each
other. -/
theorem isAssignable_iff_lists {sub : TypeName} {names : List TypeName}
    (h : r.hierarchy sub = .ok names) :
    (∀ sup, ∃ answer, r.isAssignable sup sub = .ok answer ∧ (answer = true ↔
      ∃ class_, ReflTransGen r.Extends class_ sub ∧ r.LeadsTo class_ sup)) ∧
    ((∀ sup, r.isAssignable sup sub = .ok true ↔ ReflTransGen r.Lists sup sub) ↔
      r.HasSuperclasses names) ∧
    r.isAssignable sub sub = .ok true ∧
    (∀ sup, r.isAssignable sup sub = .ok true → r.isAssignable sub sup = .ok true → sup = sub) ∧
    ((∀ mid sup, r.isAssignable mid sub = .ok true → r.isAssignable sup mid = .ok true →
      r.isAssignable sup sub = .ok true) ↔ r.HasSuperclasses names) := by
  refine ⟨fun sup => ⟨_, isAssignable_eq h sup, ?_⟩, ?_, ?_, ?_, ?_⟩
  · rw [decide_eq_true_eq, mem_hierarchy_iff h]
  · rw [hasSuperclasses_iff h]
    refine forall_congr' fun sup => ?_
    rw [isAssignable_iff_mem h]
    exact ⟨Iff.mpr, fun hmem => ⟨lists_of_mem_hierarchy h, hmem⟩⟩
  · exact (isAssignable_iff_mem h).2 ((mem_hierarchy_iff h sub).2 ⟨sub, .refl, .refl⟩)
  · intro sup hsup hsub
    by_contra hne
    have habove := (reflTransGen_iff_eq_or_transGen.1 (lists_of_isAssignable hsup)).resolve_left
      (Ne.symm hne)
    exact (resolvable_of_hierarchy h).acyclic sub .refl
      (.trans_right (lists_of_isAssignable hsub) habove)
  · constructor
    · intro htrans x hx above hextends
      have hresolvable : r.Resolvable x :=
        (resolvable_of_hierarchy h).of_above (lists_of_mem_hierarchy h hx)
      obtain ⟨names', h'⟩ := exists_hierarchy hresolvable
      refine (isAssignable_iff_mem h).1 (htrans x above ((isAssignable_iff_mem h).2 hx) ?_)
      exact (isAssignable_iff_mem h').2 ((mem_hierarchy_iff h' above).2
        ⟨above, .single hextends, .refl⟩)
    · intro hsuperclasses mid sup hmid hsup
      refine (isAssignable_iff_mem h).2 ((hasSuperclasses_iff h).1 hsuperclasses sup ?_)
      exact (lists_of_isAssignable hsup).trans (lists_of_isAssignable hmid)

/-- A class that lists another class as an interface, and one that extends it. -/
def adopting : Registry := [
  { name := ⟨"Mark"⟩, kind := .interface },
  { name := ⟨"Top"⟩, kind := .concrete, interfaces := [⟨"Mark"⟩] },
  { name := ⟨"Mid"⟩, kind := .concrete, superclass := some ⟨"Top"⟩ },
  { name := ⟨"Sub"⟩, kind := .concrete, interfaces := [⟨"Mid"⟩] : TypeDefinition }
  ].foldl Registry.register .initial

/-- The class that extends the other one can be assigned to all that is above it. -/
theorem isAssignable_iff_lists_extending :
    adopting.hierarchy ⟨"Mid"⟩ = .ok [⟨"Mid"⟩, ⟨"Top"⟩, ⟨"Mark"⟩] ∧
      ∀ sup, adopting.isAssignable sup ⟨"Mid"⟩ = .ok true ↔
        ReflTransGen adopting.Lists sup ⟨"Mid"⟩ := by
  have h : adopting.hierarchy ⟨"Mid"⟩ = .ok [⟨"Mid"⟩, ⟨"Top"⟩, ⟨"Mark"⟩] :=
    toOption_eq_some (by decide +kernel)
  exact ⟨h, (isAssignable_iff_lists h).2.1.2 (by decide +kernel)⟩

/-- What a class extends that an interface list names is above the type, and that class can be assigned
to it, but the type cannot. -/
theorem listed_class_hides_its_superclass :
    adopting.hierarchy ⟨"Sub"⟩ = .ok [⟨"Sub"⟩, ⟨"Mid"⟩] ∧
      ReflTransGen adopting.Lists ⟨"Top"⟩ ⟨"Sub"⟩ ∧
      adopting.isAssignable ⟨"Top"⟩ ⟨"Sub"⟩ = .ok false ∧
      adopting.isAssignable ⟨"Mid"⟩ ⟨"Sub"⟩ = .ok true ∧
      adopting.isAssignable ⟨"Top"⟩ ⟨"Mid"⟩ = .ok true := by
  have hlists : adopting.Lists ⟨"Top"⟩ ⟨"Mid"⟩ :=
    Extends.lists (by decide +kernel : adopting.superclass? ⟨"Mid"⟩ = some ⟨"Top"⟩)
  have hlisted : adopting.Lists ⟨"Mid"⟩ ⟨"Sub"⟩ :=
    ⟨{ name := ⟨"Sub"⟩, kind := .concrete, interfaces := [⟨"Mid"⟩] }, rfl, by decide⟩
  exact ⟨toOption_eq_some (by decide +kernel), .head hlists (.single hlisted),
    toOption_eq_some (by decide +kernel), toOption_eq_some (by decide +kernel),
    toOption_eq_some (by decide +kernel)⟩

end Registry

end ObjectValidation
