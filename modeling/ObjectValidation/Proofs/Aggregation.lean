import ObjectValidation.Proofs.Declarations
/-!
# What metadata gathers

The metadata of a type has one constraint for each constraint that its hierarchy declares on instances,
with the place it is declared for and the type that declares it, and no others; those of its executables
have numbers of their own as well (`Metadata.aggregates`). The constraints that come first, those of the
type itself and of the interfaces it leads to, are a part of them in the same order.
-/

namespace ObjectValidation

namespace Registry

open Assembly

variable {r : Registry}

/-- The declarations of a hierarchy, numbered in order, are what its constraints are made of. -/
theorem map_declaration?_bindAll (type : TypeName) :
    (bindAll type 0 ((r.declared type).map (·.2))).map (fun b => (r.declaration? b, b.toOccurrence)) =
      (r.declared type).map fun x => (some x.1, x.2) := by
  refine List.ext_getElem (by simp [bindAll]) fun i hi hi' => ?_
  have hlt : i < (r.declared type).length := by simpa using hi'
  simp [bindAll, declaration?, List.getElem?_eq_getElem hlt]

end Registry

namespace Metadata

open Assembly

variable {r : Registry} {rules : List MethodRule} {type : TypeName} {m : Metadata}

theorem mem_directConstraints (h : assemble r rules type = .ok m) {b : BoundConstraint} :
    b ∈ m.directConstraints ↔ b ∈ m.constraints ∧ r.LeadsTo type b.declaredBy := by
  obtain ⟨rfl, own, definitions, elements, hs⟩ := sources h
  obtain ⟨direct, hdirect, htypes⟩ := hs.direct_eq
  rw [directConstraints, List.mem_filter, htypes, List.contains_iff_mem,
    Registry.mem_superInterfaces hdirect]

/-- Metadata has one constraint for each that the hierarchy declares on instances of the type, where it
is declared, and no others; the direct ones are those that the type, and the interfaces it leads to
without its superclass, declare; and no two constraints of the type and its executables have the same
number. -/
theorem aggregates (h : assemble r rules type = .ok m) :
    (m.constraints.map fun b => (r.declaration? b, b.toOccurrence)).Perm
      ((r.declared type).map fun x => (some x.1, x.2)) ∧
    (∀ b ∈ m.allConstraints, b.type = type) ∧
    m.directConstraints.Sublist m.constraints ∧
    (∀ b, b ∈ m.directConstraints ↔ b ∈ m.constraints ∧ r.LeadsTo type b.declaredBy) ∧
    (m.allConstraints.map (·.id)).Nodup := by
  obtain ⟨htypes, hids⟩ := numbered h
  refine ⟨?_, htypes, List.filter_sublist, fun b => mem_directConstraints h, List.pairwise_map.2 hids⟩
  obtain ⟨rfl, own, definitions, elements, hs⟩ := sources h
  have hperm := hs.perm_constraints.map fun b => (r.declaration? b, b.toOccurrence)
  rwa [← map_snd_declared hs, Registry.map_declaration?_bindAll] at hperm

/-- A title that a book declares and an interface that it comes to in two ways, and a code that two
classes keep each to itself. -/
def catalogued : Registry :=
  let get (owner : TypeName) (name kind : String) (isPrivate : Bool) : Executable :=
    { kind := .getter, name, declaredBy := owner, parameters := [], returnType := some ⟨"string"⟩,
      crossParameter := [], isStatic := false, isPrivate,
      returnValue := { own := { constraints := [{ kind }] } } }
  [{ name := ⟨"Titled"⟩, kind := .interface, methods := [get ⟨"Titled"⟩ "getTitle" "NotNull" false] },
    { name := ⟨"Item"⟩, kind := .concrete, interfaces := [⟨"Titled"⟩],
      constraints := [{ kind := "Complete" }], methods := [get ⟨"Item"⟩ "getCode" "NotNull" true] },
    { name := ⟨"Book"⟩, kind := .concrete, superclass := some ⟨"Item"⟩, interfaces := [⟨"Titled"⟩],
      fields := [⟨"title", {
        own := { constraints := [{ kind := "Size" }, { kind := "Size" }] }
        containers := [(.optionalValue, { constraints := [{ kind := "NotBlank" }] })] }⟩],
      methods := [get ⟨"Book"⟩ "getCode" "NotEmpty" true] : TypeDefinition }
    ].foldl Registry.register .initial

/-- A book has all but the code of the item. -/
theorem aggregates_catalogued :
    ∃ m, assemble catalogued (MethodRule.active {}) ⟨"Book"⟩ = .ok m ∧
      (m.constraints.map fun b => (b.constraint.kind, b.location, b.container, b.declaredBy)).Perm
        [("Size", .property "title", none, ⟨"Book"⟩), ("Size", .property "title", none, ⟨"Book"⟩),
          ("NotBlank", .property "title", some .optionalValue, ⟨"Book"⟩),
          ("NotEmpty", .property "code", none, ⟨"Book"⟩), ("Complete", .self, none, ⟨"Item"⟩),
          ("NotNull", .property "title", none, ⟨"Titled"⟩)] ∧
      (∀ b ∈ m.directConstraints, b.declaredBy ≠ ⟨"Item"⟩) ∧ (m.allConstraints.map (·.id)).Nodup := by
  let m := (assemble catalogued (MethodRule.active {}) ⟨"Book"⟩).toOption.get (by decide +kernel)
  have hm : assemble catalogued (MethodRule.active {}) ⟨"Book"⟩ = .ok m :=
    toOption_eq_some (Option.some_get _).symm
  obtain ⟨hperm, -, -, -, hids⟩ := aggregates hm
  have hdirect : ∀ b ∈ m.directConstraints, b.declaredBy ≠ ⟨"Item"⟩ := by decide +kernel
  refine ⟨m, hm, ?_, hdirect, hids⟩
  have hdeclared := hperm.map fun x => (x.2.constraint.kind, x.2.location, x.2.container, x.2.declaredBy)
  rw [List.map_map, List.map_map] at hdeclared
  refine hdeclared.trans (.of_eq ?_)
  decide +kernel

end Metadata

end ObjectValidation
