import ObjectValidation.Proofs.Hierarchy
/-!
# Where constraints are declared

The metadata of each type of a hierarchy has a constraint of its own for what one type declares. A
declaration tells which of them are the same: the type that declares the constraint, and its place among
all that this type declares. Within the metadata of one type no declaration comes twice
(`key_eq_of_declaration`).
-/

namespace ObjectValidation

/-- A constraint as a type declares it: the type, and the place of the constraint among all that the
type declares on its instances and their properties. -/
structure Declaration where
  declaredBy : TypeName
  place : Nat
  deriving DecidableEq, Repr

namespace Assembly

/-- All that a type declares on its instances and their properties, and whether it does so on a private
getter, which the instances of the type itself alone have. -/
def declarationsOf (d : TypeDefinition) : List (Bool × Occurrence) :=
  d.constraints.map (fun k => (false, ⟨k, .self, none, d.name, d.isInterface⟩)) ++
    d.fields.flatMap (fun f =>
      (f.element.occurrences (.property f.name) d.name d.isInterface).map (false, ·)) ++
    (d.methods.filter (!·.isStatic)).flatMap fun m =>
      (m.property?.toList.flatMap fun name =>
        m.returnValue.occurrences (.property name) d.name d.isInterface).map (m.isPrivate, ·)

/-- What a type declares on instances of `type`, with the declarations. -/
def declaredOn (type : TypeName) (d : TypeDefinition) : List (Declaration × Occurrence) :=
  ((declarationsOf d).zipIdx.filter fun x => !(x.1.1 && d.name != type)).map fun x =>
    (⟨d.name, x.2⟩, x.1.2)

theorem map_filter_zipIdx {α β : Type} (test : α → Bool) (f : α → β) (xs : List α) :
    (xs.zipIdx.filter fun x => test x.1).map (fun x => f x.1) = (xs.filter test).map f := by
  have h : (xs.zipIdx.map Prod.fst).filter test = xs.filter test := by
    rw [List.zipIdx_map_fst]
  rw [← h, List.filter_map, List.map_map]
  rfl

theorem flatMap_filter_const {α β : Type} (keep : α → Bool) (f : α → List β) (xs : List α) :
    (xs.flatMap fun x => (f x).filter fun _ => keep x) = (xs.filter keep).flatMap f := by
  induction xs with
  | nil => rfl
  | cons x xs ih => cases h : keep x <;> simp [h, ih]

theorem flatMap_filterMap {α β γ : Type} (f : α → Option β) (g : β → List γ) (xs : List α) :
    (xs.filterMap f).flatMap g = xs.flatMap fun x => (f x).toList.flatMap g := by
  induction xs with
  | nil => rfl
  | cons x xs ih => cases h : f x <;> simp [h, ih]

theorem map_snd_declaredOn (type : TypeName) (d : TypeDefinition) :
    (declaredOn type d).map (·.2) = occurrencesOf type d := by
  have hkept {α : Type} (xs : List α) : (xs.filter fun _ => true) = xs := by simp
  have hgetters := flatMap_filter_const (fun m : Executable => !(m.isPrivate && d.name != type))
    (fun m => m.property?.toList.flatMap fun name =>
      m.returnValue.occurrences (.property name) d.name d.isInterface)
    (d.methods.filter (!·.isStatic))
  have h := map_filter_zipIdx (fun x : Bool × Occurrence => !(x.1 && d.name != type)) (·.2)
    (declarationsOf d)
  unfold declaredOn
  rw [List.map_map]
  refine Eq.trans rfl (h.trans ?_)
  unfold declarationsOf occurrencesOf propertiesOf memberMethods
  simp only [List.filter_append, List.filter_map, List.filter_flatMap, List.map_append,
    List.map_map, List.map_flatMap, List.flatMap_append, Function.comp_def, List.flatMap_map,
    flatMap_filterMap, Bool.false_and, Bool.not_false, hkept, List.map_id']
  simp only [List.filter_flatMap, List.filter_filter] at hgetters
  rw [hgetters, List.append_assoc]
  simp only [Option.toList_map, List.flatMap_map, Bool.and_comm]

theorem nodup_declaredOn (type : TypeName) (d : TypeDefinition) :
    ((declaredOn type d).map (·.1)).Nodup := by
  have hplaces : (((declarationsOf d).zipIdx.filter
      fun x => !(x.1.1 && d.name != type)).map Prod.snd).Nodup := by
    refine List.Nodup.sublist (List.filter_sublist.map _) ?_
    rw [List.zipIdx_map_snd]
    exact List.nodup_range'
  have hmap := List.Pairwise.map (S := (· ≠ ·)) (Declaration.mk d.name)
    (fun _ _ hne heq => hne (congrArg Declaration.place heq)) hplaces
  unfold declaredOn
  rw [List.map_map] at hmap ⊢
  exact hmap

/-- What a type declares on instances of another one are its declarations without those on private
getters. -/
theorem mem_declaredOn {type : TypeName} {d : TypeDefinition} {x : Declaration × Occurrence} :
    x ∈ declaredOn type d ↔ x.1.declaredBy = d.name ∧
      ∃ own : Bool, (declarationsOf d)[x.1.place]? = some (own, x.2) ∧ (own → d.name = type) := by
  unfold declaredOn
  simp only [List.mem_map, List.mem_filter, List.mem_zipIdx_iff_getElem?]
  constructor
  · rintro ⟨⟨⟨own, o⟩, i⟩, ⟨hi, hown⟩, rfl⟩
    exact ⟨rfl, own, hi, by simpa [Decidable.imp_iff_not_or] using hown⟩
  · obtain ⟨⟨declaredBy, place⟩, o⟩ := x
    rintro ⟨rfl, own, hi, hown⟩
    exact ⟨⟨⟨own, o⟩, place⟩, ⟨hi, by simpa [Decidable.imp_iff_not_or] using hown⟩, rfl⟩

end Assembly

namespace Registry

open Assembly

variable (r : Registry)

/-- All that the hierarchy of a type declares on its instances and their properties. -/
def declared (type : TypeName) : List (Declaration × Occurrence) :=
  match r.hierarchy type with
  | .ok names => (names.filterMap r.get?).flatMap (declaredOn type)
  | .error _ => []

/-- What is declared at a place, and whether it stands on a private getter. -/
def declares? (d : Declaration) : Option (Bool × Occurrence) :=
  (r.get? d.declaredBy).bind fun definition => (declarationsOf definition)[d.place]?

/-- Where the constraint is declared. -/
def declaration? (b : BoundConstraint) : Option Declaration :=
  ((r.declared b.type)[b.id]?).map (·.1)

variable {r}

theorem definitions_eq_filterMap : ∀ {names : List TypeName} {definitions : List TypeDefinition},
    names.mapM r.resolve = .ok definitions → definitions = names.filterMap r.get?
  | [], _, h => by
    cases h
    rfl
  | name :: names, _, h => by
    rw [List.mapM_cons] at h
    obtain ⟨d, hd, h⟩ := bind_eq_ok.1 h
    obtain ⟨ds, hds, h⟩ := bind_eq_ok.1 h
    cases h
    rw [List.filterMap_cons_some (resolve_eq_ok.1 hd), definitions_eq_filterMap hds]

/-- The hierarchy of a type declares on its instances what its types declare, except on private getters
of other types. -/
theorem mem_declared {type : TypeName} {names : List TypeName} (h : r.hierarchy type = .ok names)
    {d : Declaration} {o : Occurrence} : (d, o) ∈ r.declared type ↔ d.declaredBy ∈ names ∧
      ∃ own : Bool, r.declares? d = some (own, o) ∧ (own → d.declaredBy = type) := by
  unfold declared
  simp only [h, List.mem_flatMap, List.mem_filterMap, mem_declaredOn, declares?,
    Option.bind_eq_some_iff]
  constructor
  · rintro ⟨definition, ⟨name, hname, hget⟩, hd, own, hplace, hown⟩
    obtain rfl : definition.name = name := name_of_get? hget
    rw [hd]
    exact ⟨hname, own, ⟨definition, hget, hplace⟩, hown⟩
  · rintro ⟨hname, own, ⟨definition, hget, hplace⟩, hown⟩
    have hd := name_of_get? hget
    exact ⟨definition, ⟨_, hname, hget⟩, hd.symm, own, hplace, fun h => hd.trans (hown h)⟩

theorem nodup_declared (type : TypeName) : ((r.declared type).map (·.1)).Nodup := by
  unfold declared
  split
  · next names hnames =>
    have hnodup := nodup_hierarchy hnames
    clear hnames
    induction names with
    | nil => simp
    | cons name names ih =>
      have hrest := ih (List.nodup_cons.1 hnodup).2
      cases hd : r.get? name with
      | none => rwa [List.filterMap_cons_none hd]
      | some d =>
        rw [List.filterMap_cons_some hd, List.flatMap_cons, List.map_append]
        refine List.nodup_append.2 ⟨nodup_declaredOn type d, hrest, ?_⟩
        rintro x hx y hy rfl
        obtain ⟨⟨x, o⟩, ho, rfl⟩ := List.mem_map.1 hx
        obtain ⟨⟨x', o'⟩, ho', hxx⟩ := List.mem_map.1 hy
        obtain ⟨d', hd', ho'⟩ := List.mem_flatMap.1 ho'
        obtain ⟨name', hname', hget⟩ := List.mem_filterMap.1 hd'
        have howner : d'.name = d.name := by
          rw [← (mem_declaredOn.1 ho').1, ← (mem_declaredOn.1 ho).1]
          exact congrArg Declaration.declaredBy hxx
        rw [name_of_get? hget, name_of_get? hd] at howner
        exact (List.nodup_cons.1 hnodup).1 (howner ▸ hname')
  · simp

end Registry

namespace Metadata

open Assembly

variable {r : Registry} {rules : List MethodRule} {type type' : TypeName} {m m' : Metadata}
  {b b' : BoundConstraint}

/-- What a hierarchy declares is what the metadata of the type is made of. -/
theorem map_snd_declared {own : TypeDefinition} {definitions : List TypeDefinition}
    {elements : List (String × Element)} (hs : m.Sources r own definitions elements) :
    (r.declared m.type).map (·.2) = definitions.flatMap (occurrencesOf m.type) := by
  unfold Registry.declared
  rw [hs.hierarchy_eq]
  simp only [List.map_flatMap, map_snd_declaredOn,
    Registry.definitions_eq_filterMap hs.definitions_eq]

/-- A constraint of a type has the number under which the hierarchy of the type declares it. -/
theorem declared_of_mem (h : assemble r rules type = .ok m) (hb : b ∈ m.constraints) :
    b.type = type ∧ ∃ x, (r.declared b.type)[b.id]? = some (x, b.toOccurrence) := by
  obtain ⟨rfl, own, definitions, elements, hs⟩ := sources h
  obtain ⟨htype, hid⟩ := mem_bindAll.1 (hs.mem_constraints.1 hb)
  rw [← map_snd_declared hs, List.getElem?_map] at hid
  obtain ⟨⟨x, o⟩, hx, ho⟩ := Option.map_eq_some_iff.1 hid
  obtain rfl : o = b.toOccurrence := ho
  exact ⟨htype, x, htype ▸ hx⟩

theorem exists_declaration (h : assemble r rules type = .ok m) (hb : b ∈ m.constraints) :
    ∃ x, r.declaration? b = some x := by
  obtain ⟨-, x, hx⟩ := declared_of_mem h hb
  exact ⟨x, by simp [Registry.declaration?, hx]⟩

/-- The metadata of a type has a constraint for what its hierarchy declares on its instances. -/
theorem exists_mem_iff_declares (h : assemble r rules type = .ok m) {d : Declaration}
    {o : Occurrence} :
    (∃ b ∈ m.constraints, r.declaration? b = some d ∧ b.toOccurrence = o) ↔
      d.declaredBy ∈ m.hierarchy ∧
        ∃ own : Bool, r.declares? d = some (own, o) ∧ (own → d.declaredBy = type) := by
  obtain ⟨rfl, own, definitions, elements, hs⟩ := sources h
  rw [← Registry.mem_declared hs.hierarchy_eq, List.mem_iff_getElem?]
  constructor
  · rintro ⟨b, hb, hd, rfl⟩
    obtain ⟨htype, x, hx⟩ := declared_of_mem h hb
    obtain rfl : x = d := by simpa [Registry.declaration?, hx] using hd
    exact ⟨b.id, htype ▸ hx⟩
  · rintro ⟨i, hi⟩
    have ho : (definitions.flatMap (occurrencesOf m.type))[i]? = some o := by
      rw [← map_snd_declared hs, List.getElem?_map, hi]
      rfl
    refine ⟨⟨o, i, m.type⟩, hs.mem_constraints.2 (mem_bindAll.2 ⟨rfl, ho⟩), ?_, rfl⟩
    simp [Registry.declaration?, hi]

/-- A declaration is of the type that declares the constraint, and tells what it demands. -/
theorem declaration_of_mem (h : assemble r rules type = .ok m) (hb : b ∈ m.constraints)
    {x : Declaration} (hx : r.declaration? b = some x) : x.declaredBy = b.declaredBy ∧
      ∃ own : Bool, r.declares? x = some (own, b.toOccurrence) ∧ (own → x.declaredBy = type) := by
  obtain ⟨-, own, hdeclares, hown⟩ := (exists_mem_iff_declares h).1 ⟨b, hb, hx, rfl⟩
  refine ⟨?_, own, hdeclares, hown⟩
  obtain ⟨d, hd, hplace⟩ := Option.bind_eq_some_iff.1 hdeclares
  have hmem : (x, b.toOccurrence) ∈ declaredOn d.name d :=
    mem_declaredOn.2 ⟨(Registry.name_of_get? hd).symm, own, hplace, fun _ => rfl⟩
  have ho : b.toOccurrence ∈ occurrencesOf d.name d :=
    map_snd_declaredOn d.name d ▸ List.mem_map.2 ⟨_, hmem, rfl⟩
  exact (Registry.name_of_get? hd).symm.trans (location_of_mem_occurrencesOf ho).2.1.symm

/-- The same declaration demands the same in the metadata of any type. -/
theorem toOccurrence_eq_of_declaration (h : assemble r rules type = .ok m) (hb : b ∈ m.constraints)
    (h' : assemble r rules type' = .ok m') (hb' : b' ∈ m'.constraints) {x : Declaration}
    (hx : r.declaration? b = some x) (hx' : r.declaration? b' = some x) :
    b.toOccurrence = b'.toOccurrence := by
  obtain ⟨-, own, hd, -⟩ := declaration_of_mem h hb hx
  obtain ⟨-, own', hd', -⟩ := declaration_of_mem h' hb' hx'
  exact (Prod.mk.inj (Option.some.inj (hd.symm.trans hd'))).2

/-- The metadata of one type has a declaration once. -/
theorem key_eq_of_declaration (h : assemble r rules type = .ok m) (hb : b ∈ m.constraints)
    (h' : assemble r rules type' = .ok m') (hb' : b' ∈ m'.constraints) {x : Declaration}
    (hx : r.declaration? b = some x) (hx' : r.declaration? b' = some x) (htype : b.type = b'.type) :
    b.key = b'.key := by
  obtain ⟨-, y, hy⟩ := declared_of_mem h hb
  obtain ⟨-, y', hy'⟩ := declared_of_mem h' hb'
  obtain rfl : y = x := by simpa [Registry.declaration?, hy] using hx
  obtain rfl : y' = y := by simpa [Registry.declaration?, hy'] using hx'
  rw [← htype] at hy'
  have hnodup := Registry.nodup_declared (r := r) b.type
  have hid : b.id = b'.id := by
    refine (List.getElem?_inj ?_ hnodup).1 ?_
    · rw [List.length_map]
      exact (List.getElem?_eq_some_iff.1 hy).1
    · rw [List.getElem?_map, List.getElem?_map, hy, hy']
      rfl
  exact Prod.ext htype hid

end Metadata

end ObjectValidation
