import ObjectValidation.Proofs.Frame
/-!
# References and the paths they add

Where an object refers to others is the same wherever validation comes upon it, and for whatever
group: the steps of its cascades are its references, placed below its path (`cascade_eq`). A reference
is direct, through a property or optionals in it, or to an element of a container.

A path ends in a named node behind a direct reference and in a node without a name behind one to an
element. Naming a property below it fills that node in, so the path to an element lies on the way to
nothing below the element.
-/

namespace ObjectValidation

/-! ### Paths -/

namespace Path

theorem nameLast_concat (name : String) (n : PathNode) : ∀ ns : List PathNode,
    nameLast name (ns ++ [n]) =
      if n.name.isNone then ns ++ [{ n with name := some name }] else ns ++ [n, ⟨some name, none⟩]
  | [] => by simp only [List.nil_append, nameLast]
  | [m] => by
    simp only [List.singleton_append, nameLast]
    split <;> rfl
  | m :: k :: ns => by
    have h := nameLast_concat name n (k :: ns)
    simp only [List.cons_append, nameLast] at h ⊢
    rw [h]
    split <;> rfl

/-- Whether all nodes of a path have names. -/
def Named (p : Path) : Prop := ∀ n ∈ p.nodes, n.name.isSome

/-- Whether all nodes of a path but perhaps the last one have names. -/
def Open (p : Path) : Prop := ∀ n ∈ p.nodes.dropLast, n.name.isSome

/-- Whether the path leads to an element of a container, and not yet to a property of it. -/
def isElement (p : Path) : Bool := p.nodes.getLast?.any (·.name.isNone)

theorem named_root : root.Named := by simp [Named, root]

theorem Named.open {p : Path} (h : p.Named) : p.Open := fun n hn => h n (List.dropLast_subset _ hn)

theorem Open.named_property {p : Path} (h : p.Open) (name : String) : (p.property name).Named := by
  unfold Named property
  rcases List.eq_nil_or_concat p.nodes with hp | ⟨ns, n, hp⟩
  · simp [hp, nameLast]
  · have hns : ∀ m ∈ ns, m.name.isSome := by simpa [Open, hp] using h
    rw [hp, List.concat_eq_append, nameLast_concat]
    split
    · grind
    · next hn =>
      have hn : n.name.isSome := by simpa [Option.isSome_iff_ne_none] using hn
      grind

theorem Named.open_element {p : Path} (h : p.Named) (position : Option Position) :
    (p.element position).Open := by simpa [Open, Named, element] using h

@[simp] theorem isElement_element (p : Path) (position : Option Position) :
    (p.element position).isElement = true := by simp [isElement, element]

theorem Named.isElement_eq {p : Path} (h : p.Named) : p.isElement = false := by
  unfold isElement
  cases hl : p.nodes.getLast? with
  | none => rfl
  | some n =>
    have := h n (List.mem_of_getLast? hl)
    simpa using this

theorem length_property {p : Path} (name : String) :
    (p.property name).nodes.length = if p.isElement then p.nodes.length else p.nodes.length + 1 := by
  unfold property isElement
  rcases List.eq_nil_or_concat p.nodes with hp | ⟨ns, n, hp⟩
  · simp [hp, nameLast]
  · rw [hp, List.concat_eq_append, nameLast_concat]
    split <;> simp_all

/-- The path leads to another one just if it begins it, up to what its last node lacks. -/
theorem leads_iff : ∀ {ms ns : List PathNode}, leads ms ns = true ↔
    ms = [] ∨ ∃ pre m n post, ms = pre ++ [m] ∧ ns = pre ++ n :: post ∧ m.name = n.name
  | [], ns => by simp [leads]
  | [m], [] => by simp [leads]
  | [m], n :: ns => by
    simp only [leads, beq_iff_eq]
    constructor
    · intro h
      exact .inr ⟨[], m, n, ns, rfl, rfl, h⟩
    · rintro (h | ⟨pre, m', n', post, hm, hn, h⟩)
      · cases h
      · cases pre <;> simp_all
  | m :: k :: ms, [] => by simp [leads]
  | m :: k :: ms, n :: ns => by
    have ih := @leads_iff (k :: ms) ns
    simp only [leads, Bool.and_eq_true, beq_iff_eq, ih]
    constructor
    · rintro ⟨rfl, h | ⟨pre, m', n', post, hm, hn, h⟩⟩
      · cases h
      · exact .inr ⟨m :: pre, m', n', post, by simp [hm], by simp [hn], h⟩
    · rintro (h | ⟨pre, m', n', post, hm, hn, h⟩)
      · cases h
      · cases pre with
        | nil => simp at hm
        | cons a pre =>
          simp only [List.cons_append, List.cons.injEq] at hm hn
          exact ⟨hm.1.trans hn.1.symm, .inr ⟨pre, m', n', post, hm.2, hn.2, h⟩⟩

theorem isSubPathOf_of_prefix {p q : Path} (h : p.nodes <+: q.nodes) : p.isSubPathOf q = true := by
  rw [isSubPathOf, leads_iff]
  obtain ⟨rest, hrest⟩ := h
  rcases List.eq_nil_or_concat p.nodes with hp | ⟨ns, n, hp⟩
  · exact .inl hp
  · rw [List.concat_eq_append] at hp
    exact .inr ⟨ns, n, n, rest, hp, by simp [← hrest, hp], rfl⟩

@[simp] theorem isRelatedTo_self (p : Path) : p.isRelatedTo p = true := by
  simp [isRelatedTo, isSubPathOf_of_prefix (List.prefix_refl p.nodes)]

@[simp] theorem isRelatedTo_root (p : Path) : p.isRelatedTo root = true := by
  simp [isRelatedTo, root, isRoot]

/-- What lies below a path all of whose nodes have names stays below it. -/
theorem Named.prefix_property {p q : Path} (hp : p.Named) (h : p.nodes <+: q.nodes) (name : String) :
    p.nodes <+: (q.property name).nodes := by
  obtain ⟨rest, hrest⟩ := h
  unfold property
  rw [← hrest]
  rcases List.eq_nil_or_concat rest with rfl | ⟨rs, n, rfl⟩
  · rcases List.eq_nil_or_concat p.nodes with hnil | ⟨ns, n, hns⟩
    · simp [hnil]
    · rw [List.concat_eq_append] at hns
      have hn := hp n (by simp [hns])
      rw [List.append_nil, hns, nameLast_concat]
      split
      · simp_all
      · simp
  · rw [List.concat_eq_append, ← List.append_assoc, nameLast_concat]
    split <;> simp

theorem prefix_element {p q : Path} (h : p.nodes <+: q.nodes) (position : Option Position) :
    p.nodes <+: (q.element position).nodes := h.trans (List.prefix_append _ _)

/-- A path to an element lies on the way to no longer path, nor such a path on the way to it. -/
theorem isRelatedTo_eq_false {p q : Path} (hp : p.Open) (hq : q.isElement)
    (h : q.nodes.length < p.nodes.length) : p.isRelatedTo q = false := by
  have hpq : p.isSubPathOf q = false := by
    refine Bool.eq_false_iff.2 ?_
    intro hlead
    rcases leads_iff.1 hlead with hnil | ⟨pre, m, n, post, hm, hn, -⟩
    · simp [hnil] at h
    · simp [hm, hn] at h
  have hqp : q.isSubPathOf p = false := by
    refine Bool.eq_false_iff.2 ?_
    intro hlead
    rcases leads_iff.1 hlead with hnil | ⟨pre, m, n, post, hm, hn, hname⟩
    · simp [isElement, hnil] at hq
    · have hnone : m.name.isNone := by simpa [isElement, hm] using hq
      have hpost : post ≠ [] := by
        rintro rfl
        simp [hm, hn] at h
      have hnamed : n.name.isSome := hp n (by
        rw [hn, List.dropLast_append_of_ne_nil (by simp)]
        obtain ⟨k, rest, rfl⟩ := List.exists_cons_of_ne_nil hpost
        simp)
      rw [← hname] at hnamed
      simp_all
  have hroots : p.isRoot = false ∧ q.isRoot = false := by
    constructor
    · cases hnodes : p.nodes <;> simp_all [isRoot]
    · cases hnodes : q.nodes <;> simp_all [isRoot, isElement]
  simp [isRelatedTo, hpq, hqp, hroots]

end Path

/-! ### References -/

/-- Where a part of a value stands: the value itself, or an element of it. -/
abbrev Part := Option (Option Position)

/-- The objects in a list of contained values, one layer of optionals removed, with where they
stand. -/
def partsIn (contents : List (Option Position × Value)) : List (ObjectId × Part) :=
  contents.filterMap fun (position, v) => v.unwrapped.object?.map (·, some position)

/-- The objects that a value is or contains, with where they stand in it. -/
def Value.parts : Value → List (ObjectId × Part)
  | .object id => [(id, none)]
  | .list items => partsIn (ContainerKind.contents .listElement (.list items))
  | .map entries => partsIn (ContainerKind.contents .mapValue (.map entries))
  | .optional (some v) => v.parts
  | _ => []

/-- A reference of an object to another one through a property. -/
structure Reference where
  target : ObjectId
  property : String
  part : Part
  facet : Facet

namespace Reference

/-- Whether the reference is to an element of a container. -/
def isElement (r : Reference) : Bool := r.part.isSome

/-- The path of a part of the value at a path. -/
def pathOf (path : Path) : Part → Path
  | none => path
  | some position => path.element position

/-- The path that the reference leads to from that of the referring object. -/
def place (r : Reference) (path : Path) : Path := pathOf (path.property r.property) r.part

/-- The step of a cascade along the reference. -/
def step (r : Reference) (path : Path) (group : TypeName) : CascadeStep :=
  ⟨r.target, r.place path, group, r.facet.converted group⟩

theorem place_open {r : Reference} {path : Path} (h : path.Open) : (r.place path).Open := by
  unfold place pathOf
  split
  · exact (h.named_property _).open
  · exact (h.named_property _).open_element _

theorem place_isElement {r : Reference} {path : Path} (h : path.Open) :
    (r.place path).isElement = r.isElement := by
  unfold place pathOf isElement
  cases r.part with
  | none => exact (h.named_property _).isElement_eq
  | some position => simp

theorem place_named {r : Reference} {path : Path} (h : path.Open) (hr : r.isElement = false) :
    (r.place path).Named := by
  unfold isElement at hr
  unfold place pathOf
  split
  · exact h.named_property _
  · next hp => simp [hp] at hr

/-- A reference to an element from below an element leads one node further. -/
theorem length_place {r : Reference} {path : Path} (hr : r.isElement) (h : path.isElement) :
    (r.place path).nodes.length = path.nodes.length + 1 := by
  unfold isElement at hr
  unfold place pathOf
  split
  · next hp => simp [hp] at hr
  · simp [Path.element, Path.length_property, h]

/-- What lies below a path all of whose nodes have names refers to what lies there too. -/
theorem prefix_place (r : Reference) {way path : Path} (hway : way.Named)
    (h : way.nodes <+: path.nodes) : way.nodes <+: (r.place path).nodes := by
  have hproperty := hway.prefix_property h r.property
  unfold place pathOf
  split
  · exact hproperty
  · exact Path.prefix_element hproperty _

/-- Whether every group goes on as it is along the reference. -/
def KeepsGroups (r : Reference) : Prop := ∀ group, r.facet.converted group = group

theorem KeepsGroups.step_eq {r : Reference} (h : r.KeepsGroups) (path : Path) (group : TypeName) :
    r.step path group = ⟨r.target, r.place path, group, group⟩ := by simp [step, h group]

theorem keepsGroups_of_nil {r : Reference} (h : r.facet.conversions = []) : r.KeepsGroups := by
  intro group
  simp [Facet.converted, convert, h]

end Reference

/-- The references of a value through a property of the name. -/
def Element.references (e : Element) (name : String) (value : Value) : List Reference :=
  (if e.own.cascading then value.parts.map fun (id, part) => ⟨id, name, part, e.own⟩ else []) ++
    (e.containers.filter (·.2.cascading)).flatMap fun (kind, facet) =>
      (partsIn (kind.contents value)).map fun (id, part) => ⟨id, name, part, facet⟩

/-- The references of an object. -/
def Metadata.references (m : Metadata) (store : Store) (object : ObjectId) : List Reference :=
  m.cascaded.flatMap fun name =>
    match m.property? name with
    | none => []
    | some p => p.element.references name (store.property object name)

theorem objectsIn_eq (path : Path) (contents : List (Option Position × Value)) :
    objectsIn path contents =
      (partsIn contents).map fun x => (x.1, Reference.pathOf path x.2) := by
  unfold objectsIn partsIn
  rw [List.map_filterMap]
  refine congrArg (List.filterMap · contents) (funext fun (position, v) => ?_)
  simp only
  cases v.unwrapped.object? <;> rfl

theorem Value.objects_eq (path : Path) : ∀ v : Value,
    v.objects path = v.parts.map fun x => (x.1, Reference.pathOf path x.2)
  | .object id => rfl
  | .list items => objectsIn_eq path _
  | .map entries => objectsIn_eq path _
  | .optional (some v) => by simpa [objects, parts] using Value.objects_eq path v
  | .optional none | .null | .bool _ | .int _ | .float _ | .str _ => rfl

theorem Element.cascade_eq (e : Element) (name : String) (path : Path) (group : TypeName)
    (value : Value) : e.cascade (path.property name) group value =
      (e.references name value).map (·.step path group) := by
  unfold cascade references
  rw [List.map_append, List.map_flatMap]
  congr 1
  · split
    · rw [Value.objects_eq, List.map_map, List.map_map]
      rfl
    · rfl
  · refine congrArg (List.flatMap · _) (funext fun (kind, facet) => ?_)
    simp only
    rw [objectsIn_eq, List.map_map, List.map_map]
    rfl

/-- The steps of the cascades from an object are its references, placed below its path. -/
theorem Subject.cascade_eq {s : Subject} {store : Store} {object : ObjectId}
    (ho : s.object = some object) (hs : s.only = none) (group : TypeName) :
    s.cascade store group =
      (s.metadata.references store object).map (·.step s.path group) := by
  unfold cascade Metadata.references
  rw [List.map_flatMap]
  refine congrArg (List.flatMap · _) (funext ?_)
  intro name
  cases s.metadata.property? name with
  | none => rfl
  | some p =>
    have hvalue : s.property store name = store.property object name := by
      simp [Subject.property, Subject.property.read, hs, ho]
    rw [hvalue]
    exact p.element.cascade_eq name s.path group _

/-! ### Graphs of objects -/

namespace Call

/-- The references of an object; none if its type has no metadata. -/
def references (c : Call) (object : ObjectId) : List Reference :=
  match Metadata.assemble c.registry c.config.methodRules (c.store.typeOf object) with
  | .ok m => m.references c.store object
  | .error _ => []

variable {c : Call}

theorem references_eq {object : ObjectId} {m : Metadata}
    (hm : c.Assembles (c.store.typeOf object) m) :
    c.references object = m.references c.store object := by
  unfold Assembles at hm
  rw [references, hm]

/-- The steps from a subject that a cascade led to. -/
theorem Knows.cascade_eq {s : Subject} (hs : c.Knows s) {object : ObjectId}
    (ho : s.object = some object) (group : TypeName) :
    s.cascade c.store group = (c.references object).map (·.step s.path group) := by
  obtain ⟨id, hid, hm⟩ := hs.object
  obtain rfl : id = object := by simpa [hid] using ho
  rw [Subject.cascade_eq ho hs.whole, references_eq hm]

/-- Whether an object is the root or one that references lead to from there. -/
inductive Reaches (c : Call) (root : ObjectId) : ObjectId → Prop
  | root : Reaches c root root
  | step {object : ObjectId} {r : Reference} : Reaches c root object → r ∈ c.references object →
    Reaches c root r.target

/-- References do not lead out of objects that hold the root and all that they refer to. -/
theorem Reaches.mem {root x : ObjectId} {xs : List ObjectId} (h : c.Reaches root x)
    (hroot : root ∈ xs) (hxs : ∀ y ∈ xs, ∀ r ∈ c.references y, r.target ∈ xs) : x ∈ xs := by
  induction h with
  | root => exact hroot
  | step _ hr ih => exact hxs _ ih _ hr

end Call

end ObjectValidation
