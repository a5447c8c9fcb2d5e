import Mathlib.Data.List.Flatten
import Mathlib.Data.List.Nodup
import Mathlib.Data.List.Perm.Subperm
import ObjectValidation.Validation.Call
/-!
# What assembled metadata consists of

Metadata that has been put together has the constraints of all types of its hierarchy, each under a
number of its own, and a sequence for the default group that runs the default group itself. What a
call remembers is what it would put together again (`MetadataCache.Coherent`).
-/

namespace ObjectValidation

/-! ### Computations that may fail -/

section

variable {α β γ ε : Type}

theorem bind_eq_ok {x : Except ε α} {f : α → Except ε β} {b : β} :
    (x >>= f) = .ok b ↔ ∃ a, x = .ok a ∧ f a = .ok b := by
  cases x <;> simp [bind, Except.bind]

theorem toOption_eq_some {x : Except ε α} {a : α} (h : x.toOption = some a) :
    x = .ok a := by
  cases x with
  | error e => cases h
  | ok b => exact congrArg Except.ok (Option.some.inj h)

theorem mapM_eq_ok {f : α → Except ε β} : ∀ {xs : List α} {ys : List β}, xs.mapM f = .ok ys →
    (∀ y ∈ ys, ∃ x ∈ xs, f x = .ok y) ∧ ∀ x ∈ xs, ∃ y ∈ ys, f x = .ok y
  | [], ys, h => by
    cases h
    simp
  | x :: xs, ys, h => by
    rw [List.mapM_cons] at h
    obtain ⟨y, hy, h⟩ := bind_eq_ok.1 h
    obtain ⟨zs, hzs, h⟩ := bind_eq_ok.1 h
    cases h
    obtain ⟨h₁, h₂⟩ := mapM_eq_ok hzs
    refine ⟨?_, ?_⟩
    · intro z hz
      rcases List.mem_cons.1 hz with rfl | hz
      · exact ⟨x, by simp, hy⟩
      · obtain ⟨x', hx', hf⟩ := h₁ z hz
        exact ⟨x', by simp [hx'], hf⟩
    · intro z hz
      rcases List.mem_cons.1 hz with rfl | hz
      · exact ⟨y, by simp, hy⟩
      · obtain ⟨y', hy', hf⟩ := h₂ z hz
        exact ⟨y', by simp [hy'], hf⟩

theorem mapM_eq_ok_map {f : α → Except ε β} {g : α → β} : ∀ {xs : List α},
    (∀ x ∈ xs, f x = .ok (g x)) → xs.mapM f = .ok (xs.map g)
  | [], _ => rfl
  | x :: xs, h => by
    rw [List.mapM_cons, h x (by simp), mapM_eq_ok_map fun y hy => h y (by simp [hy])]
    rfl

theorem getElem?_of_mapM {f : α → Except ε β} : ∀ {xs : List α} {ys : List β},
    xs.mapM f = .ok ys → ∀ i : Nat, (xs[i]?).map f = (ys[i]?).map .ok
  | [], ys, h, i => by
    cases h
    simp
  | x :: xs, ys, h, i => by
    rw [List.mapM_cons] at h
    obtain ⟨y, hy, h⟩ := bind_eq_ok.1 h
    obtain ⟨zs, hzs, h⟩ := bind_eq_ok.1 h
    cases h
    cases i with
    | zero => simpa using hy
    | succ i => simpa using getElem?_of_mapM hzs i

theorem forM_eq_ok {f : α → Except ε Unit} : ∀ {xs : List α},
    xs.forM f = .ok () ↔ ∀ x ∈ xs, f x = .ok ()
  | [] => by simp [pure, Except.pure]
  | x :: xs => by
    change (f x >>= fun _ => xs.forM f) = .ok () ↔ _
    rw [bind_eq_ok, List.forall_mem_cons, forM_eq_ok]
    exact ⟨fun ⟨_, h⟩ => h, fun h => ⟨(), h⟩⟩

/-- A property that each step of a loop keeps holds at its end. -/
theorem foldlM_keeps {f : β → α → Except ε β} {I : β → Prop} : ∀ {xs : List α} {b b' : β},
    (∀ b x b', x ∈ xs → I b → f b x = .ok b' → I b') → xs.foldlM f b = .ok b' → I b → I b'
  | [], b, b', _, h, hb => by
    cases h
    exact hb
  | x :: xs, b, b', hf, h, hb => by
    rw [List.foldlM_cons] at h
    obtain ⟨b₁, h₁, h⟩ := bind_eq_ok.1 h
    exact foldlM_keeps (fun b y b' hy => hf b y b' (by simp [hy])) h (hf b x b₁ (by simp) hb h₁)

/-- A loop each of whose steps can do what those of another loop do comes to the same end. -/
theorem foldlM_mono {f g : β → α → Except ε β} : ∀ {xs : List α} {b b' : β},
    (∀ x ∈ xs, ∀ b b', f b x = .ok b' → g b x = .ok b') → xs.foldlM f b = .ok b' →
      xs.foldlM g b = .ok b'
  | [], _, _, _, h => h
  | x :: xs, b, b', hfg, h => by
    rw [List.foldlM_cons] at h ⊢
    obtain ⟨hx, hxs⟩ := List.forall_mem_cons.1 hfg
    obtain ⟨b₁, h₁, h⟩ := bind_eq_ok.1 h
    exact bind_eq_ok.2 ⟨b₁, hx b b₁ h₁, foldlM_mono hxs h⟩

/-- What a step for one of the items brings about, and all steps keep, holds at the end. -/
theorem foldlM_reaches {f : β → α → Except ε β} {I : β → Prop} {x : α}
    (hadd : ∀ b b', f b x = .ok b' → I b') (hkeep : ∀ b y b', I b → f b y = .ok b' → I b') :
    ∀ {xs : List α} {b b' : β}, x ∈ xs → xs.foldlM f b = .ok b' → I b'
  | y :: xs, b, b', hx, h => by
    rw [List.foldlM_cons] at h
    obtain ⟨b₁, h₁, hrest⟩ := bind_eq_ok.1 h
    rcases List.mem_cons.1 hx with rfl | hx
    · exact foldlM_keeps (fun b y b' _ => hkeep b y b') hrest (hadd b b₁ h₁)
    · exact foldlM_reaches hadd hkeep hx hrest

end

/-! ### Sublists up to order -/

section

variable {α β : Type} {xs ys : List α}

/-- Items sorted by distinct keys are those that have one of the keys. -/
theorem perm_flatMap_filter {κ : Type} [DecidableEq κ] (key : α → κ) (xs : List α) : ∀ {keys : List κ},
    keys.Nodup → (keys.flatMap fun k => xs.filter (key · = k)).Perm (xs.filter (key · ∈ keys))
  | [], _ => by simp
  | k :: keys, hnodup => by
    obtain ⟨hnew, hnodup⟩ := List.nodup_cons.1 hnodup
    have hfirst : (xs.filter (key · ∈ k :: keys)).filter (key · = k) = xs.filter (key · = k) := by
      rw [List.filter_filter]
      exact List.filter_congr fun x _ => by simp +contextual
    have hrest : (xs.filter (key · ∈ k :: keys)).filter (fun x => !(key x = k : Bool)) =
        xs.filter (key · ∈ keys) := by
      rw [List.filter_filter]
      refine List.filter_congr fun x _ => ?_
      by_cases hx : key x = k <;> simp [hx, hnew]
    have hsplit := List.filter_append_perm (fun x => key x = k : α → Bool) (xs.filter (key · ∈ k :: keys))
    rw [hfirst, hrest] at hsplit
    exact ((perm_flatMap_filter key xs hnodup).append_left _).trans hsplit

theorem pairwise_of_subperm {R : α → α → Prop} (hsymm : ∀ {x y}, R x y → R y x)
    (h : xs.Subperm ys) (hys : ys.Pairwise R) : xs.Pairwise R := by
  obtain ⟨zs, hperm, hsub⟩ := h
  exact (hperm.pairwise_iff hsymm).1 (hys.sublist hsub)

theorem subperm_flatMap (f : α → List β) (h : xs.Subperm ys) :
    (xs.flatMap f).Subperm (ys.flatMap f) := by
  obtain ⟨zs, hperm, hsub⟩ := h
  exact ⟨zs.flatMap f, hperm.flatMap_right f, hsub.flatMap f⟩

end

theorem Registry.resolve_eq_ok {r : Registry} {name : TypeName} {d : TypeDefinition} :
    r.resolve name = .ok d ↔ r.get? name = some d := by
  unfold resolve
  cases r.get? name <;> simp

/-! ### Metadata and what it is made of -/

namespace Assembly

theorem perm_insertProperty {p : PropertyMetadata} : ∀ {ps : List PropertyMetadata},
    (insertProperty p ps).Perm (p :: ps)
  | [] => .refl _
  | q :: ps => by
    unfold insertProperty
    split
    · exact .refl _
    · exact (perm_insertProperty.cons q).trans (.swap p q ps)

/-- Sorting properties by name only puts them in order. -/
theorem perm_foldl_insertProperty : ∀ {ps sorted : List PropertyMetadata},
    (ps.foldl (fun sorted p => insertProperty p sorted) sorted).Perm (ps ++ sorted)
  | [], _ => .refl _
  | p :: ps, sorted => by
    rw [List.foldl_cons]
    exact perm_foldl_insertProperty.trans ((perm_insertProperty.append_left ps).trans List.perm_middle)

theorem mem_bindAll {type : TypeName} {os : List Occurrence} {b : BoundConstraint} :
    b ∈ bindAll type 0 os ↔ b.type = type ∧ os[b.id]? = some b.toOccurrence := by
  unfold bindAll
  rw [List.mem_mapIdx]
  constructor
  · rintro ⟨i, hi, rfl⟩
    simp
  · rintro ⟨rfl, hid⟩
    obtain ⟨hi, ho⟩ := List.getElem?_eq_some_iff.1 hid
    refine ⟨b.id, hi, ?_⟩
    simp only [ho, Nat.zero_add]

theorem distinct_bindAll (type : TypeName) (next : Nat) (os : List Occurrence) :
    (bindAll type next os).Pairwise fun b b' => b.id ≠ b'.id := by
  have hids : (bindAll type next os).map (·.id) = List.range' next os.length := by
    refine List.ext_getElem (by simp [bindAll]) fun i _ _ => ?_
    simp [bindAll]
  exact List.pairwise_map.1 (hids ▸ List.nodup_range')

theorem mergeProperty_ok {r : Registry} {merged merged' : List (String × Element)}
    {p : PropertyDeclaration} (h : mergeProperty r merged p = .ok merged') :
    (merged.lookup p.name = none ∧ merged' = merged ++ [(p.name, p.element)]) ∨
    ∃ e, merged.lookup p.name = some e ∧ merged' = merged.map fun entry =>
      if entry.1 = p.name then (p.name, e.union p.element) else entry := by
  unfold mergeProperty at h
  cases hl : merged.lookup p.name with
  | none =>
    simp only [hl] at h
    split at h
    · obtain ⟨_, -, h⟩ := bind_eq_ok.1 h
      cases h
      exact .inl ⟨rfl, rfl⟩
    · cases h
      exact .inl ⟨rfl, rfl⟩
  | some e =>
    simp only [hl] at h
    refine .inr ⟨e, rfl, ?_⟩
    have hmerged : (do
        let e ← e.merge (p.declaredBy.label ++ "." ++ p.name) p.element
        return merged.map fun entry => if entry.1 = p.name then (p.name, e) else entry) =
        Except.ok merged' := by
      split at h
      · obtain ⟨_, -, h⟩ := bind_eq_ok.1 h
        exact h
      · exact h
    obtain ⟨e', he', h⟩ := bind_eq_ok.1 hmerged
    obtain ⟨_, -, he'⟩ := bind_eq_ok.1 he'
    cases he'
    cases h
    rfl

theorem mem_of_lookup {α β : Type} [BEq α] [LawfulBEq α] {k : α} {v : β} :
    ∀ {l : List (α × β)}, l.lookup k = some v → (k, v) ∈ l
  | (a, b) :: l, h => by
    rw [List.lookup_cons] at h
    split at h
    · simp_all
    · exact List.mem_cons_of_mem _ (mem_of_lookup h)

theorem lookup_of_mem {α β : Type} [BEq α] [LawfulBEq α] {k : α} {v : β} :
    ∀ {l : List (α × β)}, (l.map (·.1)).Nodup → (k, v) ∈ l → l.lookup k = some v
  | e :: l, hnodup, h => by
    obtain ⟨hnew, hnodup⟩ := List.nodup_cons.1 hnodup
    rw [List.lookup_cons]
    rcases List.mem_cons.1 h with rfl | h
    · simp
    · have hne : (k == e.1) = false := by
        refine beq_eq_false_iff_ne.2 ?_
        rintro rfl
        exact hnew (List.mem_map.2 ⟨_, h, rfl⟩)
      simpa only [hne] using lookup_of_mem hnodup h

/-- Merging a declaration adds its name to those merged so far, unless it is among them. -/
theorem mergeProperty_names {r : Registry} {merged merged' : List (String × Element)}
    {p : PropertyDeclaration} (h : mergeProperty r merged p = .ok merged') :
    (p.name ∈ merged.map (·.1) ∧ merged'.map (·.1) = merged.map (·.1)) ∨
      (p.name ∉ merged.map (·.1) ∧ merged'.map (·.1) = merged.map (·.1) ++ [p.name]) := by
  rcases mergeProperty_ok h with ⟨hnone, rfl⟩ | ⟨e, he, rfl⟩
  · refine .inr ⟨?_, by simp⟩
    intro hmem
    obtain ⟨entry, hentry, hname⟩ := List.mem_map.1 hmem
    exact (by simpa using List.lookup_eq_none_iff.1 hnone entry hentry : p.name ≠ entry.1) hname.symm
  · refine .inl ⟨List.mem_map.2 ⟨_, mem_of_lookup he, rfl⟩, ?_⟩
    rw [List.map_map]
    refine List.map_congr_left ?_
    intro entry _
    simp only [Function.comp]
    split <;> simp_all

theorem mergeAll_names {r : Registry} : ∀ {ps : List PropertyDeclaration}
    {merged merged' : List (String × Element)}, ps.foldlM (mergeProperty r) merged = .ok merged' →
    (∀ name ∈ merged.map (·.1), name ∈ merged'.map (·.1)) ∧
      (∀ p ∈ ps, p.name ∈ merged'.map (·.1)) ∧
      ((merged.map (·.1)).Nodup → (merged'.map (·.1)).Nodup)
  | [], merged, merged', h => by
    cases h
    simp
  | p :: ps, merged, merged', h => by
    rw [List.foldlM_cons] at h
    obtain ⟨merged₁, h₁, h⟩ := bind_eq_ok.1 h
    obtain ⟨hkeep, hadd, hnodup⟩ := mergeAll_names h
    rw [List.forall_mem_cons]
    rcases mergeProperty_names h₁ with ⟨hmem, hnames⟩ | ⟨hnew, hnames⟩
    · rw [hnames] at hkeep hnodup
      exact ⟨hkeep, ⟨hkeep _ hmem, hadd⟩, hnodup⟩
    · rw [hnames] at hkeep hnodup
      refine ⟨fun name hn => hkeep name (List.mem_append_left _ hn), ⟨hkeep _ (by simp), hadd⟩, ?_⟩
      intro hmerged
      refine hnodup (List.nodup_append.2 ⟨hmerged, by simp, ?_⟩)
      rintro name hn _ hn' rfl
      exact hnew (List.mem_singleton.1 hn' ▸ hn)

end Assembly

open Assembly in
/-- What metadata is put together from. -/
structure Metadata.Sources (r : Registry) (m : Metadata) (own : TypeDefinition)
    (definitions : List TypeDefinition) (elements : List (String × Element)) : Prop where
  own_eq : r.get? m.type = some own
  hierarchy_eq : r.hierarchy m.type = .ok m.hierarchy
  definitions_eq : m.hierarchy.mapM r.resolve = .ok definitions
  default_eq : defaultSequence r own = .ok m.default
  elements_eq : (definitions.flatMap (propertiesOf m.type)).foldlM (mergeProperty r) [] =
    .ok elements
  properties_perm : m.properties.Perm <| elements.map fun (name, element) =>
    ⟨name, element, (bindAll m.type 0 (definitions.flatMap (occurrencesOf m.type))).filter
      (·.location = .property name)⟩
  cascaded_eq : m.cascaded = (elements.filter (·.2.hasCascades)).map (·.1)
  class_eq : m.classConstraints =
    (bindAll m.type 0 (definitions.flatMap (occurrencesOf m.type))).filter (·.location = .self)
  direct_eq : ∃ direct, r.superInterfaces m.type = .ok direct ∧ m.directTypes = m.type :: direct

theorem Metadata.sources {r : Registry} {rules : List MethodRule} {type : TypeName} {m : Metadata}
    (h : assemble r rules type = .ok m) :
    m.type = type ∧ ∃ own definitions elements, m.Sources r own definitions elements := by
  unfold assemble at h
  obtain ⟨own, hown, h⟩ := bind_eq_ok.1 h
  obtain ⟨hierarchy, hh, h⟩ := bind_eq_ok.1 h
  obtain ⟨definitions, hd, h⟩ := bind_eq_ok.1 h
  obtain ⟨default, hdef, h⟩ := bind_eq_ok.1 h
  obtain ⟨elements, he, h⟩ := bind_eq_ok.1 h
  obtain ⟨direct, hdir, h⟩ := bind_eq_ok.1 h
  obtain ⟨methods, -, h⟩ := bind_eq_ok.1 h
  obtain ⟨constructors, -, h⟩ := bind_eq_ok.1 h
  cases h
  exact ⟨rfl, own, definitions, elements, Registry.resolve_eq_ok.1 hown, hh, hd, hdef, he,
    Assembly.perm_foldl_insertProperty.trans (by rw [List.append_nil]), rfl, rfl, direct, hdir, rfl⟩

/-! ### The constraints of assembled metadata -/

/-- Whether an element declares a constraint, on the value or on the values of one kind in it. -/
def Element.Declares (e : Element) (part : Option ContainerKind) (k : Constraint) : Prop :=
  match part with
  | none => k ∈ e.own.constraints
  | some kind => ∃ f, (kind, f) ∈ e.containers ∧ k ∈ f.constraints

/-- What an element declares stands where the element does. -/
theorem Element.mem_occurrences {e : Element} {location : Location} {owner : TypeName}
    {onInterface : Bool} {o : Occurrence} : o ∈ e.occurrences location owner onInterface ↔
      o.location = location ∧ o.declaredBy = owner ∧ o.onInterface = onInterface ∧
        e.Declares o.container o.constraint := by
  obtain ⟨k, l, part, declaredBy, isInterface⟩ := o
  unfold Element.occurrences
  simp only [List.mem_append, List.mem_map, List.mem_flatMap, Prod.exists, Occurrence.mk.injEq]
  cases part with
  | none =>
    simp only [Declares]
    grind
  | some kind =>
    simp only [Declares]
    grind

theorem Element.of_mem_occurrences {e : Element} {location : Location} {owner : TypeName}
    {onInterface : Bool} {o : Occurrence} (h : o ∈ e.occurrences location owner onInterface) :
    o.location = location ∧ o.declaredBy = owner ∧ o.onInterface = onInterface := by
  obtain ⟨hlocation, howner, hinterface, -⟩ := Element.mem_occurrences.1 h
  exact ⟨hlocation, howner, hinterface⟩

namespace Metadata

open Assembly

variable {r : Registry} {m : Metadata} {own : TypeDefinition} {definitions : List TypeDefinition}
  {elements : List (String × Element)}

/-- A type declares constraints on instances and on the properties it declares. -/
theorem location_of_mem_occurrencesOf {type : TypeName} {d : TypeDefinition} {o : Occurrence}
    (h : o ∈ occurrencesOf type d) :
    (o.location = .self ∨ ∃ p ∈ propertiesOf type d, o.location = .property p.name) ∧
      o.declaredBy = d.name ∧ o.onInterface = d.isInterface := by
  unfold occurrencesOf at h
  rcases List.mem_append.1 h with h | h
  · obtain ⟨k, -, rfl⟩ := List.mem_map.1 h
    exact ⟨.inl rfl, rfl, rfl⟩
  · obtain ⟨p, hp, h⟩ := List.mem_flatMap.1 h
    have hdecl : p.declaredBy = d.name ∧ p.onInterface = d.isInterface := by
      unfold propertiesOf at hp
      rcases List.mem_append.1 hp with hp | hp
      · obtain ⟨f, -, rfl⟩ := List.mem_map.1 hp
        exact ⟨rfl, rfl⟩
      · obtain ⟨e, -, he⟩ := List.mem_filterMap.1 hp
        obtain ⟨name, -, rfl⟩ := Option.map_eq_some_iff.1 he
        exact ⟨rfl, rfl⟩
    have ho := Element.of_mem_occurrences h
    exact ⟨.inr ⟨p, hp, ho.1⟩, ho.2.1.trans hdecl.1, ho.2.2.trans hdecl.2⟩

theorem Sources.properties_iff (h : m.Sources r own definitions elements) (p : PropertyMetadata) :
    p ∈ m.properties ↔ ∃ name element, (name, element) ∈ elements ∧ p =
      ⟨name, element, (bindAll m.type 0 (definitions.flatMap (occurrencesOf m.type))).filter
        (·.location = .property name)⟩ := by
  rw [h.properties_perm.mem_iff, List.mem_map]
  constructor
  · rintro ⟨⟨name, element⟩, hmem, rfl⟩
    exact ⟨name, element, hmem, rfl⟩
  · rintro ⟨name, element, hmem, rfl⟩
    exact ⟨(name, element), hmem, rfl⟩

/-- Metadata has just the constraints that the types of its hierarchy declare, sorted by where they
apply. -/
theorem Sources.perm_constraints (h : m.Sources r own definitions elements) :
    m.constraints.Perm (bindAll m.type 0 (definitions.flatMap (occurrencesOf m.type))) := by
  obtain ⟨-, hnames, hnodup⟩ := mergeAll_names h.elements_eq
  let bound := bindAll m.type 0 (definitions.flatMap (occurrencesOf m.type))
  let places : List Location := .self :: elements.map fun e => .property e.1
  have hplaces : places.Nodup := by
    have hproperties := (hnodup (by simp)).map fun _ _ => Location.property.inj
    rw [List.map_map] at hproperties
    exact List.nodup_cons.2 ⟨by simp, hproperties⟩
  have hall : bound.filter (·.location ∈ places) = bound := by
    refine List.filter_eq_self.2 fun b hb => decide_eq_true ?_
    obtain ⟨d, hd, ho⟩ := List.mem_flatMap.1 (List.mem_of_getElem? (mem_bindAll.1 hb).2)
    rcases (location_of_mem_occurrencesOf ho).1 with hl | ⟨p, hp, hl⟩
    · exact hl ▸ List.mem_cons_self
    · obtain ⟨e, he, hname⟩ := List.mem_map.1 (hnames p (List.mem_flatMap.2 ⟨d, hd, hp⟩))
      exact hl ▸ List.mem_cons_of_mem _ (List.mem_map.2 ⟨e, he, congrArg Location.property hname⟩)
  have hsplit := perm_flatMap_filter (·.location) bound hplaces
  rw [hall] at hsplit
  refine .trans ?_ hsplit
  rw [constraints, h.class_eq, List.flatMap_cons, List.flatMap_map]
  refine .append_left _ ((h.properties_perm.flatMap_right _).trans ?_)
  rw [List.flatMap_map]

theorem Sources.mem_constraints (h : m.Sources r own definitions elements) {b : BoundConstraint} :
    b ∈ m.constraints ↔ b ∈ bindAll m.type 0 (definitions.flatMap (occurrencesOf m.type)) :=
  h.perm_constraints.mem_iff

theorem Sources.mem_definitions (h : m.Sources r own definitions elements) {d : TypeDefinition} :
    d ∈ definitions ↔ ∃ name ∈ m.hierarchy, r.get? name = some d := by
  obtain ⟨h₁, h₂⟩ := mapM_eq_ok h.definitions_eq
  constructor
  · intro hd
    obtain ⟨name, hname, hr⟩ := h₁ d hd
    exact ⟨name, hname, Registry.resolve_eq_ok.1 hr⟩
  · rintro ⟨name, hname, hd⟩
    obtain ⟨d', hd', hr⟩ := h₂ name hname
    rw [Registry.resolve_eq_ok, hd] at hr
    cases hr
    exact hd'

variable {rules : List MethodRule} {type : TypeName}

/-- A constraint comes from a type of the hierarchy. -/
theorem occurrence_of_mem (h : assemble r rules type = .ok m) {b : BoundConstraint}
    (hb : b ∈ m.constraints) : b.declaredBy ∈ m.hierarchy ∧
      ∃ d, r.get? b.declaredBy = some d ∧ b.toOccurrence ∈ occurrencesOf type d := by
  obtain ⟨rfl, own, definitions, elements, hs⟩ := sources h
  have ho := List.mem_of_getElem? (mem_bindAll.1 (hs.mem_constraints.1 hb)).2
  obtain ⟨d, hd, ho⟩ := List.mem_flatMap.1 ho
  obtain ⟨name, hname, hr⟩ := hs.mem_definitions.1 hd
  have hdecl : b.declaredBy = name :=
    (location_of_mem_occurrencesOf ho).2.1.trans (Registry.name_of_get? hr)
  exact ⟨hdecl ▸ hname, d, hdecl ▸ hr, ho⟩

/-- Whatever a type of the hierarchy declares is a constraint. -/
theorem exists_mem_of_occurrence (h : assemble r rules type = .ok m) {name : TypeName}
    {d : TypeDefinition} {o : Occurrence} (hname : name ∈ m.hierarchy) (hd : r.get? name = some d)
    (ho : o ∈ occurrencesOf type d) : ∃ b ∈ m.constraints, b.toOccurrence = o := by
  obtain ⟨rfl, own, definitions, elements, hs⟩ := sources h
  obtain ⟨i, hi⟩ := List.mem_iff_getElem?.1
    (List.mem_flatMap.2 ⟨d, hs.mem_definitions.2 ⟨name, hname, hd⟩, ho⟩)
  exact ⟨⟨o, i, m.type⟩, hs.mem_constraints.2 (mem_bindAll.2 ⟨rfl, hi⟩), rfl⟩

/-- A constraint of an object applies to the object itself or to one of its properties. -/
theorem location_of_mem (h : assemble r rules type = .ok m) {b : BoundConstraint}
    (hb : b ∈ m.constraints) : b.location = .self ∨ ∃ name, b.location = .property name := by
  obtain ⟨-, d, -, ho⟩ := occurrence_of_mem h hb
  exact (location_of_mem_occurrencesOf ho).1.imp id fun ⟨p, _, hl⟩ => ⟨p.name, hl⟩

end Metadata

/-! ### The numbers of constraints -/

/-- All constraints of an executable. -/
def ExecutableMetadata.constraints (e : ExecutableMetadata) : List BoundConstraint :=
  e.parameters.flatMap (·.constraints) ++ e.returnConstraints ++ e.crossParameter

/-- The constraints of an executable on what is at a location. -/
def ExecutableMetadata.constraintsAt (e : ExecutableMetadata) : Location → List BoundConstraint
  | .parameter index => (e.parameters[index]?).toList.flatMap (·.constraints)
  | .crossParameter => e.crossParameter
  | .returnValue => e.returnConstraints
  | _ => []

/-- All constraints of a type, those of its executables included. -/
def Metadata.allConstraints (m : Metadata) : List BoundConstraint :=
  m.constraints ++ (m.methods ++ m.constructors).flatMap (·.constraints)

namespace Assembly

theorem sublist_withoutRepeats (bs : List BoundConstraint) : (withoutRepeats bs).Sublist bs := by
  have hfold : ∀ bs kept : List BoundConstraint, (bs.foldl (fun kept b =>
      if kept.any fun k => k.container = b.container && k.constraint.same b.constraint then kept
      else kept ++ [b]) kept).Sublist (kept ++ bs) := by
    intro bs
    induction bs with
    | nil => simp
    | cons b bs ih =>
      intro kept
      rw [List.foldl_cons]
      split
      · exact (ih kept).trans ((List.sublist_cons_self b bs).append_left kept)
      · simpa using ih (kept ++ [b])
  exact hfold bs []

theorem mem_withoutRepeats {b : BoundConstraint} {bs : List BoundConstraint}
    (h : b ∈ withoutRepeats bs) : b ∈ bs := (sublist_withoutRepeats bs).subset h

theorem subperm_insertExecutable {e : ExecutableMetadata} : ∀ es : List ExecutableMetadata,
    (insertExecutable e es).Subperm (e :: es)
  | [] => .refl _
  | x :: es => by
    unfold insertExecutable
    split
    · exact .refl _
    · exact ((List.sublist_cons_self x es).cons_cons e).subperm
    · exact ((List.subperm_cons x).2 (subperm_insertExecutable es)).trans (List.Perm.swap e x es).subperm

theorem mem_insertExecutable {e x : ExecutableMetadata} {es : List ExecutableMetadata}
    (h : x ∈ insertExecutable e es) : x = e ∨ x ∈ es :=
  List.mem_cons.1 ((subperm_insertExecutable es).subset h)

/-- Where the constraints of an executable apply. -/
def locations (parameters : Nat) : List Location :=
  (List.range parameters).map .parameter ++ [.returnValue, .crossParameter]

theorem nodup_locations (parameters : Nat) : (locations parameters).Nodup := by
  refine List.nodup_append.2 ⟨List.nodup_range.map fun _ _ => Location.parameter.inj, by simp, ?_⟩
  intro l hl l' hl'
  obtain ⟨index, -, rfl⟩ := List.mem_map.1 hl
  rintro rfl
  simp at hl'

/-- What declarations of an executable put on its parameters, its returned value and its arguments. -/
theorem mem_executableOccurrences {r : Registry} {n : Nat} {ds : List Executable} {o : Occurrence} :
    o ∈ executableOccurrences r n ds ↔ ∃ d ∈ ds,
      (∃ index < n, ∃ p, d.parameters[index]? = some p ∧
        o ∈ p.element.occurrences (.parameter index) d.declaredBy (r.isInterface d.declaredBy)) ∨
      o ∈ d.returnValue.occurrences .returnValue d.declaredBy (r.isInterface d.declaredBy) ∨
      ∃ k ∈ d.crossParameter,
        o = ⟨k, .crossParameter, none, d.declaredBy, r.isInterface d.declaredBy⟩ := by
  unfold executableOccurrences
  simp only [List.mem_append, List.mem_flatMap, List.mem_range, List.mem_map]
  constructor
  · rintro (⟨index, hindex, d, hd, ho⟩ | ⟨d, hd, ho | ⟨k, hk, rfl⟩⟩)
    · split at ho
      · cases ho
      · next p hp => exact ⟨d, hd, .inl ⟨index, hindex, p, hp, ho⟩⟩
    · exact ⟨d, hd, .inr (.inl ho)⟩
    · exact ⟨d, hd, .inr (.inr ⟨k, hk, rfl⟩)⟩
  · rintro ⟨d, hd, ⟨index, hindex, p, hp, ho⟩ | ho | ⟨k, hk, rfl⟩⟩
    · exact .inl ⟨index, hindex, d, hd, by simpa only [hp] using ho⟩
    · exact .inr ⟨d, hd, .inl ho⟩
    · exact .inr ⟨d, hd, .inr ⟨k, hk, rfl⟩⟩

/-- What declarations of an executable put on its values applies at one of its locations. -/
theorem location_mem_locations {r : Registry} {n : Nat} {ds : List Executable} {o : Occurrence}
    (h : o ∈ executableOccurrences r n ds) : o.location ∈ locations n := by
  obtain ⟨d, -, ⟨index, hindex, p, -, ho⟩ | ho | ⟨k, -, rfl⟩⟩ := mem_executableOccurrences.1 h
  · simp [locations, (Element.of_mem_occurrences ho).1, hindex]
  · simp [locations, (Element.of_mem_occurrences ho).1]
  · simp [locations]

/-- The constraints of an executable are those at its locations, one location after the other. -/
theorem constraints_eq_flatMap (e : ExecutableMetadata) :
    e.constraints = (locations e.parameters.length).flatMap e.constraintsAt := by
  have hparameters : ∀ ps : List ParameterMetadata,
      (List.range ps.length).flatMap (fun index => (ps[index]?).toList) = ps := by
    intro ps
    induction ps with
    | nil => rfl
    | cons p ps ih => simpa [List.range_succ_eq_map, List.flatMap_map] using ih
  conv_lhs => rw [ExecutableMetadata.constraints, ← hparameters e.parameters]
  simp [locations, ExecutableMetadata.constraintsAt, List.flatMap_map, List.flatMap_assoc]

section

variable {r : Registry} {type : TypeName} {next : Nat} {first : Executable} {others : List Executable}
  {e : ExecutableMetadata}

/-- A merged executable has, wherever constraints apply, what its declarations put there, without
repeats. -/
theorem constraintsAt_of_mergeExecutable (h : mergeExecutable r type next first others = .ok e)
    (location : Location) : e.constraintsAt location = withoutRepeats ((bindAll type next
      (executableOccurrences r first.parameters.length (first :: others))).filter
        (·.location = location)) := by
  -- At any other location nothing is declared.
  have hnone : location ∉ locations first.parameters.length → [] = withoutRepeats ((bindAll type next
      (executableOccurrences r first.parameters.length (first :: others))).filter
        (·.location = location)) := by
    intro hlocation
    rw [List.filter_eq_nil_iff.2 fun b hb => ?_]
    · rfl
    · obtain ⟨i, hi, rfl⟩ := List.mem_mapIdx.1 hb
      have hmem := location_mem_locations (List.getElem_mem hi)
      simpa using ne_of_mem_of_not_mem hmem hlocation
  unfold mergeExecutable at h
  obtain ⟨parameters, hparameters, h⟩ := bind_eq_ok.1 h
  obtain ⟨returned, -, h⟩ := bind_eq_ok.1 h
  cases h
  cases location with
  | parameter index =>
    have hparameter := getElem?_of_mapM hparameters index
    simp only [List.getElem?_zipIdx, Option.map_map, Nat.zero_add] at hparameter
    cases hindex : first.parameters[index]? with
    | none =>
      rw [hindex, Option.map_none, eq_comm, Option.map_eq_none_iff] at hparameter
      simp only [ExecutableMetadata.constraintsAt, hparameter]
      exact hnone (by simpa [locations] using hindex)
    | some q =>
      rw [hindex, Option.map_some, eq_comm] at hparameter
      obtain ⟨p, hp, hq⟩ := Option.map_eq_some_iff.1 hparameter
      obtain ⟨element, -, hq⟩ := bind_eq_ok.1 hq.symm
      cases hq
      simp [ExecutableMetadata.constraintsAt, hp]
  | crossParameter => rfl
  | returnValue => rfl
  | self => exact hnone (by simp [locations])
  | property name => exact hnone (by simp [locations])

theorem subperm_mergeExecutable (h : mergeExecutable r type next first others = .ok e) :
    e.constraints.Subperm
      (bindAll type next (executableOccurrences r first.parameters.length (first :: others))) := by
  rw [constraints_eq_flatMap, List.flatMap_congr fun l _ => constraintsAt_of_mergeExecutable h l]
  refine (List.Sublist.flatMap_right _ fun _ _ => sublist_withoutRepeats _).subperm.trans ?_
  refine (perm_flatMap_filter _ _ (nodup_locations _)).subperm.trans ?_
  exact List.filter_sublist.subperm

/-- What is demanded at a location applies there. -/
theorem location_of_mem_constraintsAt (h : mergeExecutable r type next first others = .ok e)
    {location : Location} {b : BoundConstraint} (hb : b ∈ e.constraintsAt location) :
    b.location = location := by
  rw [constraintsAt_of_mergeExecutable h] at hb
  simpa using (List.mem_filter.1 (mem_withoutRepeats hb)).2

end

/-- Declarations that are added keep the rules and become one executable. -/
theorem addExecutable_ok {r : Registry} {rules : List MethodRule} {type : TypeName}
    {a a' : Assembled} {ds : List Executable} (h : addExecutable r rules type a ds = .ok a') :
    (ds = [] ∧ a' = a) ∨ ∃ first others e, ds = first :: others ∧
      MethodRule.checkAll r rules (first :: others) = .ok () ∧
      mergeExecutable r type a.next first others = .ok e ∧
      a' = ⟨a.next + (executableOccurrences r first.parameters.length (first :: others)).length,
        insertExecutable e a.executables⟩ := by
  cases ds with
  | nil =>
    cases h
    exact .inl ⟨rfl, rfl⟩
  | cons first others =>
    obtain ⟨_, hrules, h⟩ := bind_eq_ok.1 h
    obtain ⟨e, he, h⟩ := bind_eq_ok.1 h
    cases h
    exact .inr ⟨first, others, e, rfl, hrules, he, rfl⟩

/-- Executables that are put together are merged from declarations that keep the rules. -/
theorem exists_of_mem_addAll {r : Registry} {rules : List MethodRule} {type : TypeName} {α : Type}
    {d : α → List Executable} {xs : List α} {a a' : Assembled}
    (h : xs.foldlM (fun a x => addExecutable r rules type a (d x)) a = .ok a')
    (ha : a.executables = []) {e : ExecutableMetadata} (he : e ∈ a'.executables) :
    ∃ x ∈ xs, ∃ first others next, d x = first :: others ∧
      MethodRule.checkAll r rules (first :: others) = .ok () ∧
      mergeExecutable r type next first others = .ok e := by
  let I (a : Assembled) : Prop := ∀ e ∈ a.executables, ∃ x ∈ xs, ∃ first others next,
    d x = first :: others ∧ MethodRule.checkAll r rules (first :: others) = .ok () ∧
      mergeExecutable r type next first others = .ok e
  suffices hI : I a' from hI e he
  refine foldlM_keeps (I := I) ?_ h (by simp [I, ha])
  intro a x a' hx hI h
  rcases addExecutable_ok h with ⟨-, rfl⟩ | ⟨first, others, e, hd, hrules, he, rfl⟩
  · exact hI
  · intro e' he'
    rcases mem_insertExecutable he' with rfl | he'
    · exact ⟨x, hx, first, others, a.next, hd, hrules, he⟩
    · exact hI e' he'

/-- Whether constraints of executables belong to a type and have numbers of their own, all of them from a
first number on and below the next one. -/
structure Spans (type : TypeName) (start : Nat) (a : Assembled) : Prop where
  start_le : start ≤ a.next
  range : ∀ b ∈ a.executables.flatMap (·.constraints), b.type = type ∧ start ≤ b.id ∧ b.id < a.next
  distinct : (a.executables.flatMap (·.constraints)).Pairwise fun b b' => b.id ≠ b'.id

theorem spans_nil (type : TypeName) (start : Nat) : Spans type start { next := start } :=
  ⟨Nat.le_refl _, by simp, by simp⟩

section

variable {r : Registry} {rules : List MethodRule} {type : TypeName} {start : Nat} {a a' : Assembled}

theorem Spans.addExecutable {ds : List Executable} (ha : Spans type start a)
    (h : addExecutable r rules type a ds = .ok a') : Spans type start a' := by
  rcases addExecutable_ok h with ⟨-, rfl⟩ | ⟨first, others, e, -, -, he, rfl⟩
  · exact ha
  have hbound := subperm_mergeExecutable he
  have hinserted := subperm_flatMap (·.constraints) (subperm_insertExecutable (e := e) a.executables)
  rw [List.flatMap_cons] at hinserted
  have hnew : ∀ b ∈ e.constraints, b.type = type ∧ a.next ≤ b.id ∧ b.id < a.next +
      (executableOccurrences r first.parameters.length (first :: others)).length := by
    intro b hb
    obtain ⟨i, hi, rfl⟩ := List.mem_mapIdx.1 (hbound.subset hb)
    exact ⟨rfl, by simp, by simpa using hi⟩
  refine ⟨Nat.le_add_right_of_le ha.start_le, fun b hb => ?_, ?_⟩
  · rcases List.mem_append.1 (hinserted.subset hb) with hb | hb
    · obtain ⟨htype, hstart, hnext⟩ := hnew b hb
      exact ⟨htype, Nat.le_trans ha.start_le hstart, hnext⟩
    · obtain ⟨htype, hstart, hnext⟩ := ha.range b hb
      exact ⟨htype, hstart, Nat.lt_add_right _ hnext⟩
  · refine pairwise_of_subperm Ne.symm hinserted (List.pairwise_append.2 ⟨?_, ha.distinct, ?_⟩)
    · exact pairwise_of_subperm Ne.symm hbound (distinct_bindAll type _ _)
    · intro b hb b' hb'
      have := (hnew b hb).2.1
      have := (ha.range b' hb').2.2
      omega

theorem Spans.addAll {α : Type} {d : α → List Executable} {xs : List α} (ha : Spans type start a)
    (h : xs.foldlM (fun a x => Assembly.addExecutable r rules type a (d x)) a = .ok a') :
    Spans type start a' :=
  foldlM_keeps (fun _ _ _ _ ha h => ha.addExecutable h) h ha

end

end Assembly

namespace Metadata

open Assembly

variable {r : Registry} {rules : List MethodRule} {type : TypeName} {m : Metadata}

/-- The executables of metadata are put together from the methods that the hierarchy declares, and from
the constructors of the type itself. -/
theorem Sources.executables {own : TypeDefinition} {definitions : List TypeDefinition}
    {elements : List (String × Element)} (hs : m.Sources r own definitions elements)
    (h : assemble r rules type = .ok m) : ∃ methods constructors : Assembled,
      (groupBySignature (definitions.flatMap (memberMethods m.type))).foldlM
        (addExecutable r rules m.type)
        { next := (definitions.flatMap (occurrencesOf m.type)).length } = .ok methods ∧
      (if own.isInterface then [] else own.constructors).foldlM
        (fun a c => addExecutable r rules m.type a [c]) { next := methods.next } = .ok constructors ∧
      m.methods = methods.executables ∧ m.constructors = constructors.executables := by
  obtain ⟨rfl, -⟩ := sources h
  unfold assemble at h
  obtain ⟨own', hown, h⟩ := bind_eq_ok.1 h
  obtain ⟨hierarchy, hhierarchy, h⟩ := bind_eq_ok.1 h
  obtain ⟨definitions', hdefinitions, h⟩ := bind_eq_ok.1 h
  obtain ⟨default, -, h⟩ := bind_eq_ok.1 h
  obtain ⟨elements', -, h⟩ := bind_eq_ok.1 h
  obtain ⟨direct, -, h⟩ := bind_eq_ok.1 h
  obtain ⟨methods, hmethods, h⟩ := bind_eq_ok.1 h
  obtain ⟨constructors, hconstructors, h⟩ := bind_eq_ok.1 h
  obtain rfl : own = own' := Option.some.inj (hs.own_eq.symm.trans (Registry.resolve_eq_ok.1 hown))
  obtain rfl : m.hierarchy = hierarchy := Except.ok.inj (hs.hierarchy_eq.symm.trans hhierarchy)
  obtain rfl : definitions = definitions' :=
    Except.ok.inj (hs.definitions_eq.symm.trans hdefinitions)
  have hm := Except.ok.inj h
  refine ⟨methods, constructors, ?_, hconstructors, hm ▸ rfl, hm ▸ rfl⟩
  rwa [bindAll, List.length_mapIdx] at hmethods

/-- All constraints of a type are of the type, and each has a number of its own. -/
theorem numbered (h : assemble r rules type = .ok m) :
    (∀ b ∈ m.allConstraints, b.type = type) ∧
      m.allConstraints.Pairwise fun b b' => b.id ≠ b'.id := by
  obtain ⟨rfl, own, definitions, elements, hs⟩ := sources h
  obtain ⟨methods, constructors, hadd, hadd', hmethods, hconstructors⟩ := hs.executables h
  have hm := (spans_nil m.type _).addAll (d := id) hadd
  have hc := (spans_nil m.type _).addAll (d := fun c => [c]) hadd'
  have hown : ∀ b ∈ m.constraints, b.type = m.type ∧
      b.id < (definitions.flatMap (occurrencesOf m.type)).length := by
    intro b hb
    obtain ⟨htype, hid⟩ := mem_bindAll.1 (hs.mem_constraints.1 hb)
    exact ⟨htype, (List.getElem?_eq_some_iff.1 hid).1⟩
  rw [allConstraints, hmethods, hconstructors, List.flatMap_append]
  constructor
  · simp only [List.forall_mem_append]
    exact ⟨fun b hb => (hown b hb).1, fun b hb => (hm.range b hb).1, fun b hb => (hc.range b hb).1⟩
  · refine List.pairwise_append.2 ⟨?_, List.pairwise_append.2 ⟨hm.distinct, hc.distinct, ?_⟩, ?_⟩
    · exact (hs.perm_constraints.pairwise_iff Ne.symm).2 (distinct_bindAll _ _ _)
    · intro b hb b' hb'
      have := (hm.range b hb).2
      have := (hc.range b' hb').2
      omega
    · intro b hb b' hb'
      have := (hown b hb).2
      rcases List.mem_append.1 hb' with hb' | hb'
      · have := (hm.range b' hb').2
        omega
      · have := hm.start_le
        have := (hc.range b' hb').2
        omega

/-- The number of a constraint tells it from all others of the type. -/
theorem eq_of_key_eq (h : assemble r rules type = .ok m) {b b' : BoundConstraint}
    (hb : b ∈ m.allConstraints) (hb' : b' ∈ m.allConstraints) (hk : b.key = b'.key) : b = b' := by
  have hids : (m.allConstraints.map (·.id)).Nodup := List.pairwise_map.2 (numbered h).2
  exact List.inj_on_of_nodup_map hids hb hb' (congrArg Prod.snd hk)

theorem constraints_subset (m : Metadata) : m.constraints ⊆ m.allConstraints :=
  List.subset_append_left _ _

/-- No constraint is in the metadata of a type twice, and their numbers tell them apart. -/
theorem nodup_constraints (h : assemble r rules type = .ok m) :
    (m.constraints.map (·.key)).Nodup := by
  have hdistinct := (numbered h).2.sublist (List.sublist_append_left _ _)
  exact List.pairwise_map.2 (hdistinct.imp fun hid hk => hid (congrArg Prod.snd hk))

/-- The executables of a type are merged from declarations. -/
theorem exists_mergeExecutable (h : assemble r rules type = .ok m) {e : ExecutableMetadata}
    (he : e ∈ m.methods ++ m.constructors) :
    ∃ first others next, mergeExecutable r type next first others = .ok e := by
  obtain ⟨rfl, own, definitions, elements, hs⟩ := sources h
  obtain ⟨methods, constructors, hm, hc, hmethods, hconstructors⟩ := hs.executables h
  rcases List.mem_append.1 he with he | he
  · obtain ⟨_, -, first, others, next, -, -, hmerge⟩ :=
      exists_of_mem_addAll (d := id) hm rfl (hmethods ▸ he)
    exact ⟨first, others, next, hmerge⟩
  · obtain ⟨_, -, first, others, next, -, -, hmerge⟩ :=
      exists_of_mem_addAll (d := fun x => [x]) hc rfl (hconstructors ▸ he)
    exact ⟨first, others, next, hmerge⟩

/-- The constraints of executables apply to no instance. -/
theorem location_of_mem_executable (h : assemble r rules type = .ok m) {e : ExecutableMetadata}
    (he : e ∈ m.methods ++ m.constructors) {b : BoundConstraint} (hb : b ∈ e.constraints) :
    ¬ (b.location = .self ∨ ∃ name, b.location = .property name) := by
  obtain ⟨first, others, next, hmerge⟩ := exists_mergeExecutable h he
  rw [constraints_eq_flatMap] at hb
  obtain ⟨location, hlocation, hb⟩ := List.mem_flatMap.1 hb
  rw [location_of_mem_constraintsAt hmerge hb]
  rintro (rfl | ⟨name, rfl⟩) <;> simp [locations] at hlocation

/-- What is demanded of one argument, or of all arguments together, applies there. -/
theorem location_of_mem_arguments (h : assemble r rules type = .ok m) {e : ExecutableMetadata}
    (he : e ∈ m.methods ++ m.constructors) :
    (∀ (index : Nat) (p : ParameterMetadata), e.parameters[index]? = some p →
      ∀ b ∈ p.constraints, b.location = .parameter index) ∧
    ∀ b ∈ e.crossParameter, b.location = .crossParameter := by
  obtain ⟨first, others, next, hmerge⟩ := exists_mergeExecutable h he
  refine ⟨fun index p hp b hb => location_of_mem_constraintsAt hmerge ?_,
    fun b hb => location_of_mem_constraintsAt hmerge hb⟩
  simpa [ExecutableMetadata.constraintsAt, hp] using hb

end Metadata

/-! ### Redefined default groups -/

theorem Sequence.subset_place {name group : TypeName} {groups groups' : List TypeName}
    (h : place name groups group = .ok groups') : groups ⊆ groups' ∧ group ∈ groups' := by
  unfold place at h
  split at h
  · next hg =>
    split at h
    · cases h
      exact ⟨fun _ => id, hg⟩
    · cases h
  · cases h
    simp

/-- A sequence runs each member that is a group. -/
theorem Sequence.mem_expand {r : Registry} {path : List TypeName} {name : TypeName}
    {members groups : List TypeName} {group : TypeName} (hs : r.sequenceMembers? group = none)
    (hg : group ∈ members) (h : expand r path name members = .ok groups) : group ∈ groups := by
  unfold expand at h
  refine foldlM_reaches (x := group) (I := (group ∈ ·)) ?_
    ?_ hg h
  · intro gs gs' h
    split at h
    · cases h
    · next d hd =>
      have hd' : d.sequenceMembers? = none := by simpa [Registry.sequenceMembers?, hd] using hs
      split at h
      · exact (subset_place h).2
      · simp_all
  · intro gs member gs' hmem h
    split at h
    · cases h
    · split at h
      · exact (subset_place h).1 hmem
      · split at h
        · cases h
        · obtain ⟨nested, -, h⟩ := bind_eq_ok.1 h
          exact foldlM_keeps (I := (group ∈ ·)) (fun _ _ _ _ hb hp => (subset_place hp).1 hb) h hmem

/-- The order of a redefined default group is one sequence, which runs the default group. -/
def Order.RunsDefault (o : Order) : Prop :=
  o.groups = [] ∧ ∃ q, o.sequences = [q] ∧ [Group.plain TypeName.defaultGroup] ∈ q.positions

theorem Order.ofDefaultSequence_runsDefault {r : Registry} {type : TypeName}
    {groups : List TypeName} {o : Order} (hs : r.sequenceMembers? TypeName.defaultGroup = none)
    (hg : TypeName.defaultGroup ∈ groups) (h : ofDefaultSequence r type groups = .ok o) :
    o.RunsDefault := by
  obtain ⟨q, hq, h⟩ := bind_eq_ok.1 h
  cases h
  obtain ⟨expanded, he, hq⟩ := bind_eq_ok.1 hq
  obtain ⟨positions, hp, hq⟩ := bind_eq_ok.1 hq
  cases hq
  refine ⟨rfl, _, rfl, ?_⟩
  obtain ⟨position, hmem, hpos⟩ := (mapM_eq_ok hp).2 _ (Sequence.mem_expand hs hg he)
  cases hpos
  exact hmem

theorem default_mem_redefinition {type : TypeName} {listed : Option (List TypeName)}
    {groups : List TypeName} (h : redefinition type listed = .ok groups) :
    TypeName.defaultGroup ∈ groups := by
  unfold redefinition at h
  split at h
  · cases h
  · cases h
  · split at h
    · cases h
    · split at h
      · next ht =>
        cases h
        exact List.mem_map.2 ⟨type, ht, if_pos rfl⟩
      · cases h

/-- A default group that a class lists runs the default group. -/
theorem Metadata.listed_runsDefault {r : Registry} {rules : List MethodRule} {type : TypeName}
    {m : Metadata} {groups : List TypeName} {o : Order}
    (hs : r.sequenceMembers? TypeName.defaultGroup = none)
    (h : assemble r rules type = .ok m) (hm : m.default = .listed groups o) : o.RunsDefault := by
  obtain ⟨rfl, own, definitions, elements, hsrc⟩ := sources h
  have hdef := hsrc.default_eq
  rw [hm] at hdef
  unfold Assembly.defaultSequence at hdef
  split at hdef
  · cases hdef
  · split at hdef
    · cases hdef
    · obtain ⟨gs, hgs, hdef⟩ := bind_eq_ok.1 hdef
      split at hdef
      · cases hdef
      · obtain ⟨o', ho', hdef⟩ := bind_eq_ok.1 hdef
        cases hdef
        exact Order.ofDefaultSequence_runsDefault hs (default_mem_redefinition hgs) ho'
    · split at hdef
      · obtain ⟨assignable, -, hdef⟩ := bind_eq_ok.1 hdef
        split at hdef <;> cases hdef
      · cases hdef
    · cases hdef

/-! ### Remembered metadata -/

/-- Whether what is remembered is what would be put together again. -/
def MetadataCache.Coherent (r : Registry) (rules : List MethodRule) (cache : MetadataCache) :
    Prop := ∀ type m, cache.lookup type = some m → Metadata.assemble r rules type = .ok m

theorem MetadataCache.coherent_nil (r : Registry) (rules : List MethodRule) :
    Coherent r rules [] := by simp [Coherent]

theorem lookup_concat {α β : Type} [BEq α] [LawfulBEq α] {k k' : α} {v w : β} :
    ∀ {l : List (α × β)}, (l ++ [(k, v)]).lookup k' = some w →
      l.lookup k' = some w ∨ (k' = k ∧ w = v)
  | [], h => by
    simp only [List.nil_append, List.lookup_cons] at h
    split at h
    · simp_all
    · simp at h
  | (a, b) :: l, h => by
    rw [List.cons_append, List.lookup_cons] at h
    rw [List.lookup_cons]
    split at h
    · exact .inl h
    · exact lookup_concat h

theorem run_get_bind {σ ε α : Type} (f : σ → ExceptT ε (StateM σ) α) (s : σ) :
    (get >>= f).run.run s = (f s).run.run s := rfl

theorem run_bind {σ ε α β : Type} (x : ExceptT ε (StateM σ) α) (f : α → ExceptT ε (StateM σ) β)
    (s : σ) : ((x >>= f).run.run s).run =
      match (x.run.run s).run with
      | (.ok a, s') => ((f a).run.run s').run
      | (.error e, s') => (.error e, s') := by
  simp only [ExceptT.run_bind, StateT.run_bind]
  cases h : StateT.run (ExceptT.run x) s with
  | mk a s' =>
    cases a with
    | ok a => rfl
    | error e => rfl

/-- From a coherent memory metadata comes as it is put together, and the memory stays coherent. -/
theorem Metadata.obtain_coherent {r : Registry} {rules : List MethodRule} {cache : MetadataCache}
    (h : cache.Coherent r rules) (type : TypeName) :
    ∃ cache' : MetadataCache, cache'.Coherent r rules ∧
      ((obtain r rules type).run.run cache).run = (assemble r rules type, cache') := by
  unfold obtain
  rw [run_get_bind]
  cases hl : cache.lookup type with
  | some m =>
    refine ⟨cache, h, ?_⟩
    simp only [h type m hl]
    rfl
  | none =>
    cases ha : assemble r rules type with
    | error e => exact ⟨cache, h, rfl⟩
    | ok m =>
      refine ⟨cache ++ [(type, m)], ?_, rfl⟩
      intro t n hn
      rcases lookup_concat hn with hn | ⟨rfl, rfl⟩
      · exact h t n hn
      · exact ha

end ObjectValidation
