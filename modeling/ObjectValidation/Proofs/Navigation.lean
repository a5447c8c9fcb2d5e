import ObjectValidation.Proofs.FirstViolation
import ObjectValidation.Proofs.Inheritance
import ObjectValidation.Proofs.Rendering
import ObjectValidation.Proofs.Reporting
import ObjectValidation.Proofs.Ways
/-!
# Going where paths lead

Validation comes to an object along references, and the path it has there names their properties and
positions in turn (`Call.WayTo`). The text of a path of a violation is read back as these steps, and each
step leads on to where the reference does (`Value.RefersTo.next?_eq`). So navigation by that text comes to
the object that violates the constraint, unless a value on the way is an optional of an optional: a
cascade opens all of them, and navigation the outer one (`validate_leads_back`).

A position is shown as its key or number alone. So a key that reads as a number but is not written as that
number is, leads elsewhere (`padded_key_leads_nowhere`).
-/

namespace ObjectValidation

open Run

/-! ### Nodes along references -/

/-- The position that a reference adds to the path of what it refers to. -/
def Reference.position (r : Reference) : Option Position := r.part.join

/-- The nodes of the path of a property behind references, the first node having the position given. -/
def nodesAlong (position : Option Position) : List Reference → String → List PathNode
  | [], name => [⟨some name, position⟩]
  | r :: rs, name => ⟨some r.property, position⟩ :: nodesAlong r.position rs name

theorem nodesAlong_concat (r : Reference) (name : String) : ∀ (position : Option Position)
    (rs : List Reference), nodesAlong position (rs ++ [r]) name =
      nodesAlong position rs r.property ++ [⟨some name, r.position⟩]
  | _, [] => rfl
  | _, r' :: rs => congrArg (_ :: ·) (nodesAlong_concat r name r'.position rs)

theorem nodesAlong_named {n : PathNode} {name : String} : ∀ {position : Option Position}
    {rs : List Reference}, n ∈ nodesAlong position rs name → n.name.isSome
  | _, [], h => by
    rw [List.mem_singleton.1 h]
    rfl
  | _, r :: rs, h => by
    rcases List.mem_cons.1 h with rfl | h
    · rfl
    · exact nodesAlong_named h

theorem position_mem_nodesAlong {r : Reference} (name : String) : ∀ (position : Option Position)
    {rs : List Reference}, r ∈ rs → ∃ n ∈ nodesAlong position rs name, n.position = r.position
  | _, r' :: rs, h => by
    rcases List.mem_cons.1 h with rfl | h
    · cases rs <;> exact ⟨_, List.mem_cons_of_mem _ (List.mem_cons_self), rfl⟩
    · obtain ⟨n, hn, hposition⟩ := position_mem_nodesAlong name r'.position h
      exact ⟨n, List.mem_cons_of_mem _ hn, hposition⟩

theorem getLast?_nodesAlong (name : String) : ∀ (position : Option Position) (rs : List Reference),
    ((nodesAlong position rs name).map (·.asRead)).getLast?.bind (·.name) = some name
  | _, [] => rfl
  | _, [_] => rfl
  | _, _ :: r :: rs => getLast?_nodesAlong name _ (r :: rs)

theorem exists_nodesAlong_eq (position : Option Position) (rs : List Reference) (name : String) :
    ∃ first rest, nodesAlong position rs name = ⟨some first, position⟩ :: rest := by
  cases rs <;> exact ⟨_, _, rfl⟩

/-- A property of a part of a named value adds one node, which has the position of the part. -/
theorem Reference.nodes_pathOf_property {path : Path} (hnamed : path.Named) (hne : path.nodes ≠ [])
    (part : Part) (name : String) : ((pathOf path part).property name).nodes =
      path.nodes ++ [⟨some name, part.join⟩] := by
  cases part with
  | none =>
    obtain ⟨ns, n, hns⟩ := (List.eq_nil_or_concat path.nodes).resolve_left hne
    rw [List.concat_eq_append] at hns
    have hn : n.name.isNone = false := by simpa using hnamed n (by simp [hns])
    change Path.nameLast name path.nodes = _
    rw [hns, Path.nameLast_concat, hn]
    simp
  | some position => exact Path.nameLast_concat name ⟨none, position⟩ path.nodes

/-- The step of navigation that is to lead along a reference. -/
def Reference.route (r : Reference) : Option String × Option Position :=
  (some r.property, r.position.map (·.asRead))

theorem stepsOf_nodesAlong (name : String) : ∀ (position : Option Position) (rs : List Reference),
    Call.stepsOf ((nodesAlong position rs name).map (·.asRead)) = rs.map (·.route)
  | _, [] => rfl
  | _, [_] => rfl
  | _, r :: r' :: rs => congrArg (r.route :: ·) (stepsOf_nodesAlong name r.position (r' :: rs))

/-! ### What values lead on to -/

namespace Path

/-- Whether a key does not read as a number, or is written as the number is. -/
def ReadsBack (key : String) : Prop := ∀ n ∈ readIndex? key.toList, toString n = key

instance (key : String) : Decidable (ReadsBack key) :=
  inferInstanceAs (Decidable (∀ n ∈ readIndex? key.toList, toString n = key))

/-- Whether all keys on a path are read as what they are. -/
def KeysReadBack (p : Path) : Prop := ∀ n ∈ p.nodes, ∀ key ∈ n.position.bind (·.key?), ReadsBack key

instance (p : Path) : Decidable p.KeysReadBack :=
  inferInstanceAs (Decidable (∀ n ∈ p.nodes, ∀ key ∈ n.position.bind (·.key?), ReadsBack key))

end Path

namespace Value

/-- Whether the value is an optional of an optional. -/
def isNested : Value → Bool
  | .optional (some (.optional _)) => true
  | _ => false

/-- Whether a list has no more items than 64 bits can count and a map has no key twice. -/
def isRepresentable (v : Value) : Bool :=
  match v.unwrapped with
  | .list items => items.length ≤ UInt64.size
  | .map entries => (entries.map (·.1)).Nodup
  | _ => true

/-- The object that navigation goes on to from a value, by a position if there is one. -/
def next? (v : Value) (position : Option Position) : Option ObjectId :=
  ((position.map v.select).getD v).unwrapped.object?

/-- Whether a value refers to an object, by itself or as a container. -/
def RefersTo (v : Value) (target : ObjectId) (part : Part) : Prop :=
  (target, part) ∈ v.parts ∨ ∃ kind : ContainerKind, (target, part) ∈ partsIn (kind.contents v)

variable {v : Value} {target : ObjectId} {part : Part} {position : Option Position}

theorem next?_of_isNested (h : v.isNested) : v.next? position = none := by
  unfold isNested at h
  split at h
  · cases position with
    | none => rfl
    | some q => cases q <;> rfl
  · cases h

theorem mem_partsIn {contents : List (Option Position × Value)} : (target, part) ∈ partsIn contents ↔
    ∃ position item, (position, item) ∈ contents ∧ item.unwrapped.object? = some target ∧
      part = some position := by
  simp only [partsIn, List.mem_filterMap, Prod.exists, Option.map_eq_some_iff, Prod.mk.injEq]
  constructor
  · rintro ⟨position, item, hmem, id, hid, rfl, rfl⟩
    exact ⟨position, item, hmem, hid, rfl⟩
  · rintro ⟨position, item, hmem, hid, rfl⟩
    exact ⟨position, item, hmem, target, hid, rfl, rfl⟩

theorem next?_list {items : List Value} (hsize : items.length ≤ UInt64.size)
    (h : (target, part) ∈ partsIn (ContainerKind.contents .listElement (.list items))) :
    (Value.list items).next? (part.join.map (·.asRead)) = some target := by
  obtain ⟨position, item, hmem, htarget, rfl⟩ := mem_partsIn.1 h
  obtain ⟨i, hi, hitem⟩ := List.mem_mapIdx.1 hmem
  cases hitem
  have hindex := Position.asRead_index (Nat.lt_of_lt_of_le hi hsize)
  simpa [next?, hindex, select, unwrapped, hi] using htarget

theorem next?_map {entries : List (String × Value)} (hnodup : (entries.map (·.1)).Nodup)
    (hkey : ∀ key ∈ part.join.bind (·.key?), key ≠ "" ∧ Path.ReadsBack key)
    (h : (target, part) ∈ partsIn (ContainerKind.contents .mapValue (.map entries))) :
    (Value.map entries).next? (part.join.map (·.asRead)) = some target := by
  obtain ⟨position, item, hmem, htarget, rfl⟩ := mem_partsIn.1 h
  obtain ⟨⟨k, _⟩, hentry, hitem⟩ := List.mem_map.1 hmem
  cases hitem
  obtain ⟨hne, hreads⟩ := hkey k rfl
  have hselect : (Value.map entries).select (Position.key k).asRead = item := by
    rw [Position.asRead_key hne]
    cases hindex : Path.readIndex? k.toList with
    | none => simp [select, unwrapped, Entries.get?, Assembly.lookup_of_mem hnodup hentry]
    | some n =>
      simp [select, unwrapped, Entries.get?, hreads n hindex, Assembly.lookup_of_mem hnodup hentry]
  simp [next?, hselect, htarget]

theorem parts_unwrapped (v : Value) : v.unwrapped.parts = v.parts := by
  unfold unwrapped
  split
  · simp [parts]
  · rfl

/-- There is one layer of optionals at most, unless there are several. -/
theorem unwrapped_unwrapped (h : v.isNested = false) : v.unwrapped.unwrapped = v.unwrapped := by
  cases v with
  | optional inner =>
    cases inner with
    | none => rfl
    | some u =>
      cases u with
      | optional => cases h
      | _ => rfl
  | _ => rfl

theorem next?_unwrapped (h : v.isNested = false) : v.unwrapped.next? position = v.next? position := by
  cases position with
  | none => simp only [next?, Option.map_none, Option.getD_none, unwrapped_unwrapped h]
  | some q => simp only [next?, Option.map_some, Option.getD_some, select, unwrapped_unwrapped h]

/-- What a value refers to that is no optional of an optional: the object that it is, or what a list or
a map has. -/
theorem RefersTo.cases (h : v.RefersTo target part) (hv : v.isNested = false) :
    (v.unwrapped = .object target ∧ part.join = none) ∨
    (∃ items, v.unwrapped = .list items ∧
      (target, part) ∈ partsIn (ContainerKind.contents .listElement (.list items))) ∨
    ∃ entries, v.unwrapped = .map entries ∧
      (target, part) ∈ partsIn (ContainerKind.contents .mapValue (.map entries)) := by
  rcases h with h | ⟨kind, h⟩
  · rw [← parts_unwrapped] at h
    cases hu : v.unwrapped with
    | object id =>
      rw [hu] at h
      simp only [parts, List.mem_singleton, Prod.mk.injEq] at h
      exact .inl ⟨by rw [h.1], by rw [h.2]; rfl⟩
    | list items => exact .inr (.inl ⟨items, rfl, by simpa [hu, parts] using h⟩)
    | map entries => exact .inr (.inr ⟨entries, rfl, by simpa [hu, parts] using h⟩)
    | optional inner =>
      cases inner with
      | none => simp [hu, parts] at h
      | some w =>
        have hflat := unwrapped_unwrapped hv
        rw [hu] at hflat
        cases (show w = .optional (some w) from hflat)
    | _ => simp [hu, parts] at h
  · unfold ContainerKind.contents at h
    split at h
    · next items => exact .inr (.inl ⟨items, rfl, h⟩)
    · next entries =>
      obtain ⟨_, item, hmem, htarget, -⟩ := mem_partsIn.1 h
      obtain ⟨_, -, hitem⟩ := List.mem_map.1 hmem
      cases hitem
      cases htarget
    · next entries => exact .inr (.inr ⟨entries, rfl, h⟩)
    · next inner =>
      obtain ⟨_, item, hmem, htarget, rfl⟩ := mem_partsIn.1 h
      cases List.mem_singleton.1 hmem
      cases inner with
      | none => cases htarget
      | some u =>
        have hu : u.unwrapped = u := unwrapped_unwrapped hv
        rw [Option.getD_some, hu] at htarget
        cases u with
        | object id => exact .inl ⟨congrArg object (Option.some.inj htarget), rfl⟩
        | _ => cases htarget
    · simp [partsIn] at h

/-- By the position of what a value refers to, navigation goes on to that, unless the value is an optional
of an optional. -/
theorem RefersTo.next?_eq (h : v.RefersTo target part) (hv : v.isRepresentable)
    (hkey : ∀ key ∈ part.join.bind (·.key?), key ≠ "" ∧ Path.ReadsBack key) :
    v.next? (part.join.map (·.asRead)) = if v.isNested then none else some target := by
  split
  · next hnested => exact next?_of_isNested hnested
  · next hnested =>
    have hnested : v.isNested = false := by simpa using hnested
    rw [← next?_unwrapped hnested]
    unfold isRepresentable at hv
    rcases h.cases hnested with ⟨hu, hpart⟩ | ⟨items, hu, h⟩ | ⟨entries, hu, h⟩
    · rw [hu, hpart]
      rfl
    · rw [hu] at hv ⊢
      exact next?_list (by simpa using hv) h
    · rw [hu] at hv ⊢
      exact next?_map (by simpa using hv) hkey h

end Value

/-- Whether the lists and maps that the properties of objects hold are representable. -/
def Store.IsRepresentable (s : Store) : Prop :=
  ∀ o ∈ s.objects, ∀ e ∈ o.2.properties, e.2.isRepresentable

instance (s : Store) : Decidable s.IsRepresentable :=
  inferInstanceAs (Decidable (∀ o ∈ s.objects, ∀ e ∈ o.2.properties, e.2.isRepresentable = true))

/-- What is so of null and of all values that objects hold is so of all properties. -/
theorem Store.property_of_forall {s : Store} {P : Value → Prop} (hnull : P .null)
    (h : ∀ o ∈ s.objects, ∀ e ∈ o.2.properties, P e.2) (x : ObjectId) (name : String) :
    P (s.property x name) := by
  unfold Store.property Store.property?
  cases ho : s.get? x with
  | none => exact hnull
  | some o =>
    cases hp : Entries.get? name o.properties with
    | none => simpa [hp] using hnull
    | some value =>
      simpa [hp] using h _ (Assembly.mem_of_lookup ho) _ (Assembly.mem_of_lookup hp)

theorem Store.IsRepresentable.property {s : Store} (h : s.IsRepresentable) (x : ObjectId)
    (name : String) : (s.property x name).isRepresentable :=
  Store.property_of_forall (P := (·.isRepresentable)) rfl h x name

theorem Element.refersTo_of_mem {e : Element} {name : String} {value : Value} {r : Reference}
    (h : r ∈ e.references name value) : r.property = name ∧ value.RefersTo r.target r.part := by
  unfold references at h
  rcases List.mem_append.1 h with h | h
  · split at h
    · obtain ⟨⟨id, part⟩, hmem, rfl⟩ := List.mem_map.1 h
      exact ⟨rfl, .inl hmem⟩
    · cases h
  · obtain ⟨⟨kind, facet⟩, -, h⟩ := List.mem_flatMap.1 h
    obtain ⟨⟨id, part⟩, hmem, rfl⟩ := List.mem_map.1 h
    exact ⟨rfl, .inr ⟨kind, hmem⟩⟩

namespace Call

variable {c : Call} {root x : ObjectId} {path : Path} {hops : List (ObjectId × Reference)}

/-- What a reference of an object is made of: a property that the type of the object has, and a value of
it that refers to the target. -/
theorem exists_of_mem_references {r : Reference} (hr : r ∈ c.references x) :
    ∃ m, c.Assembles (c.store.typeOf x) m ∧ m.hasProperty r.property ∧
      (c.store.property x r.property).RefersTo r.target r.part := by
  unfold references at hr
  split at hr
  · next m hm =>
    obtain ⟨name, -, hr⟩ := List.mem_flatMap.1 hr
    split at hr
    · cases hr
    · next p hp =>
      obtain ⟨rfl, hrefers⟩ := Element.refersTo_of_mem hr
      exact ⟨m, hm, by simp [Metadata.hasProperty, hp], hrefers⟩
  · cases hr

/-! ### Ways along references -/

/-- Whether references lead from the root to an object, which has the path there: each hop is from the
object that the one before leads to. -/
inductive WayTo (c : Call) (root : ObjectId) : List (ObjectId × Reference) → ObjectId → Path → Prop
  | root : WayTo c root [] root .root
  | hop {hops : List (ObjectId × Reference)} {x : ObjectId} {path : Path} {r : Reference} :
    WayTo c root hops x path → r ∈ c.references x →
    WayTo c root (hops ++ [(x, r)]) r.target (r.place path)

/-- The path of a property of an object is made of the references that lead to the object. -/
theorem WayTo.nodes_property (h : c.WayTo root hops x path) (name : String) :
    (path.property name).nodes = nodesAlong none (hops.map (·.2)) name := by
  induction h generalizing name with
  | root => rfl
  | @hop hops x path r _ _ ih =>
    have hnamed : (path.property r.property).Named := by
      intro n hn
      rw [ih] at hn
      exact nodesAlong_named hn
    have hne : (path.property r.property).nodes ≠ [] := by
      obtain ⟨first, rest, hns⟩ := exists_nodesAlong_eq none (hops.map (·.2)) r.property
      simp [ih, hns]
    rw [List.map_append, List.map_singleton, nodesAlong_concat, ← ih]
    exact Reference.nodes_pathOf_property hnamed hne r.part name

/-- Where the validation of an object begins, references of the root lead. -/
theorem wayTo_of_began {memory : Memory} {gs : List TypeName} {vs : List Violation} {q : Progress}
    (hmemory : memory.metadata.Coherent c.registry c.config.methodRules)
    (h : (c.validate root gs).exec (startOf memory root) = (.ok vs, q)) {group : TypeName}
    (hbegan : .began (some x) path group ∈ q.journal) : ∃ hops, c.WayTo root hops x path := by
  obtain ⟨m, p₁, order, p₂, hmeta, horder, hrun, -⟩ := validate_ok h
  obtain ⟨hknows, hp₂, hquiet⟩ := knows_of_start hmemory hmeta horder
  have halong : KeptAlong c (fun y path _ => ∃ hops, c.WayTo root hops y path)
      (c.BeginsBy (startOf memory root) x fun path _ => ∃ hops, c.WayTo root hops x path) :=
    keptAlong_beginsBy (fun _ _ => id) fun _ _ _ ⟨_, h⟩ r hr => .inr (.inl fun _ => ⟨_, h.hop hr⟩)
  have hstart : c.BeginsBy (startOf memory root) x (fun path _ => ∃ hops, c.WayTo root hops x path)
      (startOf memory root) :=
    ⟨.refl (remembers_startOf hmemory root), fun _ _ => .inl, fun _ _ hmem => by cases hmem⟩
  have hkept := (halong.runSubject (halong.cascade _) hknows rfl
    (.inl fun _ => ⟨[], .root⟩)).kept hrun (hstart.quiet hp₂ hquiet)
  exact hkept.began path group hbegan

/-! ### Navigation -/

/-- A step of navigation goes on to an object if the value leads to one. -/
theorem exec_navigate_step {m : Metadata} (hm : c.Assembles (c.store.typeOf x) m) {name : String}
    (hname : m.hasProperty name) (text : String) (path : Path) (position : Option Position)
    {p : Progress} (hp : c.Coherent p) : ∃ q, c.Coherent q ∧
      (c.navigate text x path [(some name, position)]).exec p =
        (.ok (((c.store.property x name).next? position).map fun next => (next,
          if position.isSome then (path.property name).element position
          else path.property name)), q) := by
  obtain ⟨cache, hcache, hexec⟩ := exec_metadataOf hp (c.store.typeOf x)
  unfold Assembles at hm
  rw [hm] at hexec
  refine ⟨{ p with memory := { p.memory with metadata := cache } }, hcache, ?_⟩
  rw [Call.navigate, exec_bind, hexec]
  simp only [requireProperty, hname, if_true]
  unfold Value.next?
  generalize ((position.map (c.store.property x name).select).getD
    (c.store.property x name)).unwrapped = value
  cases value <;> rfl

theorem navigate_append (text : String) (steps' : List (Option String × Option Position)) :
    ∀ (steps : List (Option String × Option Position)) (x : ObjectId) (path : Path),
    c.navigate text x path (steps ++ steps') = c.navigate text x path steps >>= fun
      | none => return none
      | some (y, path') => c.navigate text y path' steps'
  | [], x, path => rfl
  | (none, _) :: steps, x, path => rfl
  | (some name, position) :: steps, x, path => by
    rw [List.cons_append, Call.navigate, Call.navigate]
    simp only [bind_assoc]
    refine congrArg (c.metadataOf _ >>= ·) (funext fun m => congrArg (_ >>= ·) (funext fun _ => ?_))
    split
    · next next _ => exact navigate_append text steps' steps next _
    · rfl

/-- Whether a hop goes through a value that is an optional of an optional. -/
def isBarred (c : Call) (hop : ObjectId × Reference) : Bool :=
  (c.store.property hop.1 hop.2.property).isNested

/-- The step along a reference comes to what it refers to, unless the hop is barred. -/
theorem exec_navigate_route (hstore : c.store.IsRepresentable) {r : Reference}
    (hr : r ∈ c.references x)
    (hkeys : ∀ key ∈ r.position.bind (·.key?), key ≠ "" ∧ Path.ReadsBack key) (text : String)
    (path : Path) {p : Progress} (hp : c.Coherent p) : ∃ reached q, c.Coherent q ∧
      (c.navigate text x path [r.route]).exec p = (.ok reached, q) ∧
      reached.map (·.1) = if c.isBarred (x, r) then none else some r.target := by
  obtain ⟨m, hm, hname, hrefers⟩ := exists_of_mem_references hr
  obtain ⟨q, hq, hstep⟩ := exec_navigate_step hm hname text path (r.position.map (·.asRead)) hp
  have hnext := hrefers.next?_eq (hstore.property x r.property) hkeys
  refine ⟨_, q, hq, hstep, ?_⟩
  rw [Option.map_map]
  exact Option.map_id'.trans hnext

/-- Navigation by the steps along references comes to where they lead, unless a hop is barred. -/
theorem WayTo.exec_navigate (h : c.WayTo root hops x path) (hstore : c.store.IsRepresentable)
    (hkeys : ∀ hop ∈ hops, ∀ key ∈ hop.2.position.bind (·.key?), key ≠ "" ∧ Path.ReadsBack key)
    (text : String) {p : Progress} (hp : c.Coherent p) : ∃ reached q, c.Coherent q ∧
      (c.navigate text root .root (hops.map (·.2.route))).exec p = (.ok reached, q) ∧
      reached.map (·.1) = if hops.any c.isBarred then none else some x := by
  induction h with
  | root => exact ⟨some (root, .root), p, hp, rfl, rfl⟩
  | @hop hops x path r _ hr ih =>
    obtain ⟨reached, q, hq, hexec, hreached⟩ := ih fun hop hmem =>
      hkeys hop (List.mem_append_left _ hmem)
    rw [List.map_append, navigate_append, exec_bind, hexec]
    cases hbarred : hops.any c.isBarred with
    | true =>
      -- The steps before the last one have come to an end already.
      obtain rfl : reached = none := by simpa [hbarred] using hreached
      exact ⟨none, q, hq, rfl, by simp [hbarred]⟩
    | false =>
      obtain ⟨way, rfl⟩ : ∃ way, reached = some (x, way) := by
        simpa [hbarred] using hreached
      have hlast := hkeys (x, r) (List.mem_append_right _ (List.mem_singleton_self _))
      obtain ⟨reached, q', hq', hstep, hreached⟩ := exec_navigate_route hstore hr hlast text way hq
      exact ⟨reached, q', hq', hstep, by simpa [hbarred] using hreached⟩

/-- Whether the text of a path is that of a property of the name, and navigation by it from the root
comes to the target, or ends on the way if there is none. -/
def NavigatesTo (c : Call) (root : ObjectId) (text name : String) (target : Option ObjectId) : Prop :=
  ∃ read, Path.read text = .ok read ∧ read.nodes.getLast?.bind (·.name) = some name ∧
    ∀ p, c.Coherent p → ∃ reached q,
      (c.navigate text root .root (stepsOf read.nodes)).exec p = (.ok reached, q) ∧
      reached.map (·.1) = target

/-- The text of the path of a property leads to the object that has it, unless a hop on the way is
barred. -/
theorem WayTo.navigatesTo (h : c.WayTo root hops x path) (hstore : c.store.IsRepresentable)
    {name : String} (hlegible : (path.property name).Legible)
    (hkeys : (path.property name).KeysReadBack) :
    c.NavigatesTo root (path.property name).text name
      (if hops.any c.isBarred then none else some x) := by
  have hnodes := h.nodes_property name
  have hread : Path.read (path.property name).text =
      .ok ⟨(nodesAlong none (hops.map (·.2)) name).map (·.asRead)⟩ := by
    have hpath : path.property name = ⟨nodesAlong none (hops.map (·.2)) name⟩ :=
      congrArg Path.mk hnodes
    obtain ⟨first, rest, hns⟩ := exists_nodesAlong_eq none (hops.map (·.2)) name
    rw [hpath, hns] at hlegible ⊢
    exact Path.read_text rfl (fun n hn => nodesAlong_named (hns ▸ hn)) hlegible
  have hwords : ∀ hop ∈ hops, ∀ key ∈ hop.2.position.bind (·.key?),
      key ≠ "" ∧ Path.ReadsBack key := by
    intro hop hmem key hkey
    have hreference : hop.2 ∈ hops.map (·.2) := List.mem_map_of_mem hmem
    obtain ⟨n, hn, hposition⟩ := position_mem_nodesAlong name none hreference
    rw [← hnodes] at hn
    rw [← hposition] at hkey
    have hword : key ∈ n.words := by simp [PathNode.words, Option.mem_def.1 hkey]
    exact ⟨(hlegible n hn key hword).1, hkeys n hn key hkey⟩
  refine ⟨_, hread, getLast?_nodesAlong name _ _, fun p hp => ?_⟩
  obtain ⟨reached, q, -, hexec, hreached⟩ :=
    h.exec_navigate hstore hwords (path.property name).text hp
  refine ⟨reached, q, ?_, hreached⟩
  rw [stepsOf_nodesAlong, List.map_map]
  exact hexec

/-! ### What is reported -/

/-- Whether the check that an event tells of finds a violation. -/
def Finds (c : Call) (w : Violation) : Event → Prop
  | .checked object path b _ value => ∃ target ∈ b.targets path value, ∃ ws,
      c.failuresOf object b.constraint target = .ok ws ∧ w ∈ ws
  | _ => False

theorem finds_of_mem_found {e : Event} {w : Violation} (hw : w ∈ c.found e) : c.Finds w e := by
  cases e with
  | checked object path b group value =>
    cases hvs : c.failures object path value b with
    | error halt => simp [found, hvs, Except.toOption] at hw
    | ok vs =>
      rw [found_checked hvs] at hw
      exact exists_target_of_mem_failures hvs hw
  | _ => simp [found] at hw

end Call

namespace Validator

open Call

variable {v : Validator} {vs : List Violation} {w : Violation}

/-- Whatever an operation reports, a check of its call has found, also where the first violation ends
the call. -/
theorem exists_finds (hv : v.Coherent) (op : Operation) (h : (v.perform op).answer = .ok vs)
    (hw : w ∈ vs) : ∃ e ∈ (v.perform op).journal, (op.call v).Finds w e := by
  cases hfast : v.config.failFast with
  | false =>
    rw [answer_eq_addAll hv (.inl hfast) h] at hw
    obtain ⟨e, he, hw⟩ := List.mem_flatMap.1 ((Violation.mem_addAll hw).resolve_left (by simp))
    exact ⟨e, he, finds_of_mem_found hw⟩
  | true =>
    have hself := withFailFast_self hfast
    have hbrief : (op.call (v.withFailFast false)).brief = op.call v := by
      rw [← hself]
      cases op <;> rfl
    have hcut := v.perform_cut op (P := (op.call v).Caught) fun s group value path b => by
      refine (truncates_checkConstraint (by cases op <;> rfl) s group value path b).knowing ?_
      intro p a q hp hexec hq
      rw [hbrief] at hexec
      exact checkConstraint_caught (by cases op <;> exact hfast) hexec hp hq
    rw [hself] at hcut
    rcases hcut with ⟨-, hnil⟩ | ⟨ws, -, hws, ⟨l, hl⟩, -⟩
    · rw [hnil vs h] at hw
      cases hw
    · obtain rfl : vs = ws := Except.ok.inj (h.symm.trans hws)
      rw [hl] at hw
      refine ⟨.checked l.object l.path l.bound l.group l.value, by simp [l.journal_eq], ?_⟩
      exact ⟨l.target, l.applies, _, l.finds, (Violation.mem_addAll hw).resolve_left (by simp)⟩

/-- Whatever the validation of an object reports, a check has found. If the constraint is on a property,
the object that has it is one that references of the root lead to, and navigation by the text of the path
comes to that object, unless a value on the way is an optional of an optional. -/
theorem validate_leads_back (hv : v.Coherent) (hstore : v.store.IsRepresentable) {root : ObjectId}
    {gs : List TypeName} (h : (v.validate root gs).answer = .ok vs) (hw : w ∈ vs) :
    (∃ e ∈ (v.validate root gs).journal, (v.callOn root).Finds w e) ∧
    ∀ (object : Option ObjectId) (path : Path) (b : BoundConstraint) (group : TypeName)
      (value : Value) (name : String),
      .checked object path b group value ∈ (v.validate root gs).journal →
      (v.callOn root).Finds w (.checked object path b group value) →
      b.location = .property name → b.container = none →
      w.path.Legible → w.path.KeysReadBack →
      ∃ x hops way, object = some x ∧ w.leaf = some x ∧ (v.callOn root).WayTo root hops x way ∧
        w.path = way.property name ∧
        (v.callOn root).NavigatesTo root w.path.text name
          (if hops.any (v.callOn root).isBarred then none else some x) := by
  refine ⟨exists_finds hv (.object root gs) h hw, ?_⟩
  intro object path b group value name he hfinds hlocation hcontainer hlegible hkeys
  obtain ⟨s, walked, hs, rfl, hbegan, -, -, -, hplace⟩ := traced_of_mem_journal hv he
  obtain ⟨x, hx, -⟩ := hs.object
  obtain ⟨target, htarget, ws, hws, hw⟩ := hfinds
  obtain ⟨hleaf, hpath⟩ := of_mem_failuresOf hws hw
  obtain ⟨q, hexec, hjournal⟩ := v.exec_validate root gs
  rw [h] at hexec
  rw [hx, ← hjournal] at hbegan
  obtain ⟨hops, hwalked⟩ := wayTo_of_began (c := v.callOn root) hv hexec hbegan
  have hway : w.path = s.path.property name := by
    unfold Subject.place at hplace
    split at hplace
    · simp only [hlocation, Option.some.injEq, Prod.mk.injEq] at hplace
      simp only [BoundConstraint.targets, hcontainer, List.mem_singleton] at htarget
      rw [hpath, htarget, ← hplace.1]
    · cases hplace
  rw [hway] at hlegible hkeys ⊢
  exact ⟨x, hops, s.path, hx, hleaf.trans hx, hwalked, rfl,
    hwalked.navigatesTo hstore hlegible hkeys⟩

/-- A house with a room without a name, which is in a map under the key. -/
def housed (key : String) : Validator where
  registry := [{ name := ⟨"Room"⟩, kind := .concrete, fields := [
      ⟨"name", { own := { constraints := [{ kind := "NotNull" }] } }⟩,
      ⟨"next", { own := { cascading := true } }⟩,
      ⟨"doors", { containers := [(.listElement, { cascading := true })] }⟩,
      ⟨"keys", { containers := [(.mapValue, { cascading := true })] }⟩] : TypeDefinition }
    ].foldl Registry.register .initial
  evaluators := Standard.evaluators
  config := {}
  store := ⟨[
    (⟨"hall"⟩, ⟨⟨"Room"⟩, [("name", .str "hall"), ("next", .optional (some (.object ⟨"stairs"⟩)))]⟩),
    (⟨"stairs"⟩, ⟨⟨"Room"⟩, [("doors", .list [.null, .object ⟨"office"⟩]), ("name", .str "stairs")]⟩),
    (⟨"office"⟩, ⟨⟨"Room"⟩, [("keys", .map [(key, .object ⟨"safe"⟩)]), ("name", .str "office")]⟩),
    (⟨"safe"⟩, ⟨⟨"Room"⟩, []⟩)]⟩
  memory := {}

/-- Whether an event is no check, or that of a constraint on the names of rooms. -/
def housed.asksForName : Event → Bool
  | .checked _ _ b _ _ => b.location = .property "name" && b.container = none
  | _ => true

/-- The path of the room leads through an optional, a list and a map with a number for a key. -/
theorem validate_leads_back_housed : ∃ vs w, ((housed "7").validate ⟨"hall"⟩ []).answer = .ok vs ∧
    w ∈ vs ∧ w.path.text = "next.doors[1].keys[7].name" ∧ w.leaf = some ⟨"safe"⟩ ∧
      ((housed "7").callOn ⟨"hall"⟩).NavigatesTo ⟨"hall"⟩ w.path.text "name" w.leaf := by
  have hfound : ∃ vs ∈ ((housed "7").validate ⟨"hall"⟩ []).answer.toOption, ∃ w ∈ vs,
      w.path.text = "next.doors[1].keys[7].name" ∧ w.leaf = some ⟨"safe"⟩ ∧ w.path.Legible ∧
        w.path.KeysReadBack := by
    decide +kernel
  have hasks : ∀ e ∈ ((housed "7").validate ⟨"hall"⟩ []).journal, housed.asksForName e := by
    decide +kernel
  have hflat : ∀ o ∈ (housed "7").store.objects, ∀ e ∈ o.2.properties, e.2.isNested = false := by
    decide +kernel
  obtain ⟨vs, hvs, w, hw, htext, hleaf, hlegible, hkeys⟩ := hfound
  obtain ⟨⟨e, he, hfinds⟩, hall⟩ := validate_leads_back (v := housed "7")
    (MetadataCache.coherent_nil _ _) (by decide +kernel) (toOption_eq_some hvs) hw
  cases e with
  | checked object path b group value =>
    have hname : b.location = .property "name" ∧ b.container = none := by
      simpa [housed.asksForName] using hasks _ he
    obtain ⟨x, hops, way, -, hx, -, -, hnavigates⟩ :=
      hall object path b group value "name" he hfinds hname.1 hname.2 hlegible hkeys
    have hopen : hops.any ((housed "7").callOn ⟨"hall"⟩).isBarred = false := by
      rw [List.any_eq_false]
      intro hop _
      rw [Bool.not_eq_true]
      exact Store.property_of_forall (P := (·.isNested = false)) rfl hflat hop.1 hop.2.property
    rw [hopen] at hnavigates
    exact ⟨vs, w, toOption_eq_some hvs, hw, htext, hleaf, hx ▸ hnavigates⟩
  | _ => cases hfinds

/-- The key reads as a number that is written otherwise, so nothing is found under it. -/
theorem padded_key_leads_nowhere :
    ∃ vs w, ((housed "07").validate ⟨"hall"⟩ []).answer = .ok vs ∧ w ∈ vs ∧
      w.path.text = "next.doors[1].keys[07].name" ∧ w.path.Legible ∧ w.leaf = some ⟨"safe"⟩ ∧
      (∀ e ∈ ((housed "07").validate ⟨"hall"⟩ []).journal, housed.asksForName e) ∧
      ¬((housed "07").callOn ⟨"hall"⟩).NavigatesTo ⟨"hall"⟩ w.path.text "name" w.leaf := by
  have hfound : ∃ vs ∈ ((housed "07").validate ⟨"hall"⟩ []).answer.toOption, ∃ w ∈ vs,
      w.path.text = "next.doors[1].keys[07].name" ∧ w.path.Legible ∧ w.leaf = some ⟨"safe"⟩ := by
    decide +kernel
  have hends : ∃ read ∈ (Path.read "next.doors[1].keys[07].name").toOption,
      (((((housed "07").callOn ⟨"hall"⟩).navigate "next.doors[1].keys[07].name" ⟨"hall"⟩ .root
        (stepsOf read.nodes)).exec (startOf {} ⟨"hall"⟩)).1.toOption = some none) := by
    decide +kernel
  obtain ⟨vs, hvs, w, hw, htext, hlegible, hleaf⟩ := hfound
  obtain ⟨read, hread, hends⟩ := hends
  refine ⟨vs, w, toOption_eq_some hvs, hw, htext, hlegible, hleaf, by decide +kernel, ?_⟩
  rintro ⟨read', hread', -, hnavigates⟩
  rw [htext] at hread' hnavigates
  obtain rfl : read = read' := Except.ok.inj ((toOption_eq_some hread).symm.trans hread')
  obtain ⟨reached, q, hexec, hreached⟩ := hnavigates (startOf {} ⟨"hall"⟩)
    (MetadataCache.coherent_nil _ _)
  rw [hexec] at hends
  cases hends
  rw [hleaf] at hreached
  cases hreached

end Validator

end ObjectValidation
