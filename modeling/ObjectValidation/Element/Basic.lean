import ObjectValidation.Constraint.Basic
/-!
# Elements

What is demanded of a field, a parameter or a returned value. A *facet* is what is demanded of one
value: constraints, whether validation cascades into it, and the groups that it converts on the way.
An element has a facet for the value itself and one for each kind of contained value.
-/

namespace ObjectValidation

/-- A cascade for the group `source` goes on for the group `target`. -/
structure Conversion where
  source : TypeName
  target : TypeName
  deriving DecidableEq, Repr

/-- Applies the first conversion whose source is the group. -/
def convert (conversions : List Conversion) (group : TypeName) : TypeName :=
  ((conversions.find? (·.source = group)).map (·.target)).getD group

/-- What is demanded of one value. -/
structure Facet where
  constraints : List Constraint := []
  cascading : Bool := false
  conversions : List Conversion := []
  deriving Inhabited

namespace Facet

/-- Whether anything is demanded. -/
def isConstrained (f : Facet) : Bool :=
  !f.constraints.isEmpty || f.cascading || !f.conversions.isEmpty

/-- The group that a cascade goes on for. -/
def converted (f : Facet) (group : TypeName) : TypeName := convert f.conversions group

/-- Whether the second facet demands all that the first one does. -/
def subset (f g : Facet) : Bool :=
  f.constraints.all (·.isAmong g.constraints) && f.conversions.all (g.conversions.contains ·) &&
    (!f.cascading || g.cascading)

/-- The facets as equal values: the same demands in the same order. -/
def same (f g : Facet) : Bool :=
  Constraint.sameAll f.constraints g.constraints && f.cascading == g.cascading &&
    f.conversions == g.conversions

/-- The constraints with those added that have no equal among them yet. -/
def addConstraints (cs added : List Constraint) : List Constraint :=
  added.foldl (fun cs c => if c.isAmong cs then cs else cs ++ [c]) cs

/-- The conversions with those added that are not among them yet. -/
def addConversions (cs added : List Conversion) : List Conversion :=
  added.foldl (fun cs c => if c ∈ cs then cs else cs ++ [c]) cs

/-- The facet that demands what either of two facets demands. -/
def merge (f g : Facet) : Facet where
  constraints := addConstraints f.constraints g.constraints
  cascading := f.cascading || g.cascading
  conversions := addConversions f.conversions g.conversions

/-- The facet as part of a type. -/
def located (owner : TypeName) (site : Site) (f : Facet) : Facet :=
  { f with constraints := Constraint.locatedAll owner site f.constraints }

end Facet

/-- The kinds of values that a container holds. -/
inductive ContainerKind
  | listElement | mapKey | mapValue | optionalValue
  deriving DecidableEq, Repr

/-- The kind as paths and messages show it. -/
def ContainerKind.label : ContainerKind → String
  | .listElement => "<list element>"
  | .mapKey => "<map key>"
  | .mapValue => "<map value>"
  | .optionalValue => "<optional value>"

instance : ToString ContainerKind := ⟨ContainerKind.label⟩

/-- What is demanded of a value and of the values it contains, at most one facet for each kind of
them. -/
structure Element where
  own : Facet := {}
  containers : List (ContainerKind × Facet) := []
  distinct : decide (containers.map (·.1)).Nodup := by exact Eq.refl true

instance : Inhabited Element := ⟨{}⟩

namespace Element

theorem nodup_kinds (e : Element) : (e.containers.map (·.1)).Nodup := of_decide_eq_true e.distinct

/-- The demands with those on one kind of contained value added. -/
def addTo (kind : ContainerKind) (facet : Facet) :
    List (ContainerKind × Facet) → List (ContainerKind × Facet)
  | [] => [(kind, facet)]
  | (k, f) :: rest =>
    if k = kind then (k, f.merge facet) :: rest else (k, f) :: addTo kind facet rest

/-- Demands on a new kind of contained value come last. -/
theorem kinds_addTo (kind : ContainerKind) (facet : Facet) :
    ∀ containers : List (ContainerKind × Facet), (addTo kind facet containers).map (·.1) =
      if kind ∈ containers.map (·.1) then containers.map (·.1) else containers.map (·.1) ++ [kind]
  | [] => rfl
  | (k, f) :: rest => by
    unfold addTo
    by_cases hk : k = kind
    · simp [hk]
    · simp only [if_neg hk, List.map_cons, kinds_addTo kind facet rest, List.mem_cons, Ne.symm hk,
        false_or]
      split <;> rfl

theorem nodup_kinds_addTo {containers : List (ContainerKind × Facet)}
    (h : (containers.map (·.1)).Nodup) (kind : ContainerKind) (facet : Facet) :
    ((addTo kind facet containers).map (·.1)).Nodup := by
  rw [kinds_addTo]
  split
  · exact h
  · next hnew => exact List.nodup_append.2 ⟨h, by simp, by grind⟩

/-- The element with demands on one kind of contained value added. -/
def addContainer (e : Element) (kind : ContainerKind) (facet : Facet) : Element :=
  { e with
    containers := addTo kind facet e.containers
    distinct := decide_eq_true (nodup_kinds_addTo e.nodup_kinds kind facet) }

/-- The demands on one kind of contained value. -/
def container? (e : Element) (kind : ContainerKind) : Option Facet := e.containers.lookup kind

/-- Whether anything is demanded. -/
def isConstrained (e : Element) : Bool :=
  e.own.isConstrained || e.containers.any (·.2.isConstrained)

/-- Whether validation cascades into the value or into a value it contains. -/
def hasCascades (e : Element) : Bool := e.own.cascading || e.containers.any (·.2.cascading)

/-- Whether the second element demands all that the first one does. -/
def subset (e d : Element) : Bool :=
  e.own.subset d.own && e.containers.all fun (kind, facet) =>
    !facet.isConstrained || (d.container? kind).any (facet.subset ·)

/-- The elements as equal values: the same demands in the same order. -/
def same (e d : Element) : Bool :=
  e.own.same d.own && e.containers.length == d.containers.length &&
    (e.containers.zip d.containers).all fun (c, b) => c.1 == b.1 && c.2.same b.2

/-- The element as part of a type. -/
def located (owner : TypeName) (site : Site) (e : Element) : Element where
  own := e.own.located owner site
  containers := e.containers.map fun (kind, facet) => (kind, facet.located owner site)
  distinct := decide_eq_true <| by
    rw [List.map_map]
    exact e.nodup_kinds

end Element

end ObjectValidation
