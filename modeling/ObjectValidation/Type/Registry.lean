import ObjectValidation.Error
import ObjectValidation.Type.Definition
/-!
# The registry of types

All types that are known, in the order in which their names were first registered. Registering a
name again replaces the type in its place, so the names stay distinct.
-/

namespace ObjectValidation

/-- The known types. -/
structure Registry where
  definitions : List TypeDefinition
  distinct : (definitions.map (·.name)).Nodup

namespace Registry

/-- A registry knows the default group from the start. -/
def initial : Registry where
  definitions := [{ name := TypeName.defaultGroup, kind := .interface }]
  distinct := by simp

/-- The names of all types, in the order of their registration. -/
def names (r : Registry) : List TypeName := r.definitions.map (·.name)

/-- The type of a name. -/
def get? (r : Registry) (name : TypeName) : Option TypeDefinition :=
  r.definitions.find? (·.name = name)

/-- Whether a type of the name is registered. -/
def contains (r : Registry) (name : TypeName) : Bool := (r.get? name).isSome

/-- The type of a name, which has to be registered. -/
def resolve (r : Registry) (name : TypeName) : Except Error TypeDefinition :=
  match r.get? name with
  | some d => .ok d
  | none => .error (.typeNotFound name)

/-- The definitions with the one of the same name replaced, or with one added at the end. -/
def replaceOrAdd (d : TypeDefinition) : List TypeDefinition → List TypeDefinition
  | [] => [d]
  | e :: rest => if e.name = d.name then d :: rest else e :: replaceOrAdd d rest

theorem names_replaceOrAdd (d : TypeDefinition) (ds : List TypeDefinition) :
    (replaceOrAdd d ds).map (·.name) =
      if d.name ∈ ds.map (·.name) then ds.map (·.name) else ds.map (·.name) ++ [d.name] := by
  induction ds with
  | nil => simp [replaceOrAdd]
  | cons e rest ih => by_cases h : e.name = d.name <;> grind [replaceOrAdd]

/-- The registry with a type registered under its name. -/
def register (r : Registry) (d : TypeDefinition) : Registry where
  definitions := replaceOrAdd d r.definitions
  distinct := by
    have h := r.distinct
    rw [names_replaceOrAdd]
    split
    · exact h
    · simp_all [List.nodup_append]

/-- The number of registered types. -/
def size (r : Registry) : Nat := r.definitions.length

/-- Whether no type but the default group is registered. -/
def isEmpty (r : Registry) : Bool := r.size ≤ 1

/-- The groups of a registered group sequence. -/
def sequenceMembers? (r : Registry) (name : TypeName) : Option (List TypeName) :=
  (r.get? name).bind (·.sequenceMembers?)

/-- Whether the name is that of a registered group sequence. -/
def isGroupSequence (r : Registry) (name : TypeName) : Bool := (r.sequenceMembers? name).isSome

/-- Whether the name is that of a registered interface. -/
def isInterface (r : Registry) (name : TypeName) : Bool := (r.get? name).any (·.isInterface)

/-- The names of the registered classes. -/
def classes (r : Registry) : List TypeName :=
  (r.definitions.filter fun d => !d.isInterface).map (·.name)

theorem mem_of_get? {r : Registry} {name : TypeName} {d : TypeDefinition}
    (h : r.get? name = some d) : d ∈ r.definitions := List.mem_of_find?_eq_some h

theorem name_of_get? {r : Registry} {name : TypeName} {d : TypeDefinition}
    (h : r.get? name = some d) : d.name = name := by simpa using List.find?_some h

/-! ### What a walk has not seen yet

A walk over the registry that meets each name once ends because of these measures. -/

/-- The definitions whose names are not among those seen. -/
def unmet (r : Registry) (seen : List TypeName) : List TypeDefinition :=
  r.definitions.filter fun d => d.name ∉ seen

/-- The number of types not seen yet together with the number of interfaces they list. -/
def unmetWeight (r : Registry) (seen : List TypeName) : Nat :=
  ((r.unmet seen).flatMap fun d => d.name :: d.interfaces).length

theorem length_flatMap_filter_le {α β : Type} (f : α → List β) {p q : α → Bool}
    (h : ∀ a, p a → q a) (xs : List α) :
    ((xs.filter p).flatMap f).length ≤ ((xs.filter q).flatMap f).length := by
  induction xs with
  | nil => exact Nat.le_refl _
  | cons x xs ih =>
    by_cases hp : p x
    · simp only [List.filter_cons, hp, h x hp, if_true, List.flatMap_cons, List.length_append]
      omega
    · by_cases hq : q x
      · simp only [List.filter_cons, hp, hq, if_true, List.flatMap_cons, List.length_append,
          Bool.false_eq_true, if_false]
        omega
      · simpa only [List.filter_cons, hp, hq, Bool.false_eq_true, if_false] using ih

theorem length_flatMap_filter_add_le {α β : Type} (f : α → List β) {p q : α → Bool}
    (h : ∀ a, p a → q a) {x : α} (hp : ¬ p x) (hq : q x) {xs : List α} (hx : x ∈ xs) :
    ((xs.filter p).flatMap f).length + (f x).length ≤ ((xs.filter q).flatMap f).length := by
  induction xs with
  | nil => cases hx
  | cons y xs ih =>
    rcases List.mem_cons.1 hx with rfl | hx
    · have hle := length_flatMap_filter_le f h xs
      simp only [List.filter_cons, hp, hq, if_true, List.flatMap_cons, List.length_append,
        Bool.false_eq_true, if_false]
      omega
    · have hle := ih hx
      by_cases hpy : p y
      · simp only [List.filter_cons, hpy, h y hpy, if_true, List.flatMap_cons, List.length_append]
        omega
      · by_cases hqy : q y
        · simp only [List.filter_cons, hpy, hqy, if_true, List.flatMap_cons, List.length_append,
            Bool.false_eq_true, if_false]
          omega
        · simpa only [List.filter_cons, hpy, hqy, Bool.false_eq_true, if_false] using hle

theorem unmetWeight_visit {r : Registry} {seen : List TypeName} {name : TypeName}
    {d : TypeDefinition} (h : r.get? name = some d) (hs : name ∉ seen) :
    r.unmetWeight (seen ++ [name]) + d.interfaces.length + 1 ≤ r.unmetWeight seen := by
  obtain rfl := name_of_get? h
  have := length_flatMap_filter_add_le (fun e => e.name :: e.interfaces)
    (q := fun e => e.name ∉ seen) (p := fun e => e.name ∉ seen ++ [d.name]) (by simp_all) (by simp)
    (by simpa using hs) (mem_of_get? h)
  rw [List.length_cons] at this
  unfold unmetWeight unmet
  omega

theorem unmetWeight_lt {r : Registry} {seen : List TypeName} {name : TypeName}
    {d : TypeDefinition} (h : r.get? name = some d) (hs : name ∉ seen) :
    r.unmetWeight (seen ++ [name]) < r.unmetWeight seen := by
  have := unmetWeight_visit h hs
  omega

end Registry

end ObjectValidation
