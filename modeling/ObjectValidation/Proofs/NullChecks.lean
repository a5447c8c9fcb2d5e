import ObjectValidation.Constraint.Standard
import ObjectValidation.Proofs.Navigation
/-!
# Checks for null

A value may be wrapped in optionals, one inside the other. A cascade opens all of them, and what it comes
to is the innermost value (`Value.innermost`). The two null checks go by the innermost value as well, and
they say the opposite of each other, but for values that are optionals of optionals: evaluators are looked
up by what is inside one layer, and none is there for optionals (`Standard.nullChecks_iff`).
-/

namespace ObjectValidation

/-! ### Looking evaluators up -/

namespace Evaluators

theorem lookup_filter_of_ne {α β : Type} [BEq α] [LawfulBEq α] {k key : α} (h : k ≠ key) :
    ∀ entries : List (α × β), (entries.filter fun entry => entry.1 != key).lookup k = entries.lookup k
  | [] => rfl
  | (k', v) :: rest => by
    have ih := lookup_filter_of_ne h rest
    by_cases hk' : k' = key
    · have hne : (k == k') = false := by simpa [hk'] using h
      rw [List.filter_cons_of_neg (by simp [hk']), ih, List.lookup_cons, hne]
    · rw [List.filter_cons_of_pos (by simpa using hk'), List.lookup_cons, List.lookup_cons, ih]

/-- What is registered last for two kinds is found for them, and other kinds keep their evaluators. -/
theorem get?_register (es : Evaluators) (kind kind' : String) (valueKind valueKind' : Option ValueKind)
    (e : Evaluator) : (es.register kind valueKind e).get? kind' valueKind' =
      if kind' = kind ∧ valueKind' = valueKind then some e else es.get? kind' valueKind' := by
  unfold register get?
  simp only [List.lookup_append, List.lookup_cons, List.lookup_nil]
  by_cases hkey : (kind', valueKind') = (kind, valueKind)
  · have hgone : (es.entries.filter fun entry => entry.1 != (kind, valueKind)).lookup
        (kind', valueKind') = none := by
      refine List.lookup_eq_none_iff.2 fun entry hentry => ?_
      rw [hkey, bne_comm]
      exact (List.mem_filter.1 hentry).2
    rw [hgone, beq_iff_eq.2 hkey, if_pos (Prod.mk.inj hkey)]
    rfl
  · rw [lookup_filter_of_ne hkey, beq_eq_false_iff_ne.2 hkey, if_neg (by simpa using hkey)]
    exact Option.or_none

theorem get?_registerAll (kind kind' : String) (valueKind : Option ValueKind) (e : Evaluator) :
    ∀ (valueKinds : List ValueKind) (es : Evaluators),
    (valueKinds.foldl (fun es k => es.register kind (some k) e) es).get? kind' valueKind =
      if kind' = kind ∧ valueKind ∈ valueKinds.map some then some e else es.get? kind' valueKind
  | [], es => by simp
  | k :: valueKinds, es => by
    rw [List.foldl_cons, get?_registerAll kind kind' valueKind e valueKinds, get?_register]
    simp only [List.map_cons, List.mem_cons]
    split <;> split <;> grind

end Evaluators

namespace Standard

/-- What a table of evaluators lists for two kinds. -/
def listed (table : List (String × Evaluator × List ValueKind)) (kind : String)
    (valueKind : Option ValueKind) : Option Evaluator :=
  (table.lookup kind).bind fun (e, kinds) => if valueKind ∈ kinds.map some then some e else none

theorem get?_registerTable (kind : String) (valueKind : Option ValueKind) :
    ∀ (table : List (String × Evaluator × List ValueKind)) (es : Evaluators),
    (table.map (·.1)).Nodup →
    (table.foldl (fun es (kind, e, valueKinds) =>
      valueKinds.foldl (fun es k => es.register kind (some k) e) es) es).get? kind valueKind =
      (listed table kind valueKind).or (es.get? kind valueKind)
  | [], es, _ => rfl
  | (kind', e, kinds) :: table, es, h => by
    obtain ⟨hnew, hnodup⟩ := List.nodup_cons.1 h
    rw [List.foldl_cons, get?_registerTable kind valueKind table _ hnodup, Evaluators.get?_registerAll]
    by_cases hkind : kind = kind'
    · subst hkind
      -- No later entry of the table registers for the kind again.
      have hnone : table.lookup kind = none := by
        refine List.lookup_eq_none_iff.2 fun entry hentry => ?_
        have hne : kind ≠ entry.1 := fun heq => hnew (List.mem_map.2 ⟨entry, hentry, heq.symm⟩)
        simpa using hne
      simp only [listed, hnone, List.lookup_cons_self, Option.bind_none, Option.none_or, true_and,
        Option.bind_some]
      split <;> rfl
    · have hne : (kind == kind') = false := by simpa using hkind
      simp [listed, List.lookup_cons, hkind, hne]

theorem get?_evaluators (kind : String) (valueKind : Option ValueKind) :
    evaluators.get? kind valueKind = listed table kind valueKind := by
  unfold evaluators
  rw [get?_registerTable kind valueKind table .empty (by decide)]
  exact Option.or_none

/-- The standard evaluator for a value is the one that the table lists for the kind of the value inside
one layer of optionals. -/
theorem find?_evaluators (kind : String) (v : Value) :
    evaluators.find? kind v = listed table kind (some v.effective.kind) := by
  have hnone : listed table kind none = none := by
    unfold listed
    cases table.lookup kind <;> simp
  rw [Evaluators.find?, get?_evaluators, get?_evaluators, hnone, Option.or_none]

end Standard

/-! ### What is inside optionals -/

namespace Value

/-- The value inside all optionals that it is wrapped in. -/
def innermost : Value → Value
  | .optional (some v) => v.innermost
  | v => v

/-- A cascade comes to the same objects from the innermost value. -/
theorem objects_innermost (path : Path) : ∀ v : Value, v.innermost.objects path = v.objects path
  | .optional (some v) => by simpa [innermost, objects] using objects_innermost path v
  | .null | .bool _ | .int _ | .float _ | .str _ | .list _ | .map _ | .optional none | .object _ => by
    simp [innermost]

theorem innermost_effective (v : Value) : v.effective.innermost.isNull = v.innermost.isNull := by
  unfold effective
  split
  · rfl
  · rw [innermost]
  · rfl

/-- Evaluators see an optional just where the value is an optional of an optional. -/
theorem kind_effective_eq_optional {v : Value} : v.effective.kind = .optional ↔ v.isNested := by
  cases v with
  | optional inner =>
    cases inner with
    | none => simp [effective, kind, isNested]
    | some u => cases u <;> simp [effective, kind, isNested]
  | _ => simp [effective, kind, isNested]

/-- Without an optional inside one layer of optionals there is none further in. -/
theorem isNull_effective {v : Value} (h : v.isNested = false) :
    v.effective.isNull = v.innermost.isNull := by
  rw [← innermost_effective]
  have hkind : v.effective.kind ≠ .optional := by simp [kind_effective_eq_optional, h]
  cases heffective : v.effective with
  | optional inner => simp [heffective, kind] at hkind
  | _ => rfl

end Value

namespace Standard

theorem mem_nullKinds {kind : ValueKind} : kind ∈ nullKinds ↔ kind ≠ .optional := by
  cases kind <;> decide

/-- The null checks are found for all values but optionals of optionals. -/
theorem find?_nullCheck {kind : String} {expectNull : Bool}
    (h : table.lookup kind = some (nullCheck expectNull, nullKinds)) (v : Value) :
    evaluators.find? kind v = if v.isNested then none else some (nullCheck expectNull) := by
  have hkind : some v.effective.kind ∈ nullKinds.map some ↔ ¬ v.isNested := by
    simp [mem_nullKinds, Value.kind_effective_eq_optional]
  rw [find?_evaluators, listed, h, Option.bind_some]
  simp only [hkind, ite_not]

theorem check_nullCheck (expectNull : Bool) (s : Store) (k : Constraint) (v : Value)
    (site : EvaluationSite) : (nullCheck expectNull).check s k v site = .ok (v.isNull == expectNull) :=
  rfl

/-- Whether the null checks judge a value: there is an evaluator for either of them, neither fails, and
the value is null to both just if the innermost value is. -/
def ChecksNull (v : Value) : Prop :=
  ∃ notNull null, evaluators.find? "NotNull" v = some notNull ∧ evaluators.find? "Null" v = some null ∧
    ∀ s k site, notNull.check s k v.effective site = .ok (!v.innermost.isNull) ∧
      null.check s k v.effective site = .ok v.innermost.isNull

/-- Null in two optionals is not found to be null. -/
theorem not_checksNull_nested : ¬ ChecksNull (.optional (some (.optional (some .null)))) := by
  rintro ⟨notNull, -, hfound, -⟩
  have hnone : evaluators.find? "NotNull" (.optional (some (.optional (some .null)))) = none :=
    @find?_nullCheck _ false rfl _
  simp [hnone] at hfound

/-- The null checks judge just the values that are no optionals of optionals, although a cascade comes to
the objects of the innermost value for all of them. For an optional of an optional there is no evaluator,
which is an error wherever a call with the standard evaluators makes a null check of it. -/
theorem nullChecks_iff (v : Value) :
    (ChecksNull v ↔ v.isNested = false) ∧ (∀ path, v.innermost.objects path = v.objects path) ∧
    (v.isNested → ∀ kind ∈ ["NotNull", "Null"], evaluators.find? kind v = none ∧
      ∀ (c : Call) (site : EvaluationSite) (k : Constraint), c.evaluators = evaluators → k.kind = kind →
        k.composing = [] → c.judge site v k = Run.fail (.noEvaluator kind .optional)) := by
  have hnotNull := @find?_nullCheck "NotNull" _ rfl v
  have hnull := @find?_nullCheck "Null" _ rfl v
  refine ⟨⟨?_, fun h => ?_⟩, fun path => v.objects_innermost path, fun h kind hkind => ?_⟩
  · rintro ⟨notNull, null, hfound, -⟩
    rw [hfound] at hnotNull
    cases hnested : v.isNested with
    | false => rfl
    | true => simp [hnested] at hnotNull
  · simp only [h, Bool.false_eq_true, if_false] at hnotNull hnull
    refine ⟨_, _, hnotNull, hnull, fun s k site => ?_⟩
    simp [check_nullCheck, Value.isNull_effective h]
  · have hnone : evaluators.find? kind v = none := by
      rcases List.mem_pair.1 hkind with rfl | rfl
      · simpa [h] using hnotNull
      · simpa [h] using hnull
    refine ⟨hnone, ?_⟩
    rintro c site k hc rfl hparts
    simp [Call.judge, hc, hnone, hparts, Value.kind_effective_eq_optional.2 h]

/-- A call that validates a value on its own. -/
def lone : Call where
  registry := .initial
  evaluators := evaluators
  config := {}
  store := .empty
  root := none
  rootType := ⟨"Root"⟩
  depth := 0

/-- Null in one optional is found to be null, and in two optionals it is an error to ask. -/
theorem nullChecks_of_wrapped_null :
    ChecksNull (.optional (some .null)) ∧
    ∀ site, lone.judge site (.optional (some (.optional (some .null)))) { kind := "NotNull" } =
      Run.fail (.noEvaluator "NotNull" .optional) := by
  refine ⟨(nullChecks_iff _).1.2 rfl, fun site => ?_⟩
  have hnested := (nullChecks_iff (.optional (some (.optional (some .null))))).2.2 rfl
  obtain ⟨-, hjudge⟩ := hnested "NotNull" (by simp)
  exact hjudge lone site _ rfl rfl rfl

end Standard

end ObjectValidation
