import Mathlib.Logic.Relation
import ObjectValidation.Proofs.Demands
import ObjectValidation.Proofs.Hierarchy
/-!
# The topmost declarations of a method

Where the two rules on what a method demands of its arguments are in force, an override demands nothing
that what it overrides does not, and types that do not know each other demand the same. No type is above
itself, so that above each declaration there is a topmost one (`Registry.exists_topmost`), and all
declarations together demand what the topmost ones do (`Metadata.demands_iff_topmost`).
-/

namespace ObjectValidation

/-! ### Types above one another -/

namespace Registry

open Relation

variable {r : Registry}

/-- Whether a type is listed by another one as its superclass or as one of its interfaces. -/
def Lists (r : Registry) (above name : TypeName) : Prop :=
  ∃ d, r.get? name = some d ∧ above ∈ d.supertypes

/-- What a walk along the supertypes of a type has found: the type itself and what was known before, and
from none of these an endless line leads up if none did before. -/
structure Grounds (r : Registry) (name : TypeName) (sound names : List TypeName) : Prop where
  added : name ∈ names
  kept : sound ⊆ names
  founded : (∀ x ∈ sound, Acc r.Lists x) → ∀ x ∈ names, Acc r.Lists x

theorem soundFrom_ok : ∀ {path sound names : List TypeName} {name : TypeName},
    r.soundFrom path name sound = .ok names → r.Grounds name sound names := by
  intro path sound names name h
  fun_induction r.soundFrom path name sound generalizing names with
  | case1 path name sound hsound =>
    cases h
    exact ⟨hsound, fun _ => id, id⟩
  | case2 => cases h
  | case3 => cases h
  | case4 path name sound hnew hpath d hd path' =>
    rename_i ih
    -- The walk adds the type last: by then all that it lists is sound, and stays so.
    obtain ⟨all, hall, h⟩ := bind_eq_ok.1 h
    cases h
    have habove : ∀ above ∈ d.supertypes, above ∈ all := by
      intro above hmem
      refine foldlM_reaches (I := (above ∈ ·)) ?_ ?_ hmem hall
      · exact fun _ _ h => (ih _ _ h).added
      · exact fun _ _ _ hx h => (ih _ _ h).kept hx
    refine ⟨by simp, ?_, fun hfounded => ?_⟩
    · exact List.subset_cons_of_subset _ <|
        foldlM_keeps (I := (sound ⊆ ·)) (fun _ _ _ _ hx h => List.Subset.trans hx (ih _ _ h).kept) hall
          (List.Subset.refl _)
    · have hall : ∀ x ∈ all, Acc r.Lists x :=
        foldlM_keeps (I := (∀ x ∈ ·, Acc r.Lists x)) (fun _ _ _ _ hx h => (ih _ _ h).founded hx) hall
          hfounded
      refine List.forall_mem_cons.2 ⟨.intro name fun above hlists => ?_, hall⟩
      obtain ⟨d', hd', hmem⟩ := hlists
      obtain rfl := Option.some.inj (hd.symm.trans hd')
      exact hall above (habove above hmem)

/-- A type with a hierarchy is at the bottom of no endless line of types. -/
theorem acc_of_hierarchy {name : TypeName} {names : List TypeName}
    (h : r.hierarchy name = .ok names) : Acc r.Lists name := by
  obtain ⟨sound, hsound, -⟩ := bind_eq_ok.1 h
  exact (soundFrom_ok hsound).founded (by simp) name (soundFrom_ok hsound).added

theorem LeadsTo.reflTransGen {name x : TypeName} (h : r.LeadsTo name x) :
    ReflTransGen r.Lists x name := by
  induction h with
  | refl => exact .refl
  | step _ hd hi ih => exact .head ⟨_, hd, List.mem_append_right _ hi⟩ ih

theorem Ascends.reflTransGen : ∀ {classes : List TypeName} {name : TypeName} {d : TypeDefinition},
    r.get? name = some d → r.Ascends d classes → ∀ x ∈ name :: classes,
      ReflTransGen r.Lists x name
  | [], name, d, _, _, x, hx => by
    obtain rfl := List.mem_singleton.1 hx
    exact .refl
  | superclass :: above, name, d, hd, ⟨hsuper, e, he, hascends⟩, x, hx => by
    rcases List.mem_cons.1 hx with rfl | hx
    · exact .refl
    · exact (hascends.reflTransGen he x hx).tail
        ⟨d, hd, List.mem_append_left _ (by simp [hsuper])⟩

/-- Whether the first type is strictly below the second. -/
def IsBelow (r : Registry) (sub sup : TypeName) : Prop :=
  sub ≠ sup ∧ ∃ names, r.hierarchy sub = .ok names ∧ sup ∈ names

theorem IsBelow.transGen {sub sup : TypeName} (h : r.IsBelow sub sup) :
    TransGen r.Lists sup sub := by
  obtain ⟨hne, names, hnames, hmem⟩ := h
  obtain ⟨d, classes, -, hd, hclasses, -, hiff⟩ := hierarchy_ok hnames
  obtain ⟨type, htype, hleads⟩ := (hiff sup).1 hmem
  have hchain : ReflTransGen r.Lists sup sub :=
    hleads.reflTransGen.trans (hclasses.reflTransGen hd type htype)
  exact (reflTransGen_iff_eq_or_transGen.1 hchain).resolve_left hne

/-- There is no endless line of types each of which is below the next. -/
theorem wellFounded_isBelow (r : Registry) : WellFounded fun sup sub => r.IsBelow sub sup := by
  refine ⟨fun name => .intro name fun sup h => ?_⟩
  -- A type that is below another one has a hierarchy, so that the line up from it has an end.
  have hline := h.transGen
  obtain ⟨-, names, hnames, -⟩ := h
  exact Subrelation.accessible (fun h => h.transGen) ((acc_of_hierarchy hnames).transGen.inv hline)

theorem isAssignable_eq_true {sup sub : TypeName} (hne : sub ≠ sup) :
    r.isAssignable sup sub = .ok true ↔ r.IsBelow sub sup := by
  unfold isAssignable
  rw [if_neg hne.symm, bind_eq_ok]
  simp [IsBelow, hne, pure, Except.pure]

theorem isBelow_eq_true {sub sup : TypeName} :
    MethodRule.isBelow r sub sup = .ok true ↔ r.IsBelow sub sup := by
  unfold MethodRule.isBelow
  split
  · next h => simp [IsBelow, h]
  · next h => exact isAssignable_eq_true h

/-- Of two types one is below the other, or they are parallel. -/
theorem isBelow_or_of_areParallel {s t : TypeName} {parallel : Bool} (hne : s ≠ t)
    (h : MethodRule.areParallel r s t = .ok parallel) :
    r.IsBelow t s ∨ r.IsBelow s t ∨ parallel = true := by
  obtain ⟨below, hbelow, h⟩ := bind_eq_ok.1 h
  cases below with
  | true => exact .inl ((isAssignable_eq_true hne.symm).1 hbelow)
  | false =>
    obtain ⟨above, habove, h⟩ := bind_eq_ok.1 h
    cases h
    cases above with
    | true => exact .inr (.inl ((isAssignable_eq_true hne).1 habove))
    | false => exact .inr (.inr rfl)

end Registry

/-! ### What the rules say -/

namespace MethodRule

variable {r : Registry} {rules : List MethodRule} {m o : Executable} {x : ArgumentDemand}

theorem checkAll_eq_ok {ds : List Executable} : checkAll r rules ds = .ok () ↔
    ∀ m ∈ ds, ∀ o ∈ ds, ∀ rule ∈ rules, check r m o rule = .ok () := by
  simp only [checkAll, forM_eq_ok]

/-- An override demands nothing that what it overrides does not. -/
theorem demands_of_isBelow (h : check r m o .unalteredParameters = .ok ())
    (hbelow : r.IsBelow m.declaredBy o.declaredBy) (hx : m.Demands x) : o.Demands x := by
  obtain ⟨below, hisBelow, h⟩ := bind_eq_ok.1 h
  rw [Registry.isBelow_eq_true.2 hbelow] at hisBelow
  cases hisBelow
  cases hsubset : m.parameterSubset o with
  | true => exact hx.of_subset hsubset
  | false => simp [hx.hasParameterConstraints, hsubset, throw, throwThe, MonadExceptOf.throw] at h

/-- Types of which neither is below the other demand the same. -/
theorem demands_of_parallel (h : check r m o .agreeingParallels = .ok ())
    (hne : m.declaredBy ≠ o.declaredBy) (hm : ¬ r.IsBelow m.declaredBy o.declaredBy)
    (ho : ¬ r.IsBelow o.declaredBy m.declaredBy) (hx : m.Demands x) : o.Demands x := by
  obtain ⟨parallel, hparallel, h⟩ := bind_eq_ok.1 h
  obtain rfl : parallel = true :=
    ((Registry.isBelow_or_of_areParallel hne hparallel).resolve_left ho).resolve_left hm
  cases hsubset : m.parameterSubset o with
  | true => exact hx.of_subset hsubset
  | false => simp [hx.hasParameterConstraints, hsubset, throw, throwThe, MonadExceptOf.throw] at h

end MethodRule

/-! ### Declarations and what is merged from them -/

/-- Whether a type of the hierarchy declares the method for the instances of a type. -/
def Registry.Declares (r : Registry) (type : TypeName) (d : Executable) : Prop :=
  ∃ names, r.hierarchy type = .ok names ∧
    ∃ name ∈ names, ∃ t, r.get? name = some t ∧ d ∈ Assembly.memberMethods type t

instance : Std.LawfulEqOrd TypeName where
  compare_self {x} := Std.ReflOrd.compare_self (a := x.text)
  eq_of_compare {x y} h := by
    have htext := @Std.LawfulEqOrd.eq_of_compare String _ _ x.text y.text h
    cases x
    cases y
    exact congrArg _ htext

theorem Signature.eq_of_order {s t : Signature} (h : s.order t = .eq) : s = t := by
  obtain ⟨hnames, htypes⟩ := Ordering.then_eq_eq.1 h
  cases s
  cases t
  exact congrArg₂ Signature.mk (Std.LawfulEqCmp.eq_of_compare hnames)
    (Std.LawfulEqCmp.eq_of_compare htypes)

namespace Assembly

theorem mem_firstOccurrences {α : Type} [DecidableEq α] {x : α} {xs : List α} :
    x ∈ firstOccurrences xs ↔ x ∈ xs := by
  suffices hfold : ∀ xs seen : List α,
      x ∈ xs.foldl (fun seen x => if x ∈ seen then seen else seen ++ [x]) seen ↔
        x ∈ seen ∨ x ∈ xs by simpa [firstOccurrences] using hfold xs []
  intro xs
  induction xs with
  | nil => simp
  | cons y xs ih =>
    intro seen
    rw [List.foldl_cons, ih]
    grind

theorem mem_groupBySignature {es ds : List Executable} :
    ds ∈ groupBySignature es ↔ ∃ d ∈ es, ds = es.filter (·.signature = d.signature) := by
  simp only [groupBySignature, List.mem_map, mem_firstOccurrences]
  constructor
  · rintro ⟨_, ⟨d, hd, rfl⟩, rfl⟩
    exact ⟨d, hd, rfl⟩
  · rintro ⟨d, hd, rfl⟩
    exact ⟨_, ⟨d, hd, rfl⟩, rfl⟩

theorem signature_of_group {es others : List Executable} {first : Executable} {s : Signature}
    (h : es.filter (·.signature = s) = first :: others) : first.signature = s := by
  have hfirst : first ∈ es.filter (·.signature = s) := h ▸ List.mem_cons_self ..
  simpa using (List.mem_filter.1 hfirst).2

/-- Insertion loses no signature. -/
theorem exists_mem_insertExecutable {e : ExecutableMetadata} {s : Signature} :
    ∀ {es : List ExecutableMetadata}, (e.signature = s ∨ ∃ x ∈ es, x.signature = s) →
      ∃ x ∈ insertExecutable e es, x.signature = s
  | [], h => by simpa [insertExecutable] using h
  | y :: es, h => by
    unfold insertExecutable
    split
    · simpa using h
    · next horder =>
      have hy := Signature.eq_of_order horder
      simp only [List.mem_cons, exists_eq_or_imp] at h ⊢
      grind
    · have ih := @exists_mem_insertExecutable e s es
      simp only [List.mem_cons, exists_eq_or_imp] at h ⊢
      grind

end Assembly

namespace Metadata

open Assembly

variable {r : Registry} {rules : List MethodRule} {type : TypeName} {m : Metadata}

theorem Sources.mem_memberMethods {own : TypeDefinition} {definitions : List TypeDefinition}
    {elements : List (String × Element)} (hs : m.Sources r own definitions elements)
    {d : Executable} :
    d ∈ definitions.flatMap (memberMethods m.type) ↔ r.Declares m.type d := by
  rw [List.mem_flatMap]
  constructor
  · rintro ⟨t, ht, hd⟩
    obtain ⟨name, hname, hget⟩ := hs.mem_definitions.1 ht
    exact ⟨m.hierarchy, hs.hierarchy_eq, name, hname, t, hget, hd⟩
  · rintro ⟨names, hnames, name, hname, t, ht, hd⟩
    obtain rfl : m.hierarchy = names := Except.ok.inj (hs.hierarchy_eq.symm.trans hnames)
    exact ⟨t, hs.mem_definitions.2 ⟨name, hname, ht⟩, hd⟩

/-- The methods are put together from the declarations of the hierarchy. -/
theorem methods_of_assemble (h : assemble r rules type = .ok m) :
    ∃ es next a, (groupBySignature es).foldlM (addExecutable r rules type) { next } = .ok a ∧
      m.methods = a.executables ∧ ∀ d, d ∈ es ↔ r.Declares type d := by
  obtain ⟨rfl, own, definitions, elements, hs⟩ := sources h
  obtain ⟨methods, constructors, hmethods, -, hm, -⟩ := hs.executables h
  exact ⟨_, _, methods, hmethods, hm, fun d => hs.mem_memberMethods⟩

/-- A method is merged from its declarations, which keep the rules. -/
theorem mergeExecutable_of_mem_methods (h : assemble r rules type = .ok m) {e : ExecutableMetadata}
    (he : e ∈ m.methods) : ∃ first others next, mergeExecutable r type next first others = .ok e ∧
      MethodRule.checkAll r rules (first :: others) = .ok () ∧
      ∀ d, d ∈ first :: others ↔ r.Declares type d ∧ d.signature = e.signature := by
  obtain ⟨es, next, a, hmethods, hm, hes⟩ := methods_of_assemble h
  rw [hm] at he
  obtain ⟨ds, hds, first, others, next, rfl, hrules, hmerge⟩ :=
    exists_of_mem_addAll (d := id) hmethods rfl he
  obtain ⟨d₀, -, hgroup⟩ := mem_groupBySignature.1 hds
  refine ⟨first, others, next, hmerge, hrules, fun d => ?_⟩
  rw [(merges_of_mergeExecutable hmerge).signature_eq, signature_of_group hgroup.symm, ← hes, hgroup]
  simp

theorem merges_of_mem_methods (h : assemble r rules type = .ok m) {e : ExecutableMetadata}
    (he : e ∈ m.methods) : ∃ first others, Merges r first others e ∧
      MethodRule.checkAll r rules (first :: others) = .ok () ∧
      ∀ d, d ∈ first :: others ↔ r.Declares type d ∧ d.signature = e.signature := by
  obtain ⟨first, others, next, hmerge, hrest⟩ := mergeExecutable_of_mem_methods h he
  exact ⟨first, others, merges_of_mergeExecutable hmerge, hrest⟩

/-- A method that a type of the hierarchy declares is among the methods. -/
theorem exists_mem_methods (h : assemble r rules type = .ok m) {d : Executable}
    (hd : r.Declares type d) : ∃ e ∈ m.methods, e.signature = d.signature := by
  obtain ⟨es, next, a, hmethods, hm, hes⟩ := methods_of_assemble h
  rw [hm]
  refine foldlM_reaches (I := fun a => ∃ e ∈ a.executables, e.signature = d.signature) ?_ ?_
    (mem_groupBySignature.2 ⟨d, (hes d).2 hd, rfl⟩) hmethods
  · intro a a' hadd
    rcases addExecutable_ok hadd with ⟨hempty, -⟩ | ⟨first, others, e, hgroup, -, hmerge, rfl⟩
    · exact absurd ((hes d).2 hd) (by simpa using List.filter_eq_nil_iff.1 hempty d)
    · refine exists_mem_insertExecutable (.inl ?_)
      rw [(merges_of_mergeExecutable hmerge).signature_eq, signature_of_group hgroup]
  · intro a ds a' hI hadd
    rcases addExecutable_ok hadd with ⟨-, rfl⟩ | ⟨first, others, e, -, -, -, rfl⟩
    · exact hI
    · exact exists_mem_insertExecutable (.inr hI)

end Metadata

/-! ### Topmost declarations -/

namespace Registry

variable {r : Registry} {type : TypeName} {s : Signature}

/-- A declaration of a method that no type above its own declares as well. -/
structure Topmost (r : Registry) (type : TypeName) (s : Signature) (d : Executable) : Prop where
  declares : r.Declares type d
  signature_eq : d.signature = s
  top : ∀ o, r.Declares type o → o.signature = s → ¬ r.IsBelow d.declaredBy o.declaredBy

/-- What declarations hand on to those above them a topmost declaration has. -/
theorem exists_topmost {P : Executable → Prop}
    (hup : ∀ d o, r.Declares type d → d.signature = s → r.Declares type o → o.signature = s →
      r.IsBelow d.declaredBy o.declaredBy → P d → P o)
    {d : Executable} (hd : r.Declares type d) (hs : d.signature = s) (hP : P d) :
    ∃ o, r.Topmost type s o ∧ P o := by
  induction hname : d.declaredBy using r.wellFounded_isBelow.induction generalizing d with
  | h name ih =>
    subst hname
    by_cases habove : ∃ o, r.Declares type o ∧ o.signature = s ∧ r.IsBelow d.declaredBy o.declaredBy
    · obtain ⟨o, ho, hos, hbelow⟩ := habove
      exact ih o.declaredBy hbelow ho hos (hup d o hd hs ho hos hbelow hP) rfl
    · exact ⟨d, ⟨hd, hs, fun o ho hos hbelow => habove ⟨o, ho, hos, hbelow⟩⟩, hP⟩

end Registry

theorem Executable.length_eq_of_signature {d o : Executable} (h : d.signature = o.signature) :
    d.parameters.length = o.parameters.length := by
  simpa [signature, Signature.of] using congrArg (·.parameterTypes.length) h

namespace Metadata

variable {r : Registry} {rules : List MethodRule} {type : TypeName} {m : Metadata}

/-- The declarations of one method keep the rules with one another. -/
theorem check_of_declares (h : assemble r rules type = .ok m) {d o : Executable}
    (hd : r.Declares type d) (ho : r.Declares type o) (hs : d.signature = o.signature)
    {rule : MethodRule} (hrule : rule ∈ rules) : MethodRule.check r d o rule = .ok () := by
  obtain ⟨e, he, hsignature⟩ := exists_mem_methods h hd
  obtain ⟨first, others, -, hrules, hdeclared⟩ := merges_of_mem_methods h he
  exact MethodRule.checkAll_eq_ok.1 hrules d ((hdeclared d).2 ⟨hd, hsignature.symm⟩) o
    ((hdeclared o).2 ⟨ho, hs.symm.trans hsignature.symm⟩) rule hrule

section

variable {e : ExecutableMetadata} {x : ArgumentDemand}

theorem exists_declares (h : assemble r rules type = .ok m) (he : e ∈ m.methods) :
    ∃ d, r.Declares type d ∧ d.signature = e.signature := by
  obtain ⟨first, others, -, -, hdeclared⟩ := merges_of_mem_methods h he
  exact ⟨first, (hdeclared first).1 (by simp)⟩

/-- A method demands what any of its declarations does. -/
theorem demands_iff_declares (h : assemble r rules type = .ok m) (he : e ∈ m.methods) :
    e.Demands x ↔ ∃ d, r.Declares type d ∧ d.signature = e.signature ∧ d.Demands x := by
  obtain ⟨first, others, hmerges, -, hdeclared⟩ := merges_of_mem_methods h he
  have hlength : ∀ d ∈ first :: others, d.parameters.length = first.parameters.length := fun d hd =>
    Executable.length_eq_of_signature (((hdeclared d).1 hd).2.trans hmerges.signature_eq)
  rw [hmerges.demands_iff hlength]
  simp only [hdeclared, and_assoc]

/-- The constraints bound to a parameter are those that its element demands. -/
theorem exists_mem_constraints_iff (h : assemble r rules type = .ok m) (he : e ∈ m.methods)
    {index : Nat} {p : ParameterMetadata} (hp : e.parameters[index]? = some p)
    {part : Option ContainerKind} {k : Constraint} :
    (∃ b ∈ p.constraints, b.container = part ∧ b.constraint.same k) ↔
      p.element.Demands part (.constraint k) := by
  obtain ⟨first, others, hmerges, -, hdeclared⟩ := merges_of_mem_methods h he
  have hdemands : e.Demands (.single index part (.constraint k)) ↔
      p.element.Demands part (.constraint k) := by simp [ExecutableMetadata.Demands, hp]
  rw [hmerges.constraints_iff index p hp, ← hdemands, demands_iff_declares h he]
  simp only [hdeclared, and_assoc]

end

/-- With both rules on arguments in force, a method demands of its arguments what its topmost
declarations do, and those on different types demand the same. -/
theorem demands_iff_topmost (h : assemble r rules type = .ok m)
    (hunaltered : .unalteredParameters ∈ rules) (hagreeing : .agreeingParallels ∈ rules) :
    (∀ d, r.Declares type d → ∃ e ∈ m.methods, e.signature = d.signature) ∧
    ∀ e ∈ m.methods,
      (∃ d, r.Topmost type e.signature d) ∧
      (∀ x, e.Demands x ↔ ∃ d, r.Topmost type e.signature d ∧ d.Demands x) ∧
      (∀ (index : Nat) (p : ParameterMetadata), e.parameters[index]? = some p → ∀ part k,
        (∃ b ∈ p.constraints, b.container = part ∧ b.constraint.same k) ↔
          p.element.Demands part (.constraint k)) ∧
      ∀ d o, r.Topmost type e.signature d → r.Topmost type e.signature o →
        d.declaredBy ≠ o.declaredBy → ∀ x, d.Demands x ↔ o.Demands x := by
  refine ⟨fun d hd => exists_mem_methods h hd, fun e he => ?_⟩
  have hup : ∀ x d o, r.Declares type d → d.signature = e.signature → r.Declares type o →
      o.signature = e.signature → r.IsBelow d.declaredBy o.declaredBy → d.Demands x → o.Demands x :=
    fun x d o hd hds ho hos hbelow =>
      MethodRule.demands_of_isBelow (check_of_declares h hd ho (hds.trans hos.symm) hunaltered) hbelow
  have hacross : ∀ x d o, r.Topmost type e.signature d → r.Topmost type e.signature o →
      d.declaredBy ≠ o.declaredBy → d.Demands x → o.Demands x := by
    intro x d o hd ho hne
    have hcheck := check_of_declares h hd.declares ho.declares
      (hd.signature_eq.trans ho.signature_eq.symm) hagreeing
    exact MethodRule.demands_of_parallel hcheck hne (hd.top o ho.declares ho.signature_eq)
      (ho.top d hd.declares hd.signature_eq)
  obtain ⟨d₀, hd₀, hs⟩ := exists_declares h he
  refine ⟨?_, fun x => ?_, fun index p hp part k => exists_mem_constraints_iff h he hp,
    fun d o hd ho hne x => ⟨hacross x d o hd ho hne, hacross x o d ho hd hne.symm⟩⟩
  · obtain ⟨d, hd, -⟩ := Registry.exists_topmost (P := fun _ => True)
      (fun _ _ _ _ _ _ _ => id) hd₀ hs trivial
    exact ⟨d, hd⟩
  · rw [demands_iff_declares h he]
    constructor
    · rintro ⟨d, hd, hds, hx⟩
      exact Registry.exists_topmost (hup x) hd hds hx
    · rintro ⟨d, hd, hx⟩
      exact ⟨d, hd.declares, hd.signature_eq, hx⟩

/-- A method that a class takes over from two interfaces that do not know each other, with what they
demand of its argument, and that the class below it overrides without demands. -/
def storing : Registry :=
  let store (type : TypeName) (constraints : List Constraint) : Executable :=
    { kind := .method, name := "store", declaredBy := type, returnType := none, returnValue := {},
      crossParameter := [], isPrivate := false, isStatic := false,
      parameters := [⟨"item", ⟨"string"⟩, { own := { constraints } }⟩] }
  [{ name := ⟨"Shelf"⟩, kind := .interface,
      methods := [store ⟨"Shelf"⟩ [present]] },
    { name := ⟨"Box"⟩, kind := .interface, methods := [store ⟨"Box"⟩ [present, present]] },
    { name := ⟨"Rack"⟩, kind := .concrete, interfaces := [⟨"Shelf"⟩, ⟨"Box"⟩],
      methods := [store ⟨"Rack"⟩ [present]] },
    { name := ⟨"Tray"⟩, kind := .concrete, superclass := some ⟨"Rack"⟩,
      methods := [store ⟨"Tray"⟩ []] : TypeDefinition }].foldl Registry.register .initial
where
  present : Constraint := { kind := "NotNull", groups := [TypeName.defaultGroup] }

/-- The one demand comes from the topmost declarations. -/
theorem demands_iff_topmost_storing :
    ∃ m, assemble storing (MethodRule.active {}) ⟨"Tray"⟩ = .ok m ∧ ∃ e ∈ m.methods,
      e.declaredBy = [⟨"Tray"⟩, ⟨"Rack"⟩, ⟨"Shelf"⟩, ⟨"Box"⟩] ∧
      ∃ d, storing.Topmost ⟨"Tray"⟩ e.signature d ∧
        d.Demands (.single 0 none (.constraint storing.present)) := by
  let m := (assemble storing (MethodRule.active {}) ⟨"Tray"⟩).toOption.get (by decide +kernel)
  have hm : assemble storing (MethodRule.active {}) ⟨"Tray"⟩ = .ok m :=
    toOption_eq_some (Option.some_get _).symm
  have hmethods : m.methods.any (fun e => decide (e.declaredBy = [⟨"Tray"⟩, ⟨"Rack"⟩, ⟨"Shelf"⟩, ⟨"Box"⟩])
      && e.parameters[0]?.any fun p => storing.present.isAmong p.element.own.constraints) = true := by
    decide +kernel
  obtain ⟨e, he, hmethod⟩ := List.any_eq_true.1 hmethods
  simp only [Bool.and_eq_true, decide_eq_true_eq, Option.any_eq_true] at hmethod
  obtain ⟨hdeclared, p, hp, hx⟩ := hmethod
  have hdemands : e.Demands (.single 0 none (.constraint storing.present)) := ⟨p, hp, hx⟩
  exact ⟨m, hm, e, he, hdeclared,
    (((demands_iff_topmost hm (by decide) (by decide)).2 e he).2.1 _).1 hdemands⟩

end Metadata

end ObjectValidation
