import ObjectValidation.Proofs.Assignability
/-!
# What the rules on methods decide

The rules in force only decide whether metadata is put together, never what it is: it is the same under
all rules that the declarations of its methods keep (`Metadata.assemble_of_checkAll`). The rule on
cascades keeps, along each line of a hierarchy, all but one declaration of a method from cascading into
its returned value (`Metadata.assemble_iff_markedOnce`). It leaves alone cascades into what the returned
value contains.
-/

namespace ObjectValidation

/-- Whether, along each line of a hierarchy, one declaration of a method at most has a mark. -/
def Registry.MarkedOnce (r : Registry) (type : TypeName) (marks : Executable → Bool) : Prop :=
  ∀ d o, r.Declares type d → r.Declares type o → d.signature = o.signature →
    r.IsBelow d.declaredBy o.declaredBy → ¬(marks d ∧ marks o)

theorem Registry.exists_hierarchy_of_mem {r : Registry} {name x : TypeName} {names : List TypeName}
    (h : r.hierarchy name = .ok names) (hx : x ∈ names) : ∃ names', r.hierarchy x = .ok names' :=
  exists_hierarchy ((resolvable_of_hierarchy h).of_above (lists_of_mem_hierarchy h hx))

namespace MethodRule

variable {r : Registry} {m o : Executable}

theorem mem_active_iff {l : MethodLeniency} (hl : l.repeatedCascades = false) {rule : MethodRule} :
    rule ∈ active l ↔ rule ∈ active { l with repeatedCascades := true } ∨ rule = .singleCascade := by
  simp only [active, hl, Bool.false_eq_true, if_true, if_false, List.mem_append, List.append_nil]
  grind

/-- Declarations keep the rules in force just if they keep all but the one on cascades, and each two of
them keep that one. -/
theorem checkAll_active_iff {l : MethodLeniency} (hl : l.repeatedCascades = false) {ds : List Executable} :
    checkAll r (active l) ds = .ok () ↔ checkAll r (active { l with repeatedCascades := true }) ds = .ok () ∧
      ∀ d ∈ ds, ∀ o ∈ ds, check r d o .singleCascade = .ok () := by
  simp only [checkAll_eq_ok, mem_active_iff hl]
  constructor
  · intro h
    exact ⟨fun d hd o ho rule hrule => h d hd o ho rule (.inl hrule),
      fun d hd o ho => h d hd o ho _ (.inr rfl)⟩
  · rintro ⟨h, hcascades⟩ d hd o ho rule (hrule | rfl)
    · exact h d hd o ho rule hrule
    · exact hcascades d hd o ho

/-- Where the hierarchy of a type can be found, it is known which types it is below. -/
theorem exists_isBelow {sub : TypeName} {names : List TypeName} (h : r.hierarchy sub = .ok names)
    (sup : TypeName) :
    ∃ below, isBelow r sub sup = .ok below ∧ (below ↔ r.IsBelow sub sup) := by
  have hknown : ∃ below, isBelow r sub sup = .ok below := by
    unfold isBelow
    split
    · exact ⟨false, rfl⟩
    · exact ⟨_, Registry.isAssignable_eq h sup⟩
  obtain ⟨below, hbelow⟩ := hknown
  refine ⟨below, hbelow, ?_⟩
  rw [← Registry.isBelow_eq_true, hbelow, Except.ok.injEq]

/-- A declaration keeps the rule on cascades with itself, as no type is below itself. -/
theorem check_singleCascade_self : check r m m .singleCascade = .ok () := by
  simp [check, isBelow, bind, Except.bind, pure, Except.pure]

/-- Two declarations keep the rule on cascades if not both cascade into the returned value or neither type
is below the other. -/
theorem check_singleCascade {names names' : List TypeName} (hm : r.hierarchy m.declaredBy = .ok names)
    (ho : r.hierarchy o.declaredBy = .ok names') : check r m o .singleCascade = .ok () ↔
      ¬(m.returnValue.own.cascading ∧ o.returnValue.own.cascading ∧
        (r.IsBelow m.declaredBy o.declaredBy ∨ r.IsBelow o.declaredBy m.declaredBy)) := by
  obtain ⟨below, hbelow, hiff⟩ := exists_isBelow hm o.declaredBy
  obtain ⟨above, habove, hiff'⟩ := exists_isBelow ho m.declaredBy
  simp only [check, hbelow, habove, ← hiff, ← hiff']
  cases m.returnValue.own.cascading <;> cases o.returnValue.own.cascading <;> cases below <;>
    cases above <;> simp [bind, Except.bind, pure, Except.pure, throw, throwThe, MonadExceptOf.throw]

end MethodRule

namespace Assembly

theorem addExecutable_mono {r : Registry} {rules rules' : List MethodRule} {type : TypeName}
    {a a' : Assembled} {ds : List Executable}
    (hchecked : MethodRule.checkAll r rules ds = .ok () → MethodRule.checkAll r rules' ds = .ok ())
    (h : addExecutable r rules type a ds = .ok a') : addExecutable r rules' type a ds = .ok a' := by
  cases ds with
  | nil => exact h
  | cons first others =>
    obtain ⟨_, hrules, h⟩ := bind_eq_ok.1 h
    exact bind_eq_ok.2 ⟨(), hchecked hrules, h⟩

end Assembly

/-- Whether nothing is demanded of what an executable returns, nor of what that contains. -/
def ExecutableMetadata.ReturnsFreely (e : ExecutableMetadata) : Prop :=
  e.returnValue.isConstrained = false ∧ e.returnConstraints = []

instance (e : ExecutableMetadata) : Decidable e.ReturnsFreely :=
  inferInstanceAs (Decidable (_ ∧ _))

namespace Metadata

open Assembly

variable {r : Registry} {rules rules' : List MethodRule} {type : TypeName} {m : Metadata}

/-- Metadata that is put together under some rules is put together under others that its declarations
keep as well. -/
theorem assemble_of_checkAll (h : assemble r rules type = .ok m)
    (hmethods : ∀ ds : List Executable, (∀ d ∈ ds, r.Declares type d) →
      (∀ d ∈ ds, ∀ o ∈ ds, d.signature = o.signature) →
      MethodRule.checkAll r rules ds = .ok () → MethodRule.checkAll r rules' ds = .ok ())
    (hconstructors : ∀ c, MethodRule.checkAll r rules [c] = .ok () →
      MethodRule.checkAll r rules' [c] = .ok ()) : assemble r rules' type = .ok m := by
  obtain ⟨htype, own, definitions, elements, hs⟩ := sources h
  unfold assemble at h ⊢
  obtain ⟨own', hown, h⟩ := bind_eq_ok.1 h
  obtain ⟨hierarchy, hhierarchy, h⟩ := bind_eq_ok.1 h
  obtain ⟨definitions', hdefinitions, h⟩ := bind_eq_ok.1 h
  obtain ⟨default, hdefault, h⟩ := bind_eq_ok.1 h
  obtain ⟨elements', helements, h⟩ := bind_eq_ok.1 h
  obtain ⟨direct, hdirect, h⟩ := bind_eq_ok.1 h
  obtain ⟨methods, hadd, h⟩ := bind_eq_ok.1 h
  obtain ⟨constructors, hadd', h⟩ := bind_eq_ok.1 h
  obtain rfl := htype
  obtain rfl : m.hierarchy = hierarchy := Except.ok.inj (hs.hierarchy_eq.symm.trans hhierarchy)
  obtain rfl : definitions = definitions' :=
    Except.ok.inj (hs.definitions_eq.symm.trans hdefinitions)
  refine bind_eq_ok.2 ⟨own', hown, bind_eq_ok.2 ⟨_, hhierarchy, bind_eq_ok.2 ⟨_, hdefinitions,
    bind_eq_ok.2 ⟨default, hdefault, bind_eq_ok.2 ⟨elements', helements, bind_eq_ok.2 ⟨direct, hdirect,
      bind_eq_ok.2 ⟨methods, foldlM_mono ?_ hadd, bind_eq_ok.2 ⟨constructors, foldlM_mono ?_ hadd',
        h⟩⟩⟩⟩⟩⟩⟩⟩
  · intro ds hds a a'
    obtain ⟨d₀, -, rfl⟩ := mem_groupBySignature.1 hds
    refine addExecutable_mono (hmethods _ (fun d hd => ?_) fun d hd o ho => ?_)
    · exact hs.mem_memberMethods.1 (List.mem_filter.1 hd).1
    · have hd : d.signature = d₀.signature := by simpa using (List.mem_filter.1 hd).2
      have ho : o.signature = d₀.signature := by simpa using (List.mem_filter.1 ho).2
      exact hd.trans ho.symm
  · exact fun c _ a a' => addExecutable_mono (hconstructors c)

/-- With the rule on cascades, metadata is put together just if it is without the rule and, along each
line of the hierarchy, one declaration of a method at most cascades into the returned value itself. -/
theorem assemble_iff_markedOnce {l : MethodLeniency} (hl : l.repeatedCascades = false)
    (hown : ∀ t ∈ r.definitions, ∀ d ∈ t.methods, d.declaredBy = t.name) :
    assemble r (MethodRule.active l) type = .ok m ↔
      assemble r (MethodRule.active { l with repeatedCascades := true }) type = .ok m ∧
        r.MarkedOnce type (·.returnValue.own.cascading) := by
  constructor
  · intro h
    refine ⟨assemble_of_checkAll h (fun ds _ _ hrules => ((MethodRule.checkAll_active_iff hl).1 hrules).1)
      fun c hrules => ((MethodRule.checkAll_active_iff hl).1 hrules).1, ?_⟩
    intro d o hd ho hs hbelow hboth
    obtain ⟨names, hnames, hmem⟩ := hbelow.2
    obtain ⟨names', hnames'⟩ := Registry.exists_hierarchy_of_mem hnames hmem
    have hcheck := check_of_declares h hd ho hs ((MethodRule.mem_active_iff hl).2 (.inr rfl))
    exact (MethodRule.check_singleCascade hnames hnames').1 hcheck ⟨hboth.1, hboth.2, .inl hbelow⟩
  · rintro ⟨h, honce⟩
    -- The rule asks for hierarchies: it could fail without finding a repeated mark.
    have hknown : ∀ d, r.Declares type d → ∃ names, r.hierarchy d.declaredBy = .ok names := by
      rintro d ⟨names, hnames, name, hname, t, ht, hd⟩
      rw [hown t (Registry.mem_of_get? ht) d (List.mem_filter.1 hd).1, Registry.name_of_get? ht]
      exact Registry.exists_hierarchy_of_mem hnames hname
    refine assemble_of_checkAll h (fun ds hds hsignature hrules => ?_) fun c hrules => ?_
    · refine (MethodRule.checkAll_active_iff hl).2 ⟨hrules, fun d hd o ho => ?_⟩
      obtain ⟨names, hnames⟩ := hknown d (hds d hd)
      obtain ⟨names', hnames'⟩ := hknown o (hds o ho)
      have hs := hsignature d hd o ho
      refine (MethodRule.check_singleCascade hnames hnames').2 ?_
      rintro ⟨hcascades, hcascades', hbelow | habove⟩
      · exact honce d o (hds d hd) (hds o ho) hs hbelow ⟨hcascades, hcascades'⟩
      · exact honce o d (hds o ho) (hds d hd) hs.symm habove ⟨hcascades', hcascades⟩
    · refine (MethodRule.checkAll_active_iff hl).2 ⟨hrules, fun d hd o ho => ?_⟩
      obtain rfl := List.mem_singleton.1 hd
      obtain rfl := List.mem_singleton.1 ho
      exact MethodRule.check_singleCascade_self

/-- A method that loads a list, as a type declares it. -/
def load (owner : TypeName) (returnValue : Element) : Executable :=
  { kind := .method, name := "load", declaredBy := owner, parameters := [],
    returnType := some ⟨"List"⟩, returnValue, crossParameter := [], isPrivate := false,
    isStatic := false }

/-- A class that loads a list, and a class below it that does so in its stead. -/
def loading (below above : Element) : Registry :=
  [{ name := ⟨"Base"⟩, kind := .concrete, methods := [load ⟨"Base"⟩ above] },
    { name := ⟨"Sub"⟩, kind := .concrete, superclass := some ⟨"Base"⟩,
      methods := [load ⟨"Sub"⟩ below] : TypeDefinition }].foldl Registry.register .initial

/-- The list is cascaded into by the class above alone. -/
theorem assemble_iff_markedOnce_loading :
    ∃ m, assemble (loading {} { own := { cascading := true } }) (MethodRule.active {}) ⟨"Sub"⟩ = .ok m ∧
      (loading {} { own := { cascading := true } }).MarkedOnce ⟨"Sub"⟩
        (·.returnValue.own.cascading) := by
  have hsome : (assemble (loading {} { own := { cascading := true } }) (MethodRule.active {})
    ⟨"Sub"⟩).toOption.isSome := by decide +kernel
  obtain ⟨m, hm⟩ := Option.isSome_iff_exists.1 hsome
  have hm := toOption_eq_some hm
  exact ⟨m, hm, ((assemble_iff_markedOnce rfl (by decide +kernel)).1 hm).2⟩

/-- The elements of a list are cascaded into by both classes, which no rule looks at. -/
theorem contained_cascades_are_repeated :
    let cascades : Element := { containers := [(.listElement, { cascading := true })] }
    ∃ m, assemble (loading cascades cascades) (MethodRule.active {}) ⟨"Sub"⟩ = .ok m ∧
      ¬(loading cascades cascades).MarkedOnce ⟨"Sub"⟩ (·.returnValue.hasCascades) := by
  intro cascades
  have hsome : (assemble (loading cascades cascades) (MethodRule.active {})
    ⟨"Sub"⟩).toOption.isSome := by decide +kernel
  obtain ⟨m, hm⟩ := Option.isSome_iff_exists.1 hsome
  refine ⟨m, toOption_eq_some hm, fun honce => ?_⟩
  have hhierarchy : (loading cascades cascades).hierarchy ⟨"Sub"⟩ = .ok [⟨"Sub"⟩, ⟨"Base"⟩] :=
    toOption_eq_some (by decide +kernel)
  have hsub : (loading cascades cascades).Declares ⟨"Sub"⟩ (load ⟨"Sub"⟩ cascades) :=
    ⟨_, hhierarchy, ⟨"Sub"⟩, by simp, _, rfl, by simp [memberMethods, load]⟩
  have hbase : (loading cascades cascades).Declares ⟨"Sub"⟩ (load ⟨"Base"⟩ cascades) :=
    ⟨_, hhierarchy, ⟨"Base"⟩, by simp, _, rfl, by simp [memberMethods, load]⟩
  have hbelow : (loading cascades cascades).IsBelow ⟨"Sub"⟩ ⟨"Base"⟩ :=
    ⟨by decide, _, hhierarchy, by simp⟩
  exact honce _ _ hsub hbase rfl hbelow ⟨rfl, rfl⟩

/-! ### Methods that return nothing -/

theorem returnValue_declares {d : Executable} {part : Option ContainerKind} {k : Constraint}
    (h : d.DeclaresAt .returnValue part k) : d.returnValue.isConstrained := by
  have h : d.returnValue.Declares part k := h
  cases part with
  | none => simp [Element.isConstrained, Facet.isConstrained, List.ne_nil_of_mem h]
  | some kind =>
    obtain ⟨f, hf, hk⟩ := h
    have hf' : f.isConstrained := by simp [Facet.isConstrained, List.ne_nil_of_mem hk]
    simp only [Element.isConstrained, Bool.or_eq_true, List.any_eq_true]
    exact .inr ⟨_, hf, hf'⟩

/-- Nothing is demanded of what a method returns just if none of its declarations demands anything. -/
theorem returnsFreely_iff_forall (h : assemble r rules type = .ok m) {e : ExecutableMetadata}
    (he : e ∈ m.methods) : e.ReturnsFreely ↔
      ∀ d, r.Declares type d → d.signature = e.signature → d.returnValue.isConstrained = false := by
  obtain ⟨first, others, next, hmerge, -, hdeclared⟩ := mergeExecutable_of_mem_methods h he
  have hmerged : e.returnValue.isConstrained ↔ ∃ d ∈ first :: others, d.returnValue.isConstrained := by
    rw [isConstrained_mergeElements (merges_of_mergeExecutable hmerge).returnValue_eq]
    simp
  have hbound : ∀ b ∈ e.returnConstraints, ∃ d ∈ first :: others, d.returnValue.isConstrained := by
    intro b hb
    have hb : b ∈ e.constraintsAt .returnValue := hb
    rw [constraintsAt_of_mergeExecutable hmerge] at hb
    obtain ⟨hb, hlocation⟩ := List.mem_filter.1 (mem_withoutRepeats hb)
    obtain ⟨i, hi, rfl⟩ := List.mem_mapIdx.1 hb
    obtain ⟨-, d, hd, -, -, hdeclares⟩ := mem_executableOccurrences_iff.1 (List.getElem_mem hi)
    exact ⟨d, hd, returnValue_declares (of_decide_eq_true hlocation ▸ hdeclares)⟩
  constructor
  · intro hfree d hd hs
    refine Bool.eq_false_iff.2 fun hconstrained => ?_
    have he := hmerged.2 ⟨d, (hdeclared d).2 ⟨hd, hs⟩, hconstrained⟩
    exact Bool.eq_false_iff.1 hfree.1 he
  · intro hfree
    have hnone : ¬∃ d ∈ first :: others, d.returnValue.isConstrained := by
      rintro ⟨d, hd, hconstrained⟩
      obtain ⟨hd, hs⟩ := (hdeclared d).1 hd
      exact Bool.eq_false_iff.1 (hfree d hd hs) hconstrained
    exact ⟨Bool.eq_false_iff.2 (mt hmerged.1 hnone),
      List.eq_nil_iff_forall_not_mem.2 fun b hb => hnone (hbound b hb)⟩

/-- A declaration that returns nothing demands nothing of it, by whatever rules are relaxed. -/
theorem unconstrained_of_isVoid {l : MethodLeniency} (h : assemble r (MethodRule.active l) type = .ok m)
    {d : Executable} (hd : r.Declares type d) (hvoid : d.isVoid) : d.returnValue.isConstrained = false := by
  have hcheck := check_of_declares h hd hd rfl (show MethodRule.unconstrainedVoid ∈ MethodRule.active l by
    simp [MethodRule.active])
  refine Bool.eq_false_iff.2 fun hconstrained => ?_
  simp [MethodRule.check, hvoid, hconstrained, throw, throwThe, MonadExceptOf.throw] at hcheck

/-- Nothing is demanded of what the methods of a type return that return nothing, just if they do not
override declarations that return something and make demands on it. -/
theorem returnsFreely_iff {l : MethodLeniency} (h : assemble r (MethodRule.active l) type = .ok m) :
    (∀ e ∈ m.methods, e.returnType = none → e.ReturnsFreely) ↔
      ∀ e ∈ m.methods, e.returnType = none → ∀ d, r.Declares type d → d.signature = e.signature →
        ¬d.isVoid → d.returnValue.isConstrained = false := by
  refine forall₃_congr fun e he _ => ?_
  rw [returnsFreely_iff_forall h he]
  constructor
  · exact fun hfree d hd hs _ => hfree d hd hs
  · intro hfree d hd hs
    by_cases hvoid : d.isVoid
    · exact unconstrained_of_isVoid h hd hvoid
    · exact hfree d hd hs hvoid

/-- A class that loads a list, and a class below it that loads it without returning it. -/
def preloading (above : Element) : Registry :=
  [{ name := ⟨"Base"⟩, kind := .concrete, methods := [load ⟨"Base"⟩ above] },
    { name := ⟨"Sub"⟩, kind := .concrete, superclass := some ⟨"Base"⟩,
      methods := [{ load ⟨"Sub"⟩ {} with returnType := none }] : TypeDefinition }].foldl
    Registry.register .initial

/-- The list has no demands on it in either class. -/
theorem returnsFreely_iff_preloading :
    ∃ m, assemble (preloading {}) (MethodRule.active {}) ⟨"Sub"⟩ = .ok m ∧
      ∀ e ∈ m.methods, e.returnType = none → ∀ d, (preloading {}).Declares ⟨"Sub"⟩ d →
        d.signature = e.signature → ¬d.isVoid → d.returnValue.isConstrained = false := by
  have hfree : ((assemble (preloading {}) (MethodRule.active {}) ⟨"Sub"⟩).toOption.any fun m =>
      m.methods.all fun e => e.returnType.isSome || e.ReturnsFreely) := by decide +kernel
  obtain ⟨m, hm, hfree⟩ := (Option.any_eq_true _ _).1 hfree
  have hm := toOption_eq_some hm
  refine ⟨m, hm, (returnsFreely_iff hm).1 fun e he hnone => ?_⟩
  simpa [hnone] using List.all_eq_true.1 hfree e he

/-- The list has to be there for the class above alone, and so for the method that returns nothing. -/
theorem demands_outlive_return :
    let above : Element := { own := { constraints := [{ kind := "NotNull" }] } }
    ∃ m, assemble (preloading above) (MethodRule.active {}) ⟨"Sub"⟩ = .ok m ∧
      ∃ e ∈ m.methods, e.returnType = none ∧ ¬e.ReturnsFreely := by
  intro above
  have hdemands : ((assemble (preloading above) (MethodRule.active {}) ⟨"Sub"⟩).toOption.any fun m =>
      m.methods.any fun e => e.returnType = none ∧ ¬e.ReturnsFreely) := by decide +kernel
  obtain ⟨m, hm, hdemands⟩ := (Option.any_eq_true _ _).1 hdemands
  obtain ⟨e, he, hdemands⟩ := List.any_eq_true.1 hdemands
  exact ⟨m, toOption_eq_some hm, e, he, of_decide_eq_true hdemands⟩

end Metadata

end ObjectValidation
