import ObjectValidation.Proofs.Metadata
/-!
# What is demanded

What declarations demand is taken apart into single demands: a constraint, told from others up to
equality of declarations, a cascade, or a conversion, each of a value or of the values of one kind that
it contains. Two elements are in the subset order if the one demands all that the other does
(`Element.Demands.of_subset`), and what is merged demands what any of its parts does
(`Element.demands_union`).
-/

namespace ObjectValidation

/-! ### Equality of declarations -/

theorem Binary64.same_iff {x y : Binary64} :
    x.same y ↔ ∃ n, x.place? = some n ∧ y.place? = some n := by
  unfold same compare?
  cases hx : x.place? with
  | none => simp
  | some m =>
    cases hy : y.place? with
    | none => simp
    | some n => simpa using eq_comm

theorem Attribute.same_trans : ∀ {a b c : Attribute}, a.same b → b.same c → a.same c
  | .bool _, .bool _, .bool _, h, h' => by simp_all [same]
  | .int _, .int _, .int _, h, h' => by simp_all [same]
  | .str _, .str _, .str _, h, h' => by simp_all [same]
  | .float _, .float _, .float _, h, h' => by
    simp only [same, Binary64.same_iff] at h h' ⊢
    grind

namespace Constraint

theorem sameAttributes_trans : ∀ {as bs cs : List (String × Attribute)},
    sameAttributes as bs → sameAttributes bs cs → sameAttributes as cs
  | [], [], [], _, _ => rfl
  | (_, _) :: _, (_, _) :: _, (_, _) :: _, h, h' => by
    simp only [sameAttributes, Bool.and_eq_true, beq_iff_eq] at h h' ⊢
    exact ⟨⟨h.1.1.trans h'.1.1, Attribute.same_trans h.1.2 h'.1.2⟩, sameAttributes_trans h.2 h'.2⟩

theorem sameGroups_trans {gs hs ks : List TypeName} (h : sameGroups gs hs) (h' : sameGroups hs ks) :
    sameGroups gs ks := by
  simp only [sameGroups, Bool.and_eq_true, beq_iff_eq, List.all_eq_true, List.contains_iff_mem] at *
  exact ⟨h.1.trans h'.1, fun g hg => h'.2 g (h.2 g hg)⟩

mutual

theorem same_trans : ∀ {c d e : Constraint}, c.same d → d.same e → c.same e
  | ⟨_, _, _, _, _, _, _, _, _⟩, ⟨_, _, _, _, _, _, _, _, _⟩, ⟨_, _, _, _, _, _, _, _, _⟩, h, h' => by
    simp only [same, Bool.and_eq_true, beq_iff_eq] at h h' ⊢
    obtain ⟨⟨⟨⟨⟨⟨hk, hs⟩, ht⟩, ha⟩, hp⟩, hg⟩, hc⟩ := h
    obtain ⟨⟨⟨⟨⟨⟨hk', hs'⟩, ht'⟩, ha'⟩, hp'⟩, hg'⟩, hc'⟩ := h'
    exact ⟨⟨⟨⟨⟨⟨hk.trans hk', hs.trans hs'⟩, ht.trans ht'⟩, sameAttributes_trans ha ha'⟩,
      hp.trans hp'⟩, sameGroups_trans hg hg'⟩, sameAll_trans hc hc'⟩

theorem sameAll_trans : ∀ {cs ds es : List Constraint}, sameAll cs ds → sameAll ds es → sameAll cs es
  | [], [], [], _, _ => by simp [sameAll]
  | _ :: _, _ :: _, _ :: _, h, h' => by
    simp only [sameAll, Bool.and_eq_true] at h h' ⊢
    exact ⟨same_trans h.1 h'.1, sameAll_trans h.2 h'.2⟩

end

theorem isAmong_iff {k : Constraint} {cs : List Constraint} :
    k.isAmong cs ↔ ∃ c ∈ cs, c.same k := List.any_eq_true

/-- What is equal to one of some declarations that all have equals among others has an equal there. -/
theorem isAmong_of_forall {k : Constraint} {cs ds : List Constraint} (hk : k.isAmong cs)
    (h : ∀ c ∈ cs, c.isAmong ds) : k.isAmong ds := by
  obtain ⟨c, hc, hck⟩ := isAmong_iff.1 hk
  obtain ⟨d, hd, hdc⟩ := isAmong_iff.1 (h c hc)
  exact isAmong_iff.2 ⟨d, hd, same_trans hdc hck⟩

end Constraint

/-! ### Facets -/

/-- One thing that is demanded of a value. -/
inductive Demand
  | constraint (k : Constraint)
  | cascade
  | conversion (c : Conversion)

namespace Facet

/-- Whether a facet makes a demand. -/
def Demands (f : Facet) : Demand → Prop
  | .constraint k => k.isAmong f.constraints
  | .cascade => f.cascading
  | .conversion c => c ∈ f.conversions

variable {f g : Facet} {x : Demand}

theorem Demands.of_subset (hx : f.Demands x) (h : f.subset g) : g.Demands x := by
  simp only [subset, Bool.and_eq_true, List.all_eq_true, List.contains_iff_mem] at h
  cases x with
  | constraint k => exact Constraint.isAmong_of_forall hx h.1.1
  | cascade =>
    have hx : f.cascading = true := hx
    exact show g.cascading = true by simpa [hx] using h.2
  | conversion c => exact h.1.2 c hx

/-- A facet that makes a demand is not passed over as empty. -/
theorem Demands.isConstrained (hx : f.Demands x) : f.isConstrained := by
  cases x with
  | constraint k =>
    obtain ⟨c, hc, -⟩ := Constraint.isAmong_iff.1 hx
    simp [Facet.isConstrained, List.ne_nil_of_mem hc]
  | cascade => simp [Facet.isConstrained, show f.cascading = true from hx]
  | conversion c => simp [Facet.isConstrained, List.ne_nil_of_mem hx]

theorem isAmong_addConstraints {k : Constraint} : ∀ {added cs : List Constraint},
    k.isAmong (addConstraints cs added) ↔ k.isAmong cs ∨ k.isAmong added
  | [], cs => by simp [addConstraints, Constraint.isAmong]
  | c :: added, cs => by
    have hhead : k.isAmong (if c.isAmong cs then cs else cs ++ [c]) ↔ k.isAmong cs ∨ c.same k := by
      split
      · next hc =>
        refine ⟨.inl, fun hk => hk.elim id fun hck => ?_⟩
        exact Constraint.isAmong_of_forall (by simpa [Constraint.isAmong] : k.isAmong [c]) (by simpa)
      · simp [Constraint.isAmong]
    refine (@isAmong_addConstraints k added _).trans ?_
    rw [hhead, or_assoc]
    simp [Constraint.isAmong]

theorem mem_addConversions {c : Conversion} : ∀ {added cs : List Conversion},
    c ∈ addConversions cs added ↔ c ∈ cs ∨ c ∈ added
  | [], cs => by simp [addConversions]
  | x :: added, cs => by
    have hhead : (c ∈ if x ∈ cs then cs else cs ++ [x]) ↔ c ∈ cs ∨ c = x := by
      split
      · next hx => exact ⟨.inl, fun hc => hc.elim id fun hcx => hcx ▸ hx⟩
      · simp
    refine (@mem_addConversions c added _).trans ?_
    rw [hhead, List.mem_cons, or_assoc]

theorem demands_merge : (f.merge g).Demands x ↔ f.Demands x ∨ g.Demands x := by
  cases x with
  | constraint k => exact isAmong_addConstraints
  | cascade => exact Bool.or_eq_true_iff
  | conversion c => exact mem_addConversions

theorem addConstraints_eq_nil : ∀ {added cs : List Constraint},
    addConstraints cs added = [] ↔ cs = [] ∧ added = []
  | [], cs => by simp [addConstraints]
  | c :: added, cs => by
    refine (@addConstraints_eq_nil added _).trans ?_
    have hhead : (if c.isAmong cs then cs else cs ++ [c]) ≠ [] := by
      split
      · next hc =>
        obtain ⟨d, hd, -⟩ := Constraint.isAmong_iff.1 hc
        exact List.ne_nil_of_mem hd
      · simp
    simp [hhead]

theorem isConstrained_merge : (f.merge g).isConstrained ↔ f.isConstrained ∨ g.isConstrained := by
  have hconversions : addConversions f.conversions g.conversions = [] ↔
      f.conversions = [] ∧ g.conversions = [] := by
    simp only [List.eq_nil_iff_forall_not_mem, mem_addConversions]
    grind
  simp only [isConstrained, merge, Bool.or_eq_true, Bool.not_eq_true', List.isEmpty_eq_false_iff, ne_eq,
    addConstraints_eq_nil, hconversions]
  grind

end Facet

/-! ### Elements -/

namespace Element

/-- Whether an element makes a demand, of the value or of the values of one kind in it. -/
def Demands (e : Element) (part : Option ContainerKind) (x : Demand) : Prop :=
  match part with
  | none => e.own.Demands x
  | some kind => ∃ f, (kind, f) ∈ e.containers ∧ f.Demands x

variable {e d : Element} {part : Option ContainerKind} {x : Demand}

theorem Demands.of_subset (hx : e.Demands part x) (h : e.subset d) : d.Demands part x := by
  simp only [subset, Bool.and_eq_true, List.all_eq_true, Bool.or_eq_true, Bool.not_eq_true'] at h
  cases part with
  | none => exact Facet.Demands.of_subset hx h.1
  | some kind =>
    obtain ⟨f, hf, hx⟩ := hx
    have hcontained := (h.2 (kind, f) hf).resolve_left (by simp [hx.isConstrained])
    obtain ⟨g, hg, hsubset⟩ := (Option.any_eq_true _ _).1 hcontained
    exact ⟨g, Assembly.mem_of_lookup hg, hx.of_subset hsubset⟩

theorem Demands.isConstrained (hx : e.Demands part x) : e.isConstrained := by
  unfold Element.isConstrained
  rw [Bool.or_eq_true, List.any_eq_true]
  cases part with
  | none => exact .inl (Facet.Demands.isConstrained hx)
  | some kind =>
    obtain ⟨f, hf, hx⟩ := hx
    exact .inr ⟨(kind, f), hf, hx.isConstrained⟩

theorem exists_mem_cons {kind k : ContainerKind} {g : Facet} {others : List (ContainerKind × Facet)} :
    (∃ f, (kind, f) ∈ (k, g) :: others ∧ f.Demands x) ↔
      (kind = k ∧ g.Demands x) ∨ ∃ f, (kind, f) ∈ others ∧ f.Demands x := by
  simp only [List.mem_cons, Prod.mk.injEq]
  grind

theorem exists_mem_addTo {kind kind' : ContainerKind} {facet : Facet} :
    ∀ {containers : List (ContainerKind × Facet)},
    (∃ f, (kind', f) ∈ addTo kind facet containers ∧ f.Demands x) ↔
      (∃ f, (kind', f) ∈ containers ∧ f.Demands x) ∨ (kind' = kind ∧ facet.Demands x)
  | [] => by
    rw [addTo, exists_mem_cons]
    simp
  | (k, f) :: rest => by
    unfold addTo
    split
    · next hk =>
      subst hk
      rw [exists_mem_cons, exists_mem_cons, Facet.demands_merge]
      grind
    · rw [exists_mem_cons, exists_mem_cons, exists_mem_addTo, or_assoc]

theorem own_foldl_addContainer : ∀ (containers : List (ContainerKind × Facet)) (e : Element),
    (containers.foldl (fun e (kind, facet) => e.addContainer kind facet) e).own = e.own
  | [], _ => rfl
  | _ :: rest, _ => own_foldl_addContainer rest _

theorem exists_mem_foldl_addContainer {kind : ContainerKind} :
    ∀ (containers : List (ContainerKind × Facet)) (e : Element),
    (∃ f, (kind, f) ∈ (containers.foldl (fun e (kind, facet) => e.addContainer kind facet)
      e).containers ∧ f.Demands x) ↔
      (∃ f, (kind, f) ∈ e.containers ∧ f.Demands x) ∨ ∃ f, (kind, f) ∈ containers ∧ f.Demands x
  | [], e => by simp
  | (k, g) :: rest, e => by
    rw [List.foldl_cons, exists_mem_foldl_addContainer rest, exists_mem_cons, ← or_assoc]
    exact or_congr_left exists_mem_addTo

/-- What two elements demand together is what either of them demands. -/
theorem demands_union : (e.union d).Demands part x ↔ e.Demands part x ∨ d.Demands part x := by
  unfold union
  cases part with
  | none =>
    simp only [Demands, own_foldl_addContainer]
    exact Facet.demands_merge
  | some kind => exact exists_mem_foldl_addContainer d.containers _

theorem mem_addTo {kind : ContainerKind} {facet : Facet} {x : ContainerKind × Facet} :
    ∀ {containers : List (ContainerKind × Facet)}, x ∈ addTo kind facet containers →
      x ∈ containers ∨ x = (kind, facet) ∨
        ∃ f, containers.lookup kind = some f ∧ x = (kind, f.merge facet)
  | [], h => by simpa [addTo] using h
  | (k, f) :: rest, h => by
    unfold addTo at h
    by_cases hk : k = kind
    · subst hk
      rw [if_pos rfl] at h
      rcases List.mem_cons.1 h with rfl | h
      · exact .inr (.inr ⟨f, by simp, rfl⟩)
      · exact .inl (List.mem_cons_of_mem _ h)
    · have hlookup : ((k, f) :: rest).lookup kind = rest.lookup kind := by
        rw [List.lookup_cons, beq_eq_false_iff_ne.2 (Ne.symm hk)]
      rw [if_neg hk] at h
      rw [hlookup]
      rcases List.mem_cons.1 h with rfl | h
      · simp
      · exact (mem_addTo h).imp_left (List.mem_cons_of_mem _)

/-- Whether all facets of an element, of the value and of what it contains, have `P`. -/
def Each (P : Facet → Prop) (e : Element) : Prop := P e.own ∧ ∀ y ∈ e.containers, P y.2

section

variable {P : Facet → Prop} (hmerge : ∀ {f g}, P f → P g → P (f.merge g))

include hmerge

theorem Each.addContainer {kind : ContainerKind} {facet : Facet} (he : e.Each P) (hfacet : P facet) :
    (e.addContainer kind facet).Each P := by
  refine ⟨he.1, fun y hy => ?_⟩
  rcases mem_addTo hy with hy | rfl | ⟨f, hf, rfl⟩
  · exact he.2 y hy
  · exact hfacet
  · exact hmerge (he.2 _ (Assembly.mem_of_lookup hf)) hfacet

theorem Each.addContainers : ∀ {added : List (ContainerKind × Facet)} {e : Element}, e.Each P →
    (∀ y ∈ added, P y.2) →
    (added.foldl (fun e (kind, facet) => e.addContainer kind facet) e).Each P
  | [], _, he, _ => he
  | (kind, facet) :: _, e, he, hadded => by
    obtain ⟨hfacet, hadded⟩ := List.forall_mem_cons.1 hadded
    exact Each.addContainers (e := e.addContainer kind facet) (he.addContainer hmerge hfacet) hadded

/-- What two facets hand on to their merge, two elements hand on to their union. -/
theorem Each.union (he : e.Each P) (hd : d.Each P) : (e.union d).Each P :=
  Each.addContainers hmerge ⟨hmerge he.1 hd.1, he.2⟩ hd.2

end

theorem isConstrained_addTo {kind : ContainerKind} {facet : Facet} :
    ∀ {containers : List (ContainerKind × Facet)},
    (addTo kind facet containers).any (·.2.isConstrained) ↔
      containers.any (·.2.isConstrained) ∨ facet.isConstrained
  | [] => by simp [addTo]
  | (k, f) :: rest => by
    unfold addTo
    split
    · simp only [List.any_cons, Bool.or_eq_true, Facet.isConstrained_merge]
      grind
    · simp only [List.any_cons, Bool.or_eq_true, isConstrained_addTo, or_assoc]

/-- Two elements together make a demand if either of them makes one. -/
theorem isConstrained_union : (e.union d).isConstrained ↔ e.isConstrained ∨ d.isConstrained := by
  have hcontainers : ∀ (containers : List (ContainerKind × Facet)) (e : Element),
      (containers.foldl (fun e (kind, facet) => e.addContainer kind facet) e).containers.any
        (·.2.isConstrained) ↔
      e.containers.any (·.2.isConstrained) ∨ containers.any (·.2.isConstrained) := by
    intro containers
    induction containers with
    | nil => simp
    | cons entry rest ih =>
      intro e
      rw [List.foldl_cons, ih, List.any_cons, Bool.or_eq_true, ← or_assoc]
      exact or_congr_left isConstrained_addTo
  unfold union isConstrained
  rw [own_foldl_addContainer, Bool.or_eq_true, Bool.or_eq_true, Bool.or_eq_true, hcontainers,
    Facet.isConstrained_merge]
  grind

/-- An element demands what is equal to a constraint that it declares. -/
theorem demands_constraint_iff {k : Constraint} :
    e.Demands part (.constraint k) ↔ ∃ c, e.Declares part c ∧ c.same k := by
  cases part with
  | none => exact Constraint.isAmong_iff
  | some kind =>
    simp only [Demands, Facet.Demands, Declares, Constraint.isAmong_iff]
    grind

end Element

/-! ### Executables -/

/-- One thing that is demanded of the arguments of an executable: of one of them, or of what one of
them contains, or of all of them together. -/
inductive ArgumentDemand
  | single (index : Nat) (part : Option ContainerKind) (x : Demand)
  | together (k : Constraint)

namespace Executable

/-- Whether a declaration puts a constraint on what is at a location, or on the values of one kind in
it. -/
def DeclaresAt (d : Executable) (location : Location) (part : Option ContainerKind) (k : Constraint) :
    Prop :=
  match location with
  | .parameter index => ∃ p, d.parameters[index]? = some p ∧ p.element.Declares part k
  | .crossParameter => part = none ∧ k ∈ d.crossParameter
  | .returnValue => d.returnValue.Declares part k
  | _ => False

/-- Whether a declaration demands something of the arguments. -/
def Demands (d : Executable) : ArgumentDemand → Prop
  | .single index part x => ∃ p, d.parameters[index]? = some p ∧ p.element.Demands part x
  | .together k => k.isAmong d.crossParameter

variable {d o : Executable} {x : ArgumentDemand}

theorem Demands.of_subset (hx : d.Demands x) (h : d.parameterSubset o) : o.Demands x := by
  simp only [parameterSubset, Bool.and_eq_true, beq_iff_eq, List.all_eq_true] at h
  obtain ⟨⟨hlength, hcross⟩, helements⟩ := h
  cases x with
  | single index part x =>
    obtain ⟨p, hp, hx⟩ := hx
    obtain ⟨hindex, rfl⟩ := List.getElem?_eq_some_iff.1 hp
    have hindex' : index < o.parameters.length := hlength ▸ hindex
    refine ⟨_, List.getElem?_eq_getElem hindex', hx.of_subset (helements (_, _) ?_)⟩
    exact List.mem_iff_getElem.2 ⟨index, by rw [List.length_zip]; omega, List.getElem_zip⟩
  | together k => exact Constraint.isAmong_of_forall hx hcross

/-- What is demanded of one argument is declared on its parameter, up to equality. -/
theorem demands_single_iff {index : Nat} {part : Option ContainerKind} {k : Constraint} :
    d.Demands (.single index part (.constraint k)) ↔
      ∃ c, d.DeclaresAt (.parameter index) part c ∧ c.same k := by
  simp only [Demands, DeclaresAt, Element.demands_constraint_iff]
  grind

theorem demands_together_iff {k : Constraint} :
    d.Demands (.together k) ↔ ∃ part c, d.DeclaresAt .crossParameter part c ∧ c.same k := by
  simp only [Demands, DeclaresAt, Constraint.isAmong_iff]
  grind

theorem Demands.hasParameterConstraints (hx : d.Demands x) : d.hasParameterConstraints := by
  unfold Executable.hasParameterConstraints
  rw [Bool.or_eq_true, List.any_eq_true]
  cases x with
  | single index part x =>
    obtain ⟨p, hp, hx⟩ := hx
    exact .inr ⟨p, List.mem_of_getElem? hp, hx.isConstrained⟩
  | together k =>
    obtain ⟨c, hc, -⟩ := Constraint.isAmong_iff.1 hx
    simp [List.ne_nil_of_mem hc]

end Executable

/-- Whether all declarations of an executable together demand something of the arguments. -/
def ExecutableMetadata.Demands (e : ExecutableMetadata) : ArgumentDemand → Prop
  | .single index part x => ∃ p, e.parameters[index]? = some p ∧ p.element.Demands part x
  | .together k => ∃ b ∈ e.crossParameter, b.constraint.same k

/-! ### Merging -/

theorem Element.eq_union_of_merge {name : String} {e d merged : Element}
    (h : e.merge name d = .ok merged) : merged = e.union d := by
  obtain ⟨_, -, h⟩ := bind_eq_ok.1 h
  cases h
  rfl

namespace Assembly

variable {r : Registry} {type : TypeName} {part : Option ContainerKind} {k : Constraint}

/-- What is merged has a property if any of the elements does, where that is so for two of them. -/
theorem mergeElements_iff {P : Element → Prop} (hempty : ¬P {})
    (hunion : ∀ e d : Element, P (e.union d) ↔ P e ∨ P d) {es : List (String × Element)}
    {merged : Element} (h : mergeElements r es = .ok merged) : P merged ↔ ∃ y ∈ es, P y.2 := by
  suffices hfold : ∀ (es : List (String × Element)) (start : Element),
      es.foldlM (fun (merged : Element) y => do
        y.2.checkConversions r y.1
        merged.merge y.1 y.2) start = .ok merged →
      (P merged ↔ P start ∨ ∃ y ∈ es, P y.2) from
    (hfold es {} h).trans (or_iff_right hempty)
  intro es
  induction es with
  | nil =>
    intro start h
    cases h
    simp
  | cons y es ih =>
    intro start h
    rw [List.foldlM_cons] at h
    obtain ⟨next, hnext, hrest⟩ := bind_eq_ok.1 h
    obtain ⟨_, -, hnext⟩ := bind_eq_ok.1 hnext
    rw [ih next hrest, Element.eq_union_of_merge hnext, hunion, or_assoc]
    simp only [List.mem_cons, exists_eq_or_imp]

/-- What is merged demands what any of the elements does. -/
theorem demands_mergeElements {es : List (String × Element)} {merged : Element} {x : Demand}
    (h : mergeElements r es = .ok merged) :
    merged.Demands part x ↔ ∃ y ∈ es, y.2.Demands part x := by
  refine mergeElements_iff (P := fun e => e.Demands part x) (fun hx => ?_)
    (fun _ _ => Element.demands_union) h
  simpa [Element.isConstrained, Facet.isConstrained] using hx.isConstrained

/-- What is merged makes a demand if any of the elements does. -/
theorem isConstrained_mergeElements {es : List (String × Element)} {merged : Element}
    (h : mergeElements r es = .ok merged) :
    merged.isConstrained ↔ ∃ y ∈ es, y.2.isConstrained :=
  mergeElements_iff (P := fun e => e.isConstrained) (by simp [Element.isConstrained, Facet.isConstrained])
    (fun _ _ => Element.isConstrained_union) h

/-- A constraint that is dropped as a repeat has an equal that is kept. -/
theorem exists_mem_withoutRepeats (P : Option ContainerKind → Prop) {bs : List BoundConstraint} :
    (∃ b ∈ withoutRepeats bs, P b.container ∧ b.constraint.same k) ↔
      ∃ b ∈ bs, P b.container ∧ b.constraint.same k := by
  refine ⟨fun ⟨b, hb, h⟩ => ⟨b, mem_withoutRepeats hb, h⟩, ?_⟩
  suffices hfold : ∀ bs kept : List BoundConstraint,
      (∃ b ∈ kept ++ bs, P b.container ∧ b.constraint.same k) →
      ∃ b ∈ bs.foldl (fun kept b =>
        if kept.any fun k => k.container = b.container && k.constraint.same b.constraint then kept
        else kept ++ [b]) kept, P b.container ∧ b.constraint.same k from hfold bs []
  intro bs
  induction bs with
  | nil => simp
  | cons x bs ih =>
    rintro kept ⟨b, hb, hpart, hk⟩
    refine ih _ ?_
    dsimp only
    split
    · next hrepeated =>
      rcases List.mem_append.1 hb with hb | hb
      · exact ⟨b, List.mem_append_left _ hb, hpart, hk⟩
      -- Where the constraint itself is dropped, what was kept in its stead is equal to it.
      · rcases List.mem_cons.1 hb with rfl | hb
        · obtain ⟨y, hy, hyb⟩ := List.any_eq_true.1 hrepeated
          simp only [Bool.and_eq_true, decide_eq_true_eq] at hyb
          exact ⟨y, List.mem_append_left _ hy, hyb.1 ▸ hpart, Constraint.same_trans hyb.2 hk⟩
        · exact ⟨b, List.mem_append_right _ hb, hpart, hk⟩
    · exact ⟨b, by simpa using hb, hpart, hk⟩

/-- The constraints bound to one location are, up to repeats, those declared there. -/
theorem exists_mem_boundAt (P : Option ContainerKind → Prop) {next : Nat} {os : List Occurrence}
    {location : Location} :
    (∃ b ∈ withoutRepeats ((bindAll type next os).filter (·.location = location)),
      P b.container ∧ b.constraint.same k) ↔
      ∃ o ∈ os, o.location = location ∧ P o.container ∧ o.constraint.same k := by
  rw [exists_mem_withoutRepeats]
  constructor
  · rintro ⟨b, hb, hP, hk⟩
    obtain ⟨hb, hlocation⟩ := List.mem_filter.1 hb
    obtain ⟨i, hi, rfl⟩ := List.mem_mapIdx.1 hb
    exact ⟨os[i], List.getElem_mem hi, by simpa using hlocation, hP, hk⟩
  · rintro ⟨o, ho, hlocation, hP, hk⟩
    obtain ⟨i, hi, rfl⟩ := List.mem_iff_getElem.1 ho
    exact ⟨_, List.mem_filter.2 ⟨List.mem_mapIdx.2 ⟨i, hi, rfl⟩, by simpa using hlocation⟩, hP, hk⟩

/-- What declarations of an executable with `n` parameters put on its values. -/
theorem mem_executableOccurrences_iff {n : Nat} {ds : List Executable} {o : Occurrence} :
    o ∈ executableOccurrences r n ds ↔ (∀ index, o.location = .parameter index → index < n) ∧
      ∃ d ∈ ds, o.declaredBy = d.declaredBy ∧ o.onInterface = r.isInterface d.declaredBy ∧
        d.DeclaresAt o.location o.container o.constraint := by
  obtain ⟨k, location, part, owner, onInterface⟩ := o
  simp only [mem_executableOccurrences, Element.mem_occurrences, Executable.DeclaresAt,
    Occurrence.mk.injEq]
  cases location <;> grind

/-- The constraints that declarations put on what is at a location. -/
theorem exists_mem_executableOccurrences (P : Option ContainerKind → Prop) {n : Nat}
    {ds : List Executable} {location : Location}
    (hn : ∀ index, location = .parameter index → index < n) :
    (∃ o ∈ executableOccurrences r n ds,
      o.location = location ∧ P o.container ∧ o.constraint.same k) ↔
      ∃ d ∈ ds, ∃ part, P part ∧ ∃ c, d.DeclaresAt location part c ∧ c.same k := by
  constructor
  · rintro ⟨o, ho, rfl, hP, hk⟩
    obtain ⟨-, d, hd, -, -, hdeclares⟩ := mem_executableOccurrences_iff.1 ho
    exact ⟨d, hd, _, hP, _, hdeclares, hk⟩
  · rintro ⟨d, hd, part, hP, c, hdeclares, hk⟩
    exact ⟨⟨c, location, part, d.declaredBy, r.isInterface d.declaredBy⟩,
      mem_executableOccurrences_iff.2 ⟨hn, d, hd, rfl, rfl, hdeclares⟩, rfl, hP, hk⟩

/-- What a merged executable has from its declarations. -/
structure Merges (r : Registry) (first : Executable) (others : List Executable)
    (e : ExecutableMetadata) : Prop where
  signature_eq : e.signature = first.signature
  parameter_of_lt : ∀ index < first.parameters.length, ∃ p, e.parameters[index]? = some p
  element_eq : ∀ index p, e.parameters[index]? = some p →
    mergeElements r (parameterElements first.signature index (first :: others)) = .ok p.element
  returnValue_eq : mergeElements r ((first :: others).map fun d =>
    (s!"{d.declaredBy}.{first.signature}.<return value>", d.returnValue)) = .ok e.returnValue
  constraints_iff : ∀ index p, e.parameters[index]? = some p → ∀ part k,
    (∃ b ∈ p.constraints, b.container = part ∧ b.constraint.same k) ↔
      ∃ d ∈ first :: others, d.Demands (.single index part (.constraint k))
  crossParameter_iff : ∀ k, (∃ b ∈ e.crossParameter, b.constraint.same k) ↔
    ∃ d ∈ first :: others, d.Demands (.together k)

/-- The constraints of a merged executable at a location are, up to repeats, those that its declarations
put there. -/
theorem exists_mem_constraintsAt (P : Option ContainerKind → Prop) {next : Nat} {first : Executable}
    {others : List Executable} {e : ExecutableMetadata}
    (h : mergeExecutable r type next first others = .ok e) (location : Location)
    (hn : ∀ index, location = .parameter index → index < first.parameters.length) :
    (∃ b ∈ e.constraintsAt location, P b.container ∧ b.constraint.same k) ↔
      ∃ d ∈ first :: others, ∃ part, P part ∧ ∃ c, d.DeclaresAt location part c ∧ c.same k := by
  rw [constraintsAt_of_mergeExecutable h, exists_mem_boundAt, exists_mem_executableOccurrences P hn]

theorem merges_of_mergeExecutable {next : Nat} {first : Executable} {others : List Executable}
    {e : ExecutableMetadata} (h : mergeExecutable r type next first others = .ok e) :
    Merges r first others e := by
  have hsingle := fun k index part => exists_mem_constraintsAt (k := k) (· = part) h (.parameter index)
  have htogether := fun k => exists_mem_constraintsAt (k := k) (fun _ => True) h .crossParameter (by simp)
  unfold mergeExecutable at h
  obtain ⟨parameters, hparameters, h⟩ := bind_eq_ok.1 h
  obtain ⟨returned, hreturned, h⟩ := bind_eq_ok.1 h
  cases h
  have hparameter := getElem?_of_mapM hparameters
  simp only [List.getElem?_zipIdx, Option.map_map, Nat.zero_add] at hparameter
  have hmerged : ∀ index p, parameters[index]? = some p → index < first.parameters.length ∧
      mergeElements r (parameterElements first.signature index (first :: others)) = .ok p.element := by
    intro index p hp
    specialize hparameter index
    rw [hp] at hparameter
    obtain ⟨q, hindex, hq⟩ := Option.map_eq_some_iff.1 hparameter
    obtain ⟨element, helement, hq⟩ := bind_eq_ok.1 hq
    cases hq
    exact ⟨(List.getElem?_eq_some_iff.1 hindex).1, helement⟩
  refine ⟨rfl, ?_, fun index p hp => (hmerged index p hp).2, hreturned, ?_, ?_⟩
  · intro index hindex
    specialize hparameter index
    rw [List.getElem?_eq_getElem hindex] at hparameter
    obtain ⟨p, hp, -⟩ := Option.map_eq_some_iff.1 hparameter.symm
    exact ⟨p, hp⟩
  · intro index p hp part k
    have hlt : ∀ i, Location.parameter index = .parameter i → i < first.parameters.length := by
      rintro i hi
      cases hi
      exact (hmerged index p hp).1
    have hat := hsingle k index part hlt
    simpa [ExecutableMetadata.constraintsAt, hp, Executable.demands_single_iff] using hat
  · intro k
    simpa [ExecutableMetadata.constraintsAt, Executable.demands_together_iff] using htogether k

variable {first : Executable} {others : List Executable} {e : ExecutableMetadata}

/-- A merged executable demands what any of its declarations does. -/
theorem Merges.demands_iff (h : Merges r first others e)
    (hlength : ∀ d ∈ first :: others, d.parameters.length = first.parameters.length)
    {x : ArgumentDemand} : e.Demands x ↔ ∃ d ∈ first :: others, d.Demands x := by
  cases x with
  | together k => exact h.crossParameter_iff k
  | single index part x =>
    have hmerged : ∀ p, e.parameters[index]? = some p → (p.element.Demands part x ↔
        ∃ d ∈ first :: others, d.Demands (.single index part x)) := by
      intro p hp
      rw [demands_mergeElements (h.element_eq index p hp)]
      simp only [parameterElements, List.mem_filterMap, Option.map_eq_some_iff, Executable.Demands]
      constructor
      · rintro ⟨_, ⟨d, hd, q, hq, rfl⟩, hx⟩
        exact ⟨d, hd, q, hq, hx⟩
      · rintro ⟨d, hd, q, hq, hx⟩
        exact ⟨_, ⟨d, hd, q, hq, rfl⟩, hx⟩
    constructor
    · rintro ⟨p, hp, hx⟩
      exact (hmerged p hp).1 hx
    · rintro ⟨d, hd, q, hq, hx⟩
      obtain ⟨p, hp⟩ := h.parameter_of_lt index
        (hlength d hd ▸ (List.getElem?_eq_some_iff.1 hq).1)
      exact ⟨p, hp, (hmerged p hp).2 ⟨d, hd, q, hq, hx⟩⟩

end Assembly

end ObjectValidation
