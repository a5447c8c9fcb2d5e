import Mathlib.Data.List.Induction
import Mathlib.Data.List.Nodup
import ObjectValidation.Proofs.Overrides
/-!
# Conversions of merged elements

The conversions of a declaration are checked on their own, those of a field when its property is merged
and those of a getter, a parameter or a returned value when the executable is. Merging asks only that the
added conversions contradict none that are there. Both together keep the conversions of an element a
function: no group has two targets (`Facet.IsFaultless.merge`), so a group goes where any declaration
sends it (`Facet.IsFaultless.converted_eq`).

A getter is merged into its property before its own conversions are checked. What is wrong with them is
found later, so the metadata is not put together at all (`Metadata.isFaultless_of_mem_propertiesOf`).
-/

namespace ObjectValidation

variable {r : Registry}

/-! ### Facets -/

/-- What the check of conversions asks of a facet. -/
structure Facet.IsFaultless (r : Registry) (f : Facet) : Prop where
  nodup_sources : (f.conversions.map (·.source)).Nodup
  not_sequence : ∀ x ∈ f.conversions, r.isGroupSequence x.source = false
  cascading : f.conversions ≠ [] → f.cascading = true

namespace Facet

variable {f g : Facet} {x : Conversion}

theorem isFaultless_of_conversionFault? (h : f.conversionFault? r = none) : f.IsFaultless r := by
  unfold conversionFault? at h
  split at h
  · next hempty =>
    rw [List.isEmpty_iff] at hempty
    refine ⟨?_, ?_, ?_⟩ <;> simp [hempty]
  split at h
  · cases h
  next hcascading =>
  rw [List.findSome?_eq_none_iff] at h
  have hat : ∀ (i : Nat) (hi : i < f.conversions.length),
      (∀ y ∈ f.conversions.take i, y.source ≠ f.conversions[i].source) ∧
        r.isGroupSequence f.conversions[i].source = false := by
    intro i hi
    have hfault := h i (List.mem_range.2 hi)
    rw [List.getElem?_eq_getElem hi, Option.bind_some] at hfault
    split at hfault
    · cases hfault
    · next hrepeated =>
      split at hfault
      · cases hfault
      · next hsequence => exact ⟨by simpa using hrepeated, by simpa using hsequence⟩
  refine ⟨?_, ?_, fun _ => by simpa using hcascading⟩
  · refine List.pairwise_map.2 (List.pairwise_iff_getElem.2 fun i j hi hj hij => ?_)
    exact (hat j hj).1 _ (List.mem_take_iff_getElem.2 ⟨i, by omega, rfl⟩)
  · intro x hx
    obtain ⟨i, hi, rfl⟩ := List.mem_iff_getElem.1 hx
    exact (hat i hi).2

/-- Where no group has two targets, each conversion is the one that applies. -/
theorem IsFaultless.converted_eq (h : f.IsFaultless r) (hx : x ∈ f.conversions) :
    f.converted x.source = x.target := by
  unfold converted convert
  cases hfind : f.conversions.find? (·.source = x.source) with
  | none => simpa using List.find?_eq_none.1 hfind x hx
  | some y =>
    have hy : y.source = x.source := by simpa using List.find?_some hfind
    obtain rfl : y = x :=
      List.inj_on_of_nodup_map h.nodup_sources (List.mem_of_find?_eq_some hfind) hx hy
    rfl

theorem eq_of_conflict? {existing added : List Conversion} (h : conflict? existing added = none)
    {y : Conversion} (hx : x ∈ added) (hy : y ∈ existing) (hsource : y.source = x.source) :
    y = x := by
  have hnone := List.findSome?_eq_none_iff.1 h x hx
  rw [Option.map_eq_none_iff, List.find?_eq_none] at hnone
  have htarget : y.target = x.target := by simpa [hsource] using hnone y hy
  cases x
  cases y
  simp_all

/-- Conversions that contradict none of those there leave each group with one target. -/
theorem nodup_sources_addConversions : ∀ {added cs : List Conversion},
    (cs.map (·.source)).Nodup → (added.map (·.source)).Nodup →
    (∀ x ∈ added, ∀ y ∈ cs, y.source = x.source → y = x) →
    ((addConversions cs added).map (·.source)).Nodup
  | [], _, hcs, _, _ => hcs
  | x :: added, cs, hcs, hadded, hagree => by
    obtain ⟨hx, hadded⟩ := List.nodup_cons.1 hadded
    obtain ⟨hhead, hagree⟩ := List.forall_mem_cons.1 hagree
    by_cases hmem : x ∈ cs
    · have hsame : addConversions cs (x :: added) = addConversions cs added := by
        simp [addConversions, hmem]
      rw [hsame]
      exact nodup_sources_addConversions hcs hadded hagree
    · have hnext : addConversions cs (x :: added) = addConversions (cs ++ [x]) added := by
        simp [addConversions, hmem]
      have hnew : x.source ∉ cs.map (·.source) := by
        intro hsource
        obtain ⟨y, hy, hsource⟩ := List.mem_map.1 hsource
        exact hmem (hhead y hy hsource ▸ hy)
      rw [hnext]
      refine nodup_sources_addConversions ?_ hadded fun z hz y hy hsource => ?_
      · rw [List.map_append, List.nodup_append]
        refine ⟨hcs, by simp, ?_⟩
        rintro source hs _ hs' rfl
        obtain rfl : source = x.source := by simpa using hs'
        exact hnew hs
      · rcases List.mem_append.1 hy with hy | hy
        · exact hagree z hz y hy hsource
        · rw [List.mem_singleton.1 hy] at hsource
          exact absurd (List.mem_map.2 ⟨z, hz, hsource.symm⟩) hx

theorem IsFaultless.merge (hf : f.IsFaultless r) (hg : g.IsFaultless r)
    (h : conflict? f.conversions g.conversions = none) : (f.merge g).IsFaultless r := by
  have hmem : ∀ x, x ∈ (f.merge g).conversions ↔ x ∈ f.conversions ∨ x ∈ g.conversions :=
    fun _ => mem_addConversions
  refine ⟨?_, ?_, fun hne => ?_⟩
  · exact nodup_sources_addConversions hf.nodup_sources hg.nodup_sources
      fun x hx y hy => eq_of_conflict? h hx hy
  · exact fun x hx => ((hmem x).1 hx).elim (hf.not_sequence x) (hg.not_sequence x)
  · obtain ⟨x, hx⟩ := List.exists_mem_of_ne_nil _ hne
    refine Bool.or_eq_true_iff.2 (((hmem x).1 hx).imp (fun hx => ?_) fun hx => ?_)
    · exact hf.cascading (List.ne_nil_of_mem hx)
    · exact hg.cascading (List.ne_nil_of_mem hx)

end Facet

/-! ### Elements -/

theorem faultAt_eq_ok {name : String} {fault : Option ConversionFault} :
    faultAt name fault = .ok () ↔ fault = none := by
  cases fault <;> simp [faultAt]

namespace Element

/-- What an element demands of the value, or of the values of one kind in it. -/
def facet? (e : Element) : Option ContainerKind → Option Facet
  | none => some e.own
  | some kind => e.container? kind

/-- Whether the conversions of an element, and of the values of each kind in it, pass the check. -/
def IsFaultless (r : Registry) (e : Element) : Prop :=
  e.own.IsFaultless r ∧ ∀ x ∈ e.containers, x.2.IsFaultless r

/-- Whether an element takes each group where a declaration says, for the value and for the values of
each kind in it. -/
def ConvertsAs (e d : Element) : Prop :=
  ∀ part f, d.facet? part = some f → ∀ x ∈ f.conversions,
    ∃ g, e.facet? part = some g ∧ g.converted x.source = x.target

variable {e d : Element} {name : String}

theorem isFaultless_empty : ({} : Element).IsFaultless r :=
  ⟨⟨by simp, by simp, by simp⟩, by simp⟩

theorem IsFaultless.facet (h : e.IsFaultless r) {part : Option ContainerKind} {f : Facet}
    (hf : e.facet? part = some f) : f.IsFaultless r := by
  cases part with
  | none =>
    cases hf
    exact h.1
  | some kind => exact h.2 _ (Assembly.mem_of_lookup hf)

/-- An element converts as those do whose conversions it has. -/
theorem IsFaultless.convertsAs (h : e.IsFaultless r)
    (hd : ∀ part x, d.Demands part (.conversion x) → e.Demands part (.conversion x)) :
    e.ConvertsAs d := by
  intro part f hf x hx
  cases part with
  | none =>
    cases hf
    exact ⟨e.own, rfl, h.1.converted_eq (hd none x hx)⟩
  | some kind =>
    obtain ⟨g, hg, hx⟩ := hd (some kind) x ⟨f, Assembly.mem_of_lookup hf, hx⟩
    exact ⟨g, Assembly.lookup_of_mem e.nodup_kinds hg, (h.2 _ hg).converted_eq hx⟩

theorem isFaultless_of_checkConversions (h : e.checkConversions r name = .ok ()) :
    e.IsFaultless r := by
  obtain ⟨_, hown, hcontainers⟩ := bind_eq_ok.1 h
  exact ⟨Facet.isFaultless_of_conversionFault? (faultAt_eq_ok.1 hown), fun x hx =>
    Facet.isFaultless_of_conversionFault? (faultAt_eq_ok.1 (forM_eq_ok.1 hcontainers x hx))⟩

/-- Demands on one kind of contained values leave the others as they are. -/
theorem lookup_addTo_of_ne {kind other : ContainerKind} (h : other ≠ kind) {facet : Facet} :
    ∀ containers : List (ContainerKind × Facet),
      (addTo kind facet containers).lookup other = containers.lookup other
  | [] => by simp [addTo, h]
  | (k, f) :: rest => by
    unfold addTo
    by_cases hk : k = kind
    · subst hk
      simp [List.lookup_cons, beq_eq_false_iff_ne.2 h]
    · rw [if_neg hk, List.lookup_cons, List.lookup_cons, lookup_addTo_of_ne h rest]

/-- Facets of distinct kinds that contradict none of those there are added one after the other. -/
theorem IsFaultless.addContainers : ∀ {added : List (ContainerKind × Facet)} {e : Element},
    e.IsFaultless r → (added.map (·.1)).Nodup → (∀ x ∈ added, x.2.IsFaultless r ∧
      ∀ f, e.container? x.1 = some f → conflict? f.conversions x.2.conversions = none) →
    (added.foldl (fun e (kind, facet) => e.addContainer kind facet) e).IsFaultless r
  | [], _, he, _, _ => he
  | (kind, facet) :: added, e, he, hnodup, hadded => by
    obtain ⟨hkind, hnodup⟩ := List.nodup_cons.1 hnodup
    obtain ⟨⟨hfacet, hagree⟩, hadded⟩ := List.forall_mem_cons.1 hadded
    refine IsFaultless.addContainers (e := e.addContainer kind facet) ⟨he.1, fun x hx => ?_⟩ hnodup
      fun x hx => ⟨(hadded x hx).1, fun f hf => ?_⟩
    · rcases mem_addTo hx with hx | rfl | ⟨f, hf, rfl⟩
      · exact he.2 x hx
      · exact hfacet
      · exact (he.2 _ (Assembly.mem_of_lookup hf)).merge hfacet (hagree f hf)
    · have hne : x.1 ≠ kind := fun heq => hkind (List.mem_map.2 ⟨x, hx, heq⟩)
      exact (hadded x hx).2 f ((lookup_addTo_of_ne hne e.containers).symm.trans hf)

/-- Elements whose conversions pass the check and do not contradict each other make one that passes. -/
theorem IsFaultless.union (he : e.IsFaultless r) (hd : d.IsFaultless r)
    (h : e.checkMerge name d = .ok ()) : (e.union d).IsFaultless r := by
  obtain ⟨_, hown, hcontainers⟩ := bind_eq_ok.1 h
  refine IsFaultless.addContainers ⟨he.1.merge hd.1 (faultAt_eq_ok.1 hown), he.2⟩ d.nodup_kinds
    fun x hx => ⟨hd.2 x hx, fun f hf => ?_⟩
  have hnone := faultAt_eq_ok.1 (forM_eq_ok.1 hcontainers x hx)
  have hlookup : e.container? x.1 = some f := hf
  rwa [hlookup, Option.bind_some] at hnone

theorem IsFaultless.of_merge {merged : Element} (he : e.IsFaultless r) (hd : d.IsFaultless r)
    (h : e.merge name d = .ok merged) : merged.IsFaultless r := by
  obtain ⟨_, hcheck, h⟩ := bind_eq_ok.1 h
  cases h
  exact he.union hd hcheck

end Element

/-! ### Executables -/

/-- The elements of an executable. -/
def ExecutableMetadata.elements (e : ExecutableMetadata) : List Element :=
  e.returnValue :: e.parameters.map (·.element)

/-- Whether an executable takes each group where a declaration says. -/
structure ExecutableMetadata.ConvertsAs (e : ExecutableMetadata) (d : Executable) : Prop where
  returnValue : e.returnValue.ConvertsAs d.returnValue
  parameter : ∀ (index : Nat) q, d.parameters[index]? = some q →
    ∃ p, e.parameters[index]? = some p ∧ p.element.ConvertsAs q.element

namespace Assembly

variable {rules : List MethodRule} {type : TypeName}

/-- What is merged passes the check, as each of the elements does. -/
theorem isFaultless_mergeElements {es : List (String × Element)} {merged : Element}
    (h : mergeElements r es = .ok merged) :
    merged.IsFaultless r ∧ ∀ y ∈ es, y.2.IsFaultless r := by
  have hstep : ∀ (merged : Element) (y : String × Element) merged',
      (do y.2.checkConversions r y.1; merged.merge y.1 y.2) = Except.ok merged' →
      y.2.IsFaultless r ∧ (merged.IsFaultless r → merged'.IsFaultless r) := by
    intro merged y merged' h
    obtain ⟨_, hcheck, h⟩ := bind_eq_ok.1 h
    have hy := Element.isFaultless_of_checkConversions hcheck
    exact ⟨hy, fun hmerged => hmerged.of_merge hy h⟩
  constructor
  · exact foldlM_keeps (I := (·.IsFaultless r)) (fun e y e' _ he hm => (hstep e y e' hm).2 he) h
      Element.isFaultless_empty
  · intro y hy
    exact foldlM_reaches (I := fun _ => y.2.IsFaultless r) (fun e e' hm => (hstep e y e' hm).1)
      (fun _ _ _ hI _ => hI) hy h

theorem convertsAs_mergeElements {es : List (String × Element)} {merged : Element}
    (h : mergeElements r es = .ok merged) {y : String × Element} (hy : y ∈ es) :
    merged.ConvertsAs y.2 :=
  (isFaultless_mergeElements h).1.convertsAs fun _ _ hx => (demands_mergeElements h).2 ⟨y, hy, hx⟩

section

variable {first d : Executable} {others : List Executable} {e : ExecutableMetadata}

theorem Merges.isFaultless (h : Merges r first others e) : ∀ x ∈ e.elements, x.IsFaultless r := by
  unfold ExecutableMetadata.elements
  rw [List.forall_mem_cons]
  refine ⟨(isFaultless_mergeElements h.returnValue_eq).1, fun x hx => ?_⟩
  obtain ⟨p, hp, rfl⟩ := List.mem_map.1 hx
  obtain ⟨index, hindex⟩ := List.mem_iff_getElem?.1 hp
  exact (isFaultless_mergeElements (h.element_eq index p hindex)).1

theorem Merges.isFaultless_returnValue (h : Merges r first others e) (hd : d ∈ first :: others) :
    d.returnValue.IsFaultless r :=
  (isFaultless_mergeElements h.returnValue_eq).2 _ (List.mem_map.2 ⟨d, hd, rfl⟩)

theorem Merges.convertsAs (h : Merges r first others e) (hd : d ∈ first :: others)
    (hlength : d.parameters.length = first.parameters.length) : e.ConvertsAs d := by
  refine ⟨convertsAs_mergeElements h.returnValue_eq
    (y := (_, d.returnValue)) (List.mem_map.2 ⟨d, hd, rfl⟩), fun index q hq => ?_⟩
  obtain ⟨p, hp⟩ := h.parameter_of_lt index (hlength ▸ (List.getElem?_eq_some_iff.1 hq).1)
  obtain ⟨name, hmem⟩ : ∃ name,
      (name, q.element) ∈ parameterElements first.signature index (first :: others) :=
    ⟨_, List.mem_filterMap.2 ⟨d, hd, by rw [hq]; rfl⟩⟩
  exact ⟨p, hp, convertsAs_mergeElements (h.element_eq index p hp) hmem⟩

end

end Assembly

/-! ### Constructors -/

instance : Std.TransOrd TypeName := inferInstanceAs (Std.TransCmp (compareOn TypeName.text))

theorem Signature.order_eq : Signature.order = compareLex (compareOn Signature.name)
    fun s t => List.compareLex compare s.parameterTypes t.parameterTypes := rfl

instance : Std.TransCmp Signature.order := by
  have htypes : Std.TransCmp fun s t : Signature =>
      List.compareLex compare s.parameterTypes t.parameterTypes :=
    inferInstanceAs (Std.TransCmp (compareOn Signature.parameterTypes))
  rw [Signature.order_eq]
  infer_instance

namespace Assembly

variable {rules : List MethodRule} {type : TypeName}

/-- Executables in the order of their signatures, each signature once. -/
def InOrder (es : List ExecutableMetadata) : Prop :=
  es.Pairwise fun e d => Signature.order e.signature d.signature = .lt

/-- An executable that is inserted takes the place of the one of its signature. -/
theorem mem_insertExecutable_iff {e x : ExecutableMetadata} : ∀ {es : List ExecutableMetadata},
    InOrder es → (x ∈ insertExecutable e es ↔ x = e ∨ x ∈ es ∧ x.signature ≠ e.signature)
  | [], _ => by simp [insertExecutable]
  | y :: es, h => by
    obtain ⟨hy, hes⟩ := List.pairwise_cons.1 h
    have hsame : Signature.order e.signature e.signature = .eq := Std.ReflCmp.compare_self
    have hne : ∀ {d : ExecutableMetadata}, Signature.order e.signature d.signature = .lt →
        d.signature ≠ e.signature := by
      intro d hd heq
      rw [heq, hsame] at hd
      cases hd
    unfold insertExecutable
    split
    · next hlt =>
      have hall : ∀ d ∈ y :: es, d.signature ≠ e.signature := List.forall_mem_cons.2
        ⟨hne hlt, fun d hd => hne (Std.TransCmp.lt_trans hlt (hy d hd))⟩
      rw [List.mem_cons]
      exact or_congr_right ⟨fun hx => ⟨hx, hall x hx⟩, And.left⟩
    · next heq =>
      have heq := Signature.eq_of_order heq
      have hall : ∀ d ∈ es, d.signature ≠ e.signature := fun d hd => hne (heq ▸ hy d hd)
      rw [List.mem_cons, List.mem_cons]
      refine or_congr_right ⟨fun hx => ⟨.inr hx, hall x hx⟩, ?_⟩
      rintro ⟨rfl | hx, hx'⟩
      · exact absurd heq.symm hx'
      · exact hx
    · next hgt =>
      have hne : y.signature ≠ e.signature := by
        intro heq
        rw [heq, hsame] at hgt
        cases hgt
      rw [List.mem_cons, mem_insertExecutable_iff hes, List.mem_cons]
      constructor
      · rintro (rfl | rfl | hx)
        · exact .inr ⟨.inl rfl, hne⟩
        · exact .inl rfl
        · exact .inr ⟨.inr hx.1, hx.2⟩
      · rintro (rfl | ⟨rfl | hx, hx'⟩)
        · exact .inr (.inl rfl)
        · exact .inl rfl
        · exact .inr (.inr ⟨hx, hx'⟩)

theorem InOrder.insert (e : ExecutableMetadata) : ∀ {es : List ExecutableMetadata}, InOrder es →
    InOrder (insertExecutable e es)
  | [], _ => List.pairwise_singleton _ _
  | y :: es, h => by
    obtain ⟨hy, hes⟩ := List.pairwise_cons.1 h
    unfold insertExecutable
    split
    · next hlt =>
      refine List.pairwise_cons.2 ⟨List.forall_mem_cons.2 ⟨hlt, fun d hd => ?_⟩, h⟩
      exact Std.TransCmp.lt_trans hlt (hy d hd)
    · next heq => exact List.pairwise_cons.2 ⟨Signature.eq_of_order heq ▸ hy, hes⟩
    · next hgt =>
      refine List.pairwise_cons.2 ⟨fun d hd => ?_, InOrder.insert e hes⟩
      rcases (mem_insertExecutable_iff hes).1 hd with rfl | ⟨hd, -⟩
      · exact Std.OrientedCmp.lt_of_gt hgt
      · exact hy d hd

/-- Of constructors with one signature the last one counts. -/
theorem exists_last_constructor {cs : List Executable} {a a' : Assembled}
    (h : cs.foldlM (fun a c => addExecutable r rules type a [c]) a = .ok a')
    (ha : a.executables = []) : InOrder a'.executables ∧ ∀ e ∈ a'.executables,
      ∃ c next, (cs.filter (·.signature = e.signature)).getLast? = some c ∧
        mergeExecutable r type next c [] = .ok e := by
  induction cs using List.reverseRecOn generalizing a' with
  | nil =>
    cases h
    simp [ha, InOrder]
  | append_singleton cs c ih =>
    rw [List.foldlM_append] at h
    obtain ⟨a₁, h₁, h⟩ := bind_eq_ok.1 h
    obtain ⟨horder, hlast⟩ := ih h₁
    obtain ⟨a₂, h, hnil⟩ := bind_eq_ok.1 h
    cases hnil
    rcases addExecutable_ok h with ⟨hempty, -⟩ | ⟨first, others, e, hc, -, hmerge, rfl⟩
    · cases hempty
    cases hc
    have hmerges := merges_of_mergeExecutable hmerge
    refine ⟨horder.insert e, fun x hx => ?_⟩
    rcases (mem_insertExecutable_iff horder).1 hx with rfl | ⟨hx, hne⟩
    · exact ⟨c, _, by simp [hmerges.signature_eq], hmerge⟩
    · obtain ⟨o, next, ho, hmerged⟩ := hlast x hx
      have hother : ¬ c.signature = x.signature := fun heq =>
        hne (heq.symm.trans hmerges.signature_eq.symm)
      exact ⟨o, next, by simpa [List.filter_append, hother] using ho, hmerged⟩

end Assembly

/-! ### Properties -/

namespace Assembly

variable {merged merged' : List (String × Element)} {p q : PropertyDeclaration}

theorem isFaultless_of_isField (h : mergeProperty r merged p = .ok merged') (hp : p.isField) :
    p.element.IsFaultless r := by
  unfold mergeProperty at h
  simp only [hp, if_true] at h
  obtain ⟨_, hcheck, -⟩ := bind_eq_ok.1 h
  exact Element.isFaultless_of_checkConversions hcheck

/-- A declaration that is merged contradicts nothing that was merged under its name. -/
theorem checkMerge_of_mergeProperty (h : mergeProperty r merged p = .ok merged') {e : Element}
    (he : merged.lookup p.name = some e) : ∃ name, e.checkMerge name p.element = .ok () := by
  have hmerge : ∃ name e', e.merge name p.element = .ok e' := by
    unfold mergeProperty at h
    simp only [he] at h
    split at h
    · obtain ⟨_, -, h⟩ := bind_eq_ok.1 h
      obtain ⟨e', he', -⟩ := bind_eq_ok.1 h
      exact ⟨_, e', he'⟩
    · obtain ⟨e', he', -⟩ := bind_eq_ok.1 h
      exact ⟨_, e', he'⟩
  obtain ⟨name, e', hmerge⟩ := hmerge
  obtain ⟨_, hcheck, -⟩ := bind_eq_ok.1 hmerge
  exact ⟨name, hcheck⟩

theorem isFaultless_mergeProperty (h : mergeProperty r merged p = .ok merged')
    (hp : p.element.IsFaultless r) (hmerged : ∀ x ∈ merged, x.2.IsFaultless r) :
    ∀ x ∈ merged', x.2.IsFaultless r := by
  intro x hx
  rcases mergeProperty_ok h with ⟨-, rfl⟩ | ⟨e, he, rfl⟩
  · rcases List.mem_append.1 hx with hx | hx
    · exact hmerged x hx
    · rw [List.mem_singleton.1 hx]
      exact hp
  · obtain ⟨y, hy, rfl⟩ := List.mem_map.1 hx
    split
    · obtain ⟨name, hcheck⟩ := checkMerge_of_mergeProperty h he
      exact (hmerged _ (mem_of_lookup he)).union hp hcheck
    · exact hmerged y hy

/-- Whether what is merged under the name of a declaration demands what the declaration does. -/
def HasDemands (p : PropertyDeclaration) (merged : List (String × Element)) : Prop :=
  p.name ∈ merged.map (·.1) ∧ ∀ e, (p.name, e) ∈ merged →
    ∀ part x, p.element.Demands part x → e.Demands part x

theorem hasDemands_mergeProperty (h : mergeProperty r merged p = .ok merged') :
    HasDemands p merged' := by
  refine ⟨?_, fun e he part x hx => ?_⟩
  · rcases mergeProperty_names h with ⟨hmem, hnames⟩ | ⟨-, hnames⟩ <;> simp [hnames]
    simpa using hmem
  rcases mergeProperty_ok h with ⟨hnone, rfl⟩ | ⟨e₁, -, rfl⟩
  · rcases List.mem_append.1 he with he | he
    · exact absurd (List.lookup_eq_none_iff.1 hnone _ he) (by simp)
    · cases List.mem_singleton.1 he
      exact hx
  · obtain ⟨y, -, hy⟩ := List.mem_map.1 he
    split at hy
    · cases hy
      exact Element.demands_union.2 (.inr hx)
    · next hname => exact absurd (congrArg Prod.fst hy) hname

theorem HasDemands.mergeProperty (hp : HasDemands p merged)
    (h : mergeProperty r merged q = .ok merged') : HasDemands p merged' := by
  obtain ⟨hname, hdemands⟩ := hp
  refine ⟨?_, fun e he part x hx => ?_⟩
  · rcases mergeProperty_names h with ⟨-, hnames⟩ | ⟨-, hnames⟩ <;> rw [hnames]
    · exact hname
    · exact List.mem_append_left _ hname
  rcases mergeProperty_ok h with ⟨hnone, rfl⟩ | ⟨e₁, he₁, rfl⟩
  · rcases List.mem_append.1 he with he | he
    · exact hdemands e he part x hx
    -- The name of a declaration that is merged anew is not that of an earlier one.
    · obtain ⟨hpq, -⟩ := Prod.mk.inj (List.mem_singleton.1 he)
      obtain ⟨y, hy, hyname⟩ := List.mem_map.1 hname
      exact absurd (List.lookup_eq_none_iff.1 hnone y hy) (by simpa using (hyname.trans hpq).symm)
  · obtain ⟨y, hy, heq⟩ := List.mem_map.1 he
    split at heq
    · next hyname =>
      obtain ⟨hpq, rfl⟩ := Prod.mk.inj heq
      exact Element.demands_union.2 (.inl (hdemands e₁ (hpq ▸ mem_of_lookup he₁) part x hx))
    · exact hdemands e (heq ▸ hy) part x hx

end Assembly

/-! ### Metadata -/

/-- The elements of the properties and executables of a type. -/
def Metadata.elements (m : Metadata) : List Element :=
  m.properties.map (·.element) ++ (m.methods ++ m.constructors).flatMap (·.elements)

namespace Metadata

open Assembly

variable {rules : List MethodRule} {type : TypeName} {m : Metadata}

/-- The constructors are put together from those of the type itself. -/
theorem constructors_of_assemble (h : assemble r rules type = .ok m) :
    ∃ own next a, r.get? type = some own ∧
      (if own.isInterface then [] else own.constructors).foldlM
        (fun a c => addExecutable r rules type a [c]) { next } = .ok a ∧
      m.constructors = a.executables := by
  obtain ⟨rfl, own, definitions, elements, hs⟩ := sources h
  obtain ⟨methods, constructors, -, hadd, -, hc⟩ := hs.executables h
  exact ⟨own, _, constructors, hs.own_eq, hadd, hc⟩

/-- A constructor is what the last one of its signature in the type itself is made into. -/
theorem mergeExecutable_of_mem_constructors (h : assemble r rules type = .ok m)
    {e : ExecutableMetadata} (he : e ∈ m.constructors) : ∃ own c next, r.get? type = some own ∧
      (own.constructors.filter (·.signature = e.signature)).getLast? = some c ∧
      mergeExecutable r type next c [] = .ok e := by
  obtain ⟨own, start, a, hown, hadd, hm⟩ := constructors_of_assemble h
  obtain ⟨-, hlast⟩ := exists_last_constructor hadd rfl
  obtain ⟨c, next, hc, hmerge⟩ := hlast e (hm ▸ he)
  split at hc
  · cases hc
  · exact ⟨own, c, next, hown, hc, hmerge⟩

theorem exists_constructor (h : assemble r rules type = .ok m) {e : ExecutableMetadata}
    (he : e ∈ m.constructors) : ∃ own c, r.get? type = some own ∧
      (own.constructors.filter (·.signature = e.signature)).getLast? = some c ∧
      Merges r c [] e := by
  obtain ⟨own, c, next, hown, hc, hmerge⟩ := mergeExecutable_of_mem_constructors h he
  exact ⟨own, c, hown, hc, merges_of_mergeExecutable hmerge⟩

/-- In metadata that is put together, the conversions of no property are faulty where they are
declared. -/
theorem isFaultless_of_mem_propertiesOf (h : assemble r rules type = .ok m) {name : TypeName}
    (hname : name ∈ m.hierarchy) {t : TypeDefinition} (ht : r.get? name = some t)
    {p : PropertyDeclaration} (hp : p ∈ propertiesOf type t) : p.element.IsFaultless r := by
  obtain ⟨rfl, own, definitions, elements, hs⟩ := sources h
  have hmem : p ∈ definitions.flatMap (propertiesOf m.type) :=
    List.mem_flatMap.2 ⟨t, hs.mem_definitions.2 ⟨name, hname, ht⟩, hp⟩
  rcases List.mem_append.1 hp with hfield | hgetter
  · have hfield : p.isField := by
      obtain ⟨f, -, rfl⟩ := List.mem_map.1 hfield
      rfl
    exact foldlM_reaches (I := fun _ => p.element.IsFaultless r)
      (fun _ _ hm => isFaultless_of_isField hm hfield) (fun _ _ _ hI _ => hI) hmem hs.elements_eq
  -- A getter is checked where it is merged as a method.
  · obtain ⟨d, hd, hget⟩ := List.mem_filterMap.1 hgetter
    obtain ⟨_, -, rfl⟩ := Option.map_eq_some_iff.1 hget
    have hdeclares : r.Declares m.type d := ⟨_, hs.hierarchy_eq, name, hname, t, ht, hd⟩
    obtain ⟨e, he, hsignature⟩ := exists_mem_methods h hdeclares
    obtain ⟨first, others, hmerges, -, hdeclared⟩ := merges_of_mem_methods h he
    exact hmerges.isFaultless_returnValue ((hdeclared d).2 ⟨hdeclares, hsignature.symm⟩)

theorem isFaultless_of_mem_properties (h : assemble r rules type = .ok m) {p : PropertyMetadata}
    (hp : p ∈ m.properties) : p.element.IsFaultless r := by
  obtain ⟨rfl, own, definitions, elements, hs⟩ := sources h
  have hall : ∀ x ∈ elements, x.2.IsFaultless r := by
    refine foldlM_keeps (I := fun merged => ∀ x ∈ merged, x.2.IsFaultless r) (fun merged q merged'
      hq hI hm => isFaultless_mergeProperty hm ?_ hI) hs.elements_eq (by simp)
    obtain ⟨t, ht, hq⟩ := List.mem_flatMap.1 hq
    obtain ⟨name, hname, hget⟩ := hs.mem_definitions.1 ht
    exact isFaultless_of_mem_propertiesOf h hname hget hq
  obtain ⟨name, element, hmem, rfl⟩ := (hs.properties_iff p).1 hp
  exact hall _ hmem

/-- A property demands what any of its declarations does. -/
theorem demands_of_mem_propertiesOf (h : assemble r rules type = .ok m) {p : PropertyMetadata}
    (hp : p ∈ m.properties) {name : TypeName} (hname : name ∈ m.hierarchy) {t : TypeDefinition}
    (ht : r.get? name = some t) {q : PropertyDeclaration} (hq : q ∈ propertiesOf type t)
    (hqp : q.name = p.name) {part : Option ContainerKind} {x : Demand}
    (hx : q.element.Demands part x) : p.element.Demands part x := by
  obtain ⟨rfl, own, definitions, elements, hs⟩ := sources h
  have hmem : q ∈ definitions.flatMap (propertiesOf m.type) :=
    List.mem_flatMap.2 ⟨t, hs.mem_definitions.2 ⟨name, hname, ht⟩, hq⟩
  have hdemands : HasDemands q elements := foldlM_reaches (fun _ _ => hasDemands_mergeProperty)
    (fun _ _ _ hI hm => hI.mergeProperty hm) hmem hs.elements_eq
  obtain ⟨_, element, helement, rfl⟩ := (hs.properties_iff p).1 hp
  exact hdemands.2 element (hqp ▸ helement) part x hx

theorem isFaultless_of_mem_elements (h : assemble r rules type = .ok m) {e : Element}
    (he : e ∈ m.elements) : e.IsFaultless r := by
  rcases List.mem_append.1 he with he | he
  · obtain ⟨p, hp, rfl⟩ := List.mem_map.1 he
    exact isFaultless_of_mem_properties h hp
  obtain ⟨x, hx, he⟩ := List.mem_flatMap.1 he
  rcases List.mem_append.1 hx with hx | hx
  · obtain ⟨first, others, hmerges, -⟩ := merges_of_mem_methods h hx
    exact hmerges.isFaultless e he
  · obtain ⟨own, c, -, -, hmerges⟩ := exists_constructor h hx
    exact hmerges.isFaultless e he

/-- The conversions of metadata that is put together are functions, each on a cascade and none from a
sequence, and they take each group where any of the merged declarations does: those of a property and
of a method in all types of the hierarchy, and the one constructor of the type that counts. -/
theorem converts_as_declared (h : assemble r rules type = .ok m) :
    (∀ e ∈ m.elements, ∀ part f, e.facet? part = some f → f.IsFaultless r) ∧
    (∀ p ∈ m.properties, ∀ name ∈ m.hierarchy, ∀ t, r.get? name = some t →
      ∀ q ∈ propertiesOf type t, q.name = p.name → p.element.ConvertsAs q.element) ∧
    (∀ e ∈ m.methods, ∀ d, r.Declares type d → d.signature = e.signature → e.ConvertsAs d) ∧
    ∀ e ∈ m.constructors, ∃ own c, r.get? type = some own ∧
      (own.constructors.filter (·.signature = e.signature)).getLast? = some c ∧
      e.ConvertsAs c := by
  refine ⟨fun e he part f hf => (isFaultless_of_mem_elements h he).facet hf, ?_, ?_, ?_⟩
  · intro p hp name hname t ht q hq hqp
    exact (isFaultless_of_mem_properties h hp).convertsAs
      fun part x hx => demands_of_mem_propertiesOf h hp hname ht hq hqp hx
  · intro e he d hd hsignature
    obtain ⟨first, others, hmerges, -, hdeclared⟩ := merges_of_mem_methods h he
    exact hmerges.convertsAs ((hdeclared d).2 ⟨hd, hsignature⟩)
      (Executable.length_eq_of_signature (hsignature.trans hmerges.signature_eq))
  · intro e he
    obtain ⟨own, c, hown, hc, hmerges⟩ := exists_constructor h he
    exact ⟨own, c, hown, hc, hmerges.convertsAs (by simp) rfl⟩

/-- A method that takes pets and returns pets, each with a conversion for the list's members. -/
def swap : Executable where
  kind := .method
  name := "swap"
  declaredBy := ⟨"Keeper"⟩
  parameters := [{ name := "pets", type := ⟨"List"⟩, element := { containers := [(.listElement,
    { cascading := true, conversions := [⟨TypeName.defaultGroup, ⟨"Basic"⟩⟩] })] } }]
  returnType := some ⟨"List"⟩
  returnValue := { containers := [(.listElement,
    { cascading := true, conversions := [⟨⟨"Basic"⟩, ⟨"Full"⟩⟩] })] }
  crossParameter := []
  isPrivate := false
  isStatic := false

/-- A field with a cascade into a pet, and a getter of the same property on an interface, each with a
conversion of its own. -/
def keeping : Registry :=
  [{ name := ⟨"Basic"⟩, kind := .interface }, { name := ⟨"Full"⟩, kind := .interface },
    { name := ⟨"Keeper"⟩, kind := .interface, methods := [
      { kind := .getter, name := "getPet", declaredBy := ⟨"Keeper"⟩, parameters := [],
        returnType := some ⟨"Pet"⟩, crossParameter := [], isPrivate := false, isStatic := false,
        returnValue := { own := { cascading := true, conversions := [⟨⟨"Basic"⟩, ⟨"Full"⟩⟩] } } },
      swap] },
    { name := ⟨"House"⟩, kind := .concrete, interfaces := [⟨"Keeper"⟩], fields := [
      ⟨"pet", { own := {
        cascading := true, conversions := [⟨TypeName.defaultGroup, ⟨"Basic"⟩⟩] } }⟩] :
      TypeDefinition }].foldl Registry.register .initial

/-- The merged property converts as the field and the getter do, and the inherited method converts the
members of the lists that it takes and returns. -/
theorem converts_as_declared_keeping :
    ∃ m, assemble keeping (MethodRule.active {}) ⟨"House"⟩ = .ok m ∧
      (∃ p ∈ m.properties, p.name = "pet" ∧
        p.element.own.converted TypeName.defaultGroup = ⟨"Basic"⟩ ∧
        p.element.own.converted ⟨"Basic"⟩ = ⟨"Full"⟩) ∧
      ∃ e ∈ m.methods, e.signature = swap.signature ∧
        (∃ p f, e.parameters[0]? = some p ∧ p.element.container? .listElement = some f ∧
          f.converted TypeName.defaultGroup = ⟨"Basic"⟩) ∧
        ∃ f, e.returnValue.container? .listElement = some f ∧ f.converted ⟨"Basic"⟩ = ⟨"Full"⟩ := by
  let m := (assemble keeping (MethodRule.active {}) ⟨"House"⟩).toOption.get (by decide +kernel)
  have hm : assemble keeping (MethodRule.active {}) ⟨"House"⟩ = .ok m :=
    toOption_eq_some (Option.some_get _).symm
  have hhierarchy : m.hierarchy = [⟨"House"⟩, ⟨"Keeper"⟩] := by decide +kernel
  refine ⟨m, hm, ?_, ?_⟩
  · have hpet : m.properties.any (·.name == "pet") := by decide +kernel
    obtain ⟨p, hp, hname⟩ := List.any_eq_true.1 hpet
    have hname : p.name = "pet" := by simpa using hname
    have hdeclared := (converts_as_declared hm).2.1 p hp
    have hconverts : ∀ (owner : TypeName) (x : Conversion), owner ∈ m.hierarchy →
        ((keeping.get? owner).any fun t => (propertiesOf ⟨"House"⟩ t).any fun q =>
          q.name == "pet" && q.element.own.conversions.contains x) = true →
        p.element.own.converted x.source = x.target := by
      intro owner x howner hx
      simp only [Option.any_eq_true, List.any_eq_true, Bool.and_eq_true, beq_iff_eq,
        List.contains_iff_mem] at hx
      obtain ⟨t, ht, q, hq, hqname, hx⟩ := hx
      obtain ⟨g, hg, hgx⟩ :=
        hdeclared owner howner t ht q hq (hqname.trans hname.symm) none q.element.own rfl x hx
      cases hg
      exact hgx
    refine ⟨p, hp, hname, ?_, ?_⟩
    · exact hconverts ⟨"House"⟩ ⟨TypeName.defaultGroup, ⟨"Basic"⟩⟩ (by simp [hhierarchy])
        (by decide +kernel)
    · exact hconverts ⟨"Keeper"⟩ ⟨⟨"Basic"⟩, ⟨"Full"⟩⟩ (by simp [hhierarchy]) (by decide +kernel)
  · have hnames : keeping.hierarchy ⟨"House"⟩ = .ok [⟨"House"⟩, ⟨"Keeper"⟩] :=
      toOption_eq_some (by decide +kernel)
    have hdeclares : keeping.Declares ⟨"House"⟩ swap :=
      ⟨_, hnames, ⟨"Keeper"⟩, by simp, _, rfl, by simp [memberMethods, swap]⟩
    obtain ⟨e, he, hsignature⟩ := exists_mem_methods hm hdeclares
    obtain ⟨hreturned, hparameters⟩ :=
      (converts_as_declared hm).2.2.1 e he swap hdeclares hsignature.symm
    obtain ⟨p, hp, hparameter⟩ := hparameters 0 _ rfl
    obtain ⟨f, hf, htaken⟩ := hparameter (some .listElement) _ rfl
      ⟨TypeName.defaultGroup, ⟨"Basic"⟩⟩ (by simp)
    obtain ⟨g, hg, hgiven⟩ := hreturned (some .listElement) _ rfl ⟨⟨"Basic"⟩, ⟨"Full"⟩⟩ (by simp)
    exact ⟨e, he, hsignature, ⟨p, f, hp, hf, htaken⟩, g, hg, hgiven⟩

end Metadata

end ObjectValidation
