import ObjectValidation.Proofs.Equality
/-!
# Elements in the order of their demands

An element is below another one if that one demands all that it does. For elements whose declarations
equal themselves this is decided by `Element.subset` (`Element.subset_iff`), so the order is reflexive and
transitive. What is merged demands what either part does, and so it is the join of the two: above both,
and below all that is above both (`Element.merge_is_join`). The declarations that can be built are among
those (`Constraint.IsBuilt.isProper`), unless an attribute is no number.
-/

namespace ObjectValidation

theorem Entries.mem_insert {α : Type} {key : String} {value : α} {x : String × α} :
    ∀ {entries : Entries α}, x ∈ Entries.insert key value entries → x = (key, value) ∨ x ∈ entries
  | [], h => by simpa [Entries.insert] using h
  | (k, v) :: rest, h => by
    have ih := @Entries.mem_insert α key value x rest
    unfold Entries.insert at h
    grind

namespace Constraint

/-- Proper declarations are told apart by an equivalence. -/
theorem same_equivalence : Equivalence fun c d : { c : Constraint // c.IsProper } => c.1.same d.1 where
  refl c := c.2.same_refl
  symm {c _} h := c.2.same_symm h
  trans h h' := same_trans h h'

/-- The declarations that can be built, from a kind and step by step, without attributes that are no
number. -/
inductive IsBuilt : Constraint → Prop
  | ofKind (kind : String) : IsBuilt { kind }
  | withGroups {c : Constraint} (groups : List TypeName) : c.IsBuilt →
      IsBuilt { c with groups := groupsOf groups }
  | withTag {c : Constraint} (tag : String) : c.IsBuilt → IsBuilt { c with payload := c.payload ++ [tag] }
  | withAttribute {c : Constraint} (name : String) {a : Attribute} : a ≠ .float .nan → c.IsBuilt →
      IsBuilt { c with attributes := Entries.insert name a c.attributes }
  | withPart {c part : Constraint} : part.IsBuilt → c.IsBuilt →
      IsBuilt { c with composing := c.composing ++ [part] }
  | withSingleReport {c : Constraint} : c.IsBuilt → IsBuilt { c with reportAsSingle := true }
  | withTemplate {c : Constraint} (template : String) : c.IsBuilt →
      IsBuilt { c with template := some template }

/-- Each step of building keeps a declaration proper. -/
theorem IsBuilt.isProper {c : Constraint} (h : c.IsBuilt) : c.IsProper := by
  induction h with
  | ofKind kind => exact .intro (by simp) (by simp) (by simp)
  | withGroups groups _ ih =>
    obtain ⟨-, attributes, parts⟩ := ih
    exact .intro (nodup_groupsOf groups) attributes parts
  | withAttribute name ha _ ih =>
    obtain ⟨groups, attributes, parts⟩ := ih
    refine .intro groups (fun x hx => ?_) parts
    rcases Entries.mem_insert hx with rfl | hx
    · exact ha
    · exact attributes x hx
  | withPart _ _ hpart ih =>
    obtain ⟨groups, attributes, parts⟩ := ih
    refine .intro groups attributes fun part h => ?_
    rcases List.mem_append.1 h with h | h
    · exact parts part h
    · exact List.mem_singleton.1 h ▸ hpart
  | withTag _ _ ih | withSingleReport _ ih | withTemplate _ _ ih =>
    obtain ⟨groups, attributes, parts⟩ := ih
    exact .intro groups attributes parts

end Constraint

namespace Facet

variable {f g : Facet}

/-- Whether all declarations of a facet are proper. -/
def IsProper (f : Facet) : Prop := ∀ k ∈ f.constraints, k.IsProper

/-- A facet with proper declarations is below each that demands all that it does. -/
theorem subset_of_demands (hf : f.IsProper) (h : ∀ x, f.Demands x → g.Demands x) : f.subset g := by
  simp only [subset, Bool.and_eq_true, List.all_eq_true, List.contains_iff_mem, Bool.or_eq_true,
    Bool.not_eq_true']
  refine ⟨⟨fun k hk => ?_, fun c hc => h (.conversion c) hc⟩, ?_⟩
  · exact h (.constraint k) (Constraint.isAmong_iff.2 ⟨k, hk, (hf k hk).same_refl⟩)
  · cases hcascading : f.cascading with
    | false => exact .inl rfl
    | true => exact .inr (h .cascade hcascading)

/-- A facet that is not empty demands something. -/
theorem exists_demands (hf : f.IsProper) (h : f.isConstrained) : ∃ x, f.Demands x := by
  simp only [isConstrained, Bool.or_eq_true, Bool.not_eq_true', List.isEmpty_eq_false_iff] at h
  rcases h with (hconstraints | hcascading) | hconversions
  · obtain ⟨k, hk⟩ := List.exists_mem_of_ne_nil _ hconstraints
    exact ⟨.constraint k, Constraint.isAmong_iff.2 ⟨k, hk, (hf k hk).same_refl⟩⟩
  · exact ⟨.cascade, hcascading⟩
  · obtain ⟨c, hc⟩ := List.exists_mem_of_ne_nil _ hconversions
    exact ⟨.conversion c, hc⟩

theorem isProper_addConstraints : ∀ {added cs : List Constraint}, (∀ k ∈ cs, k.IsProper) →
    (∀ k ∈ added, k.IsProper) → ∀ k ∈ addConstraints cs added, k.IsProper
  | [], _, hcs, _ => hcs
  | c :: added, cs, hcs, hadded => by
    obtain ⟨hc, hadded⟩ := List.forall_mem_cons.1 hadded
    have hhead : ∀ k ∈ if c.isAmong cs then cs else cs ++ [c], k.IsProper := by
      split
      · exact hcs
      · exact List.forall_mem_append.2 ⟨hcs, by simpa using hc⟩
    exact @isProper_addConstraints added _ hhead hadded

theorem IsProper.merge (hf : f.IsProper) (hg : g.IsProper) : (f.merge g).IsProper :=
  isProper_addConstraints hf hg

theorem IsProper.located (hf : f.IsProper) (owner : TypeName) (site : Site) :
    (f.located owner site).IsProper := Constraint.isProper_locatedAll hf

end Facet

namespace Element

variable {a b d e : Element}

/-- Whether all declarations of an element, on the value or on what it contains, are proper. -/
def IsProper (e : Element) : Prop := e.Each Facet.IsProper

theorem IsProper.of_declares (he : e.IsProper) {part : Option ContainerKind} {k : Constraint}
    (hk : e.Declares part k) : k.IsProper := by
  cases part with
  | none => exact he.1 k hk
  | some kind =>
    obtain ⟨f, hf, hk⟩ := hk
    exact he.2 _ hf k hk

/-- A proper element stays proper as part of a type. -/
theorem IsProper.located (he : e.IsProper) (owner : TypeName) (site : Site) :
    (e.located owner site).IsProper := by
  refine ⟨Facet.IsProper.located he.1 owner site, fun y hy => ?_⟩
  obtain ⟨x, hx, rfl⟩ := List.mem_map.1 hy
  exact Facet.IsProper.located (he.2 x hx) owner site

/-- The subset order on proper elements is that of their demands. -/
theorem subset_iff (he : e.IsProper) :
    e.subset d ↔ ∀ part x, e.Demands part x → d.Demands part x := by
  refine ⟨fun h part x hx => hx.of_subset h, fun h => ?_⟩
  simp only [subset, Bool.and_eq_true, List.all_eq_true, Bool.or_eq_true, Bool.not_eq_true']
  refine ⟨Facet.subset_of_demands he.1 (h none), ?_⟩
  rintro ⟨kind, f⟩ hf
  cases hconstrained : f.isConstrained with
  | false => exact .inl rfl
  | true =>
    right
    -- The other element has one facet for the kind, which makes all the demands.
    obtain ⟨x, hx⟩ := Facet.exists_demands (he.2 _ hf) hconstrained
    obtain ⟨g, hg, -⟩ := h (some kind) x ⟨f, hf, hx⟩
    have hcontainer : d.container? kind = some g := Assembly.lookup_of_mem d.nodup_kinds hg
    rw [hcontainer, Option.any_some]
    refine Facet.subset_of_demands (he.2 _ hf) fun y hy => ?_
    obtain ⟨g', hg', hy⟩ := h (some kind) y ⟨f, hf, hy⟩
    obtain rfl : g = g' :=
      Option.some.inj (hcontainer.symm.trans (Assembly.lookup_of_mem d.nodup_kinds hg'))
    exact hy

theorem subset_refl (he : e.IsProper) : e.subset e := (subset_iff he).2 fun _ _ => id

theorem subset_trans (ha : a.IsProper) (hab : a.subset b) (hbd : b.subset d) : a.subset d :=
  (subset_iff ha).2 fun _ _ hx => (hx.of_subset hab).of_subset hbd

theorem IsProper.union (ha : a.IsProper) (hb : b.IsProper) : (a.union b).IsProper :=
  Each.union (fun hf hg => hf.merge hg) ha hb

theorem subset_union_left (ha : a.IsProper) : a.subset (a.union b) :=
  (subset_iff ha).2 fun _ _ hx => demands_union.2 (.inl hx)

theorem subset_union_right (hb : b.IsProper) : b.subset (a.union b) :=
  (subset_iff hb).2 fun _ _ hx => demands_union.2 (.inr hx)

theorem union_subset (ha : a.IsProper) (hb : b.IsProper) (had : a.subset d) (hbd : b.subset d) :
    (a.union b).subset d :=
  (subset_iff (ha.union hb)).2 fun _ _ hx =>
    (demands_union.1 hx).elim (·.of_subset had) (·.of_subset hbd)

/-- On elements with proper declarations, as all are that are built without attributes that are no
number, equality of declarations is an equivalence, the subset order is that of the demands, which is
reflexive and transitive, and what is merged is the join of its two parts. -/
theorem merge_is_join :
    (∀ c : Constraint, c.IsBuilt → c.IsProper) ∧
    (Equivalence fun c d : { c : Constraint // c.IsProper } => c.1.same d.1) ∧
    (∀ e d : Element, e.IsProper →
      (e.subset d ↔ ∀ part x, e.Demands part x → d.Demands part x)) ∧
    (∀ e : Element, e.IsProper → e.subset e) ∧
    (∀ a b d : Element, a.IsProper → a.subset b → b.subset d → a.subset d) ∧
    ∀ (name : String) (a b c : Element), a.IsProper → b.IsProper → a.merge name b = .ok c →
      c.IsProper ∧ a.subset c ∧ b.subset c ∧ ∀ d : Element, a.subset d → b.subset d → c.subset d := by
  refine ⟨fun c hc => hc.isProper, Constraint.same_equivalence, fun e d he => subset_iff he,
    fun e he => subset_refl he, fun a b d ha hab hbd => subset_trans ha hab hbd, ?_⟩
  rintro name a b c ha hb h
  obtain rfl := eq_union_of_merge h
  exact ⟨ha.union hb, subset_union_left ha, subset_union_right hb, fun d had hbd =>
    union_subset ha hb had hbd⟩

/-- Players by number: who is there in a draft and in the end is a player. -/
def roster : Element where
  own := {
    constraints := [{ kind := "NotNull", groups := Constraint.groupsOf [⟨"Draft"⟩, ⟨"Final"⟩] }]
    cascading := true }
  containers := [
    (.mapValue, { cascading := true, conversions := [⟨TypeName.defaultGroup, ⟨"Player"⟩⟩] }),
    (.mapKey, { constraints := [{ kind := "NotNull" }] }), (.listElement, {})]

/-- A team, with the shared demand in other words: the groups stand the other way round. -/
def team : Element where
  own := {
    constraints := [{ kind := "NotNull", groups := Constraint.groupsOf [⟨"Final"⟩, ⟨"Draft"⟩] },
      { kind := "Size", attributes := Entries.insert "max" (.int 11) [] }] }
  containers := [(.mapKey, { constraints := [{ kind := "Min" }, { kind := "NotNull" }] }),
    (.optionalValue, { cascading := true })]

/-- Merged, the shared demands stand once, and the whole is below all that demands both. -/
theorem merge_is_join_roster_team :
    ∃ c, roster.merge "players" team = .ok c ∧
      c.own.constraints.length = 2 ∧ (c.container? .mapKey).map (·.constraints.length) = some 2 ∧
      roster.subset c ∧ team.subset c ∧ ∀ d : Element, roster.subset d → team.subset d → c.subset d := by
  obtain ⟨hbuilt, -, -, -, -, hjoin⟩ := merge_is_join
  have hkind : ∀ kind : String, Constraint.IsProper { kind } := fun kind => hbuilt _ (.ofKind kind)
  have hnotNull : ∀ groups, Constraint.IsProper
      { kind := "NotNull", groups := Constraint.groupsOf groups } :=
    fun groups => hbuilt _ (.withGroups groups (.ofKind "NotNull"))
  have hsize : Constraint.IsProper
      { kind := "Size", attributes := Entries.insert "max" (.int 11) [] } :=
    hbuilt _ (.withAttribute "max" (by simp) (.ofKind "Size"))
  have hroster : roster.IsProper := by simp [IsProper, Each, Facet.IsProper, roster, hkind, hnotNull]
  have hteam : team.IsProper := by simp [IsProper, Each, Facet.IsProper, team, hkind, hnotNull, hsize]
  let c := (roster.merge "players" team).toOption.get (by decide +kernel)
  have hc : roster.merge "players" team = .ok c := toOption_eq_some (Option.some_get _).symm
  obtain ⟨-, hleft, hright, hleast⟩ := hjoin _ _ _ _ hroster hteam hc
  exact ⟨c, hc, by decide +kernel, by decide +kernel, hleft, hright, hleast⟩

end Element

end ObjectValidation
