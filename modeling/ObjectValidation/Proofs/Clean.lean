import ObjectValidation.Constraint.Standard
import ObjectValidation.Proofs.Closure
import ObjectValidation.Proofs.Composition
import ObjectValidation.Proofs.Hierarchy
/-!
# Clean results

A validation for the default group that finds nothing vouches for the root and for all that it leads
to: each constraint that the type of an object has in the default group accepts the value that it
applies to (`validate_clean`). This is said by the verdicts of the evaluators (`Call.Accepts`): each
declaration that a constraint is composed of accepts each value that the constraint applies to. No
filter drops a check on the way, be it the memory of processed objects and constraints, the turn that a
constraint has in a hierarchy, or a redefined default group.
-/

namespace ObjectValidation

open Run

/-! ### Evaluators and where they evaluate -/

/-- Whether evaluators go by the declaration and the value alone, wherever the value stands. -/
def Evaluators.IgnoreSites (es : Evaluators) : Prop :=
  ∀ entry ∈ es.entries, ∀ store k value site site',
    entry.2.check store k value site = entry.2.check store k value site'

theorem Evaluators.IgnoreSites.register {es : Evaluators} (h : es.IgnoreSites) {kind : String}
    {valueKind : Option ValueKind} {e : Evaluator} (he : ∀ store k value site site',
      e.check store k value site = e.check store k value site') :
    (es.register kind valueKind e).IgnoreSites := by
  intro entry hentry
  rcases List.mem_append.1 hentry with hentry | hentry
  · exact h entry (List.mem_filter.1 hentry).1
  · rw [List.mem_singleton.1 hentry]
    exact he

theorem Evaluators.IgnoreSites.registerAll {kind : String} {e : Evaluator}
    (he : ∀ store k value site site', e.check store k value site = e.check store k value site') :
    ∀ (valueKinds : List ValueKind) {es : Evaluators}, es.IgnoreSites →
      (valueKinds.foldl (fun es valueKind => es.register kind (some valueKind) e) es).IgnoreSites
  | [], _, h => h
  | _ :: valueKinds, _, h => registerAll he valueKinds (h.register he)

/-- The standard evaluators go by the declaration and the value alone. -/
theorem Standard.ignoreSites : Standard.evaluators.IgnoreSites := by
  have htable : ∀ x ∈ Standard.table, ∀ store k value site site',
      x.2.1.check store k value site = x.2.1.check store k value site' := by
    simp only [Standard.table, List.forall_mem_cons]
    refine ⟨?_, ?_, ?_, ?_, ?_, ?_, ?_, ?_, ?_, ?_, ?_, ?_, by simp⟩ <;> exact fun _ _ _ _ _ => rfl
  unfold Standard.evaluators
  generalize Standard.table = table at htable
  have hempty : Evaluators.empty.IgnoreSites := fun _ h => by simp [Evaluators.empty] at h
  generalize Evaluators.empty = es at hempty
  induction table generalizing es with
  | nil => exact hempty
  | cons x table ih =>
    exact ih (fun y hy => htable y (List.mem_cons_of_mem _ hy)) _
      (Evaluators.IgnoreSites.registerAll (htable x (by simp)) _ hempty)

theorem Evaluators.exists_mem_of_find? {es : Evaluators} {kind : String} {value : Value}
    {e : Evaluator} (he : es.find? kind value = some e) : ∃ key, (key, e) ∈ es.entries := by
  unfold Evaluators.find? at he
  rcases Option.or_eq_some_iff.1 he with he | ⟨-, he⟩
  · exact ⟨_, Assembly.mem_of_lookup he⟩
  · exact ⟨_, Assembly.mem_of_lookup he⟩

theorem Evaluators.IgnoreSites.find? {es : Evaluators} (h : es.IgnoreSites) {kind : String}
    {value : Value} {e : Evaluator} (he : es.find? kind value = some e) (store : Store)
    (k : Constraint) (v : Value) (site site' : EvaluationSite) :
    e.check store k v site = e.check store k v site' := by
  obtain ⟨key, hmem⟩ := Evaluators.exists_mem_of_find? he
  exact h _ hmem store k v site site'

section

variable {f g : Constraint → Except Error (Option Bool)}

mutual

/-- A declaration fails alike for verdicts that agree where there are any. -/
theorem Constraint.failing_congr (h : ∀ k a, f k = .ok a → g k = .ok a) :
    ∀ (k : Constraint) {ks : List Constraint}, k.failing f = .ok ks → k.failing g = .ok ks
  | ⟨_, _, _, _, composing, single, _, _, _⟩, ks, hf => by
    unfold Constraint.failing at hf ⊢
    obtain ⟨a, ha, hf⟩ := bind_eq_ok.1 hf
    obtain ⟨parts, hp, hf⟩ := bind_eq_ok.1 hf
    exact bind_eq_ok.2 ⟨a, h _ a ha, bind_eq_ok.2
      ⟨parts, failingParts_congr h single composing hp, hf⟩⟩

theorem Constraint.failingParts_congr (h : ∀ k a, f k = .ok a → g k = .ok a) (single : Bool) :
    ∀ (parts : List Constraint) {ks : List Constraint},
    Constraint.failingParts f single parts = .ok ks →
    Constraint.failingParts g single parts = .ok ks
  | [], ks, hf => hf
  | part :: rest, ks, hf => by
    unfold Constraint.failingParts at hf ⊢
    obtain ⟨nested, hn, hf⟩ := bind_eq_ok.1 hf
    refine bind_eq_ok.2 ⟨nested, failing_congr h part hn, ?_⟩
    split at hf
    · next hs =>
      rw [if_pos hs]
      exact hf
    · next hs =>
      rw [if_neg hs]
      obtain ⟨others, ho, hf⟩ := bind_eq_ok.1 hf
      exact bind_eq_ok.2 ⟨others, failingParts_congr h single rest ho, hf⟩

end

end

/-- Which groups a constraint belongs to is a matter of its declaration, not of its number. -/
theorem BoundConstraint.appliesTo_congr {b b' : BoundConstraint}
    (ho : b'.toOccurrence = b.toOccurrence) (group : TypeName) :
    b'.appliesTo group = b.appliesTo group := by
  obtain ⟨o, type, id⟩ := b
  obtain ⟨o', type', id'⟩ := b'
  cases ho
  rfl

namespace Call

variable {c : Call}

/-- Whether each declaration in a constraint accepts each value that the constraint applies to, wherever
that stands: by the verdict of its evaluator, unless it is composed and has none. -/
def Accepts (c : Call) (b : BoundConstraint) (value : Value) : Prop :=
  ∀ leaf path, ∀ t ∈ b.targets path value, ∀ a part, b.constraint.at? a = some part →
    c.verdict (c.siteAt leaf t.1) t.2 part = .ok none ∨
    c.verdict (c.siteAt leaf t.1) t.2 part = .ok (some true)

/-- Where evaluators do not go by the site, their verdicts on a value are those of every call that has
the same evaluators and objects. -/
theorem verdict_eq_ok (h : c.evaluators.IgnoreSites) {c' : Call} (he : c'.evaluators = c.evaluators)
    (hs : c'.store = c.store) (site site' : EvaluationSite) {value : Value} {k : Constraint}
    {a : Option Bool} (hk : c.verdict site value k = .ok a) : c'.verdict site' value k = .ok a := by
  unfold verdict at hk ⊢
  rw [he, hs]
  cases hfind : c.evaluators.find? k.kind value with
  | none => simpa only [hfind] using hk
  | some e =>
    simp only [hfind] at hk ⊢
    rw [h.find? hfind _ _ _ _ site]
    split at hk
    · next hvalid => simpa only [hvalid] using hk
    · cases hk

/-- What a constraint finds nothing wrong with, each of its declarations accepts. -/
theorem verdict_of_failuresOf_nil {leaf : Option ObjectId} {k : Constraint} {t : Path × Value}
    (h : c.failuresOf leaf k t = .ok []) {a : List Nat} {part : Constraint}
    (hpart : k.at? a = some part) :
    c.verdict (c.siteAt leaf t.1) t.2 part = .ok none ∨
      c.verdict (c.siteAt leaf t.1) t.2 part = .ok (some true) := by
  obtain ⟨ks, hks, hnil⟩ := bind_eq_ok.1 h
  obtain rfl : ks = [] := by simpa [pure, Except.pure] using hnil
  exact k.failing_eq_nil_iff.1 hks a part hpart

theorem failuresOf_of_failures_nil {leaf : Option ObjectId} {path : Path} {value : Value}
    {b : BoundConstraint} (h : c.failures leaf path value b = .ok []) {t : Path × Value}
    (ht : t ∈ b.targets path value) : c.failuresOf leaf b.constraint t = .ok [] := by
  obtain ⟨vss, hvss, hnil⟩ := bind_eq_ok.1 h
  have hempty : ∀ vs ∈ vss, vs = [] := by
    have hflat : vss.flatten = [] := by simpa [pure, Except.pure] using hnil
    simpa using hflat
  obtain ⟨vs, hvs, ht⟩ := (mapM_eq_ok hvss).2 t ht
  rwa [hempty vs hvs] at ht

/-- The values that a constraint applies to are the same ones at whatever path. -/
theorem exists_target_at {b : BoundConstraint} {value : Value} (path : Path) {path' : Path}
    {t : Path × Value} (ht : t ∈ b.targets path' value) :
    ∃ at_, (at_, t.2) ∈ b.targets path value := by
  unfold BoundConstraint.targets at ht ⊢
  split at ht
  · exact ⟨path, by simp_all⟩
  · obtain ⟨x, hx, rfl⟩ := List.mem_map.1 ht
    exact ⟨_, List.mem_map.2 ⟨x, hx, rfl⟩⟩

/-- A constraint that finds nothing wrong with a value at one place accepts it everywhere. -/
theorem accepts_of_failures (h : c.evaluators.IgnoreSites) {leaf : Option ObjectId} {path : Path}
    {value : Value} {b : BoundConstraint} (hb : c.failures leaf path value b = .ok []) :
    c.Accepts b value := by
  intro leaf' path' t ht a part hpart
  obtain ⟨at_, htarget⟩ := exists_target_at path ht
  exact (verdict_of_failuresOf_nil (failuresOf_of_failures_nil hb htarget) hpart).imp
    (verdict_eq_ok h rfl rfl _ _) (verdict_eq_ok h rfl rfl _ _)

/-- What the walk of the default group comes to has metadata. -/
theorem walkable_of_runHierarchy {s : Subject} : ∀ {types covered : List TypeName} {p q : Progress},
    (c.runHierarchy s covered types).exec p = (.ok (), q) → c.stops q = false → c.Remembers p →
    c.Walkable types
  | [], _, _, _, _, _, _ => trivial
  | type :: above, covered, p, q, h, hq, hp => by
    obtain ⟨m, r, hmeta, h⟩ := exec_bind_ok.1 h
    have hm := ((follows_walk s p).metadata type).answer hmeta (.refl hp)
    have hr := ((follows_walk s p).metadata type).kept hmeta (.refl hp)
    refine ⟨m, hm, ?_⟩
    intro hord
    rw [if_neg (by simp [hord])] at h
    obtain ⟨holds, r₁, hall, h⟩ := exec_bind_ok.1 h
    have hr₁ := ((follows_walk s p).checkAll (fun _ _ => trivial) trivial).kept hall hr
    obtain ⟨_, r₂, hmark, h⟩ := exec_bind_ok.1 (exec_unless_isStopped h hq).2
    have hr₂ := ((follows_walk s p).mark _ trivial).kept hmark hr₁
    exact walkable_of_runHierarchy h hq hr₂.remembers

theorem walkable_of_runGroup {s : Subject} {p q : Progress}
    (h : (c.runGroup s TypeName.defaultGroup).exec p = (.ok (), q)) (hq : c.stops q = false)
    (hp : c.Remembers p) : c.Walkable s.metadata.hierarchy := by
  obtain ⟨_, r, hbegan, h⟩ := exec_bind_ok.1 h
  cases hbegan
  exact walkable_of_runHierarchy h hq ((Follows.refl hp).began _ _ _).remembers

theorem Knows.exists_place {s : Subject} (hs : c.Knows s) {b : BoundConstraint}
    (hb : b.location = .self ∨ ∃ name, b.location = .property name) :
    ∃ path value, s.place c.store b = some (path, value) := by
  have hincludes : s.includes b.location = true := by simp [Subject.includes, hs.whole]
  unfold Subject.place
  rw [if_pos hincludes]
  rcases hb with hb | ⟨name, hb⟩ <;> simp [hb]

/-- If a call has found nothing, no check in it has. -/
theorem findsNothing_of_nil {p q : Progress} (h : c.Follows p q) (hq : q.violations = []) :
    c.FindsNothing p q := by
  have hfound := h.accounts.found (stops_eq_false_of_nil hq)
  have hp : p.violations = [] := List.prefix_nil.1 (hq ▸ h.extends.violations)
  rw [hq, hp, eq_comm, Violation.addAll_eq_nil_iff] at hfound
  simpa [FindsNothing] using hfound

/-- A constraint that a walk demands accepts what it applies to, if nothing is found all along. -/
theorem accepts_of_walk (group : TypeName) (hs : c.evaluators.IgnoreSites)
    {o p₁ p₂ q : Progress} {s : Subject} (ho : o.processedConstraints = []) (hlogs : c.Logs c.Traced o q)
    (hq : q.violations = []) (hp₁ : c.Follows o p₁) (hp₁₂ : c.Follows p₁ p₂) (hp₂ : c.Follows p₂ q)
    (hknows : c.Knows s) {x : ObjectId} (hx : s.object = some x) {b : BoundConstraint}
    (hb : b ∈ c.demanded s group) (hsettled : c.Settled s b p₁ p₂)
    (hlocation : b.location = .self ∨ ∃ name, b.location = .property name) :
    c.Accepts b (c.valueAt x b.location) := by
  obtain ⟨path, value, hplace⟩ := hknows.exists_place hlocation
  obtain ⟨g, he⟩ := checked_of_settled ho hlogs hp₁ hp₁₂ hp₂ hknows hb hsettled hplace
  obtain ⟨vs, hvs⟩ := hlogs.1.accounts.evaluated (stops_eq_false_of_nil hq) _ _ _ _ _ he
  have hnil : vs = [] := (found_checked hvs).symm.trans (findsNothing_of_nil hlogs.1 hq _ he)
  rw [hnil, hknows.value_eq hx hplace] at hvs
  exact accepts_of_failures hs hvs

/-- What a constraint accepts is a matter of its declaration, not of its number. -/
theorem Accepts.of_occurrence {b b' : BoundConstraint} (ho : b'.toOccurrence = b.toOccurrence)
    {value : Value} (h : c.Accepts b' value) : c.Accepts b value := by
  obtain ⟨o, type, id⟩ := b
  obtain ⟨o', type', id'⟩ := b'
  cases ho
  exact h

end Call

namespace Validator

open Call

variable {v : Validator} {root : ObjectId}

theorem exec_orderOf_nil {c : Call} {p q : Progress} {order : Order}
    (h : (c.orderOf []).exec p = (.ok order, q)) : order = .default := by
  cases h
  rfl

/-- A validation for the default group that finds nothing vouches for all that the root leads to: the
types of the objects have metadata, and each constraint in the default group accepts the value that it
applies to. -/
theorem validate_clean (hv : v.Coherent)
    (hdefault : v.registry.sequenceMembers? TypeName.defaultGroup = none)
    (hsites : v.evaluators.IgnoreSites)
    (hkeeps : ∀ x, (v.callOn root).Reaches root x →
      ∀ r ∈ (v.callOn root).references x, r.KeepsGroups)
    (h : (v.validate root []).answer = .ok []) {x : ObjectId}
    (hx : (v.callOn root).Reaches root x) :
    ∃ m, (v.callOn root).Assembles (v.store.typeOf x) m ∧ ∀ b ∈ m.constraints,
      b.appliesTo TypeName.defaultGroup →
      (v.callOn root).Accepts b ((v.callOn root).valueAt x b.location) := by
  have hclosed : (v.callOn root).Closed fun x _ group =>
      (v.callOn root).Reaches root x ∧ group = TypeName.defaultGroup :=
    fun x _ group hR r hr => ⟨hkeeps x hR.1 r hr, .step hR.1 hr, hR.2⟩
  have hasks : (v.callOn root).AsksFor root [] fun x _ group =>
      (v.callOn root).Reaches root x ∧ group = TypeName.defaultGroup := by
    intro p order q horder
    rw [exec_orderOf_nil horder]
    exact ⟨rfl, by simp [Order.default], fun g hg => ⟨.root, by
      rw [List.mem_singleton.1 hg]
      rfl⟩⟩
  obtain ⟨q, hexec, -⟩ := v.exec_validateWithin v.depth root []
  rw [← validate_eq, h] at hexec
  obtain ⟨-, -, -, -, -, -, -, hq⟩ := validate_ok hexec
  obtain ⟨hlogs, hfinished, hroot⟩ :=
    validate_closes (c := v.callOn root) hv hclosed hasks hexec (stops_eq_false_of_nil hq)
  obtain ⟨path, group, hbegan⟩ := begun_of_reaches hfinished hroot hx
  obtain ⟨s, y, hs, hsy, hy, -, ⟨-, rfl⟩, ⟨p₁, p₂, hp₁, hrun, hp₁₂, hp₂⟩, -⟩ :=
    hfinished _ _ _ hbegan
  cases hy
  obtain ⟨id, hid, hm⟩ := hs.object
  obtain rfl : id = x := by simpa [hid] using hsy
  have hstop : (v.callOn root).stops p₂ = false :=
    stops_eq_false hp₂.extends (stops_eq_false_of_nil hq)
  have hnothing : (v.callOn root).FindsNothing p₁ p₂ := fun e he =>
    findsNothing_of_nil hlogs.1 hq e <| hp₁.extends.since_subset (hp₁₂.extends.trans hp₂.extends)
      (hp₁₂.extends.subset_since hp₂.extends he)
  refine ⟨s.metadata, hm, ?_⟩
  intro b hb ha
  obtain ⟨b', hb', ho⟩ := exists_mem_demandedFrom hm
    (walkable_of_runGroup hrun hstop hp₁.remembers) hb
  have hlocated : b'.location = b.location := congrArg (·.location) ho
  have hsettled := runGroup_settles hrun hstop hp₁.remembers (fun _ => .inl ⟨hdefault, hnothing⟩) b' hb'
    ((BoundConstraint.appliesTo_congr ho _).trans ha)
  have hlocation : b'.location = .self ∨ ∃ name, b'.location = .property name := by
    rw [hlocated]
    exact Metadata.location_of_mem hm hb
  have haccepts := accepts_of_walk TypeName.defaultGroup hsites rfl hlogs hq hp₁ hp₁₂ hp₂
    hs hsy hb' hsettled hlocation
  rw [hlocated] at haccepts
  exact haccepts.of_occurrence ho

/-! ### Two objects that refer to each other -/

/-- Two objects that refer to each other. A superclass demands a name of them, an interface a number,
and the class puts itself behind another group in its default sequence. -/
def befriended : Validator where
  registry := [
    { name := ⟨"Early"⟩, kind := .interface },
    { name := ⟨"Numbered"⟩, kind := .interface,
      methods := [{ kind := .getter, name := "getNumber", declaredBy := ⟨"Numbered"⟩, parameters := [],
                    returnType := some ⟨"int"⟩, crossParameter := [], isPrivate := false,
                    isStatic := false,
                    returnValue := { own := { constraints := [{ kind := "NotNull" }] } } }] },
    { name := ⟨"Being"⟩, kind := .concrete,
      fields := [⟨"name", { own := { constraints := [{ kind := "NotNull" }] } }⟩] },
    { name := ⟨"Friend"⟩, kind := .concrete, superclass := some ⟨"Being"⟩,
      interfaces := [⟨"Numbered"⟩], sequence := some [⟨"Early"⟩, ⟨"Friend"⟩],
      fields := [⟨"friends", { containers := [(.listElement, { cascading := true })] }⟩] :
        TypeDefinition }
    ].foldl Registry.register .initial
  evaluators := Standard.evaluators
  config := {}
  store := ⟨[(⟨"ada"⟩, ⟨⟨"Friend"⟩, [("name", .str "Ada"), ("number", .int 1),
      ("friends", .list [.object ⟨"bob"⟩])]⟩),
    (⟨"bob"⟩, ⟨⟨"Friend"⟩, [("name", .str "Bob"), ("number", .int 2),
      ("friends", .list [.object ⟨"ada"⟩])]⟩)]⟩
  memory := {}

/-- The same two objects, but the one referred to has no name. -/
def nameless : Validator :=
  { befriended with store := befriended.store.remove ⟨"bob"⟩ "name" }

/-- A clean validation of the one object vouches for the other one: the evaluators accept its name and
its number. If the other one has no name, the validation of the one finds that. -/
theorem validate_clean_befriended :
    (befriended.validate ⟨"ada"⟩ []).answer = .ok [] ∧
    ∃ m, (befriended.callOn ⟨"ada"⟩).Assembles (befriended.store.typeOf ⟨"bob"⟩) m ∧
      (m.constraints.map fun b => (b.location, b.constraint.kind)) =
        [(.property "name", "NotNull"), (.property "number", "NotNull")] ∧
      (∀ b ∈ m.constraints, b.appliesTo TypeName.defaultGroup ∧
        (befriended.callOn ⟨"ada"⟩).Accepts b
          ((befriended.callOn ⟨"ada"⟩).valueAt ⟨"bob"⟩ b.location)) ∧
      (nameless.validate ⟨"ada"⟩ []).answer.toOption.map
          (fun vs => vs.map fun w => (w.leaf, w.constraint.kind)) =
        some [(some ⟨"bob"⟩, "NotNull")] := by
  have hfound : (befriended.validate ⟨"ada"⟩ []).answer.toOption.map (·.length) = some 0 := by
    decide +kernel
  obtain ⟨vs, hvs, hlength⟩ := Option.map_eq_some_iff.1 hfound
  obtain rfl := List.length_eq_zero_iff.1 hlength
  have hclean := toOption_eq_some hvs
  have hreferences : ∀ x ∈ [(⟨"ada"⟩ : ObjectId), ⟨"bob"⟩],
      ∀ r ∈ (befriended.callOn ⟨"ada"⟩).references x,
        r.target ∈ [(⟨"ada"⟩ : ObjectId), ⟨"bob"⟩] ∧ r.facet.conversions = [] := by
    decide +kernel
  have hbob : ∃ r ∈ (befriended.callOn ⟨"ada"⟩).references ⟨"ada"⟩, r.target = ⟨"bob"⟩ := by
    decide +kernel
  obtain ⟨r, hr, hbob⟩ := hbob
  have hcoherent : befriended.Coherent := MetadataCache.coherent_nil _ _
  have hreaches : (befriended.callOn ⟨"ada"⟩).Reaches ⟨"ada"⟩ ⟨"bob"⟩ := hbob ▸ .step .root hr
  have hkeeps : ∀ x, (befriended.callOn ⟨"ada"⟩).Reaches ⟨"ada"⟩ x →
      ∀ r ∈ (befriended.callOn ⟨"ada"⟩).references x, r.KeepsGroups := by
    intro x hx r hr
    have hx := hx.mem (by simp) fun y hy r hr => (hreferences y hy r hr).1
    exact Reference.keepsGroups_of_nil (hreferences x hx r hr).2
  obtain ⟨m, hm, haccepts⟩ := validate_clean (x := ⟨"bob"⟩) hcoherent (by decide +kernel)
    Standard.ignoreSites hkeeps hclean hreaches
  have hconstraints : ∃ m' ∈ (Metadata.assemble befriended.registry befriended.config.methodRules
      (befriended.store.typeOf ⟨"bob"⟩)).toOption,
      (m'.constraints.map fun b => (b.location, b.constraint.kind)) =
        [(.property "name", "NotNull"), (.property "number", "NotNull")] ∧
      ∀ b ∈ m'.constraints, b.appliesTo TypeName.defaultGroup := by
    decide +kernel
  obtain ⟨m', hm', hlocated, hdefault⟩ := hconstraints
  obtain rfl : m = m' := hm.unique (toOption_eq_some hm')
  exact ⟨hclean, m, hm, hlocated, fun b hb => ⟨hdefault b hb, haccepts b hb (hdefault b hb)⟩,
    by decide +kernel⟩

end Validator

end ObjectValidation
