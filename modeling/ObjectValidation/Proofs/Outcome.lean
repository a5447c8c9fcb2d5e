import ObjectValidation.Proofs.Closure
import ObjectValidation.Proofs.Composition
import ObjectValidation.Proofs.Hierarchy
/-!
# How calls end

The walk of a subject for a group comes to its end or fails with an error; only a cascade can run out
of depth (`Erring`). A walk that comes to its end, and does not find all that the call looks for, has
marked the subject as validated for the group at its path (`marked_of_runGroup`).

So a call that runs out of depth does so in a cascade behind all walks of its subject, and the cascade
has entered an object whose own validation runs out of the depth that is left
(`exec_runSubject_exhausted`, `exec_cascade_exhausted`).
-/

namespace ObjectValidation

open Run

namespace Run

variable {α : Type} {I : Progress → Prop} {Q : α → Prop} {E : Halt → Progress → Prop}

/-- What a computation keeps, and how it may end before its time, hold together. -/
theorem Meets.ending {x : Run α} (hx : Meets x I Q AnyHalt)
    (h : Meets x (fun _ => True) Any E) : Meets x I Q E :=
  .of_exec (fun _ _ _ hp hexec => ⟨hx.kept hexec hp, hx.answer hexec hp⟩)
    fun _ _ _ _ hexec => h.halt hexec trivial

/-- What is kept behind the record of an event is kept with the record. -/
theorem Meets.behind {J : Progress → Prop} {e : Event} {f : PUnit → Run α}
    (h : ∀ p, I p → J { p with journal := p.journal ++ [e] }) (hf : Meets (f ⟨⟩) J Q E)
    (hend : ∀ p, J p → I p) : Meets (Run.record e >>= f) I Q E := by
  intro p hp
  have hbehind := hf _ (h p hp)
  rw [exec_bind, exec_record]
  revert hbehind
  simp only
  generalize exec _ _ = outcome
  obtain ⟨a, q⟩ := outcome
  cases a with
  | error e => exact id
  | ok a => exact fun hq => ⟨hend q hq.1, hq.2⟩

/-- The call ends with an error. -/
abbrev Erring : Halt → Progress → Prop := fun halt _ => halt ≠ .exhausted

theorem Meets.not_exhausted {x : Run α} (h : Meets x I Q Erring) {p q : Progress} (hp : I p) :
    x.exec p ≠ (.error .exhausted, q) := fun hexec => h.halt hexec hp rfl

end Run

namespace Call

variable {c : Call}

/-! ### Checks -/

section

variable {I : Progress → Prop} {E : Halt → Progress → Prop} {judge : Constraint → Run (Option Bool)}

mutual

theorem meets_failing : ∀ k : Constraint,
    (∀ a part, k.at? a = some part → Meets (judge part) I Any E) → Meets (k.failing judge) I Any E
  | ⟨_, _, _, _, composing, single, _, _, _⟩, h => by
    obtain ⟨hself, hparts⟩ := Constraint.forall_at?_iff.1 h
    unfold Constraint.failing
    refine hself.next fun _ => (meets_failingParts single composing hparts).next fun _ => ?_
    exact .ite (.pure trivial) (.pure trivial)

theorem meets_failingParts (single : Bool) : ∀ ks : List Constraint,
    (∀ k ∈ ks, ∀ a part, k.at? a = some part → Meets (judge part) I Any E) →
    Meets (Constraint.failingParts judge single ks) I Any E
  | [], _ => .pure trivial
  | k :: ks, h => by
    unfold Constraint.failingParts
    refine (meets_failing k (h k (by simp))).next fun _ => .ite (.pure trivial) ?_
    have hrest := meets_failingParts single ks fun k' hk' => h k' (List.mem_cons_of_mem _ hk')
    exact hrest.next fun _ => .pure trivial

end

end

variable {I : Progress → Prop} {E : Halt → Progress → Prop} {s : Subject} {group : TypeName}
  {value : Value} {path : Path} {b : BoundConstraint}

/-- What the judgements of the declarations in a constraint keep, on each value that the constraint is
evaluated on, is kept by the evaluation. -/
theorem meets_evaluateBound_of (hjudge : ∀ t ∈ b.targets path value, ∀ a part,
      b.constraint.at? a = some part → Meets (c.judge ⟨c.rootType, t.1, s.object⟩ t.2 part) I Any E)
    (hfound : ∀ p violations, I p → I { p with violations }) :
    Meets (c.evaluateBound s value path b) I Any E := by
  have hevaluate : ∀ t ∈ b.targets path value,
      Meets (c.evaluate s b.constraint t.2 t.1) I Any E := by
    intro t ht
    refine (meets_failing b.constraint (hjudge t ht)).next fun _ => (Meets.forM fun _ _ => ?_).next
      fun _ => .pure trivial
    refine .update fun p hp => ?_
    split
    · exact hp
    · exact hfound p _ hp
  cases hb : b.container with
  | none =>
    simp only [Call.evaluateBound, hb]
    exact hevaluate (path, value) (by simp [BoundConstraint.targets, hb])
  | some kind =>
    rw [evaluateBound_eq_allHold hb]
    exact meets_allHold hevaluate

/-- What consulting an evaluator keeps is kept by the judgement of a declaration. -/
theorem meets_judge {site : EvaluationSite} {k : Constraint}
    (hconsulted : ∀ p e, e.isConsulted → I p → I { p with journal := p.journal ++ [e] })
    (hfailed : ∀ text reason p, I p →
      E (.failed (.evaluationFailed k.kind site.path.text text reason)) p)
    (hlacks : c.evaluators.find? k.kind value = none → k.composing.isEmpty → ∀ p, I p →
      E (.failed (.noEvaluator k.kind value.effective.kind)) p) :
    Meets (c.judge site value k) I Any E := by
  unfold Call.judge
  split
  · refine (Meets.record fun p hp => hconsulted p _ rfl hp).next fun _ => ?_
    split
    · exact .pure trivial
    · exact .fail (hfailed _ _)
  · next hnone =>
    split
    · next hsingle => exact .fail (hlacks hnone hsingle)
    · exact .pure trivial

/-- What the parts of an evaluation keep is kept by the evaluation. -/
theorem meets_evaluateBound (hfail : ∀ e p, I p → E (.failed e) p)
    (hconsulted : ∀ p e, e.isConsulted → I p → I { p with journal := p.journal ++ [e] })
    (hfound : ∀ p violations, I p → I { p with violations }) :
    Meets (c.evaluateBound s value path b) I Any E :=
  meets_evaluateBound_of (fun _ _ _ _ _ => meets_judge hconsulted (fun _ _ => hfail _)
    fun _ _ => hfail _) hfound

/-- What the evaluation keeps that a check makes is kept by the check. That a constraint is done is noted
only once its check is in the journal. -/
theorem meets_checkConstraint_of
    (hchecked : b.appliesTo group → ∀ p, I p →
      I { p with journal := p.journal ++ [.checked s.object path b group value] })
    (hbound : Meets (c.evaluateBound s value path b)
      (fun p => I p ∧ .checked s.object path b group value ∈ p.journal) Any E)
    (hdone : ∀ p, I p → .checked s.object path b group value ∈ p.journal →
      I { p with processedConstraints := (s.object, path, b.key) :: p.processedConstraints }) :
    Meets (c.checkConstraint s group value path b) I Any E := by
  let J (p : Progress) : Prop := I p ∧ .checked s.object path b group value ∈ p.journal
  unfold Call.checkConstraint
  split
  · exact .pure trivial
  · next ha =>
    refine Meets.get.any.next fun _ => .ite (.pure trivial) ?_
    refine Meets.behind (J := J) (fun p hp => ⟨hchecked (by simpa using ha) p hp, by simp⟩) ?_
      fun p hp => hp.1
    refine hbound.next fun _ => .ite ?_ (.pure trivial)
    exact Meets.next (.update fun p hp => ⟨hdone p hp.1 hp.2, hp.2⟩) fun _ => .pure trivial

/-- What the parts of a check keep is kept by the check. -/
theorem meets_checkConstraint (hfail : ∀ e p, I p → E (.failed e) p)
    (hchecked : b.appliesTo group → ∀ p, I p →
      I { p with journal := p.journal ++ [.checked s.object path b group value] })
    (hconsulted : ∀ p e, e.isConsulted → I p → I { p with journal := p.journal ++ [e] })
    (hfound : ∀ p violations, I p → I { p with violations })
    (hdone : ∀ p, I p → .checked s.object path b group value ∈ p.journal →
      I { p with processedConstraints := (s.object, path, b.key) :: p.processedConstraints }) :
    Meets (c.checkConstraint s group value path b) I Any E :=
  meets_checkConstraint_of hchecked
    (meets_evaluateBound (fun e p hp => hfail e p hp.1)
      (fun p e he hp => ⟨hconsulted p e he hp.1, by simp [hp.2]⟩)
      fun p violations hp => ⟨hfound p violations hp.1, hp.2⟩)
    hdone

theorem metadataOf_errs (type : TypeName) : Meets (c.metadataOf type) (fun _ => True) Any Erring :=
  meets_metadataOf_any (fun _ _ _ => by simp) (fun _ _ => id) type

theorem expanding_errs {α : Type} (x : Expanding α) :
    Meets (Run.expanding x) (fun _ => True) Any Erring :=
  meets_expanding (fun _ _ _ => by simp) (fun _ _ => id) x

theorem defaultMeaning_errs (object : Option ObjectId) (m : Metadata) :
    Meets (c.defaultMeaning object m) (fun _ => True) Any Erring :=
  meets_defaultMeaning (fun _ _ _ => by simp) (fun _ _ _ => id) (fun _ _ => id) object m

theorem checkConstraint_errs (s : Subject) (group : TypeName) (value : Value) (path : Path)
    (b : BoundConstraint) :
    Meets (c.checkConstraint s group value path b) (fun _ => True) Any Erring :=
  meets_checkConstraint (fun _ _ _ => by simp) (fun _ _ _ => trivial) (fun _ _ _ _ => trivial)
    (fun _ _ _ => trivial) fun _ _ _ => trivial

/-- A walk fails with an error if it fails. -/
theorem runGroup_errs (s : Subject) (group : TypeName) (p : Progress) :
    Meets (c.runGroup s group) (c.Follows p) Any Erring := by
  have hfollows := follows_walk (c := c) s p
  have hwalk : KeptByWalk c s (c.Follows p) Erring (fun _ => True) fun _ => True := by
    refine ⟨⟨fun type m hm => (hfollows.meaning type m hm).ending (defaultMeaning_errs s.object m),
      fun g b _ _ => (hfollows.check g b trivial trivial).ending ?_,
      fun g _ => (hfollows.mark g trivial).ending ?_⟩,
      fun type => (hfollows.metadata type).ending (metadataOf_errs type)⟩
    · exact meets_checkBound_of fun path value _ => checkConstraint_errs s g value path b
    · exact .ite (.update fun _ _ => trivial) .unit
  exact hwalk.runGroup (fun _ _ => trivial) (fun _ _ => trivial)
    (fun q hq => hq.began s.object s.path group) fun _ => id

/-! ### Marks -/

/-- Whether an object counts as validated for a group, and validated at a path. -/
def Marked (p : Progress) (object : Option ObjectId) (path : Path) (group : TypeName) : Prop :=
  (object, group) ∈ p.processedGroups ∧ (object, path) ∈ p.processedPaths

variable {p q : Progress} {s : Subject} {group : TypeName}

theorem Marked.mono {object : Option ObjectId} {path : Path} (h : Marked p object path group)
    (hpq : p.Extends q) : Marked q object path group := ⟨hpq.groups h.1, hpq.paths h.2⟩

theorem marked_of_markProcessed (htrack : c.config.trackProcessed)
    (h : (c.markProcessed s group).exec p = (.ok (), q)) : Marked q s.object s.path group := by
  obtain ⟨r, hr, hm⟩ := exec_markProcessed (c := c) s group p
  rw [hr] at h
  cases h
  exact hm.marked htrack

theorem marked_of_runHierarchy (htrack : c.config.trackProcessed) {type : TypeName}
    {above covered : List TypeName}
    (h : (c.runHierarchy s covered (type :: above)).exec p = (.ok (), q))
    (hq : c.stops q = false) (hp : c.Remembers p) :
    Marked q s.object s.path TypeName.defaultGroup := by
  have hfollows := fun p => follows_walk (c := c) s p
  unfold Call.runHierarchy at h
  obtain ⟨m, r, hmeta, h⟩ := exec_bind_ok.1 h
  have hr := (((hfollows p).metadata type).kept hmeta (.refl hp)).remembers
  split at h
  · obtain ⟨d, r₁, -, h⟩ := exec_bind_ok.1 h
    obtain ⟨_, r₂, -, h⟩ := exec_bind_ok.1 h
    exact marked_of_markProcessed htrack (exec_unless_isStopped h hq).2
  · obtain ⟨holds, r₁, hall, h⟩ := exec_bind_ok.1 h
    have hr₁ := (((hfollows r).checkAll (fun _ _ => trivial) trivial).kept hall (.refl hr)).remembers
    obtain ⟨_, r₂, hmark, h⟩ := exec_bind_ok.1 (exec_unless_isStopped h hq).2
    have hr₂ := (((hfollows r₁).mark _ trivial).kept hmark (.refl hr₁)).remembers
    have hrest := ((hfollows r₂).runHierarchy above _ (fun _ _ => trivial)
      fun _ _ => trivial).kept h (.refl hr₂)
    exact (marked_of_markProcessed htrack hmark).mono hrest.extends

/-- A walk that comes to its end marks its subject. -/
theorem marked_of_runGroup (htrack : c.config.trackProcessed) (hs : c.Knows s)
    (h : (c.runGroup s group).exec p = (.ok (), q)) (hq : c.stops q = false)
    (hp : c.Remembers p) : Marked q s.object s.path group := by
  unfold Call.runGroup at h
  obtain ⟨_, r, hbegan, h⟩ := exec_bind_ok.1 h
  cases hbegan
  have hr := ((Follows.refl hp).began s.object s.path group).remembers
  split at h
  · next hg =>
    obtain rfl : group = TypeName.defaultGroup := by simpa [TypeName.isDefault] using hg
    obtain ⟨id, -, hm⟩ := hs.object
    obtain ⟨-, own, definitions, elements, hsources⟩ := Metadata.sources hm
    obtain ⟨d, classes, rest, -, -, hnames, -⟩ := Registry.hierarchy_ok hsources.hierarchy_eq
    rw [hnames] at h
    exact marked_of_runHierarchy htrack h hq hr
  · obtain ⟨holds, r₁, -, h⟩ := exec_bind_ok.1 h
    exact marked_of_markProcessed htrack (exec_unless_isStopped h hq).2

/-- Walks for several groups mark their subject for each of them. -/
theorem marked_of_walks (htrack : c.config.trackProcessed) (hs : c.Knows s) :
    ∀ {gs : List Group} {p q : Progress},
    (c.each gs fun g => c.runGroup s g.name).exec p = (.ok (), q) → c.stops q = false →
    c.Remembers p → ∀ g ∈ gs, Marked q s.object s.path g.name
  | [], _, _, _, _, _ => by simp
  | g :: gs, p, q, h, hq, hp => by
    obtain ⟨-, r, hg, h⟩ := exec_each_cons_ok h hq
    have hr := ((follows_runGroup s g.name p).kept hg (.refl hp)).remembers
    have hrest := (meets_each fun g _ => follows_runGroup s g.name r).kept h (.refl hr)
    have hmarked := marked_of_runGroup htrack hs hg (not_stops_of_each h hq) hp
    exact List.forall_mem_cons.2 ⟨hmarked.mono hrest.extends, marked_of_walks htrack hs h hq hr⟩

/-! ### Where calls run out of depth -/

/-- Subjects run out of depth in one of their cascades, behind all their walks. -/
theorem exec_runSubject_exhausted {visit : CascadeStep → Run Unit} (hs : c.Knows s) {order : Order}
    (hsequences : order.sequences = []) (hp : c.Remembers p)
    (h : (c.runSubject visit s order).exec p = (.error .exhausted, q)) :
    ∃ p₁ p₂, (c.requireFit s order).exec p = (.ok (), p₁) ∧
      (c.each order.groups fun g => c.runGroup s g.name).exec p₁ = (.ok (), p₂) ∧
      (c.each order.groups fun g => c.runCascades visit s g.name).exec p₂ =
        (.error .exhausted, q) := by
  obtain ⟨object, -, hm⟩ := hs.object
  have hfit : Meets (c.requireFit s order) (fun _ => True) Any Erring :=
    meets_requireFit (fun _ _ _ => by simp) (defaultMeaning_errs s.object s.metadata)
  rcases exec_bind_error.1 h with h | ⟨_, p₁, hfitted, h⟩
  · exact absurd h (hfit.not_exhausted trivial)
  have hp₁ := ((follows_cascades p).requireFit hm order).kept hfitted (.refl hp)
  rcases exec_bind_error.1 h with h | ⟨_, p₂, hwalks, h⟩
  · exact absurd h ((meets_each fun g _ => runGroup_errs s g.name p).not_exhausted hp₁)
  rcases exec_bind_error.1 h with h | ⟨_, p₃, -, h⟩
  · exact ⟨p₁, p₂, hfitted, hwalks, h⟩
  · rw [hsequences] at h
    cases h

/-- What a step of a cascade does that runs out of depth, unless it is out of depth itself. -/
theorem exec_cascade_exhausted {depth : Nat} {step : CascadeStep}
    (h : (c.cascade (depth + 1) step).exec p = (.error .exhausted, q)) :
    c.isProcessed p step = false ∧ ∃ m p₁ order p₂ r,
      (c.metadataOf (c.store.typeOf step.target)).exec p = (.ok m, p₁) ∧
      (Run.expanding (Order.ofGroup c.registry step.group (step.group ≠ step.source))).exec p₁ =
        (.ok order, p₂) ∧
      (c.runSubject (c.cascade depth)
        { object := some step.target, metadata := m, path := step.path } order).exec
        { p₂ with chain := step.target :: p₂.chain } = (.error .exhausted, r) := by
  unfold Call.cascade at h
  rw [exec_bind, exec_isStopped] at h
  rcases exec_bind_error.1 h with h | ⟨_, _, hget, h⟩
  · cases h
  cases hget
  split at h
  · next henter =>
    simp only [Bool.and_eq_true, Bool.not_eq_true'] at henter
    refine ⟨henter.2, ?_⟩
    rcases exec_bind_error.1 h with h | ⟨m, p₁, hmeta, h⟩
    · exact absurd h ((metadataOf_errs _).not_exhausted trivial)
    rcases exec_bind_error.1 h with h | ⟨order, p₂, horder, h⟩
    · exact absurd h ((expanding_errs _).not_exhausted trivial)
    rcases exec_bind_error.1 h with h | ⟨_, _, hget, h⟩
    · cases h
    cases hget
    split at h
    · rw [exec_whileOnChain] at h
      exact ⟨m, p₁, order, p₂, _, hmeta, horder, Prod.ext (Prod.mk.inj h).1 rfl⟩
    · cases h
  · cases h

/-- A validation runs out of depth where it validates the root. -/
theorem validate_exhausted {memory : Memory} {root : ObjectId} {gs : List TypeName}
    (h : (c.validate root gs).exec (startOf memory root) = (.error .exhausted, q)) :
    ∃ m p₁ order p₂, (c.metadataOf (c.store.typeOf root)).exec (startOf memory root) = (.ok m, p₁) ∧
      (c.orderOf gs).exec p₁ = (.ok order, p₂) ∧
      (c.runSubject c.visit { object := some root, metadata := m, path := .root } order).exec p₂ =
        (.error .exhausted, q) := by
  rcases exec_bind_error.1 h with h | ⟨m, p₁, hmeta, h⟩
  · exact absurd h ((metadataOf_errs _).not_exhausted trivial)
  rcases exec_bind_error.1 h with h | ⟨order, p₂, horder, h⟩
  · exact absurd h ((expanding_errs _).not_exhausted trivial)
  rcases exec_bind_error.1 h with h | ⟨_, _, -, h⟩
  · exact ⟨m, p₁, order, p₂, hmeta, horder, h⟩
  · cases h

end Call

end ObjectValidation
