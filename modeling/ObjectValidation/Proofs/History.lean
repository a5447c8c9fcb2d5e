import ObjectValidation.Proofs.Coverage
import ObjectValidation.Proofs.Operations
import ObjectValidation.Proofs.Sequences
import ObjectValidation.Validation.Factory
/-!
# What earlier calls leave behind

All that one call leaves to the next is what is remembered of types and sequences, and that is what
would be put together and expanded again (`Memory.Coherent`). `Unswayed` is the judgement that a
computation comes to the same end from any two progresses that differ in their memories alone: it gives
the same answer, does the same, and leaves two progresses that again differ in their memories alone.

So whatever a factory has been used for, its validators answer as those of a new one do
(`answers_as_new`).
-/

namespace ObjectValidation

open Run

/-- Whether what is remembered is what would be put together and expanded again. -/
structure Memory.Coherent (r : Registry) (rules : List MethodRule) (m : Memory) : Prop where
  metadata : m.metadata.Coherent r rules
  sequences : SequenceCache.Coherent r m.sequences

theorem Memory.coherent_empty (r : Registry) (rules : List MethodRule) :
    Memory.Coherent r rules {} :=
  ⟨MetadataCache.coherent_nil r rules, SequenceCache.coherent_nil r⟩

namespace Call

variable {c : Call} {α β : Type}

/-- Whether two progresses of a call differ in nothing but their memories, which are coherent. -/
structure Alike (c : Call) (p p' : Progress) : Prop where
  left : p.memory.Coherent c.registry c.config.methodRules
  right : p'.memory.Coherent c.registry c.config.methodRules
  same : p' = { p with memory := p'.memory }

/-- Whether a computation comes to the same end whatever is remembered. -/
def Unswayed (c : Call) (x : Run α) : Prop :=
  ∀ p p', c.Alike p p' → (x.exec p').1 = (x.exec p).1 ∧ c.Alike (x.exec p).2 (x.exec p').2

theorem Alike.remember {p p' : Progress} (h : c.Alike p p') {m m' : Memory}
    (hm : m.Coherent c.registry c.config.methodRules)
    (hm' : m'.Coherent c.registry c.config.methodRules) :
    c.Alike { p with memory := m } { p' with memory := m' } :=
  ⟨hm, hm', by rw [h.same]⟩

namespace Unswayed

theorem pure (a : α) : c.Unswayed (Pure.pure a) := fun _ _ h => ⟨rfl, h⟩

theorem fail (e : Error) : c.Unswayed (Run.fail e : Run α) := fun _ _ h => ⟨rfl, h⟩

theorem ofExcept (x : Except Error α) : c.Unswayed (Run.ofExcept x) := by
  cases x with
  | ok a => exact .pure a
  | error e => exact .fail e

/-- A change that neither looks at the memory nor changes it. -/
theorem update {f : Progress → Progress}
    (hf : ∀ p memory, f { p with memory } = { f p with memory }) : c.Unswayed (modify f) := by
  intro p p' h
  have hkept : ∀ q, (f q).memory = q.memory := by
    intro q
    have hq := congrArg Progress.memory (hf q q.memory)
    exact hq
  refine ⟨rfl, hkept p ▸ h.left, hkept p' ▸ h.right, ?_⟩
  change f p' = { f p with memory := (f p').memory }
  rw [hkept, ← hf, ← h.same]

theorem record (e : Event) : c.Unswayed (Run.record e) := .update fun _ _ => rfl

/-- What is read of the progress is not its memory. -/
theorem look {f : Progress → Run α} (hf : ∀ p memory, f { p with memory } = f p)
    (h : ∀ p, c.Unswayed (f p)) : c.Unswayed (get >>= f) := by
  intro p p' halike
  rw [exec_bind, exec_bind, exec_get, exec_get]
  have hsame : f p' = f p := by
    rw [halike.same]
    exact hf p _
  simp only [hsame]
  exact h p p p' halike

theorem bind {x : Run α} {f : α → Run β} (hx : c.Unswayed x) (hf : ∀ a, c.Unswayed (f a)) :
    c.Unswayed (x >>= f) := by
  intro p p' h
  obtain ⟨hanswer, hafter⟩ := hx p p' h
  rw [exec_bind, exec_bind]
  revert hanswer hafter
  cases x.exec p with
  | mk a q =>
    cases x.exec p' with
    | mk a' q' =>
      rintro rfl hafter
      cases a' with
      | error e => exact ⟨rfl, hafter⟩
      | ok a => exact hf a q q' hafter

theorem ite {b : Prop} [Decidable b] {x y : Run α} (hx : c.Unswayed x) (hy : c.Unswayed y) :
    c.Unswayed (if b then x else y) := by
  split
  · exact hx
  · exact hy

theorem forM {step : α → Run Unit} : ∀ {xs : List α}, (∀ x ∈ xs, c.Unswayed (step x)) →
    c.Unswayed (xs.forM step)
  | [], _ => .pure ()
  | x :: xs, h => by
    change c.Unswayed (step x >>= fun _ => xs.forM step)
    exact (h x (by simp)).bind fun _ => Unswayed.forM fun y hy => h y (by simp [hy])

theorem foldlM {step : β → α → Run β} : ∀ {xs : List α} {b : β},
    (∀ b, ∀ x ∈ xs, c.Unswayed (step b x)) → c.Unswayed (xs.foldlM step b)
  | [], b, _ => .pure b
  | x :: xs, b, h => by
    rw [List.foldlM_cons]
    exact (h b x (by simp)).bind fun _ => Unswayed.foldlM fun b y hy => h b y (by simp [hy])

theorem whileOnChain {x : Run Unit} (h : c.Unswayed x) (id : ObjectId) :
    c.Unswayed (Call.whileOnChain id x) := by
  intro p p' halike
  obtain ⟨hanswer, hafter⟩ := h { p with chain := id :: p.chain } { p' with chain := id :: p'.chain }
    ⟨halike.left, halike.right, by rw [halike.same]⟩
  rw [exec_whileOnChain, exec_whileOnChain]
  refine ⟨hanswer, hafter.left, hafter.right, ?_⟩
  simp only
  rw [hafter.same]

end Unswayed

/-! ### Memory -/

theorem unswayed_metadataOf (type : TypeName) : c.Unswayed (c.metadataOf type) := by
  intro p p' h
  obtain ⟨cache, hcache, hexec⟩ := exec_metadataOf h.left.metadata type
  obtain ⟨cache', hcache', hexec'⟩ := exec_metadataOf h.right.metadata type
  rw [hexec, hexec']
  exact ⟨rfl, h.remember ⟨hcache, h.left.sequences⟩ ⟨hcache', h.right.sequences⟩⟩

theorem unswayed_expanding {x : Expanding α} (hx : Expanding.Steady c.registry x) :
    c.Unswayed (Run.expanding x) := by
  intro p p' h
  obtain ⟨answer, hx⟩ := hx
  obtain ⟨cache, hcache, hrun⟩ := hx _ h.left.sequences
  obtain ⟨cache', hcache', hrun'⟩ := hx _ h.right.sequences
  have hafter : c.Alike { p with memory := { p.memory with sequences := cache } }
      { p' with memory := { p'.memory with sequences := cache' } } :=
    h.remember ⟨h.left.metadata, hcache⟩ ⟨h.right.metadata, hcache'⟩
  unfold Run.expanding
  simp only [exec_bind, exec_get, exec_set, hrun, hrun']
  cases answer <;> exact ⟨rfl, hafter⟩

theorem unswayed_orderOf (groups : List TypeName) : c.Unswayed (c.orderOf groups) :=
  unswayed_expanding (Order.steady_ofGroups _ _)

/-! ### Loops -/

theorem unswayed_isStopped : c.Unswayed c.isStopped := .look (fun _ _ => rfl) fun _ => .pure _

theorem unswayed_each {xs : List α} {step : α → Run Unit} (h : ∀ x ∈ xs, c.Unswayed (step x)) :
    c.Unswayed (c.each xs step) :=
  .forM fun x hx => unswayed_isStopped.bind fun _ => .ite (.pure ()) (h x hx)

theorem unswayed_allHold {xs : List α} {check : α → Run Bool}
    (h : ∀ x ∈ xs, c.Unswayed (check x)) : c.Unswayed (c.allHold xs check) :=
  .foldlM fun _ x hx => unswayed_isStopped.bind fun _ =>
    .ite (.pure _) ((h x hx).bind fun _ => .pure _)

theorem unswayed_violationCount : c.Unswayed violationCount := .look (fun _ _ => rfl) fun _ => .pure _

/-! ### Checks -/

theorem unswayed_judge (site : EvaluationSite) (value : Value) (k : Constraint) :
    c.Unswayed (c.judge site value k) := by
  unfold Call.judge
  split
  · refine (Unswayed.record _).bind fun _ => ?_
    split
    · exact .pure _
    · exact .fail _
  · exact .ite (.fail _) (.pure _)

section

variable {judge : Constraint → Run (Option Bool)}

mutual

theorem unswayed_failing (h : ∀ k, c.Unswayed (judge k)) :
    ∀ k : Constraint, c.Unswayed (k.failing judge)
  | ⟨_, _, _, _, composing, single, _, _, _⟩ => by
    unfold Constraint.failing
    refine (h _).bind fun _ => (unswayed_failingParts h single composing).bind fun _ => ?_
    exact .ite (.pure _) (.pure _)

theorem unswayed_failingParts (h : ∀ k, c.Unswayed (judge k)) (single : Bool) :
    ∀ ks : List Constraint, c.Unswayed (Constraint.failingParts judge single ks)
  | [] => .pure _
  | k :: ks => by
    unfold Constraint.failingParts
    refine (unswayed_failing h k).bind fun _ => .ite (.pure _) ?_
    exact (unswayed_failingParts h single ks).bind fun _ => .pure _

end

end

theorem unswayed_evaluate (s : Subject) (k : Constraint) (value : Value) (path : Path) :
    c.Unswayed (c.evaluate s k value path) := by
  refine (unswayed_failing (unswayed_judge _ value) k).bind fun _ =>
    (Unswayed.forM fun _ _ => .update fun p memory => ?_).bind fun _ => .pure _
  dsimp only
  split <;> rfl

theorem unswayed_checkConstraint (s : Subject) (group : TypeName) (value : Value) (path : Path)
    (b : BoundConstraint) : c.Unswayed (c.checkConstraint s group value path b) := by
  have hbound : c.Unswayed (c.evaluateBound s value path b) := by
    unfold Call.evaluateBound
    split
    · exact unswayed_evaluate s b.constraint value path
    · exact unswayed_allHold fun _ _ => unswayed_evaluate s b.constraint _ _
  unfold Call.checkConstraint
  refine .ite (.pure _) (.look (fun _ _ => rfl) fun p => .ite (.pure _) ?_)
  refine (Unswayed.record _).bind fun _ => hbound.bind fun _ => .ite ?_ (.pure _)
  exact (Unswayed.update fun _ _ => rfl).bind fun _ => .pure _

theorem unswayed_checkAll (s : Subject) (bs : List BoundConstraint) (group : TypeName) :
    c.Unswayed (c.checkAll s bs group) := by
  refine unswayed_allHold fun b _ => ?_
  rw [checkBound_eq]
  split
  · exact unswayed_checkConstraint s group _ _ b
  · exact .pure _

theorem unswayed_markProcessed (s : Subject) (group : TypeName) :
    c.Unswayed (c.markProcessed s group) := .ite (.update fun _ _ => rfl) (.pure ())

/-! ### Walks and cascades -/

theorem unswayed_checkGroup (s : Subject) (bs : List BoundConstraint) (group : TypeName) :
    c.Unswayed (c.checkGroup s bs group) :=
  unswayed_isStopped.bind fun _ => .ite (.pure _) <| (unswayed_checkAll s bs group).bind fun _ =>
    unswayed_isStopped.bind fun _ => .ite (.pure _) <|
      (unswayed_markProcessed s group).bind fun _ => .pure _

theorem unswayed_checkPosition (s : Subject) (bs : List BoundConstraint) :
    ∀ position, c.Unswayed (c.checkPosition s bs position)
  | [] => .pure _
  | g :: rest => (unswayed_checkGroup s bs g.name).bind fun _ =>
    (unswayed_checkPosition s bs rest).bind fun _ => .pure _

theorem unswayed_checkPositions (s : Subject) (bs : List BoundConstraint) :
    ∀ positions, c.Unswayed (c.checkPositions s bs positions)
  | [] => .pure _
  | position :: rest => (unswayed_checkPosition s bs position).bind fun _ =>
    .ite (unswayed_checkPositions s bs rest) (.pure _)

theorem unswayed_defaultGroups (object : Option ObjectId) (m : Metadata) :
    c.Unswayed (c.defaultGroups object m) := by
  unfold Call.defaultGroups
  split
  · exact .pure _
  · exact .pure _
  · exact (Unswayed.record _).bind fun _ => .ofExcept _

theorem unswayed_defaultMeaning (object : Option ObjectId) (m : Metadata) :
    c.Unswayed (c.defaultMeaning object m) := by
  refine .look (fun _ _ => rfl) fun p => ?_
  split
  · exact .pure _
  · exact (unswayed_defaultGroups object m).bind fun _ => (Unswayed.ofExcept _).bind fun _ =>
      (Unswayed.update fun _ _ => rfl).bind fun _ => .pure _

theorem unswayed_runRedefined (s : Subject) (m : Metadata) (bs : List BoundConstraint) :
    c.Unswayed (c.runRedefined s m bs) :=
  (unswayed_defaultMeaning s.object m).bind fun _ =>
    (unswayed_each fun q _ => unswayed_checkPositions s bs q.positions).bind fun _ =>
      unswayed_isStopped.bind fun _ => .ite (.pure _) (unswayed_markProcessed s _)

theorem unswayed_runHierarchy (s : Subject) : ∀ (types covered : List TypeName),
    c.Unswayed (c.runHierarchy s covered types)
  | [], _ => .pure _
  | type :: above, covered => by
    unfold Call.runHierarchy
    refine (unswayed_metadataOf type).bind fun m => .ite (unswayed_runRedefined s m _) ?_
    refine (unswayed_checkAll s _ _).bind fun _ => unswayed_isStopped.bind fun _ => .ite (.pure _) ?_
    exact (unswayed_markProcessed s _).bind fun _ => unswayed_runHierarchy s above _

theorem unswayed_runGroup (s : Subject) (group : TypeName) : c.Unswayed (c.runGroup s group) :=
  (Unswayed.record _).bind fun _ => .ite (unswayed_runHierarchy s _ _) <|
    (unswayed_checkAll s _ group).bind fun _ => unswayed_isStopped.bind fun _ =>
      .ite (.pure _) (unswayed_markProcessed s group)

section

variable {constraints cascades : TypeName → Run Unit} (h : ∀ g, c.Unswayed (constraints g))
  (h' : ∀ g, c.Unswayed (cascades g))

include h h'

theorem unswayed_runPositions :
    ∀ positions, c.Unswayed (c.runPositions constraints cascades positions)
  | [] => .pure _
  | position :: rest => by
    unfold Call.runPositions
    refine unswayed_violationCount.bind fun _ => Unswayed.bind ?_ fun _ =>
      unswayed_violationCount.bind fun _ => .ite (unswayed_runPositions rest) (.pure _)
    exact unswayed_each fun g _ => (h g.name).bind fun _ => unswayed_isStopped.bind fun _ =>
      .ite (.pure _) (h' g.name)

theorem unswayed_runOrder (o : Order) : c.Unswayed (c.runOrder o constraints cascades) :=
  (unswayed_each fun g _ => h g.name).bind fun _ => (unswayed_each fun g _ => h' g.name).bind fun _ =>
    unswayed_each fun q _ => unswayed_runPositions h h' q.positions

end

theorem unswayed_requireFit (s : Subject) (o : Order) : c.Unswayed (c.requireFit s o) :=
  .ite ((unswayed_defaultMeaning s.object s.metadata).bind fun _ => .ofExcept _) (.pure _)

theorem unswayed_runSubject {visit : CascadeStep → Run Unit} (h : ∀ step, c.Unswayed (visit step))
    (s : Subject) (o : Order) : c.Unswayed (c.runSubject visit s o) :=
  (unswayed_requireFit s o).bind fun _ => unswayed_runOrder (unswayed_runGroup s)
    (fun _ => .ite (.pure _) (unswayed_each fun step _ => h step)) o

theorem unswayed_cascade : ∀ (depth : Nat) (step : CascadeStep), c.Unswayed (c.cascade depth step)
  | 0, _ => fun _ _ h => ⟨rfl, h⟩
  | depth + 1, step => by
    unfold Call.cascade
    refine unswayed_isStopped.bind fun _ => .look (fun _ _ => rfl) fun p => .ite ?_ (.pure _)
    refine (unswayed_metadataOf _).bind fun m =>
      (unswayed_expanding (Order.steady_ofGroup _ _ _)).bind fun order => ?_
    refine .look (fun _ _ => rfl) fun p => .ite (Unswayed.whileOnChain ?_ _) (.pure _)
    exact unswayed_runSubject (unswayed_cascade depth) _ order

/-! ### Operations -/

theorem unswayed_findings (s : Subject) (o : Order) : c.Unswayed (c.findings s o) :=
  (unswayed_runSubject (unswayed_cascade c.depth) s o).bind fun _ =>
    .look (fun _ _ => rfl) fun _ => .pure _

theorem unswayed_requireProperty (m : Metadata) (type : TypeName) (name : String) :
    c.Unswayed (requireProperty m type name) := .ite (.pure _) (.fail _)

theorem unswayed_navigate (text : String) : ∀ (steps : List (Option String × Option Position))
    (object : ObjectId) (path : Path), c.Unswayed (c.navigate text object path steps)
  | [], _, _ => .pure _
  | (none, _) :: _, _, _ => .fail _
  | (some name, position) :: rest, object, path => by
    unfold Call.navigate
    refine (unswayed_metadataOf _).bind fun m => (unswayed_requireProperty m _ name).bind fun _ => ?_
    dsimp only
    split
    · exact unswayed_navigate text rest _ _
    · exact .pure _

theorem unswayed_validateProperty (object : ObjectId) (text : String) (groups : List TypeName) :
    c.Unswayed (c.validateProperty object text groups) := by
  unfold Call.validateProperty
  split
  · exact .fail _
  · next path _ =>
    split
    · exact .fail _
    · next property _ =>
      refine (unswayed_navigate text (stepsOf path.nodes) object .root).bind fun reached => ?_
      cases reached with
      | none => exact .pure _
      | some reached =>
        exact (unswayed_metadataOf _).bind fun m => (unswayed_requireProperty m _ property).bind
          fun _ => (unswayed_orderOf groups).bind fun o => unswayed_findings _ o

theorem unswayed_runExecutableGroup {run : TypeName → Run Unit} (h : ∀ g, c.Unswayed (run g))
    (object : Option ObjectId) (m : Metadata) (group : TypeName) :
    c.Unswayed (c.runExecutableGroup object m run group) :=
  .ite ((unswayed_defaultMeaning object m).bind fun d =>
    unswayed_runOrder h (fun _ => .pure _) d.order) (h group)

theorem unswayed_executableOrder {run : TypeName → Run Unit} (h : ∀ g, c.Unswayed (run g))
    (s : Subject) (steps : TypeName → List CascadeStep) (groups : List TypeName) :
    c.Unswayed (do
      let order ← c.orderOf groups
      c.runOrder order (c.runExecutableGroup s.object s.metadata run) fun g => c.each (steps g) c.visit
      return (← get).violations) :=
  (unswayed_orderOf groups).bind fun o =>
    (unswayed_runOrder (unswayed_runExecutableGroup h s.object s.metadata)
      (fun _ => unswayed_each fun step _ => unswayed_cascade c.depth step) o).bind fun _ =>
        .look (fun _ _ => rfl) fun _ => .pure _

theorem unswayed_checkArguments (s : Subject) (e : ExecutableMetadata) (path : Path)
    (values : List Value) (group : TypeName) :
    c.Unswayed (c.checkArguments s e path values group) := by
  refine unswayed_violationCount.bind fun _ => Unswayed.bind ?_ fun _ =>
    unswayed_violationCount.bind fun _ => .ite ?_ (.pure _)
  · exact unswayed_each fun x _ => unswayed_each fun b _ =>
      (unswayed_checkConstraint s group _ _ b).bind fun _ => .pure _
  · exact unswayed_each fun b _ => (unswayed_checkConstraint s group _ _ b).bind fun _ => .pure _

theorem unswayed_validateArguments (s : Subject) (e : ExecutableMetadata) (values : List Value)
    (groups : List TypeName) : c.Unswayed (c.validateArguments s e values groups) := by
  have hrest := unswayed_executableOrder (c := c)
    (unswayed_checkArguments s e (Path.executable e.signature.name) values) s
    (argumentSteps e (Path.executable e.signature.name) values) groups
  unfold Call.validateArguments
  exact .ite ((Unswayed.fail _).bind fun _ => .ite (.pure _) hrest) (.ite (.pure _) hrest)

theorem unswayed_validateReturned (s : Subject) (e : ExecutableMetadata) (value : Value)
    (groups : List TypeName) : c.Unswayed (c.validateReturned s e value groups) :=
  .ite (.pure _) <| unswayed_executableOrder (fun g =>
    (unswayed_allHold fun b _ => unswayed_checkConstraint s g value _ b).bind fun _ => .pure _)
    s _ groups

theorem unswayed_withExecutable {find : Metadata → Option ExecutableMetadata}
    {validate : Subject → ExecutableMetadata → Run (List Violation)}
    (h : ∀ s e, c.Unswayed (validate s e)) (type : TypeName) (object : Option ObjectId) :
    c.Unswayed (c.withExecutable type object find validate) := by
  refine (unswayed_metadataOf type).bind fun m => ?_
  cases find m with
  | none => exact .pure _
  | some e => exact h _ e

/-- An operation comes to the same end whatever is remembered. -/
theorem unswayed_body (op : Operation) : c.Unswayed (op.body c) := by
  cases op with
  | object o gs =>
    exact (unswayed_metadataOf _).bind fun _ => (unswayed_orderOf gs).bind fun o =>
      unswayed_findings _ o
  | property o text gs => exact unswayed_validateProperty o text gs
  | value type name w gs =>
    exact (unswayed_metadataOf type).bind fun m => (unswayed_requireProperty m type name).bind
      fun _ => (unswayed_orderOf gs).bind fun o => unswayed_findings _ o
  | arguments o s values gs =>
    exact unswayed_withExecutable (fun s e => unswayed_validateArguments s e values gs) _ _
  | returned o s w gs =>
    exact unswayed_withExecutable (fun s e => unswayed_validateReturned s e w gs) _ _
  | constructorArguments type s values gs =>
    exact unswayed_withExecutable (fun s e => unswayed_validateArguments s e values gs) _ _
  | constructed type s created gs =>
    exact unswayed_withExecutable (fun s e => unswayed_validateReturned s e _ gs) _ _

end Call

/-- Whether two reports tell the same: the same answer, come to by the same steps. -/
def Report.Agrees {α : Type} (report report' : Report α) : Prop :=
  report.answer = report'.answer ∧ report.journal = report'.journal

namespace Validator

variable {v v' : Validator}

/-- Whether two validators differ in nothing but their memories, which are coherent. -/
structure Alike (v v' : Validator) : Prop where
  left : v.memory.Coherent v.registry v.config.methodRules
  right : v'.memory.Coherent v.registry v.config.methodRules
  same : v' = { v with memory := v'.memory }

/-- What comes to the same end whatever is remembered is reported alike by validators that differ in
their memories alone, and leaves what they remember coherent. -/
theorem Alike.run {α : Type} (h : v.Alike v') {c : Call} (hregistry : c.registry = v.registry)
    (hconfig : c.config = v.config) {x : Run α} (hx : c.Unswayed x) :
    (v'.run c x).Agrees (v.run c x) ∧
      (v'.run c x).memory.Coherent v.registry v.config.methodRules := by
  have hstart : c.Alike (c.start v.memory) (c.start v'.memory) := by
    refine ⟨?_, ?_, rfl⟩
    · rw [hregistry, hconfig]
      exact h.left
    · rw [hregistry, hconfig]
      exact h.right
  obtain ⟨hanswer, hafter⟩ := hx _ _ hstart
  have hjournal := congrArg Progress.journal hafter.same
  refine ⟨⟨hanswer, hjournal⟩, ?_⟩
  simpa only [run_eq, hregistry, hconfig] using hafter.right

theorem Alike.perform (h : v.Alike v') (op : Operation) :
    (v'.perform op).Agrees (v.perform op) ∧
      (v'.perform op).memory.Coherent v.registry v.config.methodRules := by
  have hcall : op.call v' = op.call v := by
    rw [h.same]
    cases op <;> rfl
  rw [perform_eq, perform_eq, hcall]
  exact h.run (by cases op <;> rfl) (by cases op <;> rfl) (Call.unswayed_body op)

theorem Alike.metadata (h : v.Alike v') (type : TypeName) :
    (v'.metadata type).Agrees (v.metadata type) ∧
      (v'.metadata type).memory.Coherent v.registry v.config.methodRules := by
  have hcall : v'.call none type = v.call none type := by rw [h.same]; rfl
  unfold Validator.metadata
  rw [hcall]
  exact h.run rfl rfl (Call.unswayed_metadataOf type)

theorem Alike.defaultGroupSequence (h : v.Alike v') (type : TypeName) (object : Option ObjectId) :
    (v'.defaultGroupSequence type object).Agrees (v.defaultGroupSequence type object) ∧
      (v'.defaultGroupSequence type object).memory.Coherent v.registry v.config.methodRules := by
  have hcall : v'.call none type = v.call none type := by rw [h.same]; rfl
  have hregistry : v'.registry = v.registry := by rw [h.same]
  unfold Validator.defaultGroupSequence
  rw [hcall, hregistry]
  refine h.run rfl rfl ((Call.unswayed_metadataOf type).bind fun m => ?_)
  exact (Call.unswayed_defaultGroups object m).bind fun _ =>
    (Call.unswayed_defaultGroups object m).bind fun _ => (Call.Unswayed.ofExcept _).bind fun _ =>
      .pure _

end Validator

/-! ### Factories -/

/-- Metadata of several types comes from a coherent memory as it is put together, up to the first
type whose metadata cannot be, and the memory stays coherent. -/
theorem Metadata.obtainAll_coherent {r : Registry} {rules : List MethodRule} :
    ∀ (types : List TypeName) {cache : MetadataCache}, cache.Coherent r rules →
    ∃ cache' : MetadataCache, cache'.Coherent r rules ∧
      ((types.forM fun type => do let _ ← obtain r rules type :
          ExceptT Error (StateM MetadataCache) Unit).run.run cache).run =
        (types.forM fun type => do let _ ← assemble r rules type, cache')
  | [], cache, h => ⟨cache, h, rfl⟩
  | type :: types, cache, h => by
    obtain ⟨cache', h', hrun⟩ := obtain_coherent h type
    obtain ⟨cache'', h'', hrest⟩ := obtainAll_coherent types h'
    have hstep : ((do let _ ← obtain r rules type : ExceptT Error (StateM MetadataCache) Unit).run.run
        cache).run = (do let _ ← assemble r rules type, cache') := by
      rw [run_bind, hrun]
      cases assemble r rules type <;> rfl
    simp only [List.forM, run_bind, hstep]
    cases assemble r rules type with
    | error e => exact ⟨cache', h', rfl⟩
    | ok m => exact ⟨cache'', h'', hrest⟩

namespace Factory

/-- Something that a factory is used for. -/
inductive Use
  | operation (op : Operation)
  | metadata (type : TypeName)
  | defaultGroups (type : TypeName) (object : Option ObjectId)
  | warmUp
  | close

/-- The factory once it has been used, whatever came of it. Its validators share its memory. A warming
up that puts types together side by side may go on after a failure: it leaves what obtaining their
metadata one after the other does. -/
def apply (f : Factory) (r : Registry) (store : Store) : Use → Factory
  | .operation op => { f with memory := ((f.validator r store).perform op).memory }
  | .metadata type => { f with memory := ((f.validator r store).metadata type).memory }
  | .defaultGroups type object =>
    { f with memory := ((f.validator r store).defaultGroupSequence type object).memory }
  | .warmUp => (f.warmUp r).2
  | .close => f.close

/-- The factory once it has been used several times, each time over a store of its own. -/
def after (f : Factory) (r : Registry) (history : List (Store × Use)) : Factory :=
  history.foldl (fun f (store, use) => f.apply r store use) f

/-- What a factory keeps however it is used: what it was made with, and a coherent memory. -/
structure Kept (r : Registry) (f g : Factory) : Prop where
  evaluators : g.evaluators = f.evaluators
  config : g.config = f.config
  coherent : g.memory.Coherent r f.config.methodRules

variable {f g : Factory} {r : Registry}

/-- The validators of a factory and of one it keeps all of differ in their memories alone. -/
theorem Kept.alike (h : f.Kept r g) (hf : f.memory.Coherent r f.config.methodRules)
    (store : Store) : (f.validator r store).Alike (g.validator r store) := by
  refine ⟨hf, h.coherent, ?_⟩
  unfold validator
  rw [h.evaluators, h.config]

/-- Warming up answers as if nothing were remembered and leaves a coherent memory. -/
theorem warmUp_open (hf : f.memory.Coherent r f.config.methodRules) (hopen : f.isClosed = false) :
    (f.warmUp r).1 = ((r.classes.forM fun type => do
      let _ ← Metadata.assemble r f.config.methodRules type).map fun () => r.classes.length) ∧
    f.Kept r (f.warmUp r).2 := by
  obtain ⟨cache, hcache, hrun⟩ := Metadata.obtainAll_coherent r.classes hf.metadata
  unfold warmUp requireOpen
  simp only [hopen, Bool.false_eq_true, if_false, hrun]
  exact ⟨trivial, rfl, rfl, hcache, hf.sequences⟩

theorem kept_close (hf : f.memory.Coherent r f.config.methodRules) : f.Kept r f.close := by
  unfold close
  split
  · exact ⟨rfl, rfl, hf⟩
  · exact ⟨rfl, rfl, Memory.coherent_empty r _⟩

theorem kept_apply (hf : f.memory.Coherent r f.config.methodRules) (store : Store) (use : Use) :
    f.Kept r (f.apply r store use) := by
  have halike : (f.validator r store).Alike (f.validator r store) := ⟨hf, hf, rfl⟩
  cases use with
  | operation op => exact ⟨rfl, rfl, (halike.perform op).2⟩
  | metadata type => exact ⟨rfl, rfl, (halike.metadata type).2⟩
  | defaultGroups type object => exact ⟨rfl, rfl, (halike.defaultGroupSequence type object).2⟩
  | warmUp =>
    cases hclosed : f.isClosed with
    | false => exact (warmUp_open hf hclosed).2
    | true =>
      have hsame : f.apply r store .warmUp = f := by
        simp [apply, Factory.warmUp, requireOpen, hclosed]
      rw [hsame]
      exact ⟨rfl, rfl, hf⟩
  | close => exact kept_close hf

theorem kept_after : ∀ {f : Factory} (history : List (Store × Use)),
    f.memory.Coherent r f.config.methodRules → f.Kept r (f.after r history)
  | _, [], hf => ⟨rfl, rfl, hf⟩
  | f, (store, use) :: history, hf => by
    have hfirst := kept_apply hf store use
    have hothers : (f.apply r store use).Kept r ((f.apply r store use).after r history) :=
      kept_after history (by rw [hfirst.config]; exact hfirst.coherent)
    refine ⟨hothers.evaluators.trans hfirst.evaluators, hothers.config.trans hfirst.config, ?_⟩
    rw [← hfirst.config]
    exact hothers.coherent

/-- Whatever a factory has been used for, with whatever outcomes, its validators answer as those of a
new one, and so does its warming up while it is open. What it remembers is what would be put together
and expanded again. -/
theorem answers_as_new (evaluators : Evaluators) (config : Config) (r : Registry)
    (history : List (Store × Use)) (store : Store) :
    let new : Factory := { evaluators, config }
    let used := new.after r history
    (∀ op, ((used.validator r store).perform op).Agrees ((new.validator r store).perform op)) ∧
    (∀ type, ((used.validator r store).metadata type).Agrees
      ((new.validator r store).metadata type)) ∧
    (∀ type object, ((used.validator r store).defaultGroupSequence type object).Agrees
      ((new.validator r store).defaultGroupSequence type object)) ∧
    (used.warmUp r).1 = (if used.isClosed then .error .factoryClosed else (new.warmUp r).1) ∧
    used.memory.Coherent r config.methodRules := by
  intro new used
  have hnew : new.memory.Coherent r new.config.methodRules := Memory.coherent_empty r _
  have hused : new.Kept r used := kept_after history hnew
  have halike := hused.alike hnew store
  refine ⟨fun op => (halike.perform op).1, fun type => (halike.metadata type).1,
    fun type object => (halike.defaultGroupSequence type object).1, ?_, hused.coherent⟩
  split
  · next hclosed => simp [Factory.warmUp, requireOpen, hclosed]
  · next hopen =>
    have hcoherent : used.memory.Coherent r used.config.methodRules := by
      rw [hused.config]
      exact hused.coherent
    rw [(warmUp_open hcoherent (by simpa using hopen)).1, (warmUp_open hnew rfl).1, hused.config]

end Factory

end ObjectValidation
