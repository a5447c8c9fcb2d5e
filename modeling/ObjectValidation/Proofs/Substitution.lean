import ObjectValidation.Proofs.Clean
import ObjectValidation.Proofs.Rendering
/-!
# A value in place of that of a property

A value can be validated as that of a property without an object that has it. `Uniform` is the judgement
that a computation which is told what it is about, an object or a type without one, does the same
whatever that is: it gives the same answer and leaves the same progress, but for what this is about.

So a value is found to violate just what it violates as the property of an object
(`validateValue_eq_validateProperty`).
-/

namespace ObjectValidation

open Run

/-! ### What a computation is about -/

/-- Whether evaluators go by the declaration, the value and the path alone, whichever object the value
belongs to. -/
def Evaluators.IgnoreLeaves (es : Evaluators) : Prop :=
  ∀ entry ∈ es.entries, ∀ store k value type path leaf leaf',
    entry.2.check store k value ⟨type, path, leaf⟩ = entry.2.check store k value ⟨type, path, leaf'⟩

theorem Evaluators.IgnoreSites.ignoreLeaves {es : Evaluators} (h : es.IgnoreSites) :
    es.IgnoreLeaves := fun entry he store k value _ _ _ _ => h entry he store k value _ _

theorem Evaluators.IgnoreLeaves.find? {es : Evaluators} (h : es.IgnoreLeaves) {kind : String}
    {value : Value} {e : Evaluator} (he : es.find? kind value = some e) (store : Store)
    (k : Constraint) (v : Value) (type : TypeName) (path : Path) (leaf leaf' : Option ObjectId) :
    e.check store k v ⟨type, path, leaf⟩ = e.check store k v ⟨type, path, leaf'⟩ := by
  obtain ⟨key, hmem⟩ := Evaluators.exists_mem_of_find? he
  exact h _ hmem store k v type path leaf leaf'

/-- The violation as one of the object, at which the validation has started as well. -/
def Violation.about (object : Option ObjectId) (v : Violation) : Violation :=
  { v with root := object, leaf := object }

theorem Violation.isRepeatOf_about (object : Option ObjectId) (v w : Violation) :
    (v.about object).isRepeatOf (w.about object) = (v.about none).isRepeatOf (w.about none) := by
  rw [Bool.eq_iff_iff, isRepeatOf_iff, isRepeatOf_iff]
  simp [key, about]

/-- The event as one about the object. -/
def Event.about (object : Option ObjectId) : Event → Event
  | .began _ path group => .began object path group
  | .checked _ path b group value => .checked object path b group value
  | .consulted kind site value isStandard =>
    .consulted kind { site with leaf := object } value isStandard
  | .asked type _ => .asked type object

/-- The progress as one in which all is about the object. -/
def Progress.about (object : Option ObjectId) (p : Progress) : Progress where
  memory := p.memory
  violations := p.violations.map (·.about object)
  processedGroups := p.processedGroups.map fun mark => (object, mark.2)
  processedPaths := p.processedPaths.map fun mark => (object, mark.2)
  processedConstraints := p.processedConstraints.map fun mark => (object, mark.2)
  chain := object.toList
  defaults := p.defaults.map fun entry => ((object, entry.1.2), entry.2)
  journal := p.journal.map (·.about object)

/-- Marks of one object are told apart by the rest of them. -/
theorem contains_map_about {α : Type} [BEq α] [LawfulBEq α] (object : Option ObjectId) (a : α)
    (marks : List (Option ObjectId × α)) :
    (marks.map fun mark => (object, mark.2)).contains (object, a) =
      (marks.map (·.2)).contains a := by
  induction marks with
  | nil => rfl
  | cons mark marks ih =>
    have hkey : ((object, a) == (object, mark.2)) = (a == mark.2) := by
      rw [Bool.eq_iff_iff]
      simp
    simp only [List.map_cons, List.contains_cons, ih, hkey]

theorem lookup_map_about (object : Option ObjectId) (type : TypeName)
    (defaults : List ((Option ObjectId × TypeName) × DefaultMeaning)) :
    (defaults.map fun entry => ((object, entry.1.2), entry.2)).lookup (object, type) =
      (defaults.map fun entry => (entry.1.2, entry.2)).lookup type := by
  induction defaults with
  | nil => rfl
  | cons entry defaults ih =>
    have hkey : ((object, type) == (object, entry.1.2)) = (type == entry.1.2) := by
      rw [Bool.eq_iff_iff]
      simp
    simp only [List.map_cons, List.lookup_cons, ih, hkey]

namespace Call

/-- The call as one that starts at the object. -/
def about (object : Option ObjectId) (c : Call) : Call := { c with root := object }

section

variable (object : Option ObjectId) (c : Call)

@[simp] theorem about_registry : (c.about object).registry = c.registry := rfl

@[simp] theorem about_evaluators : (c.about object).evaluators = c.evaluators := rfl

@[simp] theorem about_config : (c.about object).config = c.config := rfl

@[simp] theorem about_store : (c.about object).store = c.store := rfl

@[simp] theorem about_rootType : (c.about object).rootType = c.rootType := rfl

end

variable {c : Call} {P : Option ObjectId → Prop} {α β : Type} {Q : α → Prop} {R : β → Prop}

/-- Whether a computation does the same for all that it may be about: what it does it does to the
progress whatever that is about, and its answer, which has `Q`, is the same. -/
def Uniform (c : Call) (P : Option ObjectId → Prop) (x : Option ObjectId → Run α)
    (Q : α → Prop) : Prop :=
  ∀ p, c.Coherent p → ∃ (answer : Except Error α) (q : Progress), c.Coherent q ∧
    (∀ a, answer = .ok a → Q a) ∧
    ∀ o, P o → (x o).exec (p.about o) = (answer.mapError .failed, q.about o)

namespace Uniform

theorem pure {a : α} (h : Q a) : c.Uniform P (fun _ => Pure.pure a) Q := fun p hp =>
  ⟨.ok a, p, hp, fun _ ha => Except.ok.inj ha ▸ h, fun _ _ => rfl⟩

theorem fail (e : Error) : c.Uniform P (fun _ => (Run.fail e : Run α)) Q := fun p hp =>
  ⟨.error e, p, hp, by simp, fun _ _ => rfl⟩

theorem ofExcept (x : Except Error α) : c.Uniform P (fun _ => Run.ofExcept x) Any := by
  cases x with
  | ok a => exact .pure trivial
  | error e => exact .fail e

theorem congr {x y : Option ObjectId → Run α} (hy : c.Uniform P y Q) (h : ∀ o, P o → x o = y o) :
    c.Uniform P x Q := by
  intro p hp
  obtain ⟨answer, q, hq, hanswer, hexec⟩ := hy p hp
  exact ⟨answer, q, hq, hanswer, fun o ho => by rw [h o ho, hexec o ho]⟩

theorem update {f : Option ObjectId → Progress → Progress} (g : Progress → Progress)
    (hg : ∀ p, (g p).memory = p.memory) (h : ∀ o p, P o → f o (p.about o) = (g p).about o) :
    c.Uniform P (fun o => modify (f o)) Any := by
  intro p hp
  refine ⟨.ok (), g p, ?_, fun _ _ => trivial, fun o ho => by rw [exec_modify, h o p ho]; rfl⟩
  rw [Call.Coherent, hg]
  exact hp

theorem record {e : Option ObjectId → Event} (h : ∀ o, e o = (e none).about o) :
    c.Uniform P (fun o => Run.record (e o)) Any := by
  refine .update (fun p => { p with journal := p.journal ++ [e none] }) (fun _ => rfl) ?_
  intro o p _
  simp [Progress.about, h o]

theorem look {f : Option ObjectId → Progress → Run α}
    (h : ∀ p : Progress, c.Uniform P (fun o => f o (p.about o)) Q) :
    c.Uniform P (fun o => get >>= f o) Q := by
  intro p hp
  obtain ⟨answer, q, hq, hanswer, hexec⟩ := h p p hp
  refine ⟨answer, q, hq, hanswer, fun o ho => ?_⟩
  rw [exec_bind, exec_get]
  exact hexec o ho

theorem bind {x : Option ObjectId → Run α} {f : Option ObjectId → α → Run β}
    (hx : c.Uniform P x Q) (hf : ∀ a, Q a → c.Uniform P (fun o => f o a) R) :
    c.Uniform P (fun o => x o >>= f o) R := by
  intro p hp
  obtain ⟨answer, q, hq, hanswer, hexec⟩ := hx p hp
  cases answer with
  | error e =>
    exact ⟨.error e, q, hq, by simp, fun o ho => by rw [exec_bind, hexec o ho]; rfl⟩
  | ok a =>
    obtain ⟨answer', q', hq', hanswer', hexec'⟩ := hf a (hanswer a rfl) q hq
    refine ⟨answer', q', hq', hanswer', fun o ho => ?_⟩
    rw [exec_bind, hexec o ho]
    exact hexec' o ho

theorem next {x : Option ObjectId → Run α} {f : Option ObjectId → α → Run β}
    (hx : c.Uniform P x Any) (hf : ∀ a, c.Uniform P (fun o => f o a) R) :
    c.Uniform P (fun o => x o >>= f o) R := hx.bind fun a _ => hf a

theorem ite {b : Prop} [Decidable b] {x y : Option ObjectId → Run α} (hx : c.Uniform P x Q)
    (hy : c.Uniform P y Q) : c.Uniform P (fun o => if b then x o else y o) Q := by
  split
  · exact hx
  · exact hy

theorem forM {step : Option ObjectId → α → Run Unit} : ∀ {xs : List α},
    (∀ x ∈ xs, c.Uniform P (fun o => step o x) Any) →
    c.Uniform P (fun o => xs.forM (step o)) Any
  | [], _ => .pure trivial
  | x :: xs, h => by
    change c.Uniform P (fun o => step o x >>= fun _ => xs.forM (step o)) Any
    exact (h x (by simp)).next fun _ => Uniform.forM fun y hy => h y (by simp [hy])

theorem foldlM {step : Option ObjectId → β → α → Run β} : ∀ {xs : List α} {b : β},
    (∀ b, ∀ x ∈ xs, c.Uniform P (fun o => step o b x) Any) →
    c.Uniform P (fun o => xs.foldlM (step o) b) Any
  | [], _, _ => .pure trivial
  | x :: xs, b, h => by
    simp only [List.foldlM_cons]
    exact (h b x (by simp)).next fun _ => Uniform.foldlM fun b y hy => h b y (by simp [hy])

end Uniform

/-! ### Memory and loops -/

theorem uniform_metadataOf (type : TypeName) :
    c.Uniform P (fun o => (c.about o).metadataOf type) (c.Assembles type) := by
  intro p hp
  obtain ⟨cache, hcache, hobtain⟩ := Metadata.obtain_coherent hp type
  refine ⟨Metadata.assemble c.registry c.config.methodRules type,
    { p with memory := { p.memory with metadata := cache } }, hcache, fun _ => id, ?_⟩
  intro o _
  unfold Call.metadataOf
  rw [exec_bind, exec_get]
  have hobtain' : ((Metadata.obtain (c.about o).registry (c.about o).config.methodRules type).run.run
      (p.about o).memory.metadata).run =
      (Metadata.assemble c.registry c.config.methodRules type, cache) := hobtain
  simp only [hobtain', exec_bind, exec_set]
  cases Metadata.assemble c.registry c.config.methodRules type <;> rfl

theorem uniform_expanding (x : Expanding α) : c.Uniform P (fun _ => Run.expanding x) Any := by
  intro p hp
  refine ⟨(x.run.run p.memory.sequences).run.1,
    { p with memory := { p.memory with sequences := (x.run.run p.memory.sequences).run.2 } }, hp,
    fun _ _ => trivial, ?_⟩
  intro o _
  have hmemory : (p.about o).memory = p.memory := rfl
  unfold Run.expanding
  simp only [exec_bind, exec_get, exec_set, hmemory]
  generalize (x.run.run p.memory.sequences).run = outcome
  obtain ⟨answer, cache⟩ := outcome
  cases answer <;> rfl

theorem uniform_orderOf (groups : List TypeName) :
    c.Uniform P (fun o => (c.about o).orderOf groups) Any := by
  unfold Call.orderOf
  simp only [about_registry]
  exact uniform_expanding _

theorem uniform_isStopped : c.Uniform P (fun o => (c.about o).isStopped) Any := by
  refine .look fun p => ?_
  simp only [Progress.about, about_config, List.isEmpty_map]
  exact .pure trivial

theorem uniform_violationCount : c.Uniform P (fun _ => violationCount) Any := by
  refine .look fun p => ?_
  simp only [Progress.about, List.length_map]
  exact .pure trivial

theorem uniform_each {xs : List α} {step : Option ObjectId → α → Run Unit}
    (h : ∀ x ∈ xs, c.Uniform P (fun o => step o x) Any) :
    c.Uniform P (fun o => (c.about o).each xs (step o)) Any :=
  .forM fun x hx => uniform_isStopped.next fun _ => .ite (.pure trivial) (h x hx)

theorem uniform_allHold {xs : List α} {check : Option ObjectId → α → Run Bool}
    (h : ∀ x ∈ xs, c.Uniform P (fun o => check o x) Any) :
    c.Uniform P (fun o => (c.about o).allHold xs (check o)) Any :=
  .foldlM fun _ x hx => uniform_isStopped.next fun _ =>
    .ite (.pure trivial) ((h x hx).next fun _ => .pure trivial)

/-! ### Checks -/

theorem uniform_report (v : Violation) : c.Uniform P (fun o => report (v.about o)) Any := by
  refine .update (fun p => if (p.about none).violations.any (·.isRepeatOf (v.about none)) then p
    else { p with violations := p.violations ++ [v] }) (fun p => ?_) ?_
  · split <;> rfl
  · intro o p _
    -- All violations are about the one object, so that it does not decide what is a repeat.
    have hrepeat : (p.about o).violations.any (·.isRepeatOf (v.about o)) =
        (p.about none).violations.any (·.isRepeatOf (v.about none)) := by
      simp only [Progress.about, List.any_map, Function.comp_def, Violation.isRepeatOf_about o]
    rw [hrepeat]
    split
    · rfl
    · simp [Progress.about]

mutual

theorem uniform_failing {judge : Option ObjectId → Constraint → Run (Option Bool)}
    (h : ∀ k, c.Uniform P (fun o => judge o k) Any) :
    ∀ k : Constraint, c.Uniform P (fun o => k.failing (judge o)) Any
  | ⟨_, _, _, _, composing, single, _, _, _⟩ => by
    unfold Constraint.failing
    refine (h _).next fun _ => (uniform_failingParts h single composing).next fun _ => ?_
    exact .ite (.pure trivial) (.pure trivial)

theorem uniform_failingParts {judge : Option ObjectId → Constraint → Run (Option Bool)}
    (h : ∀ k, c.Uniform P (fun o => judge o k) Any) (single : Bool) :
    ∀ ks : List Constraint, c.Uniform P (fun o => Constraint.failingParts (judge o) single ks) Any
  | [] => .pure trivial
  | k :: ks => by
    unfold Constraint.failingParts
    refine (uniform_failing h k).next fun _ => .ite (.pure trivial) ?_
    exact (uniform_failingParts h single ks).next fun _ => .pure trivial

end

section

variable (hes : c.evaluators.IgnoreLeaves)

include hes

theorem uniform_judge (type : TypeName) (path : Path) (value : Value) (k : Constraint) :
    c.Uniform P (fun o => (c.about o).judge ⟨type, path, o⟩ value k) Any := by
  unfold Call.judge
  simp only [about_evaluators, about_store]
  cases he : c.evaluators.find? k.kind value with
  | none => exact .ite (.fail _) (.pure trivial)
  | some e =>
    refine (Uniform.record fun _ => rfl).next fun _ => ?_
    have hcheck := fun o => hes.find? he c.store k value.effective type path o none
    simp only [hcheck]
    split
    · exact .pure trivial
    · exact .fail _

theorem uniform_evaluate {s : Option ObjectId → Subject} (hs : ∀ o, (s o).object = o)
    (k : Constraint) (value : Value) (path : Path) :
    c.Uniform P (fun o => (c.about o).evaluate (s o) k value path) Any := by
  unfold Call.evaluate
  simp only [hs, about_rootType]
  refine (uniform_failing (uniform_judge hes c.rootType path value) k).next fun failing => ?_
  refine (Uniform.forM fun f _ => ?_).next fun _ => .pure trivial
  exact uniform_report (c.violation ⟨c.rootType, path, none⟩ value f)

theorem uniform_checkConstraint {s : Option ObjectId → Subject} (hs : ∀ o, (s o).object = o)
    (group : TypeName) (value : Value) (path : Path) (b : BoundConstraint) :
    c.Uniform P (fun o => (c.about o).checkConstraint (s o) group value path b) Any := by
  have hbound : c.Uniform P (fun o => (c.about o).evaluateBound (s o) value path b) Any := by
    unfold Call.evaluateBound
    split
    · exact uniform_evaluate hes hs b.constraint value path
    · exact uniform_allHold fun _ _ => uniform_evaluate hes hs b.constraint _ _
  unfold Call.checkConstraint
  simp only [hs]
  refine .ite (.pure trivial) (.look fun p => ?_)
  simp only [Progress.about, contains_map_about]
  refine .ite (.pure trivial) ((Uniform.record (e := fun o => .checked o path b group value)
    fun _ => rfl).next fun _ => hbound.next fun _ => ?_)
  refine .ite (Uniform.next ?_ fun _ => .pure trivial) (.pure trivial)
  exact .update (fun p => { p with
    processedConstraints := (none, path, b.key) :: p.processedConstraints }) (fun _ => rfl)
    fun _ _ _ => rfl

end

theorem uniform_markProcessed {s : Option ObjectId → Subject} (hs : ∀ o, (s o).object = o)
    {path : Path} (hpath : ∀ o, (s o).path = path) (group : TypeName) :
    c.Uniform P (fun o => (c.about o).markProcessed (s o) group) Any := by
  unfold Call.markProcessed
  simp only [hs, hpath, about_config]
  refine .ite (.update (fun p => { p with
    processedGroups :=
      if (p.processedGroups.map (·.2)).contains group then p.processedGroups
      else (none, group) :: p.processedGroups
    processedPaths :=
      if (p.processedPaths.map (·.2)).contains path then p.processedPaths
      else (none, path) :: p.processedPaths }) (fun _ => rfl) ?_) (.pure trivial)
  intro o p _
  simp only [Progress.about, contains_map_about]
  congr 1 <;> split <;> rfl

/-! ### What the default group stands for -/

theorem uniform_defaultGroups {m : Metadata} (hm : m.hasProvider = false) :
    c.Uniform P (fun o => (c.about o).defaultGroups o m) Any := by
  unfold Call.defaultGroups
  cases hdefault : m.default with
  | ordinary => exact .pure trivial
  | listed groups order => exact .pure trivial
  | provided provider => simp [Metadata.hasProvider, hdefault] at hm

/-- Without a provider the default group stands for the same whatever it is asked for. -/
theorem uniform_defaultMeaning {m : Metadata} (hm : m.hasProvider = false) :
    c.Uniform P (fun o => (c.about o).defaultMeaning o m) Any := by
  unfold Call.defaultMeaning
  refine .look fun p => ?_
  simp only [Progress.about, lookup_map_about, about_registry]
  split
  · exact .pure trivial
  · refine (uniform_defaultGroups hm).next fun groups => (Uniform.ofExcept _).next fun order => ?_
    refine Uniform.next ?_ fun _ => .pure trivial
    refine .update (fun p => { p with
      defaults := p.defaults ++ [((none, m.type), { groups, order })] }) (fun _ => rfl) ?_
    intro o p _
    simp [Progress.about]

/-- Whether no type of a list has a provider for its default group. -/
def Unprovided (c : Call) (types : List TypeName) : Prop :=
  ∀ type ∈ types, ∀ m, c.Assembles type m → m.hasProvider = false

end Call

/-! ### The walk of one property -/

/-- What a validation of one property looks at: an object with the value that it has, or a type
without an object and the value in place of that. -/
def Subject.ofProperty (m : Metadata) (name : String) (value : Value) (object : Option ObjectId) :
    Subject where
  object := object
  metadata := m
  path := .root
  only := some (name, if object.isSome then none else some value)

/-- Whether the object, if it is one, has the value for the property. -/
def Store.Bears (s : Store) (name : String) (value : Value) (object : Option ObjectId) : Prop :=
  ∀ x, object = some x → s.property x name = value

theorem Subject.property_ofProperty {s : Store} {name : String} {value : Value}
    {object : Option ObjectId} (h : s.Bears name value object) (m : Metadata) :
    (ofProperty m name value object).property s name = value := by
  cases object with
  | none => simp [ofProperty, property]
  | some x => simp [ofProperty, property, property.read, h x rfl]

namespace Call

variable {c : Call} {α : Type} {name : String} {value : Value} {m : Metadata}

/-- Only constraints on the property are checked, and these on its value. -/
theorem checkBound_ofProperty {object : Option ObjectId} (h : c.store.Bears name value object)
    (group : TypeName) (b : BoundConstraint) :
    (c.about object).checkBound (Subject.ofProperty m name value object) group b =
      if b.location = .property name then
        (c.about object).checkConstraint (Subject.ofProperty m name value object) group value
          (Path.root.property name) b
      else return true := by
  have hvalue := Subject.property_ofProperty h m
  unfold Call.checkBound
  by_cases hb : b.location = .property name
  · have hincludes : (Subject.ofProperty m name value object).includes b.location = true := by
      simp [hb, Subject.includes, Subject.ofProperty]
    rw [if_pos hincludes, if_pos hb, hb]
    simp only [about_store, hvalue]
    rfl
  · simp [hb, Subject.includes, Subject.ofProperty]

theorem uniform_mark (group : TypeName) :
    c.Uniform (c.store.Bears name value)
      (fun o => (c.about o).markProcessed (.ofProperty m name value o) group) Any :=
  uniform_markProcessed (s := Subject.ofProperty m name value) (fun _ => rfl) (fun _ => rfl) group

section

variable (hes : c.evaluators.IgnoreLeaves)

include hes

theorem uniform_checkAll (bs : List BoundConstraint) (group : TypeName) :
    c.Uniform (c.store.Bears name value)
      (fun o => (c.about o).checkAll (.ofProperty m name value o) bs group) Any :=
  uniform_allHold fun b _ =>
    .congr (.ite (uniform_checkConstraint (s := Subject.ofProperty m name value) hes (fun _ => rfl)
      group value _ b) (.pure trivial)) fun _ h => checkBound_ofProperty h group b

theorem uniform_checkGroup (bs : List BoundConstraint) (group : TypeName) :
    c.Uniform (c.store.Bears name value)
      (fun o => (c.about o).checkGroup (.ofProperty m name value o) bs group) Any :=
  uniform_isStopped.next fun _ => .ite (.pure trivial) <|
    (uniform_checkAll hes bs group).next fun _ => uniform_isStopped.next fun _ =>
      .ite (.pure trivial) <| (uniform_mark group).next fun _ => .pure trivial

theorem uniform_checkPosition (bs : List BoundConstraint) : ∀ position,
    c.Uniform (c.store.Bears name value)
      (fun o => (c.about o).checkPosition (.ofProperty m name value o) bs position) Any
  | [] => .pure trivial
  | g :: rest => (uniform_checkGroup hes bs g.name).next fun _ =>
    (uniform_checkPosition bs rest).next fun _ => .pure trivial

theorem uniform_checkPositions (bs : List BoundConstraint) : ∀ positions,
    c.Uniform (c.store.Bears name value)
      (fun o => (c.about o).checkPositions (.ofProperty m name value o) bs positions) Any
  | [] => .pure trivial
  | position :: rest => (uniform_checkPosition hes bs position).next fun _ =>
    .ite (uniform_checkPositions bs rest) (.pure trivial)

theorem uniform_runRedefined {m' : Metadata} (hm' : m'.hasProvider = false)
    (bs : List BoundConstraint) :
    c.Uniform (c.store.Bears name value)
      (fun o => (c.about o).runRedefined (.ofProperty m name value o) m' bs) Any :=
  (uniform_defaultMeaning hm').next fun _ =>
    (uniform_each fun q _ => uniform_checkPositions hes bs q.positions).next fun _ =>
      uniform_isStopped.next fun _ => .ite (.pure trivial) (uniform_mark _)

theorem uniform_runHierarchy : ∀ (types covered : List TypeName), c.Unprovided types →
    c.Uniform (c.store.Bears name value)
      (fun o => (c.about o).runHierarchy (.ofProperty m name value o) covered types) Any
  | [], _, _ => .pure trivial
  | type :: above, covered, h => by
    unfold Call.runHierarchy
    refine (uniform_metadataOf type).bind fun m' hm' => ?_
    refine .ite (uniform_runRedefined hes (h type (by simp) m' hm') _) ?_
    refine (uniform_checkAll hes _ _).next fun _ => uniform_isStopped.next fun _ =>
      .ite (.pure trivial) ?_
    exact (uniform_mark _).next fun _ =>
      uniform_runHierarchy above _ fun t ht => h t (List.mem_cons_of_mem _ ht)

theorem uniform_runGroup (h : c.Unprovided m.hierarchy) (group : TypeName) :
    c.Uniform (c.store.Bears name value)
      (fun o => (c.about o).runGroup (.ofProperty m name value o) group) Any :=
  (Uniform.record (e := fun o => .began o Path.root group) fun _ => rfl).next fun _ =>
    .ite (uniform_runHierarchy hes _ _ h) <| (uniform_checkAll hes m.constraints group).next fun _ =>
      uniform_isStopped.next fun _ => .ite (.pure trivial) (uniform_mark group)

end

section

variable {P : Option ObjectId → Prop} {constraints cascades : Option ObjectId → TypeName → Run Unit}
  (h : ∀ g, c.Uniform P (fun o => constraints o g) Any)
  (h' : ∀ g, c.Uniform P (fun o => cascades o g) Any)

include h h'

theorem uniform_runPositions : ∀ positions,
    c.Uniform P (fun o => (c.about o).runPositions (constraints o) (cascades o) positions) Any
  | [] => .pure trivial
  | position :: rest => by
    unfold Call.runPositions
    refine uniform_violationCount.next fun _ => Uniform.next ?_ fun _ =>
      uniform_violationCount.next fun _ => .ite (uniform_runPositions rest) (.pure trivial)
    exact uniform_each fun g _ => (h g.name).next fun _ => uniform_isStopped.next fun _ =>
      .ite (.pure trivial) (h' g.name)

theorem uniform_runOrder (order : Order) :
    c.Uniform P (fun o => (c.about o).runOrder order (constraints o) (cascades o)) Any :=
  (uniform_each fun g _ => h g.name).next fun _ => (uniform_each fun g _ => h' g.name).next fun _ =>
    uniform_each fun q _ => uniform_runPositions h h' q.positions

end

theorem uniform_runSubject (hes : c.evaluators.IgnoreLeaves) {type : TypeName}
    (hm : c.Assembles type m) (hself : type ∈ m.hierarchy) (h : c.Unprovided m.hierarchy)
    (order : Order) : c.Uniform (c.store.Bears name value)
      (fun o => (c.about o).runSubject (c.about o).visit (.ofProperty m name value o) order) Any := by
  -- The type asks for its own default group before the walk; the hierarchy is asked on the way.
  have hfit : c.Uniform (c.store.Bears name value)
      (fun o => (c.about o).requireFit (.ofProperty m name value o) order) Any := by
    refine Uniform.ite (b := m.redefinesDefault) ?_ (.pure trivial)
    exact (uniform_defaultMeaning (h type hself m hm)).next fun d =>
      .ofExcept (order.checkDefault d.groups)
  -- A validation of one property cascades into nothing.
  exact hfit.next fun _ => uniform_runOrder (uniform_runGroup hes h) (fun _ => .pure trivial) order

end Call

/-! ### The hierarchy of the type -/

/-- Whether no type of the hierarchy of a type has a provider for its default group. -/
def Registry.WithoutProviders (r : Registry) (type : TypeName) : Prop :=
  ∀ names, r.hierarchy type = .ok names → ∀ above ∈ names, ∀ d, r.get? above = some d →
    d.provider = none

theorem Metadata.hasProvider_eq_false {r : Registry} {rules : List MethodRule} {type : TypeName}
    {m : Metadata} (h : assemble r rules type = .ok m)
    (hprovider : ∀ d, r.get? type = some d → d.provider = none) : m.hasProvider = false := by
  obtain ⟨rfl, own, definitions, elements, hs⟩ := sources h
  have hdefault := hs.default_eq
  unfold Assembly.defaultSequence at hdefault
  rw [hprovider own hs.own_eq] at hdefault
  split at hdefault
  · simp [hasProvider, ← Except.ok.inj hdefault]
  · cases hsequence : own.sequence with
    | none =>
      rw [hsequence] at hdefault
      simp [hasProvider, ← Except.ok.inj hdefault]
    | some listed =>
      rw [hsequence] at hdefault
      obtain ⟨groups, -, hdefault⟩ := bind_eq_ok.1 hdefault
      split at hdefault
      · simp [hasProvider, ← Except.ok.inj hdefault]
      · obtain ⟨order, -, hdefault⟩ := bind_eq_ok.1 hdefault
        simp [hasProvider, ← Except.ok.inj hdefault]

namespace Call

variable {c : Call} {name : String} {value : Value} {groups : List TypeName} {type : TypeName}

theorem unprovided_of_withoutProviders {m : Metadata} (hm : c.Assembles type m)
    (h : c.registry.WithoutProviders type) : c.Unprovided m.hierarchy := by
  intro above habove m' hm'
  obtain ⟨rfl, own, definitions, elements, hs⟩ := Metadata.sources hm
  exact Metadata.hasProvider_eq_false hm' (h _ hs.hierarchy_eq above habove)

/-- The validation of one property of a type, up to its answer. -/
def inspect (c : Call) (type : TypeName) (name : String) (value : Value) (groups : List TypeName)
    (object : Option ObjectId) : Run Unit := do
  let metadata ← (c.about object).metadataOf type
  requireProperty metadata type name
  let order ← (c.about object).orderOf groups
  (c.about object).runSubject (c.about object).visit (.ofProperty metadata name value object) order

/-- The validation of one property does the same for each object that has the value and for the value
without an object. -/
theorem uniform_inspect (hes : c.evaluators.IgnoreLeaves) (h : c.registry.WithoutProviders type) :
    c.Uniform (c.store.Bears name value) (c.inspect type name value groups) Any := by
  unfold Call.inspect
  refine (uniform_metadataOf type).bind fun m hm => ?_
  have hrequired : c.Uniform (c.store.Bears name value) (fun _ => requireProperty m type name) Any :=
    .ite (.pure trivial) (.fail _)
  refine hrequired.next fun _ => Uniform.next (uniform_orderOf groups) fun order => ?_
  exact uniform_runSubject hes hm (Metadata.type_mem_hierarchy hm)
    (unprovided_of_withoutProviders hm h) order

theorem validateValue_eq_inspect : (c.about none).validateValue type name value groups =
    c.inspect type name value groups none >>= fun _ => return (← get).violations := by
  simp only [inspect, bind_assoc]
  rfl

theorem validateProperty_eq_inspect (hname : Path.IsName name) {x : ObjectId}
    (hx : c.store.typeOf x = type) : (c.about (some x)).validateProperty x name groups =
      c.inspect type name value groups (some x) >>= fun _ => return (← get).violations := by
  subst hx
  have hread : Path.read name = .ok ⟨[⟨some name, none⟩]⟩ := Path.read_name hname
  have hlast : ([⟨some name, none⟩] : List PathNode).getLast?.bind (·.name) = some name := rfl
  have hreached : (c.about (some x)).navigate name x .root (stepsOf [⟨some name, none⟩]) =
      Pure.pure (some (x, .root)) := rfl
  simp only [Call.validateProperty, hread, hlast, hreached, pure_bind, inspect, bind_assoc]
  rfl

theorem answer_of_exec {x : Run Unit} {p q : Progress} {answer : Except Error Unit}
    (h : x.exec p = (answer.mapError .failed, q)) :
    ((x >>= fun _ => return (← get).violations).exec p).1 =
      (answer.mapError .failed).map fun _ => q.violations := by
  rw [exec_bind, h]
  cases answer <;> rfl

end Call

namespace Validator

open Call

variable {v : Validator} {type : TypeName} {name : String} {value : Value} {object : ObjectId}
  {groups : List TypeName}

/-- A value validated as that of a property fails as the property of an object does that has it, and
for the same reason, or the same is found wrong with it. -/
theorem validateValue_eq_validateProperty (hv : v.Coherent) (hes : v.evaluators.IgnoreLeaves)
    (hproviders : v.registry.WithoutProviders type) (hname : Path.IsName name)
    (htype : v.store.typeOf object = type) (hvalue : v.store.property object name = value) :
    (∃ e, (v.validateValue type name value groups).answer = .error (.failed e) ∧
      (v.validateProperty object name groups).answer = .error (.failed e)) ∨
    ∃ found : List Violation, (v.validateValue type name value groups).answer =
        .ok (found.map (·.about none)) ∧
      (v.validateProperty object name groups).answer = .ok (found.map (·.about (some object))) := by
  have huniform : (v.call none type).Uniform (v.store.Bears name value)
      ((v.call none type).inspect type name value groups) Any := uniform_inspect hes hproviders
  obtain ⟨answer, q, -, -, hexec⟩ := huniform { memory := v.memory } hv
  have hvalidated : (v.validateValue type name value groups).answer =
      (answer.mapError .failed).map fun _ => (q.about none).violations := by
    rw [← answer_of_exec (hexec none (by simp [Store.Bears])), ← validateValue_eq_inspect]
    rfl
  have hproperty : (v.validateProperty object name groups).answer =
      (answer.mapError .failed).map fun _ => (q.about (some object)).violations := by
    rw [← answer_of_exec (hexec (some object) (by rintro _ ⟨⟩; exact hvalue)),
      ← validateProperty_eq_inspect (c := v.call none type) hname htype, ← htype]
    rfl
  rw [hvalidated, hproperty]
  cases answer with
  | error e => exact .inl ⟨e, rfl, rfl⟩
  | ok a => exact .inr ⟨q.violations, rfl, rfl⟩

/-- A person with a name, of which a sequence demands its length first, and an employee whose name is
to have letters at all. -/
def named (name : Value) : Validator where
  registry := [
    { name := ⟨"Strict"⟩, kind := .interface },
    { name := ⟨"Person"⟩, kind := .concrete, sequence := some [⟨"Strict"⟩, ⟨"Person"⟩],
      fields := [⟨"name", { own := { constraints := [{ kind := "NotBlank" },
        { kind := "Size", groups := [⟨"Strict"⟩], attributes := [("min", .int 2)] }] } }⟩] },
    { name := ⟨"Employee"⟩, kind := .concrete, superclass := some ⟨"Person"⟩,
      fields := [⟨"name", { own := { constraints := [{ kind := "NotEmpty" }] } }⟩] : TypeDefinition }
    ].foldl Registry.register .initial
  evaluators := Standard.evaluators
  config := {}
  store := ⟨[(⟨"e"⟩, ⟨⟨"Employee"⟩, [("name", name)]⟩)]⟩
  memory := {}

/-- An empty name is found wrong twice, as that of an employee and in place of one, and not for being
blank, which comes behind its length. -/
theorem validateValue_eq_validateProperty_named :
    (named (.str "")).evaluators.IgnoreLeaves ∧
    (named (.str "")).registry.WithoutProviders ⟨"Employee"⟩ ∧
    ∃ found : List Violation, found.map (·.template) =
        ["must not be empty", "size must be between {min} and {max}"] ∧
      ((named (.str "")).validateValue ⟨"Employee"⟩ "name" (.str "") []).answer =
        .ok (found.map (·.about none)) ∧
      ((named (.str "")).validateProperty ⟨"e"⟩ "name" []).answer =
        .ok (found.map (·.about (some ⟨"e"⟩))) := by
  have hes : (named (.str "")).evaluators.IgnoreLeaves := Standard.ignoreSites.ignoreLeaves
  have hproviders : (named (.str "")).registry.WithoutProviders ⟨"Employee"⟩ := by
    have hnone : ∀ d ∈ (named (.str "")).registry.definitions, d.provider = none := by
      decide +kernel
    exact fun _ _ above _ d hd => hnone d (Registry.mem_of_get? hd)
  have htemplates : ((named (.str "")).validateValue ⟨"Employee"⟩ "name" (.str "") []).answer.toOption.map
      (·.map (·.template)) =
      some ["must not be empty", "size must be between {min} and {max}"] := by
    decide +kernel
  refine ⟨hes, hproviders, ?_⟩
  rcases @validateValue_eq_validateProperty (named (.str "")) ⟨"Employee"⟩ "name" (.str "") ⟨"e"⟩ []
    (MetadataCache.coherent_nil _ _) hes hproviders (by decide +kernel) (by decide +kernel)
    rfl with ⟨e, he, -⟩ | ⟨found, hfound, hproperty⟩
  · simp [he, Except.toOption] at htemplates
  · refine ⟨found, ?_, hfound, hproperty⟩
    simpa [hfound, Except.toOption, Violation.about, Function.comp_def] using htemplates

end Validator

end ObjectValidation
