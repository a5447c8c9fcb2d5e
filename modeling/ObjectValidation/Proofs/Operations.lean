import ObjectValidation.Proofs.Frame
/-!
# Operations as one

What is said of every operation is said of `Validator.perform`. An operation runs the computation of
one call (`perform_eq`), and the violations that it answers are those that the call has found
(`answer_eq_violations`).

What an operation keeps is said in one place too. Above the walks and the cascades it is made of the
walks of the subjects that it starts at, and of the checks of executables (`KeptByOperation`).
-/

namespace ObjectValidation

open Run

/-- An operation with all its inputs. -/
inductive Operation
  | object (object : ObjectId) (groups : List TypeName)
  | property (object : ObjectId) (path : String) (groups : List TypeName)
  | value (type : TypeName) (property : String) (value : Value) (groups : List TypeName)
  | arguments (object : ObjectId) (s : Signature) (values : List Value) (groups : List TypeName)
  | returned (object : ObjectId) (s : Signature) (value : Value) (groups : List TypeName)
  | constructorArguments (type : TypeName) (s : Signature) (values : List Value)
      (groups : List TypeName)
  | constructed (type : TypeName) (s : Signature) (created : ObjectId) (groups : List TypeName)

/-- The report of an operation. -/
def Validator.perform (v : Validator) : Operation → Report (List Violation)
  | .object o gs => v.validate o gs
  | .property o path gs => v.validateProperty o path gs
  | .value type name w gs => v.validateValue type name w gs
  | .arguments o s values gs => v.validateParameters o s values gs
  | .returned o s w gs => v.validateReturnValue o s w gs
  | .constructorArguments type s values gs => v.validateConstructorParameters type s values gs
  | .constructed type s created gs => v.validateConstructorReturnValue type s created gs

namespace Operation

/-- The call that an operation makes. -/
def call (v : Validator) : Operation → Call
  | .object o _ => v.call (some o) (v.store.typeOf o)
  | .property o _ _ => v.call (some o) (v.store.typeOf o)
  | .value type _ _ _ => v.call none type
  | .arguments o _ values _ =>
    { v.call (some o) (v.store.typeOf o) with arguments := some values }
  | .returned o _ w _ => { v.call (some o) (v.store.typeOf o) with returned := some w }
  | .constructorArguments type _ values _ => { v.call none type with arguments := some values }
  | .constructed type _ created _ =>
    { v.call (some created) type with returned := some (.object created) }

/-- The computation of an operation. -/
def body (c : Call) : Operation → Run (List Violation)
  | .object o gs => c.validate o gs
  | .property o path gs => c.validateProperty o path gs
  | .value type name w gs => c.validateValue type name w gs
  | .arguments o s values gs =>
    c.withExecutable (c.store.typeOf o) (some o) (·.method? s) fun subject e =>
      c.validateArguments subject e values gs
  | .returned o s w gs =>
    c.withExecutable (c.store.typeOf o) (some o) (·.method? s) fun subject e =>
      c.validateReturned subject e w gs
  | .constructorArguments type s values gs =>
    c.withExecutable type none (·.constructor? s) fun subject e =>
      c.validateArguments subject e values gs
  | .constructed type s created gs =>
    c.withExecutable type (some created) (·.constructor? s) fun subject e =>
      c.validateReturned subject e (.object created) gs

end Operation

/-- The progress that a call starts from. -/
def Call.start (c : Call) (memory : Memory) : Progress := { memory, chain := c.root.toList }

theorem Validator.perform_eq (v : Validator) (op : Operation) :
    v.perform op = v.run (op.call v) (op.body (op.call v)) := by
  cases op <;> rfl

theorem Validator.run_eq {α : Type} (v : Validator) (c : Call) (x : Run α) :
    v.run c x = ⟨(x.exec (c.start v.memory)).1, (x.exec (c.start v.memory)).2.memory,
      (x.exec (c.start v.memory)).2.journal⟩ := rfl

/-- The subjects that an operation may start at. -/
inductive Operation.StartsAt (c : Call) : Operation → Subject → Prop
  | object {o : ObjectId} {gs : List TypeName} {metadata : Metadata} :
    c.Assembles (c.store.typeOf o) metadata →
    StartsAt c (.object o gs) { object := some o, metadata, path := .root }
  | property {o x : ObjectId} {text name : String} {gs : List TypeName} {read path : Path}
    {metadata : Metadata} : Path.read text = .ok read →
    read.nodes.getLast?.bind (·.name) = some name → c.Assembles (c.store.typeOf x) metadata →
    StartsAt c (.property o text gs)
      { object := some x, metadata, path, only := some (name, none) }
  | value {type : TypeName} {name : String} {w : Value} {gs : List TypeName} {metadata : Metadata} :
    c.Assembles type metadata →
    StartsAt c (.value type name w gs)
      { object := none, metadata, path := .root, only := some (name, some w) }

/-- The values that an operation is given to validate. -/
def Operation.given : Operation → List Value
  | .arguments _ _ values _ => values
  | .returned _ _ w _ => [w]
  | .constructorArguments _ _ values _ => values
  | .constructed _ _ created _ => [.object created]
  | _ => []

/-- The steps of cascades that an operation takes itself: from an object that it starts at, or from a
value that it is given. -/
inductive Operation.Takes (c : Call) (op : Operation) (step : CascadeStep) : Prop
  | object {s : Subject} {group : TypeName} : op.StartsAt c s → s.only = none →
    step ∈ s.cascade c.store group → Takes c op step
  | given {value : Value} {e : Element} {path : Path} {group : TypeName} : value ∈ op.given →
    step ∈ e.cascade path group value → Takes c op step

namespace Call

variable {c : Call} {I : Progress → Prop} {E : Halt → Progress → Prop}

/-! ### What operations keep -/

theorem mem_constraints_of_zip {e : ExecutableMetadata} {values : List Value}
    {x : ParameterMetadata × Value} {b : BoundConstraint} (hx : x ∈ e.parameters.zip values)
    (hb : b ∈ x.1.constraints) : b ∈ e.constraints := by
  simp only [ExecutableMetadata.constraints, List.mem_append, List.mem_flatMap]
  exact .inl (.inl ⟨x.1, (List.of_mem_zip hx).1, hb⟩)

section

variable {s : Subject} {e : ExecutableMetadata} {path : Path} {group : TypeName}

theorem meets_checkArguments {values : List Value} (h : ∀ b ∈ e.constraints, ∀ value path,
      Meets (c.checkConstraint s group value path b) I Any E) :
    Meets (c.checkArguments s e path values group) I Any E := by
  unfold Call.checkArguments
  refine Meets.get.any.next fun _ => Meets.next ?_ fun _ => Meets.get.any.next fun _ => ?_
  · exact meets_each fun x hx => meets_each fun b hb =>
      (h b (mem_constraints_of_zip hx hb) _ _).next fun _ => .pure trivial
  · refine .ite (meets_each fun b hb => (h b ?_ _ _).next fun _ => .pure trivial) .unit
    simp [ExecutableMetadata.constraints, hb]

theorem meets_checkReturned {value : Value} (h : ∀ b ∈ e.constraints,
      Meets (c.checkConstraint s group value path b) I Any E) :
    Meets (c.checkReturned s e path value group) I Any E :=
  (meets_allHold fun b hb => h b (by simp [ExecutableMetadata.constraints, hb])).next fun _ =>
    .pure trivial

theorem meets_runExecutableGroup {object : Option ObjectId} {m : Metadata}
    {run : TypeName → Run Unit} (hmeaning : Meets (c.defaultMeaning object m) I Any E)
    (hrun : ∀ g, Meets (run g) I Any E) :
    Meets (c.runExecutableGroup object m run group) I Any E :=
  .ite (hmeaning.next fun _ => meets_runOrder hrun fun _ => .unit) (hrun group)

end

section

variable (hfailed : ∀ e p, I p → E (.failed e) p)

include hfailed

theorem meets_requireProperty (m : Metadata) (type : TypeName) (name : String) :
    Meets (requireProperty m type name) I Any E := .ite .unit (.fail (hfailed _))

/-- What looking up metadata keeps is kept by following a path. -/
theorem meets_navigate (hmetadata : ∀ type, Meets (c.metadataOf type) I Any E) (text : String) :
    ∀ (steps : List (Option String × Option Position)) (object : ObjectId) (path : Path),
    Meets (c.navigate text object path steps) I Any E
  | [], _, _ => .pure trivial
  | (none, _) :: _, _, _ => .fail (hfailed _)
  | (some name, position) :: rest, object, path => by
    unfold Call.navigate
    refine (hmetadata _).next fun m => (meets_requireProperty hfailed m _ name).next fun _ => ?_
    dsimp only
    split
    · exact meets_navigate hmetadata text rest _ _
    · exact .pure trivial

end

/-- `I` is kept by the parts that operations are made of: walks of the subjects that they start at,
checks of executables, and the steps of cascades that they take. -/
structure KeptByParts (c : Call) (op : Operation) (I : Progress → Prop)
    (E : Halt → Progress → Prop) : Prop where
  failed : ∀ e p, I p → E (.failed e) p
  metadata : ∀ type, Meets (c.metadataOf type) I (c.Assembles type) E
  meaning : ∀ object type m, c.Assembles type m → Meets (c.defaultMeaning object m) I Any E
  expand : ∀ {α : Type} (x : Expanding α), Meets (Run.expanding x) I Any E
  start : ∀ s group, op.StartsAt c s → Meets (c.runGroup s group) I Any E
  executable : ∀ (s : Subject) type, c.Assembles type s.metadata →
    ∀ e ∈ s.metadata.methods ++ s.metadata.constructors, ∀ b ∈ e.constraints, ∀ group value path,
    Meets (c.checkConstraint s group value path b) I Any E
  visit : ∀ step, op.Takes c step → Meets (c.visit step) I Any E

namespace KeptByParts

variable {op : Operation} (h : KeptByParts c op I E)

include h

theorem requireFit {s : Subject} {type : TypeName} (hs : c.Assembles type s.metadata) (o : Order) :
    Meets (c.requireFit s o) I Any E :=
  meets_requireFit h.failed (h.meaning s.object type s.metadata hs)

theorem findings {s : Subject} {type : TypeName} (hs : op.StartsAt c s)
    (hm : c.Assembles type s.metadata) (o : Order) : Meets (c.findings s o) I Any E := by
  refine Meets.next ?_ fun _ => Meets.get.any.next fun _ => .pure trivial
  refine (h.requireFit hm o).next fun _ => meets_runOrder (fun g => h.start s g hs) fun g => ?_
  unfold Call.runCascades
  split
  · exact .unit
  · next honly =>
    exact meets_each fun step hstep => h.visit step (.object hs (by simpa using honly) hstep)

/-- The groups of an order on something of an executable, and its cascades. -/
theorem executableOrder {s : Subject} {type : TypeName}
    (hm : c.Assembles type s.metadata) {run : TypeName → Run Unit}
    (hrun : ∀ g, Meets (run g) I Any E) {steps : TypeName → List CascadeStep}
    (hsteps : ∀ g, ∀ step ∈ steps g, op.Takes c step) (groups : List TypeName) :
    Meets (do
      let order ← c.orderOf groups
      c.runOrder order (c.runExecutableGroup s.object s.metadata run) fun g => c.each (steps g) c.visit
      return (← get).violations) I Any E := by
  refine (h.expand _).next fun order => Meets.next ?_ fun _ =>
    Meets.get.any.next fun _ => .pure trivial
  exact meets_runOrder
    (fun _ => meets_runExecutableGroup (h.meaning s.object type s.metadata hm) hrun)
    fun g => meets_each fun step hstep => h.visit step (hsteps g step hstep)

section

variable {s : Subject} {type : TypeName} (hm : c.Assembles type s.metadata)
  {e : ExecutableMetadata} (he : e ∈ s.metadata.methods ++ s.metadata.constructors)

include hm he

theorem validateArguments {values : List Value} (hvalues : values ⊆ op.given)
    (groups : List TypeName) : Meets (c.validateArguments s e values groups) I Any E := by
  have hcheck (g : TypeName) :
      Meets (c.checkArguments s e (Path.executable e.signature.name) values g) I Any E :=
    meets_checkArguments fun b hb value path => h.executable s type hm e he b hb g value path
  have hsteps : ∀ g, ∀ step ∈ argumentSteps e (Path.executable e.signature.name) values g,
      op.Takes c step := by
    intro g step hstep
    obtain ⟨x, hx, hstep⟩ := List.mem_flatMap.1 hstep
    exact .given (hvalues (List.of_mem_zip hx).2) hstep
  have hrest := h.executableOrder hm hcheck hsteps groups
  unfold Call.validateArguments
  refine .ite (Meets.next ?_ fun _ => .ite (.pure trivial) hrest) (.ite (.pure trivial) hrest)
  exact .fail (h.failed _)

theorem validateReturned {value : Value} (hvalue : value ∈ op.given) (groups : List TypeName) :
    Meets (c.validateReturned s e value groups) I Any E :=
  .ite (.pure trivial) <| h.executableOrder hm (fun g => meets_checkReturned
    fun b hb => h.executable s type hm e he b hb g value _) (fun _ _ => .given hvalue) groups

end

theorem withExecutable {find : Metadata → Option ExecutableMetadata}
    (hfind : ∀ m e, find m = some e → e ∈ m.methods ++ m.constructors)
    {validate : Subject → ExecutableMetadata → Run (List Violation)} {type : TypeName}
    {object : Option ObjectId}
    (hv : ∀ s e, c.Assembles type s.metadata → e ∈ s.metadata.methods ++ s.metadata.constructors →
      Meets (validate s e) I Any E) :
    Meets (c.withExecutable type object find validate) I Any E := by
  refine (h.metadata type).bind fun m hm => ?_
  cases he : find m with
  | none => exact .pure trivial
  | some e => exact hv _ e hm (hfind m e he)

theorem validateProperty {object : ObjectId} {text : String} {groups : List TypeName}
    (hop : op = .property object text groups) :
    Meets (c.validateProperty object text groups) I Any E := by
  subst hop
  unfold Call.validateProperty
  split
  · exact .fail (h.failed _)
  · next path hpath =>
    split
    · exact .fail (h.failed _)
    · next property hproperty =>
      refine (meets_navigate h.failed (fun type => (h.metadata type).any) text (stepsOf path.nodes)
        object .root).next fun reached => ?_
      cases reached with
      | none => exact .pure trivial
      | some reached =>
        refine (h.metadata _).bind fun m hm =>
          (meets_requireProperty h.failed m _ property).next fun _ => (h.expand _).next fun order => ?_
        exact h.findings (.property hpath hproperty hm) hm order

/-- An operation keeps what its parts keep. -/
theorem body : Meets (op.body c) I Any E := by
  have hmethod : ∀ s (m : Metadata) e, m.method? s = some e → e ∈ m.methods ++ m.constructors :=
    fun _ _ _ he => List.mem_append_left _ (List.mem_of_find?_eq_some he)
  have hconstructor : ∀ s (m : Metadata) e, m.constructor? s = some e →
      e ∈ m.methods ++ m.constructors :=
    fun _ _ _ he => List.mem_append_right _ (List.mem_of_find?_eq_some he)
  cases op with
  | object o gs =>
    exact (h.metadata _).bind fun m hm => (h.expand _).next fun order =>
      h.findings (.object hm) hm order
  | property o text gs => exact h.validateProperty rfl
  | value type property w gs =>
    exact (h.metadata type).bind fun m hm =>
      (meets_requireProperty h.failed m type property).next fun _ =>
        (h.expand _).next fun order => h.findings (.value hm) hm order
  | arguments o s values gs =>
    exact h.withExecutable (hmethod s) fun _ _ hm he =>
      h.validateArguments hm he (List.Subset.refl _) gs
  | returned o s w gs =>
    exact h.withExecutable (hmethod s) fun _ _ hm he =>
      h.validateReturned hm he (List.mem_singleton_self w) gs
  | constructorArguments type s values gs =>
    exact h.withExecutable (hconstructor s) fun _ _ hm he =>
      h.validateArguments hm he (List.Subset.refl _) gs
  | constructed type s created gs =>
    exact h.withExecutable (hconstructor s) fun _ _ hm he =>
      h.validateReturned hm he (List.mem_singleton_self (Value.object created)) gs

end KeptByParts

/-- `I` is kept by the parts of an operation and of all its cascades. -/
structure KeptByOperation (c : Call) (op : Operation) (I : Progress → Prop)
    (E : Halt → Progress → Prop) : Prop extends KeptByCascades c I E where
  start : ∀ s group, op.StartsAt c s → Meets (c.runGroup s group) I Any E
  executable : ∀ (s : Subject) type, c.Assembles type s.metadata →
    ∀ e ∈ s.metadata.methods ++ s.metadata.constructors, ∀ b ∈ e.constraints, ∀ group value path,
    Meets (c.checkConstraint s group value path b) I Any E

/-- An operation keeps what its parts and those of its cascades keep. -/
theorem KeptByOperation.body {op : Operation} (h : KeptByOperation c op I E) :
    Meets (op.body c) I Any E := by
  have hparts : KeptByParts c op I E :=
    ⟨h.failed, h.metadata, h.meaning, h.expand, h.start, h.executable,
      fun step _ => h.cascade c.depth step⟩
  exact hparts.body

end Call

end ObjectValidation
