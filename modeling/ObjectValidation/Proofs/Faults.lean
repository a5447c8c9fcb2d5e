import ObjectValidation.Proofs.Fitting
import ObjectValidation.Proofs.History
import ObjectValidation.Proofs.Outcome
import ObjectValidation.Proofs.References
import ObjectValidation.Proofs.Substitution
/-!
# Where configuration errors come from

What has to be ready before a validation looks at a value depends on declarations alone: the metadata of
the type, the order that is asked for, and the fit of a default group that the type redefines
(`Metadata.prepare`). A configuration error in there is what the validation of every object of the type
ends with.

Other configuration errors are met on the way (`Call.Encounters`), and which way that is depends on the
values: a constraint has no evaluator for what a value is, or an object is referred to whose type is not
ready, or a type above cannot be put together.
-/

namespace ObjectValidation

open Run

/-! ### What has to be ready -/

/-- Whether the default group, if the type lists what it stands for, fits into an order. -/
def Metadata.fit (m : Metadata) (o : Order) : Except Error Unit :=
  match m.default with
  | .listed groups _ => o.checkDefault groups
  | _ => .ok ()

/-- What has to be ready before a value of a type is looked at: the metadata of the type and an order,
into which the default group fits. -/
def Metadata.prepare (r : Registry) (rules : List MethodRule) (type : TypeName)
    (order : Except Error Order) : Except Error (Metadata × Order) := do
  let m ← assemble r rules type
  let o ← order
  m.fit o
  return (m, o)

section

variable {r : Registry} {rules : List MethodRule} {type : TypeName} {m : Metadata} {o : Order}
  {e : Error}

theorem Metadata.prepare_of_assemble (h : assemble r rules type = .error e)
    (order : Except Error Order) : prepare r rules type order = .error e := by
  rw [prepare, h]
  rfl

theorem Metadata.prepare_of_order (hm : assemble r rules type = .ok m) :
    prepare r rules type (.error e) = .error e := by
  rw [prepare, hm]
  rfl

theorem Metadata.prepare_of_fit (hm : assemble r rules type = .ok m) :
    prepare r rules type (.ok o) = (m.fit o).map fun _ => (m, o) := by
  rw [prepare, hm]
  change (m.fit o >>= fun _ => pure (m, o)) = _
  cases m.fit o <;> rfl

end

/-- The order that a request comes to, which is that of the default group if it lists no group. -/
def Order.ofRequest (r : Registry) (gs : List TypeName) : Except Error Order :=
  Expanding.answer (ofGroups r (if gs.isEmpty then [TypeName.defaultGroup] else gs))

/-- The order that a cascade goes on with which comes from one group to another. -/
def Order.ofConversion (r : Registry) (source group : TypeName) : Except Error Order :=
  Expanding.answer (ofGroup r group (group ≠ source))

/-- Whether a declaration in the constraint has no evaluator for one of the values that the constraint is
evaluated on, and the error that tells so. -/
def BoundConstraint.LacksEvaluator (b : BoundConstraint) (es : Evaluators) (path : Path)
    (value : Value) (e : Error) : Prop :=
  ∃ target ∈ b.targets path value, ∃ a part, b.constraint.at? a = some part ∧
    part.composing = [] ∧ es.find? part.kind target.2 = none ∧
    e = .noEvaluator part.kind target.2.effective.kind

namespace Call

/-- What has to be ready in a call before a value of a type is looked at. -/
abbrev prepare (c : Call) (type : TypeName) (order : Except Error Order) :
    Except Error (Metadata × Order) :=
  Metadata.prepare c.registry c.config.methodRules type order

/-- What has to be ready before a root is validated for the groups of a request. -/
abbrev prepareRoot (c : Call) (root : ObjectId) (gs : List TypeName) :
    Except Error (Metadata × Order) :=
  c.prepare (c.store.typeOf root) (Order.ofRequest c.registry gs)

/-- What has to be ready before a cascade for a group enters an object that is referred to. -/
abbrev prepareTarget (c : Call) (r : Reference) (group : TypeName) :
    Except Error (Metadata × Order) :=
  c.prepare (c.store.typeOf r.target)
    (Order.ofConversion c.registry group (r.facet.converted group))

/-- An object that a validation of a root may come to, with its metadata and the order it is validated
for: the root, and what such an object refers to, if all is ready. -/
inductive Arrives (c : Call) (root : ObjectId) (gs : List TypeName) :
    ObjectId → Metadata → Order → Prop
  | root {m : Metadata} {o : Order} : c.prepareRoot root gs = .ok (m, o) →
    Arrives c root gs root m o
  | step {x : ObjectId} {m m' : Metadata} {o o' : Order} {group : TypeName} {r : Reference} :
    Arrives c root gs x m o → o.Runs group → r ∈ c.references x →
    c.prepareTarget r group = .ok (m', o') →
    Arrives c root gs r.target m' o'

/-- An error that a validation meets on its way: at a check that it has made, at a type above that of an
object, or where an object refers to one whose type is not ready. -/
inductive Encounters (c : Call) (root : ObjectId) (gs : List TypeName) (journal : List Event) :
    Error → Prop
  | evaluator {x : ObjectId} {m : Metadata} {o : Order} {path : Path} {b : BoundConstraint}
    {group : TypeName} {value : Value} {e : Error} : Arrives c root gs x m o →
    .checked (some x) path b group value ∈ journal → b.LacksEvaluator c.evaluators path value e →
    Encounters c root gs journal e
  | above {x : ObjectId} {m : Metadata} {o : Order} {type : TypeName} {e : Error} :
    Arrives c root gs x m o → o.Runs TypeName.defaultGroup → type ∈ m.hierarchy →
    Metadata.assemble c.registry c.config.methodRules type = .error e →
    Encounters c root gs journal e
  | target {x : ObjectId} {m : Metadata} {o : Order} {group : TypeName} {r : Reference} {e : Error} :
    Arrives c root gs x m o → o.Runs group → r ∈ c.references x →
    c.prepareTarget r group = .error e →
    Encounters c root gs journal e

variable {c : Call}

/-- A validation comes to objects only if its root is ready. -/
theorem Arrives.ready {root x : ObjectId} {gs : List TypeName} {m : Metadata} {o : Order}
    (h : c.Arrives root gs x m o) : ∃ y, c.prepareRoot root gs = .ok y := by
  induction h with
  | root hready => exact ⟨_, hready⟩
  | step _ _ _ _ ih => exact ih

theorem Encounters.ready {root : ObjectId} {gs : List TypeName} {journal : List Event} {e : Error}
    (h : c.Encounters root gs journal e) : ∃ y, c.prepareRoot root gs = .ok y := by
  cases h with
  | evaluator harrives | above harrives | target harrives => exact harrives.ready

/-! ### What is remembered -/

/-- Whether all that is remembered is what would be worked out again. -/
structure Faithful (c : Call) (p : Progress) : Prop where
  coherent : p.memory.Coherent c.registry c.config.methodRules
  defaults : ∀ object type d, ((object, type), d) ∈ p.defaults → ∀ m, c.Assembles type m →
    c.listedFor object m = .ok d.groups

/-- A computation ends a call with the error of something that cannot be worked out. -/
abbrev FailsAs {α : Type} (x : Except Error α) : Halt → Progress → Prop :=
  fun halt _ => ∃ e, halt = .failed e ∧ x = .error e

theorem faithful_metadataOf (type : TypeName) :
    Meets (c.metadataOf type) c.Faithful (c.Assembles type)
      (FailsAs (Metadata.assemble c.registry c.config.methodRules type)) := by
  intro p hp
  obtain ⟨cache, hcache, hexec⟩ := exec_metadataOf hp.coherent.metadata type
  rw [hexec]
  unfold Assembles
  cases Metadata.assemble c.registry c.config.methodRules type with
  | ok m => exact ⟨⟨⟨hcache, hp.coherent.sequences⟩, hp.defaults⟩, rfl⟩
  | error e => exact ⟨e, rfl, rfl⟩

theorem faithful_expanding {α : Type} {x : Expanding α} (hx : Expanding.Steady c.registry x) :
    Meets (Run.expanding x) c.Faithful (fun a => Expanding.answer x = .ok a)
      (FailsAs (Expanding.answer x)) := by
  intro p hp
  have hcoherent := hx.coherent hp.coherent.sequences
  rw [← hx.run_eq hp.coherent.sequences]
  unfold Run.expanding
  simp only [exec_bind, exec_get, exec_set]
  revert hcoherent
  generalize (x.run.run p.memory.sequences).run = outcome
  obtain ⟨a, cache⟩ := outcome
  intro hcoherent
  cases a with
  | ok a => exact ⟨⟨⟨hp.coherent.metadata, hcoherent⟩, hp.defaults⟩, rfl⟩
  | error e => exact ⟨e, rfl, rfl⟩

/-- Where no provider is asked, what the default group stands for is there for the taking. -/
theorem exists_defaultGroups {m : Metadata} (h : m.hasProvider = false)
    (object : Option ObjectId) : ∃ groups order, c.defaultGroups object m = pure groups ∧
      c.listedFor object m = .ok groups ∧ m.defaultOrder c.registry groups = .ok order := by
  unfold Call.defaultGroups listedFor Metadata.defaultOrder
  cases hd : m.default with
  | ordinary => exact ⟨_, _, rfl, rfl, rfl⟩
  | listed groups order => exact ⟨_, _, rfl, rfl, rfl⟩
  | provided provider => simp [Metadata.hasProvider, hd] at h

theorem faithful_defaultMeaning {m : Metadata} (hm : c.Assembles m.type m)
    (h : m.hasProvider = false) (object : Option ObjectId) :
    Meets (c.defaultMeaning object m) c.Faithful
      (fun d => c.listedFor object m = .ok d.groups) NoHalt := by
  intro p hp
  unfold Call.defaultMeaning
  rw [exec_bind, exec_get]
  dsimp only
  cases hl : p.defaults.lookup (object, m.type) with
  | some d => exact ⟨hp, hp.defaults _ _ _ (Assembly.mem_of_lookup hl) m hm⟩
  | none =>
    obtain ⟨groups, order, hgroups, hlisted, horder⟩ := exists_defaultGroups (c := c) h object
    simp only [hgroups, horder, exec_bind, exec_pure, exec_ofExcept_ok, exec_modify]
    refine ⟨⟨hp.coherent, fun object' type d hmem m' hm' => ?_⟩, hlisted⟩
    rcases List.mem_append.1 hmem with hmem | hmem
    · exact hp.defaults _ _ _ hmem m' hm'
    · obtain ⟨⟨rfl, rfl⟩, rfl⟩ : (object' = object ∧ type = m.type) ∧ d = ⟨groups, order⟩ := by
        simpa using hmem
      rw [hm'.unique hm, hlisted]

/-- Before an order runs on a subject, its default group is found to fit or the call ends. -/
theorem faithful_requireFit {s : Subject} (hm : c.Assembles s.metadata.type s.metadata)
    (h : s.metadata.hasProvider = false) (o : Order) :
    Meets (c.requireFit s o) c.Faithful (fun _ => s.metadata.fit o = .ok ())
      (FailsAs (s.metadata.fit o)) := by
  unfold Call.requireFit
  cases hd : s.metadata.default with
  | ordinary =>
    simp only [Metadata.redefinesDefault, Metadata.fit, hd]
    exact .pure trivial
  | listed groups order =>
    have hlisted : c.listedFor s.object s.metadata = .ok groups := by simp [listedFor, hd]
    simp only [Metadata.redefinesDefault, Metadata.fit, hd]
    refine ((faithful_defaultMeaning hm h s.object).haltsBy fun _ _ => False.elim).bind ?_
    intro d hd
    obtain rfl : d.groups = groups := Except.ok.inj (hd.symm.trans hlisted)
    cases hfit : o.checkDefault d.groups with
    | ok => exact .pure rfl
    | error e => exact .fail fun _ _ => ⟨e, rfl, rfl⟩
  | provided provider => simp [Metadata.hasProvider, hd] at h

/-! ### Errors met on the way -/

variable {root x : ObjectId} {gs : List TypeName} {m : Metadata} {o : Order} {s : Subject}

/-- A call that ends with a configuration error has met it on the way. -/
abbrev Meeting (c : Call) (root : ObjectId) (gs : List TypeName) : Halt → Progress → Prop :=
  fun halt q => ∀ e, halt = .failed e → e.isConfiguration → c.Encounters root gs q.journal e

theorem meeting_judge {b : BoundConstraint} {path : Path} {value : Value} {site : EvaluationSite}
    {target : Path × Value} (ht : target ∈ b.targets path value) {a : List Nat} {part : Constraint}
    (hpart : b.constraint.at? a = some part) {I : Progress → Prop}
    (hlacks : ∀ e p, b.LacksEvaluator c.evaluators path value e → I p →
      c.Encounters root gs p.journal e)
    (hconsulted : ∀ p e, e.isConsulted → I p → I { p with journal := p.journal ++ [e] }) :
    Meets (c.judge site target.2 part) I Any (c.Meeting root gs) := by
  refine meets_judge hconsulted ?_ fun hnone hsingle p hp e he _ => ?_
  · -- An evaluation that fails is no configuration error.
    intro text reason p hp e he hconf
    cases he
    cases hconf
  · refine hlacks e p ⟨target, ht, a, part, hpart, ?_, hnone, ?_⟩ hp
    · simpa using hsingle
    · cases he
      rfl

theorem meeting_checkConstraint (harrives : c.Arrives root gs x m o) (hx : s.object = some x)
    (group : TypeName) (value : Value) (path : Path) (b : BoundConstraint) :
    Meets (c.checkConstraint s group value path b) c.Faithful Any (c.Meeting root gs) := by
  refine meets_checkConstraint_of (fun _ p hp => ⟨hp.coherent, hp.defaults⟩) ?_
    fun p hp _ => ⟨hp.coherent, hp.defaults⟩
  refine meets_evaluateBound_of (fun t ht a part hpart => meeting_judge ht hpart ?_ ?_)
    fun p _ hp => ⟨⟨hp.1.coherent, hp.1.defaults⟩, hp.2⟩
  · exact fun e p hlacks hp => .evaluator harrives (hx ▸ hp.2) hlacks
  · exact fun p e _ hp => ⟨⟨hp.1.coherent, hp.1.defaults⟩, List.mem_append_left _ hp.2⟩

section

variable (hproviders : ∀ type d, c.registry.get? type = some d → d.provider = none)

include hproviders

theorem meeting_runGroup (harrives : c.Arrives root gs x s.metadata o) (hx : s.object = some x)
    {group : TypeName} (hruns : o.Runs group) :
    Meets (c.runGroup s group) c.Faithful Any (c.Meeting root gs) := by
  have hchecks : KeptByChecks c s c.Faithful (c.Meeting root gs) (fun _ => True) fun _ => True := by
    refine ⟨fun type m hm => ?_, fun g b _ _ => ?_, fun g _ => ?_⟩
    · obtain rfl : m.type = type := (Metadata.sources hm).1
      have hprovider := Metadata.hasProvider_eq_false hm (hproviders _)
      exact ((faithful_defaultMeaning hm hprovider s.object).haltsBy fun _ _ => False.elim).any
    · exact meets_checkBound_of fun path value _ => meeting_checkConstraint harrives hx g value path b
    · refine meets_markProcessed fun p q hp hm => ⟨?_, ?_⟩
      · exact hm.memory ▸ hp.coherent
      · exact hm.defaults ▸ hp.defaults
  refine (Meets.record fun p hp => ⟨hp.coherent, hp.defaults⟩).next fun _ => hchecks.walk ?_
    (fun _ _ => trivial) fun _ _ => trivial
  intro hdefault type htype
  obtain rfl : group = TypeName.defaultGroup := by simpa [TypeName.isDefault] using hdefault
  refine (faithful_metadataOf type).haltsBy ?_
  rintro _ q ⟨e, rfl, he⟩ _ ⟨⟩ -
  exact .above harrives hruns htype he

/-- An order runs on an object that the validation has come to, given what its cascades meet. -/
theorem meeting_runOrder (hs : c.Knows s) (harrives : c.Arrives root gs x s.metadata o)
    (hx : s.object = some x) {visit : CascadeStep → Run Unit}
    (hvisit : ∀ group, o.Runs group → ∀ r ∈ c.references x,
      Meets (visit (r.step s.path group)) c.Faithful Any (c.Meeting root gs)) :
    Meets (c.runOrder o (c.runGroup s) (c.runCascades visit s)) c.Faithful Any
      (c.Meeting root gs) := by
  refine meets_runOrder_of (fun g hg => meeting_runGroup hproviders harrives hx hg) fun g hg => ?_
  unfold Call.runCascades
  rw [if_neg (by simp [hs.whole]), hs.cascade_eq hx]
  refine meets_each fun step hstep => ?_
  obtain ⟨r, hr, rfl⟩ := List.mem_map.1 hstep
  exact hvisit g hg r hr

end

/-! ### Getting ready -/

section

variable {type : TypeName} {E : Halt → Progress → Prop} {order : Except Error Order}

/-- Metadata and an order are looked up, or the call ends with what is not ready. -/
theorem meets_lookup {α : Type} {expand : Expanding Order} {f : Metadata → Order → Run α}
    {Q : α → Prop} (hexpand : Expanding.Steady c.registry expand)
    (hunready : ∀ e p, c.prepare type (Expanding.answer expand) = .error e → E (.failed e) p)
    (hf : ∀ m o, c.Assembles type m → Expanding.answer expand = .ok o →
      Meets (f m o) c.Faithful Q E) :
    Meets (c.metadataOf type >>= fun m => Run.expanding expand >>= f m) c.Faithful Q E := by
  refine ((faithful_metadataOf type).haltsBy ?_).bind fun m hm =>
    ((faithful_expanding hexpand).haltsBy ?_).bind (hf m · hm)
  · rintro _ q ⟨e, rfl, he⟩
    exact hunready e q (Metadata.prepare_of_assemble he _)
  · rintro _ q ⟨e, rfl, he⟩
    exact hunready e q (he ▸ Metadata.prepare_of_order hm)

variable (hproviders : ∀ type d, c.registry.get? type = some d → d.provider = none)

include hproviders

/-- An order runs on a subject for which all is ready, or the call ends with what is not. -/
theorem meets_runSubject_of (hm : c.Assembles type s.metadata) (ho : order = .ok o)
    (hunready : ∀ e p, c.prepare type order = .error e → E (.failed e) p)
    {visit : CascadeStep → Run Unit}
    (hrun : c.prepare type order = .ok (s.metadata, o) →
      Meets (c.runOrder o (c.runGroup s) (c.runCascades visit s)) c.Faithful Any E) :
    Meets (c.runSubject visit s o) c.Faithful
      (fun _ => c.prepare type order = .ok (s.metadata, o)) E := by
  subst ho
  have hprepare : c.prepare type (.ok o) = (s.metadata.fit o).map fun _ => (s.metadata, o) :=
    Metadata.prepare_of_fit hm
  have hself : c.Assembles s.metadata.type s.metadata := (Metadata.sources hm).1.symm ▸ hm
  have hprovider := Metadata.hasProvider_eq_false hm (hproviders _)
  refine ((faithful_requireFit hself hprovider o).haltsBy ?_).bind fun _ hfit => ?_
  · rintro _ q ⟨e, rfl, he⟩
    exact hunready e q (by rw [hprepare, he]; rfl)
  · have hready : c.prepare type (.ok o) = .ok (s.metadata, o) := by
      rw [hprepare, hfit]
      rfl
    exact (hrun hready).mono fun _ _ => hready

/-- A validation comes to its end only if all is ready, and ends with what is not. -/
theorem meets_validate
    (hunready : ∀ e p, c.prepareRoot root gs = .error e → E (.failed e) p)
    (hrun : ∀ m o, c.prepareRoot root gs = .ok (m, o) → c.Assembles (c.store.typeOf root) m →
      let s : Subject := { object := some root, metadata := m, path := .root }
      Meets (c.runOrder o (c.runGroup s) (c.runCascades c.visit s)) c.Faithful Any E) :
    Meets (c.validate root gs) c.Faithful (fun _ => ∃ ready, c.prepareRoot root gs = .ok ready)
      E := by
  refine meets_lookup (Order.steady_ofGroups _ _) hunready fun m o hm ho => ?_
  refine (meets_runSubject_of hproviders hm ho hunready fun hready => hrun m o hready hm).bind ?_
  exact fun _ hready => Meets.get.any.next fun _ => .pure ⟨_, hready⟩

/-- Where something is not ready, that is what a validation ends with, whatever it would look at. -/
theorem validate_of_unready {e : Error}
    (h : c.prepareRoot root gs = .error e) {p : Progress} (hp : c.Faithful p) :
    ((c.validate root gs).exec p).1 = .error (.failed e) := by
  have hmeets : Meets (c.validate root gs) c.Faithful
      (fun _ => ∃ ready, c.prepareRoot root gs = .ok ready) fun halt _ => halt = .failed e := by
    refine meets_validate hproviders (fun e' _ he' => ?_) fun m o hready => ?_
    · rw [Except.error.inj (he'.symm.trans h)]
    · cases hready.symm.trans h
  have hend := hmeets p hp
  revert hend
  cases (c.validate root gs).exec p with
  | mk a q =>
    cases a with
    | ok vs =>
      rintro ⟨-, ready, hready⟩
      cases hready.symm.trans h
    | error halt => exact congrArg Except.error

/-! ### Cascades -/

/-- A cascade out of an object that the validation has come to. -/
theorem meeting_cascade : ∀ (depth : Nat) {x : ObjectId} {m : Metadata} {o : Order}
    {group : TypeName} {r : Reference} (path : Path), c.Arrives root gs x m o → o.Runs group →
    r ∈ c.references x →
    Meets (c.cascade depth (r.step path group)) c.Faithful Any (c.Meeting root gs)
  | 0, _, _, _, _, _, _, _, _, _ => fun _ _ _ he => nomatch he
  | depth + 1, x, m, o, group, r, path, harrives, hruns, hr => by
    have hunready : ∀ e (p : Progress), c.prepareTarget r group = .error e →
        c.Meeting root gs (.failed e) p := by
      rintro e p he _ ⟨⟩ -
      exact .target harrives hruns hr he
    unfold Call.cascade
    refine meets_isStopped.next fun _ => Meets.get.any.next fun _ => .ite ?_ .unit
    refine meets_lookup (Order.steady_ofGroup _ _ _) hunready fun m' o' hm' ho' => ?_
    refine Meets.get.any.next fun _ => .ite (meets_whileOnChain (fun p _ hp => ⟨hp.coherent,
      hp.defaults⟩) (fun _ _ _ => id) _ ?_) .unit
    refine (meets_runSubject_of hproviders hm' ho' hunready fun hready => ?_).any
    have harrives' := harrives.step hruns hr hready
    have hknows : c.Knows { object := some r.target, metadata := m', path := r.place path } :=
      ⟨⟨r.target, rfl, hm'⟩, rfl⟩
    exact meeting_runOrder hproviders hknows harrives' rfl fun group' hruns' r' hr' =>
      meeting_cascade depth _ harrives' hruns' hr'

/-- A validation that ends with a configuration error was not ready, or it has met the error on its
way. -/
theorem meeting_validate : Meets (c.validate root gs) c.Faithful Any fun halt q => ∀ e,
    halt = .failed e → e.isConfiguration →
    c.prepareRoot root gs = .error e ∨ c.Encounters root gs q.journal e := by
  refine (meets_validate hproviders ?_ fun m o hready hm => ?_).any
  · rintro e q he _ ⟨⟩ -
    exact .inl he
  have harrives : c.Arrives root gs root m o := .root hready
  have hknows : c.Knows { object := some root, metadata := m, path := .root } :=
    ⟨⟨root, rfl, hm⟩, rfl⟩
  refine (meeting_runOrder hproviders hknows harrives rfl fun group hruns r hr => ?_).haltsBy
    fun _ _ h e he hconf => .inr (h e he hconf)
  exact meeting_cascade hproviders c.depth _ harrives hruns hr

end

end Call

/-- What ended a call before its time, if anything did. -/
def Report.halt? {α : Type} (report : Report α) : Option Halt :=
  match report.answer with
  | .ok _ => none
  | .error halt => some halt

theorem Report.answer_of_halt? {α : Type} {report : Report α} {halt : Halt}
    (h : report.halt? = some halt) : report.answer = .error halt := by
  unfold halt? at h
  split at h
  · cases h
  · next hanswer => rw [hanswer, Option.some.inj h]

namespace Validator

open Call

/-- Where no provider chooses a default group, a validation that ends with a configuration error has met
it on its way, or it is what every validation of an object of the type for the groups ends with, whatever
the object is like, whichever store and evaluators there are, and whatever is remembered. -/
theorem validate_configuration {v : Validator}
    (hv : v.memory.Coherent v.registry v.config.methodRules)
    (hproviders : ∀ type d, v.registry.get? type = some d → d.provider = none) {x : ObjectId}
    {gs : List TypeName} {e : Error} (h : (v.validate x gs).answer = .error (.failed e))
    (he : e.isConfiguration) :
    (v.callOn x).Encounters x gs (v.validate x gs).journal e ∨
    ∀ w : Validator, w.registry = v.registry → w.config.methodRules = v.config.methodRules →
      w.memory.Coherent v.registry v.config.methodRules → ∀ y,
      w.store.typeOf y = v.store.typeOf x → (w.validate y gs).answer = .error (.failed e) := by
  have hstart : (v.callOn x).Faithful (startOf v.memory x) := ⟨hv, fun _ _ _ h => nomatch h⟩
  obtain ⟨q, hexec, hjournal⟩ := v.exec_validate x gs
  rw [h] at hexec
  rcases (meeting_validate hproviders).halt hexec hstart e rfl he with hunready | hmet
  · refine .inr fun w hregistry hrules hw y htype => ?_
    rw [← hregistry, ← hrules] at hw
    have hstart' : (w.callOn y).Faithful (startOf w.memory y) := ⟨hw, fun _ _ _ h => nomatch h⟩
    have hunready' : Metadata.prepare w.registry w.config.methodRules (w.store.typeOf y)
        (Order.ofRequest w.registry gs) = .error e := by
      rw [hregistry, hrules, htype]
      exact hunready
    have hproviders' : ∀ type d, w.registry.get? type = some d → d.provider = none := by
      rw [hregistry]
      exact hproviders
    obtain ⟨q', hexec', -⟩ := w.exec_validate y gs
    have hend := validate_of_unready (c := w.callOn y) hproviders' hunready' hstart'
    rwa [hexec'] at hend
  · exact .inl (hjournal ▸ hmet)

/-- Gauges, whose readings may not be negative. One has a text for a reading. -/
def gauges : Validator where
  registry := [{ name := ⟨"Gauge"⟩, kind := .concrete, fields := [
      ⟨"reading", { own := { constraints := [{ kind := "Min", attributes := [("value", .int 0)] }] } }⟩]
      : TypeDefinition }].foldl Registry.register .initial
  evaluators := Standard.evaluators
  config := {}
  store := ⟨[(⟨"text"⟩, ⟨⟨"Gauge"⟩, [("reading", .str "low")]⟩),
    (⟨"number"⟩, ⟨⟨"Gauge"⟩, [("reading", .int 5)]⟩)]⟩
  memory := {}

theorem gauges.unprovided (type : TypeName) (d : TypeDefinition)
    (h : gauges.registry.get? type = some d) : d.provider = none := by
  have hall : gauges.registry.definitions.all (·.provider.isNone) = true := by decide +kernel
  simpa using List.all_eq_true.1 hall d (List.mem_of_find?_eq_some h)

/-- The error for the text has been met on the way. But that a class is no group does not depend on the
text: it is what every validation of a gauge for it ends with. -/
theorem validate_configuration_gauges :
    (gauges.callOn ⟨"text"⟩).Encounters ⟨"text"⟩ [] (gauges.validate ⟨"text"⟩ []).journal
      (.noEvaluator "Min" .str) ∧
    ∀ w : Validator, w.registry = gauges.registry →
      w.config.methodRules = gauges.config.methodRules →
      w.memory.Coherent gauges.registry gauges.config.methodRules → ∀ y,
      w.store.typeOf y = ⟨"Gauge"⟩ →
      (w.validate y [⟨"Gauge"⟩]).answer = .error (.failed (.notAGroup ⟨"Gauge"⟩)) := by
  have hmemory : gauges.memory.Coherent gauges.registry gauges.config.methodRules :=
    Memory.coherent_empty _ _
  constructor
  · have hend : (gauges.validate ⟨"text"⟩ []).answer = .error (.failed (.noEvaluator "Min" .str)) :=
      Report.answer_of_halt? (by decide +kernel)
    refine (validate_configuration hmemory gauges.unprovided hend rfl).resolve_right fun hall => ?_
    have hnumber := hall gauges rfl rfl hmemory ⟨"number"⟩ (by decide +kernel)
    have hok : (gauges.validate ⟨"number"⟩ []).halt? = none := by decide +kernel
    simp [Report.halt?, hnumber] at hok
  · have hend : (gauges.validate ⟨"text"⟩ [⟨"Gauge"⟩]).answer =
        .error (.failed (.notAGroup ⟨"Gauge"⟩)) := Report.answer_of_halt? (by decide +kernel)
    refine (validate_configuration hmemory gauges.unprovided hend rfl).resolve_left fun hmet => ?_
    obtain ⟨y, hready⟩ := hmet.ready
    have hunready : ((gauges.callOn ⟨"text"⟩).prepareRoot ⟨"text"⟩ [⟨"Gauge"⟩]).toOption.isNone := by
      decide +kernel
    simp [hready, Except.toOption] at hunready

/-- Of two objects of one type one fails with a configuration error, and nothing is wrong with the
other. -/
theorem validate_apart :
    gauges.store.typeOf ⟨"text"⟩ = gauges.store.typeOf ⟨"number"⟩ ∧
    (∀ type d, gauges.registry.get? type = some d → d.provider = none) ∧
    (gauges.validate ⟨"text"⟩ []).answer = .error (.failed (.noEvaluator "Min" .str)) ∧
    (Error.noEvaluator "Min" .str).isConfiguration ∧
    (gauges.validate ⟨"number"⟩ []).answer = .ok [] := by
  have hnumber : (gauges.validate ⟨"number"⟩ []).answer.toOption.map (·.isEmpty) = some true := by
    decide +kernel
  obtain ⟨vs, hvs, hempty⟩ := Option.map_eq_some_iff.1 hnumber
  obtain rfl : vs = [] := List.isEmpty_iff.1 hempty
  exact ⟨by decide +kernel, gauges.unprovided, Report.answer_of_halt? (by decide +kernel), rfl,
    toOption_eq_some hvs⟩

end Validator

end ObjectValidation
