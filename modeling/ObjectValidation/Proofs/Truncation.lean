import ObjectValidation.Proofs.Operations
import ObjectValidation.Proofs.Outcome
/-!
# Calls that end with the first violation

A call that is to end with the first violation does what the same call does otherwise, and breaks off.
`Truncates` is the judgement that one computation breaks off another one in this way: started where
nothing has been found, it does the same if nothing is found, and else it comes to its end with no more
than the other one finds and does first. A sequence of computations is truncated part by part, as long
as what follows a part does nothing once something has been found (`Rests`).

For an operation this means that its answer and its calls of evaluators and providers are the first
ones of the full run, and that it fails only where the full run does (`perform_failFast`).
-/

namespace ObjectValidation

open Run

/-- Whether the second progress has found and noted all that the first one has, in the same order. -/
structure Progress.Precedes (p q : Progress) : Prop where
  violations : p.violations <+: q.violations
  journal : p.journal <+: q.journal

theorem Progress.Precedes.refl (p : Progress) : p.Precedes p := ⟨List.prefix_refl _, List.prefix_refl _⟩

theorem Progress.Precedes.trans {p q r : Progress} (h : p.Precedes q) (h' : q.Precedes r) :
    p.Precedes r := ⟨h.violations.trans h'.violations, h.journal.trans h'.journal⟩

namespace Run

variable {α β : Type}

/-- The computation takes nothing back, even where it ends the call. -/
def Grows (x : Run α) : Prop := ∀ p : Progress, p.Precedes (x.exec p).2

/-- The computation finds nothing and takes nothing back. -/
def Silent (x : Run α) : Prop :=
  ∀ p : Progress, Meets x (fun q => q.violations = p.violations ∧ p.journal <+: q.journal) Any
    fun _ q => q.violations = p.violations ∧ p.journal <+: q.journal

/-- Once something has been found, the computation comes to its end and neither finds nor notes
anything. -/
def Rests (x : Run α) : Prop :=
  ∀ p : Progress, p.violations ≠ [] →
    ∃ a q, x.exec p = (.ok a, q) ∧ q.violations = p.violations ∧ q.journal = p.journal

/-- The second computation breaks off the first one where something has been found, of which `P` is
so. -/
structure Truncates (P : List Event → List Violation → Prop) (x y : Run α) : Prop where
  grows : Grows x
  cut : ∀ p : Progress, p.violations = [] →
    (y.exec p = x.exec p ∧ (x.exec p).2.violations = []) ∨
    ∃ a q, y.exec p = (.ok a, q) ∧ q.violations ≠ [] ∧ P q.journal q.violations ∧
      q.Precedes (x.exec p).2

variable {P : List Event → List Violation → Prop}

/-- What follows a computation takes back nothing of what that has come to. -/
theorem precedes_bind {x : Run α} {f : α → Run β} (hf : ∀ a, Grows (f a)) (p : Progress) :
    (x.exec p).2.Precedes ((x >>= f).exec p).2 := by
  rw [exec_bind]
  cases x.exec p with
  | mk a q =>
    cases a with
    | error e => exact .refl _
    | ok a => exact hf a q

theorem Grows.bind {x : Run α} {f : α → Run β} (hx : Grows x) (hf : ∀ a, Grows (f a)) :
    Grows (x >>= f) := fun p => (hx p).trans (precedes_bind hf p)

/-! ### Silence -/

theorem Silent.same {x : Run α} (h : Silent x) (p : Progress) :
    (x.exec p).2.violations = p.violations ∧ p.journal <+: (x.exec p).2.journal :=
  (h p).ends ⟨rfl, List.prefix_refl _⟩

theorem Silent.grows {x : Run α} (h : Silent x) : Grows x := fun p =>
  ⟨(h.same p).1 ▸ List.prefix_refl _, (h.same p).2⟩

theorem Silent.truncates {x : Run α} (h : Silent x) : Truncates P x x :=
  ⟨h.grows, fun p hp => .inl ⟨rfl, (h.same p).1.trans hp⟩⟩

theorem Silent.pure (a : α) : Silent (Pure.pure a) := fun _ => .pure trivial

theorem Silent.get : Silent (MonadState.get : Run Progress) := fun _ => Meets.get.any

theorem Silent.fail (e : Error) : Silent (Run.fail e : Run α) := fun _ => .fail fun _ => id

theorem Silent.record (e : Event) : Silent (Run.record e) := fun _ =>
  .record fun _ h => ⟨h.1, h.2.trans (List.prefix_append _ _)⟩

theorem Silent.bind {x : Run α} {f : α → Run β} (hx : Silent x) (hf : ∀ a, Silent (f a)) :
    Silent (x >>= f) := fun p => (hx p).next fun a => hf a p

/-! ### Rest -/

theorem Rests.pure (a : α) : Rests (Pure.pure a) := fun p _ => ⟨a, p, rfl, rfl, rfl⟩

theorem Rests.get : Rests (MonadState.get : Run Progress) := fun p _ => ⟨p, p, rfl, rfl, rfl⟩

theorem Rests.update {f : Progress → Progress}
    (h : ∀ p, (f p).violations = p.violations ∧ (f p).journal = p.journal) :
    Rests (modify f : Run Unit) := fun p _ => ⟨(), f p, rfl, h p⟩

theorem Rests.bind {x : Run α} {f : α → Run β} (hx : Rests x) (hf : ∀ a, Rests (f a)) :
    Rests (x >>= f) := by
  intro p hp
  obtain ⟨a, q, ha, hv, hj⟩ := hx p hp
  obtain ⟨b, r, hb, hv', hj'⟩ := hf a q (hv ▸ hp)
  exact ⟨b, r, exec_bind_ok.2 ⟨a, q, ha, hb⟩, hv'.trans hv, hj'.trans hj⟩

theorem Rests.ite {b : Prop} [Decidable b] {x y : Run α} (hx : Rests x) (hy : Rests y) :
    Rests (if b then x else y) := by
  split
  · exact hx
  · exact hy

/-! ### Truncation -/

theorem Truncates.pure (a : α) : Truncates P (Pure.pure a) (Pure.pure a) := (Silent.pure a).truncates

/-- Behind a computation that has found nothing so far, it is what follows that may be broken off. -/
theorem cut_behind {x : Run α} {f g : α → Run β} {p : Progress}
    (hnil : (x.exec p).2.violations = []) (hf : ∀ a, Truncates P (f a) (g a)) :
    ((x >>= g).exec p = (x >>= f).exec p ∧ ((x >>= f).exec p).2.violations = []) ∨
    ∃ a q, (x >>= g).exec p = (.ok a, q) ∧ q.violations ≠ [] ∧ P q.journal q.violations ∧
      q.Precedes ((x >>= f).exec p).2 := by
  rw [exec_bind, exec_bind]
  revert hnil
  cases x.exec p with
  | mk a q =>
    cases a with
    | error e => exact fun hnil => .inl ⟨rfl, hnil⟩
    | ok a => exact fun hnil => (hf a).cut q hnil

/-- What follows a part has to rest, for the part may have been broken off. -/
theorem Truncates.bind {x y : Run α} {f g : α → Run β} (hx : Truncates P x y)
    (hf : ∀ a, Truncates P (f a) (g a)) (hg : ∀ a, Rests (g a)) :
    Truncates P (x >>= f) (y >>= g) := by
  refine ⟨hx.grows.bind fun a => (hf a).grows, fun p hp => ?_⟩
  rcases hx.cut p hp with ⟨hsame, hnil⟩ | ⟨a, q, hy, hq, hP, hprec⟩
  · rw [exec_bind y, hsame, ← exec_bind]
    exact cut_behind hnil hf
  · obtain ⟨b, r, hb, hv, hj⟩ := hg a q hq
    refine .inr ⟨b, r, exec_bind_ok.2 ⟨a, q, hy, hb⟩, hv ▸ hq, by rwa [hv, hj], ?_⟩
    exact .trans ⟨hv ▸ hprec.violations, hj ▸ hprec.journal⟩ (precedes_bind (fun a => (hf a).grows) p)

/-- A part that finds nothing is not broken off, so what follows it need not rest. -/
theorem Silent.next {x : Run α} {f g : α → Run β} (hx : Silent x)
    (hf : ∀ a, Truncates P (f a) (g a)) : Truncates P (x >>= f) (x >>= g) :=
  ⟨hx.grows.bind fun a => (hf a).grows, fun p hp => cut_behind ((hx.same p).1.trans hp) hf⟩

theorem Truncates.ite {b : Prop} [Decidable b] {x y x' y' : Run α} (hx : Truncates P x y)
    (hx' : Truncates P x' y') : Truncates P (if b then x else x') (if b then y else y') := by
  split
  · exact hx
  · exact hx'

/-- What follows a test that may fail is truncated if it has been passed. -/
theorem Truncates.guard {b : Prop} [Decidable b] {x y : Run α} (e : Error)
    (h : Truncates P x y) :
    Truncates P (if b then Run.fail e >>= fun _ : PUnit => x else x)
      (if b then Run.fail e >>= fun _ : PUnit => y else y) :=
  .ite ((Silent.fail e).next fun _ => h) h

/-- A computation that always comes to its end truncates itself. -/
theorem Truncates.self {x : Run α} (hx : Grows x) (h : ∀ p, ∃ a q, x.exec p = (.ok a, q)) :
    Truncates (fun _ _ => True) x x := by
  refine ⟨hx, fun p _ => ?_⟩
  obtain ⟨a, q, hq⟩ := h p
  rw [hq]
  by_cases hnil : q.violations = []
  · exact .inl ⟨rfl, hnil⟩
  · exact .inr ⟨a, q, rfl, hnil, trivial, .refl q⟩

/-- What is known of everything that the second computation finds is so where it breaks off. -/
theorem Truncates.knowing {Q : List Event → List Violation → Prop} {x y : Run α}
    (h : Truncates P x y) (hQ : ∀ (p : Progress) a q, p.violations = [] → y.exec p = (.ok a, q) →
      q.violations ≠ [] → Q q.journal q.violations) : Truncates Q x y := by
  refine ⟨h.grows, fun p hp => (h.cut p hp).imp_right ?_⟩
  rintro ⟨a, q, hy, hq, -, hprec⟩
  exact ⟨a, q, hy, hq, hQ p a q hp hy hq, hprec⟩

end Run

namespace Call

/-- The call, to end with the first violation. -/
def brief (c : Call) : Call := { c with config := { c.config with failFast := true } }

variable {c : Call} {α β : Type} {P : List Event → List Violation → Prop}

theorem stops_brief {p : Progress} (hp : p.violations ≠ []) : c.brief.stops p := by
  simpa [stops, brief] using hp

/-! ### Resting once something has been found -/

theorem rests_stopped {f : Bool → Run α} (h : Rests (f true)) : Rests (c.brief.isStopped >>= f) := by
  intro p hp
  rw [exec_bind, exec_isStopped, stops_brief hp]
  exact h p hp

theorem rests_each {xs : List α} {step : α → Run Unit} : Rests (c.brief.each xs step) := fun p hp =>
  ⟨(), p, exec_each_of_stops (stops_brief hp), rfl, rfl⟩

theorem rests_violationCount : Rests violationCount := Rests.get.bind fun _ => .pure _

theorem rests_checkPosition {s : Subject} {bs : List BoundConstraint} :
    ∀ position, Rests (c.brief.checkPosition s bs position)
  | [] => .pure _
  | _ :: rest => by
    have hgroup {g : TypeName} : Rests (c.brief.checkGroup s bs g) := rests_stopped (.pure _)
    exact hgroup.bind fun _ => (rests_checkPosition rest).bind fun _ => .pure _

theorem rests_checkPositions {s : Subject} {bs : List BoundConstraint} :
    ∀ positions, Rests (c.brief.checkPositions s bs positions)
  | [] => .pure _
  | position :: rest =>
    (rests_checkPosition position).bind fun _ => .ite (rests_checkPositions rest) (.pure _)

theorem rests_runPositions {constraints cascades : TypeName → Run Unit} :
    ∀ positions, Rests (c.brief.runPositions constraints cascades positions)
  | [] => .pure _
  | _ :: rest => by
    refine rests_violationCount.bind fun before => rests_each.bind fun _ => ?_
    exact rests_violationCount.bind fun n => .ite (rests_runPositions rest) (.pure _)

/-! ### Loops -/

section

variable (hc : c.config.failFast = false)

include hc

/-- Where nothing has been found, neither call has found all it looks for. -/
theorem truncates_unstopped {f g : Bool → Run α} (h : Truncates P (f false) (g false)) :
    Truncates P (c.isStopped >>= f) (c.brief.isStopped >>= g) := by
  have hfull (p : Progress) : (c.isStopped >>= f).exec p = (f false).exec p := by
    rw [exec_bind, exec_isStopped, stops_eq_false_of_full hc]
  refine ⟨fun p => hfull p ▸ h.grows p, fun p hp => ?_⟩
  rw [hfull, exec_bind, exec_isStopped, stops_eq_false_of_nil hp]
  exact h.cut p hp

theorem truncates_unless {x y : Run Unit} (h : Truncates P x y) :
    Truncates P (c.isStopped >>= fun stopped => if stopped then pure () else x)
      (c.brief.isStopped >>= fun stopped => if stopped then pure () else y) :=
  truncates_unstopped hc h

theorem truncates_each {step step' : α → Run Unit} : ∀ {xs : List α},
    (∀ x ∈ xs, Truncates P (step x) (step' x)) → Truncates P (c.each xs step) (c.brief.each xs step')
  | [], _ => .pure ()
  | x :: xs, h => (truncates_unless hc (h x (by simp))).bind
    (fun _ => truncates_each fun y hy => h y (by simp [hy])) fun _ => rests_each

theorem truncates_allHold {check check' : α → Run Bool} {xs : List α}
    (h : ∀ x ∈ xs, Truncates P (check x) (check' x)) :
    Truncates P (c.allHold xs check) (c.brief.allHold xs check') := by
  have hrests : ∀ (xs : List α) (ok : Bool), Rests (xs.foldlM (fun ok x => do
      if ← c.brief.isStopped then return ok
      let holds ← check' x
      return ok && holds) ok) := by
    intro xs
    induction xs with
    | nil => exact fun ok => .pure ok
    | cons x xs ih =>
      intro ok
      rw [List.foldlM_cons]
      exact (rests_stopped (.pure ok)).bind ih
  -- The rounds ahead are truncated whatever the rounds behind have answered.
  suffices hloop : ∀ ok : Bool, Truncates P
      (xs.foldlM (fun ok x => do
        if ← c.isStopped then return ok
        let holds ← check x
        return ok && holds) ok)
      (xs.foldlM (fun ok x => do
        if ← c.brief.isStopped then return ok
        let holds ← check' x
        return ok && holds) ok) from hloop true
  induction xs with
  | nil => exact fun ok => .pure ok
  | cons x xs ih =>
    intro ok
    rw [List.foldlM_cons, List.foldlM_cons]
    refine .bind (truncates_unstopped hc ?_) (ih fun y hy => h y (by simp [hy])) (hrests xs)
    exact (h x (by simp)).bind (fun holds => .pure (ok && holds)) fun _ => .pure _

end

/-! ### Checks -/

theorem silent_judge (site : EvaluationSite) (value : Value) (k : Constraint) :
    Silent (c.judge site value k) := fun _ =>
  meets_judge (fun _ _ _ h => ⟨h.1, h.2.trans (List.prefix_append _ _)⟩) (fun _ _ _ => id)
    fun _ _ _ => id

/-- An evaluation reports all that it finds at once, so it is not broken off. -/
theorem truncates_evaluate (s : Subject) (k : Constraint) (value : Value) (path : Path) :
    Truncates (fun _ _ => True) (c.evaluate s k value path) (c.brief.evaluate s k value path) := by
  have hfailing (site : EvaluationSite) : Silent (k.failing (c.judge site value)) := fun p =>
    meets_failing k fun _ part _ => silent_judge site value part p
  refine (hfailing _).next fun failing => .self (fun p => ?_) fun p => ?_
  · rw [exec_bind, reportAll_exec]
    exact ⟨Violation.prefix_addAll _ _, List.prefix_append _ _⟩
  · rw [exec_bind, reportAll_exec]
    exact ⟨_, _, rfl⟩

section

variable (hc : c.config.failFast = false)

include hc

theorem truncates_checkConstraint (s : Subject) (group : TypeName) (value : Value) (path : Path)
    (b : BoundConstraint) : Truncates (fun _ _ => True) (c.checkConstraint s group value path b)
      (c.brief.checkConstraint s group value path b) := by
  have hbound : Truncates (fun _ _ => True) (c.evaluateBound s value path b)
      (c.brief.evaluateBound s value path b) := by
    unfold Call.evaluateBound
    split
    · exact truncates_evaluate s b.constraint value path
    · exact truncates_allHold hc fun _ _ => truncates_evaluate s b.constraint _ _
  unfold Call.checkConstraint
  refine .ite (.pure true) (Silent.get.next fun p => .ite (.pure true) ?_)
  refine (Silent.record _).next fun _ => hbound.bind (fun holds => ?_) fun holds => ?_
  · exact .ite (Silent.next (fun _ => .update fun _ => id) fun _ => .pure _) (.pure _)
  · exact .ite (Rests.bind (.update fun _ => ⟨rfl, rfl⟩) fun _ => .pure _) (.pure _)

end

theorem silent_metadataOf (type : TypeName) : Silent (c.metadataOf type) := fun _ =>
  meets_metadataOf_any (fun _ _ => id) (fun _ _ => id) type

theorem silent_expanding (x : Expanding α) : Silent (Run.expanding x) := fun _ =>
  meets_expanding (fun _ _ => id) (fun _ _ => id) x

theorem silent_defaultMeaning (object : Option ObjectId) (m : Metadata) :
    Silent (c.defaultMeaning object m) := fun _ =>
  meets_defaultMeaning (fun _ _ => id)
    (fun _ _ _ h => ⟨h.1, h.2.trans (List.prefix_append _ _)⟩) (fun _ _ => id) object m

theorem silent_violationCount : Silent violationCount := Silent.get.bind fun _ => .pure _

theorem silent_markProcessed (s : Subject) (group : TypeName) : Silent (c.markProcessed s group) :=
  fun _ => .ite (.update fun _ => id) .unit

/-! ### Walks and cascades -/

section

variable (hc : c.config.failFast = false)
  (hcheck : ∀ s group value path b, Truncates P (c.checkConstraint s group value path b)
    (c.brief.checkConstraint s group value path b))

include hc hcheck

omit hc in
theorem truncates_checkBound (s : Subject) (group : TypeName) (b : BoundConstraint) :
    Truncates P (c.checkBound s group b) (c.brief.checkBound s group b) := by
  unfold Call.checkBound
  split
  · split
    · exact hcheck s group _ _ b
    · exact hcheck s group _ _ b
    · exact .pure true
  · exact .pure true

theorem truncates_checkAll (s : Subject) (bs : List BoundConstraint) (group : TypeName) :
    Truncates P (c.checkAll s bs group) (c.brief.checkAll s bs group) :=
  truncates_allHold hc fun b _ => truncates_checkBound hcheck s group b

theorem truncates_checkGroup (s : Subject) (bs : List BoundConstraint) (group : TypeName) :
    Truncates P (c.checkGroup s bs group) (c.brief.checkGroup s bs group) :=
  truncates_unstopped hc <| (truncates_checkAll hc hcheck s bs group).bind
    (fun _ => truncates_unstopped hc ((silent_markProcessed s group).next fun _ => .pure _))
    fun _ => rests_stopped (.pure false)

theorem truncates_checkPosition (s : Subject) (bs : List BoundConstraint) :
    ∀ position, Truncates P (c.checkPosition s bs position) (c.brief.checkPosition s bs position)
  | [] => .pure true
  | g :: rest => (truncates_checkGroup hc hcheck s bs g.name).bind
    (fun _ => (truncates_checkPosition s bs rest).bind (fun _ => .pure _) fun _ => .pure _)
    fun _ => (rests_checkPosition rest).bind fun _ => .pure _

theorem truncates_checkPositions (s : Subject) (bs : List BoundConstraint) : ∀ positions,
    Truncates P (c.checkPositions s bs positions) (c.brief.checkPositions s bs positions)
  | [] => .pure ()
  | position :: rest => (truncates_checkPosition hc hcheck s bs position).bind
    (fun _ => .ite (truncates_checkPositions s bs rest) (.pure ()))
    fun _ => .ite (rests_checkPositions rest) (.pure ())

theorem truncates_runRedefined (s : Subject) (m : Metadata) (bs : List BoundConstraint) :
    Truncates P (c.runRedefined s m bs) (c.brief.runRedefined s m bs) :=
  (silent_defaultMeaning s.object m).next fun _ =>
    (truncates_each hc fun q _ => truncates_checkPositions hc hcheck s bs q.positions).bind
      (fun _ => truncates_unless hc (silent_markProcessed s _).truncates)
      fun _ => rests_stopped (.pure ())

theorem truncates_runHierarchy (s : Subject) : ∀ (types covered : List TypeName),
    Truncates P (c.runHierarchy s covered types) (c.brief.runHierarchy s covered types)
  | [], _ => .pure ()
  | type :: above, covered => by
    unfold Call.runHierarchy
    refine (silent_metadataOf type).next fun m => .ite (truncates_runRedefined hc hcheck s m _) ?_
    exact (truncates_checkAll hc hcheck s _ _).bind
      (fun _ => truncates_unless hc <| (silent_markProcessed s _).next fun _ =>
        truncates_runHierarchy s above _)
      fun _ => rests_stopped (.pure ())

theorem truncates_runGroup (s : Subject) (group : TypeName) :
    Truncates P (c.runGroup s group) (c.brief.runGroup s group) :=
  (Silent.record _).next fun _ => .ite (truncates_runHierarchy hc hcheck s _ _) <|
    (truncates_checkAll hc hcheck s _ group).bind
      (fun _ => truncates_unless hc (silent_markProcessed s group).truncates)
      fun _ => rests_stopped (.pure ())

omit hcheck in
theorem truncates_runPositions {constraints constraints' cascades cascades' : TypeName → Run Unit}
    (h : ∀ g, Truncates P (constraints g) (constraints' g))
    (h' : ∀ g, Truncates P (cascades g) (cascades' g)) : ∀ positions,
    Truncates P (c.runPositions constraints cascades positions)
      (c.brief.runPositions constraints' cascades' positions)
  | [] => .pure ()
  | position :: rest => by
    unfold Call.runPositions
    refine silent_violationCount.next fun before => .bind ?_ (fun _ => ?_) fun _ => ?_
    · exact truncates_each hc fun g _ => (h g.name).bind
        (fun _ => truncates_unless hc (h' g.name)) fun _ => rests_stopped (.pure ())
    · exact silent_violationCount.next fun n => .ite (truncates_runPositions h h' rest) (.pure ())
    · exact rests_violationCount.bind fun n => .ite (rests_runPositions rest) (.pure ())

omit hcheck in
theorem truncates_runOrder {constraints constraints' cascades cascades' : TypeName → Run Unit}
    (h : ∀ g, Truncates P (constraints g) (constraints' g))
    (h' : ∀ g, Truncates P (cascades g) (cascades' g)) (o : Order) :
    Truncates P (c.runOrder o constraints cascades) (c.brief.runOrder o constraints' cascades') :=
  (truncates_each hc fun g _ => h g.name).bind
    (fun _ => (truncates_each hc fun g _ => h' g.name).bind
      (fun _ => truncates_each hc fun q _ => truncates_runPositions hc h h' q.positions)
      fun _ => rests_each)
    fun _ => rests_each.bind fun _ => rests_each

theorem truncates_runSubject {visit visit' : CascadeStep → Run Unit}
    (h : ∀ step, Truncates P (visit step) (visit' step)) (s : Subject) (o : Order) :
    Truncates P (c.runSubject visit s o) (c.brief.runSubject visit' s o) := by
  have hfit : Silent (c.requireFit s o) := fun p =>
    meets_requireFit (fun _ _ => id) (silent_defaultMeaning s.object s.metadata p)
  exact hfit.next fun _ => truncates_runOrder hc (truncates_runGroup hc hcheck s)
    (fun g => .ite (.pure ()) (truncates_each hc fun step _ => h step)) o

omit hc hcheck in
theorem Truncates.whileOnChain {x y : Run Unit} (h : Truncates P x y) (id : ObjectId) :
    Truncates P (Call.whileOnChain id x) (Call.whileOnChain id y) := by
  refine ⟨fun p => ?_, fun p hp => ?_⟩
  · have hgrows := h.grows { p with chain := id :: p.chain }
    rw [exec_whileOnChain]
    exact ⟨hgrows.violations, hgrows.journal⟩
  · rw [exec_whileOnChain, exec_whileOnChain]
    rcases h.cut { p with chain := id :: p.chain } hp with ⟨hsame, hnil⟩ | ⟨a, q, hy, hq, hP, hprec⟩
    · rw [hsame]
      exact .inl ⟨rfl, hnil⟩
    · rw [hy]
      exact .inr ⟨a, _, rfl, hq, hP, hprec.violations, hprec.journal⟩

theorem truncates_cascade : ∀ (depth : Nat) (step : CascadeStep),
    Truncates P (c.cascade depth step) (c.brief.cascade depth step)
  | 0, _ => ⟨fun p => .refl p, fun p hp => .inl ⟨rfl, hp⟩⟩
  | depth + 1, step => by
    unfold Call.cascade
    refine truncates_unstopped hc (Silent.get.next fun p => .ite ?_ (.pure ()))
    refine (silent_metadataOf _).next fun m => (silent_expanding _).next fun order => ?_
    refine Silent.get.next fun p => .ite (Truncates.whileOnChain ?_ _) (.pure ())
    exact truncates_runSubject hc hcheck (truncates_cascade depth) _ order

/-! ### Operations -/

theorem truncates_visit (step : CascadeStep) : Truncates P (c.visit step) (c.brief.visit step) :=
  truncates_cascade hc hcheck c.depth step

theorem truncates_findings (s : Subject) (o : Order) :
    Truncates P (c.findings s o) (c.brief.findings s o) :=
  (truncates_runSubject hc hcheck (truncates_visit hc hcheck) s o).bind
    (fun _ => Silent.get.next fun _ => .pure _) fun _ => Rests.get.bind fun _ => .pure _

omit hc hcheck in
theorem silent_requireProperty (m : Metadata) (type : TypeName) (name : String) :
    Silent (requireProperty m type name) := fun _ =>
  meets_requireProperty (fun _ _ => id) m type name

omit hc hcheck in
theorem silent_navigate (text : String) (steps : List (Option String × Option Position))
    (object : ObjectId) (path : Path) : Silent (c.navigate text object path steps) := fun p =>
  meets_navigate (fun _ _ => id) (fun type => silent_metadataOf type p) text steps object path

omit hc hcheck in
theorem navigate_brief (text : String) : ∀ (steps : List (Option String × Option Position))
    (object : ObjectId) (path : Path),
    c.brief.navigate text object path steps = c.navigate text object path steps
  | [], _, _ => rfl
  | (none, _) :: _, _, _ => rfl
  | (some name, position) :: rest, object, path => by
    unfold Call.navigate
    simp only [navigate_brief text rest]
    rfl

omit hc hcheck in
theorem silent_orderOf (groups : List TypeName) : Silent (c.orderOf groups) := silent_expanding _

theorem truncates_validate (object : ObjectId) (groups : List TypeName) :
    Truncates P (c.validate object groups) (c.brief.validate object groups) :=
  (silent_metadataOf _).next fun _ => (silent_orderOf groups).next fun o =>
    truncates_findings hc hcheck _ o

theorem truncates_validateProperty (object : ObjectId) (text : String) (groups : List TypeName) :
    Truncates P (c.validateProperty object text groups)
      (c.brief.validateProperty object text groups) := by
  unfold Call.validateProperty
  simp only [navigate_brief]
  split
  · exact (Silent.fail _).truncates
  · next path _ =>
    split
    · exact (Silent.fail _).truncates
    · next property _ =>
      refine (silent_navigate text (stepsOf path.nodes) object .root).next fun reached => ?_
      cases reached with
      | none => exact .pure []
      | some reached =>
        refine (silent_metadataOf _).next fun m => (silent_requireProperty m _ property).next ?_
        exact fun _ => (silent_orderOf groups).next fun o => truncates_findings hc hcheck _ o

theorem truncates_validateValue (type : TypeName) (property : String) (value : Value)
    (groups : List TypeName) : Truncates P (c.validateValue type property value groups)
      (c.brief.validateValue type property value groups) :=
  (silent_metadataOf type).next fun m => (silent_requireProperty m type property).next fun _ =>
    (silent_orderOf groups).next fun o => truncates_findings hc hcheck _ o

omit hcheck in
theorem truncates_runExecutableGroup {run run' : TypeName → Run Unit}
    (h : ∀ g, Truncates P (run g) (run' g)) (object : Option ObjectId) (m : Metadata)
    (group : TypeName) : Truncates P (c.runExecutableGroup object m run group)
      (c.brief.runExecutableGroup object m run' group) :=
  .ite ((silent_defaultMeaning object m).next fun d =>
    truncates_runOrder hc h (fun _ => .pure ()) d.order) (h group)

theorem truncates_checkArguments (s : Subject) (e : ExecutableMetadata) (path : Path)
    (values : List Value) (group : TypeName) :
    Truncates P (c.checkArguments s e path values group)
      (c.brief.checkArguments s e path values group) := by
  refine silent_violationCount.next fun before => .bind ?_ (fun _ => ?_) fun _ => ?_
  · exact truncates_each hc fun (p, value) _ => truncates_each hc fun b _ =>
      (hcheck s group value _ b).bind (fun _ => .pure ()) fun _ => .pure ()
  · refine silent_violationCount.next fun n => .ite (truncates_each hc fun b _ => ?_) (.pure ())
    exact (hcheck s group _ _ b).bind (fun _ => .pure ()) fun _ => .pure ()
  · exact rests_violationCount.bind fun n => .ite rests_each (.pure ())

theorem truncates_checkReturned (s : Subject) (e : ExecutableMetadata) (path : Path) (value : Value)
    (group : TypeName) : Truncates P (c.checkReturned s e path value group)
      (c.brief.checkReturned s e path value group) :=
  (truncates_allHold hc fun b _ => hcheck s group value path b).bind (fun _ => .pure ())
    fun _ => .pure ()

theorem truncates_cascadingOrder {run run' : TypeName → Run Unit}
    (h : ∀ g, Truncates P (run g) (run' g)) (s : Subject) (steps : TypeName → List CascadeStep)
    (o : Order) :
    Truncates P
      (c.runOrder o (c.runExecutableGroup s.object s.metadata run)
          (fun g => c.each (steps g) c.visit) >>= fun _ => return (← get).violations)
      (c.brief.runOrder o (c.brief.runExecutableGroup s.object s.metadata run')
          (fun g => c.brief.each (steps g) c.brief.visit) >>= fun _ => return (← get).violations) :=
  (truncates_runOrder hc (truncates_runExecutableGroup hc h s.object s.metadata)
      (fun _ => truncates_each hc fun step _ => truncates_visit hc hcheck step) o).bind
    (fun _ => Silent.get.next fun _ => .pure _) fun _ => Rests.get.bind fun _ => .pure _

theorem truncates_validateArguments (s : Subject) (e : ExecutableMetadata) (values : List Value)
    (groups : List TypeName) : Truncates P (c.validateArguments s e values groups)
      (c.brief.validateArguments s e values groups) :=
  .guard _ <| .ite (.pure []) <| (silent_orderOf groups).next fun o =>
    truncates_cascadingOrder hc hcheck (truncates_checkArguments hc hcheck s e _ values) s _ o

theorem truncates_validateReturned (s : Subject) (e : ExecutableMetadata) (value : Value)
    (groups : List TypeName) : Truncates P (c.validateReturned s e value groups)
      (c.brief.validateReturned s e value groups) :=
  .ite (.pure []) <| (silent_orderOf groups).next fun o => truncates_cascadingOrder hc hcheck
    (truncates_checkReturned hc hcheck s e _ value) s _ o

omit hc hcheck in
theorem truncates_withExecutable {body body' : Subject → ExecutableMetadata → Run (List Violation)}
    (h : ∀ s e, Truncates P (body s e) (body' s e)) (type : TypeName) (object : Option ObjectId)
    (find : Metadata → Option ExecutableMetadata) :
    Truncates P (c.withExecutable type object find body)
      (c.brief.withExecutable type object find body') := by
  refine (silent_metadataOf type).next fun m => ?_
  cases find m with
  | none => exact .pure []
  | some e => exact h _ e

theorem truncates_body (op : Operation) : Truncates P (op.body c) (op.body c.brief) := by
  cases op with
  | object o gs => exact truncates_validate hc hcheck o gs
  | property o path gs => exact truncates_validateProperty hc hcheck o path gs
  | value type name w gs => exact truncates_validateValue hc hcheck type name w gs
  | arguments o s values gs =>
    exact truncates_withExecutable
      (fun s e => truncates_validateArguments hc hcheck s e values gs) _ _ _
  | returned o s w gs =>
    exact truncates_withExecutable (fun s e => truncates_validateReturned hc hcheck s e w gs) _ _ _
  | constructorArguments type s values gs =>
    exact truncates_withExecutable
      (fun s e => truncates_validateArguments hc hcheck s e values gs) _ _ _
  | constructed type s created gs =>
    exact truncates_withExecutable
      (fun s e => truncates_validateReturned hc hcheck s e (.object created) gs) _ _ _

end

end Call

/-! ### Answers -/

namespace Run

variable {α : Type}

/-- A call that has found nothing before answers all that it has found. -/
def Answers (x : Run (List Violation)) : Prop :=
  ∀ (p : Progress) vs q, p.violations = [] → x.exec p = (.ok vs, q) → vs = q.violations

theorem Answers.nothing : Answers (pure []) := by
  rintro p vs q hp h
  cases h
  exact hp.symm

theorem Answers.found (x : Run α) : Answers (x >>= fun _ => return (← get).violations) := by
  rintro p vs q - h
  obtain ⟨_, r, -, h⟩ := exec_bind_ok.1 h
  cases h
  rfl

theorem Answers.ite {b : Prop} [Decidable b] {x y : Run (List Violation)} (hx : Answers x)
    (hy : Answers y) : Answers (if b then x else y) := by
  split
  · exact hx
  · exact hy

theorem Silent.answers {x : Run α} {f : α → Run (List Violation)} (hx : Silent x)
    (hf : ∀ a, Answers (f a)) : Answers (x >>= f) := by
  rintro p vs q hp h
  obtain ⟨a, r, hr, h⟩ := exec_bind_ok.1 h
  have hsame := (hx.same p).1
  rw [hr] at hsame
  exact hf a r vs q (hsame.trans hp) h

end Run

namespace Call

variable {c : Call}

theorem answers_validateArguments (s : Subject) (e : ExecutableMetadata) (values : List Value)
    (groups : List TypeName) : Answers (c.validateArguments s e values groups) := by
  have hrest (o : Order) := Answers.found <|
    c.runOrder o (c.runExecutableGroup s.object s.metadata
        (c.checkArguments s e (Path.executable e.signature.name) values))
      fun g => c.each (argumentSteps e (Path.executable e.signature.name) values g) c.visit
  exact .ite ((Silent.fail _).answers fun _ => .ite .nothing ((silent_orderOf groups).answers hrest))
    (.ite .nothing ((silent_orderOf groups).answers hrest))

theorem answers_validateReturned (s : Subject) (e : ExecutableMetadata) (value : Value)
    (groups : List TypeName) : Answers (c.validateReturned s e value groups) :=
  .ite .nothing ((silent_orderOf groups).answers fun _ => .found _)

theorem answers_withExecutable {body : Subject → ExecutableMetadata → Run (List Violation)}
    (h : ∀ s e, Answers (body s e)) (type : TypeName) (object : Option ObjectId)
    (find : Metadata → Option ExecutableMetadata) :
    Answers (c.withExecutable type object find body) := by
  refine (silent_metadataOf type).answers fun m => ?_
  cases find m with
  | none => exact .nothing
  | some e => exact h _ e

theorem answers_validateProperty (object : ObjectId) (text : String) (groups : List TypeName) :
    Answers (c.validateProperty object text groups) := by
  have hfail (e : Error) : Answers (Run.fail e) := by
    rintro p vs q - h
    cases h
  unfold Call.validateProperty
  split
  · exact hfail _
  · next path _ =>
    split
    · exact hfail _
    · next property _ =>
      refine (silent_navigate text (stepsOf path.nodes) object .root).answers fun reached => ?_
      cases reached with
      | none => exact .nothing
      | some reached =>
        refine (silent_metadataOf _).answers fun m => (silent_requireProperty m _ property).answers ?_
        exact fun _ => (silent_orderOf groups).answers fun _ => .found _

theorem answers_body (op : Operation) : Answers (op.body c) := by
  cases op with
  | object o gs =>
    exact (silent_metadataOf _).answers fun _ => (silent_orderOf gs).answers fun _ => .found _
  | property o path gs => exact answers_validateProperty o path gs
  | value type name w gs =>
    exact (silent_metadataOf type).answers fun m => (silent_requireProperty m type name).answers
      fun _ => (silent_orderOf gs).answers fun _ => .found _
  | arguments o s values gs =>
    exact answers_withExecutable (fun s e => answers_validateArguments s e values gs) _ _ _
  | returned o s w gs =>
    exact answers_withExecutable (fun s e => answers_validateReturned s e w gs) _ _ _
  | constructorArguments type s values gs =>
    exact answers_withExecutable (fun s e => answers_validateArguments s e values gs) _ _ _
  | constructed type s created gs =>
    exact answers_withExecutable (fun s e => answers_validateReturned s e (.object created) gs) _ _ _

end Call

/-! ### Reports -/

/-- Whether an evaluator or a provider was called. -/
def Event.isCall : Event → Bool
  | .consulted .. => true
  | .asked .. => true
  | _ => false

/-- The calls of evaluators and providers that a report tells of. -/
def Report.calls {α : Type} (r : Report α) : List Event := r.journal.filter Event.isCall

namespace Validator

/-- The validator, to end with the first violation or not. -/
def withFailFast (v : Validator) (failFast : Bool) : Validator :=
  { v with config := { v.config with failFast } }

variable (v : Validator) (op : Operation)

/-- The answer of an operation is what its call has found. -/
theorem answer_eq_violations {vs : List Violation} (h : (v.perform op).answer = .ok vs) :
    vs = (((op.body (op.call v)).exec ((op.call v).start v.memory)).2).violations := by
  rw [v.perform_eq, run_eq] at h
  exact Call.answers_body op _ _ _ rfl (Prod.ext h rfl)

/-- The fast run of an operation is the full run, or is the start of it up to where something is
found. -/
theorem perform_cut {P : List Event → List Violation → Prop}
    (h : let c := op.call (v.withFailFast false); ∀ s group value path b,
      Truncates P (c.checkConstraint s group value path b)
        (c.brief.checkConstraint s group value path b)) :
    let full := (v.withFailFast false).perform op
    let fast := (v.withFailFast true).perform op
    (fast = full ∧ ∀ vs, fast.answer = .ok vs → vs = []) ∨
    ∃ vs, vs ≠ [] ∧ fast.answer = .ok vs ∧ P fast.journal vs ∧ fast.journal <+: full.journal ∧
      ∀ ws, full.answer = .ok ws → vs <+: ws := by
  intro full fast
  let c := op.call (v.withFailFast false)
  let p := c.start v.memory
  have hbrief : op.call (v.withFailFast true) = c.brief := by cases op <;> rfl
  have hfast : fast = (v.withFailFast true).run c.brief (op.body c.brief) :=
    hbrief ▸ (v.withFailFast true).perform_eq op
  have hfull : full = (v.withFailFast false).run c (op.body c) :=
    (v.withFailFast false).perform_eq op
  have htrunc := Call.truncates_body (c := c) (by cases op <;> rfl) h op
  have hanswer {ws : List Violation} (hws : full.answer = .ok ws) :
      ws = ((op.body c).exec p).2.violations := (v.withFailFast false).answer_eq_violations op hws
  rcases htrunc.cut p rfl with ⟨hsame, hnil⟩ | ⟨vs, q, hq, hne, hP, hprec⟩
  · have heq : fast = full := by
      rw [hfast, hfull, run_eq, run_eq]
      exact congrArg (fun o : Except Halt (List Violation) × Progress =>
        (⟨o.1, o.2.memory, o.2.journal⟩ : Report _)) hsame
    exact .inl ⟨heq, fun vs hvs => (hanswer (heq ▸ hvs)).trans hnil⟩
  · have hreport : fast = ⟨.ok vs, q.memory, q.journal⟩ := by
      rw [hfast, run_eq]
      exact congrArg (fun o : Except Halt (List Violation) × Progress =>
        (⟨o.1, o.2.memory, o.2.journal⟩ : Report _)) hq
    obtain rfl : vs = q.violations := Call.answers_body op p vs q rfl hq
    rw [hreport]
    exact .inr ⟨_, hne, rfl, hP, hfull ▸ hprec.journal, fun ws hws => hanswer hws ▸ hprec.violations⟩

/-- To end with the first violation is to break the full run off: the answer is a prefix of the full
one, and empty just if that is, what fails does so in the full run as well, and evaluators and
providers are called as they are at the start of the full run. -/
theorem perform_failFast :
    let full := (v.withFailFast false).perform op
    let fast := (v.withFailFast true).perform op
    (∀ ws, full.answer = .ok ws →
      ∃ vs, fast.answer = .ok vs ∧ vs <+: ws ∧ (vs = [] ↔ ws = [])) ∧
    (∀ halt, fast.answer = .error halt → full.answer = .error halt) ∧
    fast.calls <+: full.calls := by
  intro full fast
  rcases v.perform_cut op fun s g w path b => Call.truncates_checkConstraint (by cases op <;> rfl) s g
    w path b with ⟨heq, hnil⟩ | ⟨vs, hne, hvs, -, hjournal, hprefix⟩
  · have hsame : fast = full := heq
    rw [hsame]
    exact ⟨fun ws hws => ⟨ws, hws, List.prefix_refl ws, Iff.rfl⟩, fun _ => id, List.prefix_refl _⟩
  · refine ⟨fun ws hws => ⟨vs, hvs, hprefix ws hws, ?_⟩, fun halt hhalt => ?_, hjournal.filter _⟩
    · refine ⟨fun h => absurd h hne, fun h => ?_⟩
      exact List.prefix_nil.1 (h ▸ hprefix ws hws)
    · cases hvs.symm.trans hhalt

/-- A guest without a name, who brings another one. -/
def unnamed : Validator where
  registry := [
    { name := ⟨"Guest"⟩, kind := .concrete, fields := [
      ⟨"name", { own := { constraints := [{ kind := "NotBlank" }] } }⟩,
      ⟨"companions", { containers := [(.listElement, { cascading := true })] }⟩] : TypeDefinition }
    ].foldl Registry.register .initial
  evaluators := Standard.evaluators
  config := {}
  store := ⟨[(⟨"ann"⟩, ⟨⟨"Guest"⟩, [("name", .str " "), ("companions", .list [.object ⟨"bea"⟩])]⟩),
    (⟨"bea"⟩, ⟨⟨"Guest"⟩, []⟩)]⟩
  memory := {}

/-- In full both guests are found to lack a name, and fast the first one. -/
theorem perform_failFast_unnamed :
    ∃ ws vs, ((unnamed.withFailFast false).perform (.object ⟨"ann"⟩ [])).answer = .ok ws ∧
      ws.length = 2 ∧ ((unnamed.withFailFast true).perform (.object ⟨"ann"⟩ [])).answer = .ok vs ∧
      vs <+: ws ∧ vs ≠ [] := by
  have hfound : ((unnamed.withFailFast false).perform (.object ⟨"ann"⟩ [])).answer.toOption.map
      (·.length) = some 2 := by decide +kernel
  obtain ⟨ws, hws, hlength⟩ := Option.map_eq_some_iff.1 hfound
  have hws := toOption_eq_some hws
  obtain ⟨vs, hvs, hprefix, hnil⟩ := (unnamed.perform_failFast (.object ⟨"ann"⟩ [])).1 ws hws
  refine ⟨ws, vs, hws, hlength, hvs, hprefix, fun h => ?_⟩
  simp [hnil.1 h] at hlength

end Validator

end ObjectValidation
