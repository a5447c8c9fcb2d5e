import ObjectValidation.Constraint.Standard
import ObjectValidation.Proofs.Operations
import ObjectValidation.Proofs.Provenance
/-!
# When a sequence of groups ends

A sequence is to end behind the first position at which a constraint does not hold. It is run on a
subject, on the arguments of an executable or on the value one returned, and it is either asked for
or stands for the default group.

A sequence that is asked for ends just if a check made at the position finds a violation that has not
been found before, for whatever group (`OnlyRepeats`). A redefined default group of a subject ends
just if a check made at the position finds anything (`FindsNothing`), where a constraint that is
done under another group is not checked again.
-/

namespace ObjectValidation

open Run

/-- What a sequence of groups is run on. -/
inductive Work
  /-- A subject, for a sequence that is asked for. -/
  | subject (s : Subject) (depth : Nat)
  /-- Constraints of a subject, for a sequence that its default group stands for. -/
  | redefined (s : Subject) (bs : List BoundConstraint)
  /-- The arguments of an executable, for a sequence that is asked for. -/
  | arguments (s : Subject) (e : ExecutableMetadata) (path : Path) (values : List Value)
  /-- The arguments of an executable, for a sequence that the default group stands for. -/
  | defaultArguments (s : Subject) (e : ExecutableMetadata) (path : Path) (values : List Value)
  /-- The value that an executable returned, for a sequence that is asked for. -/
  | returned (s : Subject) (e : ExecutableMetadata) (path : Path) (value : Value)
  /-- The value that an executable returned, for a sequence that the default group stands for. -/
  | defaultReturned (s : Subject) (e : ExecutableMetadata) (path : Path) (value : Value)

namespace Work

/-- The subject that the work is for. -/
def of : Work → Subject
  | .subject s _ | .redefined s _ | .arguments s _ _ _ | .defaultArguments s _ _ _
  | .returned s _ _ _ | .defaultReturned s _ _ _ => s

/-- Whether a sequence stands for the default group of a subject. -/
def isRedefined : Work → Bool
  | .redefined .. => true
  | _ => false

/-- Whether a sequence is asked for on a subject. -/
def isSubject : Work → Bool
  | .subject .. => true
  | _ => false

variable (c : Call)

/-- What is done for the constraints of a group. -/
def constraints : Work → TypeName → Run Unit
  | .subject s _ => c.runGroup s
  | .redefined .. => fun _ => return
  | .arguments s e path values =>
    c.runExecutableGroup s.object s.metadata (c.checkArguments s e path values)
  | .defaultArguments s e path values => c.checkArguments s e path values
  | .returned s e path value =>
    c.runExecutableGroup s.object s.metadata (c.checkReturned s e path value)
  | .defaultReturned s e path value => c.checkReturned s e path value

/-- What is done for the cascades of a group. -/
def cascades : Work → TypeName → Run Unit
  | .subject s depth => c.runCascades (c.cascade depth) s
  | .arguments _ e path values => fun group => c.each (Call.argumentSteps e path values group) c.visit
  | .returned _ e path value => fun group => c.each (e.returnValue.cascade path group value) c.visit
  | .redefined .. | .defaultArguments .. | .defaultReturned .. => fun _ => return

/-- What is done at one position of a sequence. -/
def position (w : Work) (groups : List Group) : Run Unit :=
  match w with
  | .redefined s bs => do let _ ← c.checkPosition s bs groups
  | _ => c.runPosition (w.constraints c) (w.cascades c) groups

/-- What is done for a sequence. -/
def sequence (w : Work) (positions : List (List Group)) : Run Unit :=
  match w with
  | .redefined s bs => c.checkPositions s bs positions
  | _ => c.runPositions (w.constraints c) (w.cascades c) positions

/-- Whether a constraint has to be checked for a group on a value at a path. -/
def Demands (w : Work) (group : TypeName) (b : BoundConstraint) (path : Path) (value : Value) :
    Prop :=
  match w with
  | .subject s _ => b ∈ c.demanded s group ∧ s.place c.store b = some (path, value)
  | .redefined s bs => b ∈ bs ∧ s.place c.store b = some (path, value)
  | .arguments _ e at_ values | .defaultArguments _ e at_ values =>
    (∃ p ∈ e.parameters.zip values, b ∈ p.1.constraints ∧ path = at_.property p.1.name ∧
      value = p.2) ∨
    (b ∈ e.crossParameter ∧ path = at_.crossParameter ∧ value = .list values)
  | .returned _ e at_ v | .defaultReturned _ e at_ v =>
    b ∈ e.returnConstraints ∧ path = at_ ∧ value = v

/-- The constraints that the work is given with. -/
def given : Work → List BoundConstraint
  | .subject .. => []
  | .redefined _ bs => bs
  | .arguments _ e _ _ | .defaultArguments _ e _ _ | .returned _ e _ _ | .defaultReturned _ e _ _ =>
    e.constraints

/-- Whether the work is one that a call may have to do, on metadata and constraints of types. -/
structure Fits (w : Work) : Prop where
  metadata : ∃ type, c.Assembles type w.of.metadata
  given : ∀ b ∈ w.given, c.Owns b

end Work

namespace Call

variable {c : Call}

/-! ### The work that calls do -/

/-- An order that is asked for runs its sequences as work. -/
theorem runOrder_eq (w : Work) (h : w.isRedefined = false) (o : Order) :
    c.runOrder o (w.constraints c) (w.cascades c) = (do
      c.each o.groups fun g => w.constraints c g.name
      c.each o.groups fun g => w.cascades c g.name
      c.each o.sequences fun q => w.sequence c q.positions) := by
  cases w <;> first | rfl | cases h

/-- A redefined default group runs its sequences as work. -/
theorem runRedefined_eq (s : Subject) (m : Metadata) (bs : List BoundConstraint) :
    c.runRedefined s m bs = (do
      let d ← c.defaultMeaning s.object m
      c.each d.order.sequences fun q => (Work.redefined s bs).sequence c q.positions
      unless ← c.isStopped do c.markProcessed s TypeName.defaultGroup) := rfl

theorem fits_subject {s : Subject} {type : TypeName} (hs : c.Assembles type s.metadata)
    (depth : Nat) : (Work.subject s depth).Fits c := ⟨⟨type, hs⟩, by simp [Work.given]⟩

theorem fits_redefined {s : Subject} {type type' : TypeName} {m : Metadata}
    (hs : c.Assembles type s.metadata) (hm : c.Assembles type' m) (covered : List TypeName) :
    (Work.redefined s (uncovered covered m.constraints)).Fits c :=
  ⟨⟨type, hs⟩, fun _ hb => owns_of_mem hm (m.constraints_subset (mem_of_mem_uncovered hb))⟩

/-- The executables of a type are fit for work. -/
theorem fits_executable {w : Work} {type : TypeName} {e : ExecutableMetadata}
    (hs : c.Assembles type w.of.metadata)
    (he : e ∈ w.of.metadata.methods ++ w.of.metadata.constructors)
    (hw : w.given = e.constraints) : w.Fits c :=
  ⟨⟨type, hs⟩, fun _ hb => owns_of_mem hs <|
    List.mem_append_right _ (List.mem_flatMap.2 ⟨e, he, hw ▸ hb⟩)⟩

/-! ### What is new at a position -/

/-- Whether each violation that has been found since the first progress repeats one that had been
found by then. -/
def OnlyRepeats (c : Call) (p q : Progress) : Prop :=
  ∀ e ∈ q.since p, ∀ v ∈ c.found e, ∃ w ∈ p.violations, w.key = v.key

theorem OnlyRepeats.first {p q r : Progress} (h : c.OnlyRepeats p r) (hpq : p.Extends q)
    (hqr : q.Extends r) : c.OnlyRepeats p q := fun e he => h e (hpq.subset_since hqr he)

theorem OnlyRepeats.second {p q r : Progress} (h : c.OnlyRepeats p r) (hpq : p.Extends q)
    (hqr : q.Extends r) : c.OnlyRepeats q r := fun e he v hv =>
  (h e (hpq.since_subset hqr he) v hv).imp fun _ hw => ⟨hpq.violations.subset hw.1, hw.2⟩

/-- The violations found are as many as before just if nothing new has been found. -/
theorem length_violations_iff {p q : Progress} (h : c.Accounts p q) (hq : c.stops q = false) :
    q.violations.length = p.violations.length ↔ c.OnlyRepeats p q := by
  rw [h.found hq, Violation.length_addAll_eq_iff]
  simp only [List.mem_flatMap, forall_exists_index, and_imp, OnlyRepeats]
  exact ⟨fun h e he v hv => h v e he hv, fun h v e he hv => h e he v hv⟩

/-! ### Going on from one position to the next -/

variable {constraints cascades : TypeName → Run Unit}

theorem exec_runPositions_of_stops {p : Progress} (hp : c.stops p) :
    ∀ positions, (c.runPositions constraints cascades positions).exec p = (.ok (), p)
  | [] => rfl
  | position :: rest => by
    unfold Call.runPositions Call.runPosition violationCount
    simp only [exec_bind, exec_get, exec_pure, exec_each_of_stops hp, if_true]
    exact exec_runPositions_of_stops hp rest

theorem exec_runPositions {position : List Group} {rest : List (List Group)} {p q : Progress}
    (h : (c.runPosition constraints cascades position).exec p = (.ok (), q)) :
    (c.runPositions constraints cascades (position :: rest)).exec p =
      if q.violations.length = p.violations.length then
        (c.runPositions constraints cascades rest).exec q
      else (.ok (), q) := by
  rw [Call.runPositions]
  unfold violationCount
  simp only [exec_bind, exec_get, exec_pure, h]
  split <;> rfl

/-- What the positions of a sequence do that come to their end: the first one does, and the others run
if it finds nothing. -/
theorem exec_runPositions_cons_ok {position : List Group} {rest : List (List Group)} {p q : Progress}
    (h : (c.runPositions constraints cascades (position :: rest)).exec p = (.ok (), q)) :
    ∃ r, (c.runPosition constraints cascades position).exec p = (.ok (), r) ∧
      if r.violations.length = p.violations.length then
        (c.runPositions constraints cascades rest).exec r = (.ok (), q)
      else q = r := by
  obtain ⟨_, _, hn, hrest⟩ := exec_bind_ok.1 h
  cases hn
  obtain ⟨_, r, hr, -⟩ := exec_bind_ok.1 hrest
  rw [exec_runPositions hr] at h
  refine ⟨r, hr, ?_⟩
  split at h
  · next hnone => rwa [if_pos hnone]
  · next hsome =>
    cases h
    rw [if_neg hsome]

theorem checkPosition_of_stops (s : Subject) (bs : List BoundConstraint) {p : Progress}
    (hp : c.stops p) : ∀ position, ∃ holds,
      (c.checkPosition s bs position).exec p = (.ok holds, p)
  | [] => ⟨true, rfl⟩
  | g :: rest => by
    obtain ⟨holds, hrest⟩ := checkPosition_of_stops s bs hp rest
    refine ⟨false && holds, ?_⟩
    unfold Call.checkPosition Call.checkGroup
    simp only [exec_bind, exec_isStopped, hp, if_true, exec_pure, hrest]

theorem exec_checkPositions_of_stops {s : Subject} {bs : List BoundConstraint} {p : Progress}
    (hp : c.stops p) : ∀ positions, (c.checkPositions s bs positions).exec p = (.ok (), p)
  | [] => rfl
  | position :: rest => by
    obtain ⟨holds, h⟩ := checkPosition_of_stops s bs hp position
    unfold Call.checkPositions
    rw [exec_bind, h]
    cases holds with
    | true => exact exec_checkPositions_of_stops hp rest
    | false => rfl

/-! ### What a position settles -/

/-- A loop whose rounds settle constraints settles all of them, if what the rounds rely on holds of
the whole loop. -/
theorem each_settles {α : Type} {step : α → Run Unit} {R : Progress → Progress → Prop}
    {o : Option ObjectId} {D : α → BoundConstraint → Path → Value → Prop}
    (hR : ∀ {p q r}, R p r → p.Extends q → q.Extends r → R p q ∧ R q r)
    (hfollows : ∀ x p, Meets (step x) (c.Follows p) Any AnyHalt) : ∀ {xs : List α} {p q : Progress},
    (∀ x ∈ xs, ∀ {p q}, (step x).exec p = (.ok (), q) → c.stops q = false → c.Remembers p →
      R p q → ∀ b path value, D x b path value → b.SettledAt o path value p q) →
    (c.each xs step).exec p = (.ok (), q) → c.stops q = false → c.Remembers p → R p q →
    ∀ x ∈ xs, ∀ b path value, D x b path value → b.SettledAt o path value p q
  | [], p, q, _, h, hq, hp, hpq => by simp
  | x :: xs, p, q, hstep, h, hq, hp, hpq => by
    obtain ⟨-, r, hx, h⟩ := exec_each_cons_ok h hq
    have hpr := (hfollows x p).kept hx (.refl hp)
    have hrq := (meets_each fun y _ => hfollows y r).kept h (.refl hpr.remembers)
    obtain ⟨hR₁, hR₂⟩ := hR hpq hpr.extends hrq.extends
    intro y hy b path value hD
    rcases List.mem_cons.1 hy with rfl | hy
    · have hr := stops_eq_false hrq.extends hq
      exact settledAt_widen (hstep y (by simp) hx hr hp hR₁ b path value hD) (.refl c p)
        hpr.extends hrq.extends
    · exact settledAt_widen (each_settles hR hfollows (fun z hz => hstep z (by simp [hz])) h hq
        hpr.remembers hR₂ y hy b path value hD) hpr.accounts hrq.extends (.refl q)

theorem runPosition_settles {R : Progress → Progress → Prop} {object : Option ObjectId}
    {D : TypeName → BoundConstraint → Path → Value → Prop}
    (hR : ∀ {p q r}, R p r → p.Extends q → q.Extends r → R p q ∧ R q r)
    (hcon : ∀ g p, Meets (constraints g) (c.Follows p) Any AnyHalt)
    (hcas : ∀ g p, Meets (cascades g) (c.Follows p) Any AnyHalt)
    (hsettles : ∀ g {p q}, (constraints g).exec p = (.ok (), q) → c.stops q = false →
      c.Remembers p → R p q → ∀ b path value, D g b path value → b.SettledAt object path value p q)
    {position : List Group} {p q : Progress}
    (h : (c.runPosition constraints cascades position).exec p = (.ok (), q))
    (hq : c.stops q = false) (hp : c.Remembers p) (hpq : R p q) :
    ∀ g ∈ position, ∀ b path value, D g.name b path value → b.SettledAt object path value p q := by
  have hround : ∀ (g : Group) p, Meets (do
      constraints g.name
      unless ← c.isStopped do cascades g.name) (c.Follows p) Any AnyHalt := fun g p =>
    (hcon g.name p).next fun _ => meets_isStopped.next fun _ => .ite .unit (hcas g.name p)
  refine each_settles (D := fun g => D g.name) hR hround ?_ h hq hp hpq
  intro g _ p q hg hq hp hpq
  obtain ⟨_, r, hr, hg⟩ := exec_bind_ok.1 hg
  have hpr := (hcon g.name p).kept hr (.refl hp)
  have hrq : c.Follows r q := by
    have := (meets_isStopped (c := c) (I := c.Follows r) (E := AnyHalt)).next fun stopped =>
      Meets.ite (b := stopped) .unit (hcas g.name r)
    exact this.kept hg (.refl hpr.remembers)
  have hr' := stops_eq_false hrq.extends hq
  intro b path value hD
  exact settledAt_widen
    (hsettles g.name hr hr' hp (hR hpq hpr.extends hrq.extends).1 b path value hD)
    (.refl c p) hpr.extends hrq.extends

/-- If nothing new is found, every position of a sequence runs. -/
theorem runPositions_settles {object : Option ObjectId}
    {D : TypeName → BoundConstraint → Path → Value → Prop}
    (hcon : ∀ g p, Meets (constraints g) (c.Follows p) Any AnyHalt)
    (hcas : ∀ g p, Meets (cascades g) (c.Follows p) Any AnyHalt)
    (hsettles : ∀ g {p q}, (constraints g).exec p = (.ok (), q) → c.stops q = false →
      c.Remembers p → c.OnlyRepeats p q → ∀ b path value, D g b path value →
        b.SettledAt object path value p q) :
    ∀ {positions : List (List Group)} {p q : Progress},
    (c.runPositions constraints cascades positions).exec p = (.ok (), q) → c.stops q = false →
    c.Remembers p → c.OnlyRepeats p q → ∀ position ∈ positions, ∀ g ∈ position,
      ∀ b path value, D g.name b path value → b.SettledAt object path value p q
  | [], p, q, h, hq, hp, hpq => by simp
  | position :: rest, p, q, h, hq, hp, hpq => by
    have hR : ∀ {p q r : Progress}, c.OnlyRepeats p r → p.Extends q → q.Extends r →
        c.OnlyRepeats p q ∧ c.OnlyRepeats q r := fun h h₁ h₂ => ⟨h.first h₁ h₂, h.second h₁ h₂⟩
    obtain ⟨r, hrun, h⟩ := exec_runPositions_cons_ok h
    have hpr := (meets_runPosition (hcon · p) (hcas · p) position).kept hrun (.refl hp)
    have hrq : c.Follows r q := by
      split at h
      · exact (meets_runPositions (hcon · r) (hcas · r) rest).kept h (.refl hpr.remembers)
      · cases h
        exact .refl hpr.remembers
    obtain ⟨hR₁, hR₂⟩ := hR hpq hpr.extends hrq.extends
    have hr := stops_eq_false hrq.extends hq
    rw [if_pos ((length_violations_iff hpr.accounts hr).2 hR₁)] at h
    intro position' hmem g hg b path value hD
    rcases List.mem_cons.1 hmem with rfl | hmem
    · exact settledAt_widen (runPosition_settles hR hcon hcas hsettles hrun hr hp hR₁ g hg b path
        value hD) (.refl c p) hpr.extends hrq.extends
    · exact settledAt_widen (runPositions_settles hcon hcas hsettles h hq hpr.remembers hR₂
        position' hmem g hg b path value hD) hpr.accounts hrq.extends (.refl q)

/-! ### Executables -/

theorem follows_check {s : Subject} {group : TypeName} {value : Value} {path : Path} (p : Progress)
    (b : BoundConstraint) :
    Meets (do let _ ← c.checkConstraint s group value path b) (c.Follows p) Any AnyHalt :=
  follows_checkConstraint.next fun _ => .pure trivial

theorem checkAt_settles {s : Subject} {group : TypeName} {value : Value} {path : Path}
    {bs : List BoundConstraint} {p q : Progress}
    (h : (c.each bs fun b => do let _ ← c.checkConstraint s group value path b).exec p = (.ok (), q))
    (hq : c.stops q = false) (hp : c.Remembers p) :
    ∀ b ∈ bs, b.appliesTo group → b.SettledAt s.object path value p q := by
  intro b hb ha
  refine each_settles (R := fun _ _ => True)
    (D := fun b' b path' value' => b = b' ∧ path' = path ∧ value' = value ∧ b.appliesTo group)
    (fun _ _ _ => ⟨trivial, trivial⟩) (fun b p => follows_check p b)
    ?_ h hq hp trivial b hb b path value
    ⟨rfl, rfl, rfl, ha⟩
  intro b' _ p q hstep hq hp _ b path' value' hD
  obtain ⟨rfl, rfl, rfl, ha⟩ := hD
  obtain ⟨holds, r, hr, hstep⟩ := exec_bind_ok.1 hstep
  cases hstep
  exact checkConstraint_settles hr ha

theorem follows_checkArguments {s : Subject} {e : ExecutableMetadata} {path : Path}
    {values : List Value} (group : TypeName) (p : Progress) :
    Meets (c.checkArguments s e path values group) (c.Follows p) Any AnyHalt :=
  meets_checkArguments fun _ _ _ _ => follows_checkConstraint

/-- Checks what an executable demands of each argument on its own for one group. -/
def checkEach (c : Call) (s : Subject) (e : ExecutableMetadata) (path : Path) (values : List Value)
    (group : TypeName) : Run Unit :=
  c.each (e.parameters.zip values) fun x => c.each x.1.constraints fun b => do
    let _ ← c.checkConstraint s group x.2 (path.property x.1.name) b

/-- Checks what an executable demands of all arguments together for one group. -/
def checkTogether (c : Call) (s : Subject) (e : ExecutableMetadata) (path : Path)
    (values : List Value) (group : TypeName) : Run Unit :=
  c.each e.crossParameter fun b => do
    let _ ← c.checkConstraint s group (.list values) path.crossParameter b

/-- All arguments are checked together if nothing has been found wrong with one that is new. -/
theorem exec_checkArguments (s : Subject) (e : ExecutableMetadata) (path : Path)
    (values : List Value) (group : TypeName) (p : Progress) :
    (c.checkArguments s e path values group).exec p =
      match (c.checkEach s e path values group).exec p with
      | (.ok _, r) =>
        if r.violations.length = p.violations.length then
          (c.checkTogether s e path values group).exec r
        else (.ok (), r)
      | (.error halt, r) => (.error halt, r) := by
  have h : c.checkArguments s e path values group = (violationCount >>= fun before =>
      c.checkEach s e path values group >>= fun _ => violationCount >>= fun n =>
        if n = before then c.checkTogether s e path values group else pure ()) := rfl
  rw [h]
  unfold violationCount
  simp only [exec_bind, exec_get, exec_pure]
  cases (c.checkEach s e path values group).exec p with
  | mk a r =>
    cases a with
    | error halt => rfl
    | ok _ => simp only; split <;> rfl

section

variable {s : Subject} {e : ExecutableMetadata} {path : Path} {values : List Value}

theorem follows_checkEach (group : TypeName) (p : Progress) :
    Meets (c.checkEach s e path values group) (c.Follows p) Any AnyHalt :=
  meets_each fun _ _ => meets_each fun b _ => follows_check p b

theorem follows_checkTogether (group : TypeName) (p : Progress) :
    Meets (c.checkTogether s e path values group) (c.Follows p) Any AnyHalt :=
  meets_each fun b _ => follows_check p b

/-- Whatever is demanded of an argument is settled once each has been checked on its own. -/
theorem checkEach_settles {group : TypeName} {p q : Progress}
    (h : (c.checkEach s e path values group).exec p = (.ok (), q)) (hq : c.stops q = false)
    (hp : c.Remembers p) {x : ParameterMetadata × Value} (hx : x ∈ e.parameters.zip values)
    {b : BoundConstraint} (hb : b ∈ x.1.constraints) (ha : b.appliesTo group) :
    b.SettledAt s.object (path.property x.1.name) x.2 p q := by
  refine each_settles (R := fun _ _ => True)
    (D := fun x b path' value => b ∈ x.1.constraints ∧ path' = path.property x.1.name ∧
      value = x.2 ∧ b.appliesTo group) (fun _ _ _ => ⟨trivial, trivial⟩)
    (fun x p => meets_each fun b _ => follows_check p b) ?_ h hq hp trivial x hx b _ _
    ⟨hb, rfl, rfl, ha⟩
  intro x _ p q hstep hq hp _ b path' value hD
  obtain ⟨hb, rfl, rfl, ha⟩ := hD
  exact checkAt_settles hstep hq hp b hb ha

/-- If nothing new is found, the arguments are checked one by one and all together. -/
theorem checkArguments_settles {group : TypeName} {p q : Progress}
    (h : (c.checkArguments s e path values group).exec p = (.ok (), q)) (hq : c.stops q = false)
    (hp : c.Remembers p) (hpq : c.OnlyRepeats p q) {b : BoundConstraint} {path' : Path}
    {value : Value} (hD : (Work.defaultArguments s e path values).Demands c group b path' value)
    (ha : b.appliesTo group) : b.SettledAt s.object path' value p q := by
  rw [exec_checkArguments] at h
  cases heach : (c.checkEach s e path values group).exec p with
  | mk a r =>
    cases a with
    | error halt =>
      rw [heach] at h
      cases h
    | ok _ =>
      simp only [heach] at h
      have hpr := (follows_checkEach group p).kept heach (.refl hp)
      have hrq : c.Follows r q := by
        split at h
        · exact (follows_checkTogether group r).kept h (.refl hpr.remembers)
        · cases h
          exact .refl hpr.remembers
      have hr := stops_eq_false hrq.extends hq
      rcases hD with ⟨x, hx, hb, rfl, rfl⟩ | ⟨hb, rfl, rfl⟩
      · exact settledAt_widen (checkEach_settles heach hr hp hx hb ha) (.refl c p) hpr.extends
          hrq.extends
      · rw [if_pos ((length_violations_iff hpr.accounts hr).2
          (hpq.first hpr.extends hrq.extends))] at h
        exact settledAt_widen (checkAt_settles h hq hpr.remembers b hb ha) hpr.accounts hrq.extends
          (.refl q)

end

theorem follows_checkReturned {s : Subject} {e : ExecutableMetadata} {path : Path} {value : Value}
    (group : TypeName) (p : Progress) :
    Meets (c.checkReturned s e path value group) (c.Follows p) Any AnyHalt :=
  meets_checkReturned fun _ _ => follows_checkConstraint

theorem checkAllAt_settles {s : Subject} {group : TypeName} {value : Value} {path : Path} :
    ∀ {bs : List BoundConstraint} {p q : Progress} {holds : Bool},
    (c.allHold bs (c.checkConstraint s group value path)).exec p = (.ok holds, q) →
    c.stops q = false → c.Remembers p →
    ∀ b ∈ bs, b.appliesTo group → b.SettledAt s.object path value p q
  | [], _, _, _, _, _, _ => by simp
  | b :: bs, p, q, holds, h, hq, hp => by
    have hpq := (meets_allHold fun _ _ => follows_checkConstraint).kept h (.refl hp)
    simp only [exec_allHold_cons, stops_eq_false hpq.extends hq, Bool.false_eq_true,
      if_false] at h
    obtain ⟨first, r, hfirst, h⟩ := exec_bind_ok.1 h
    obtain ⟨others, r', hothers, h⟩ := exec_bind_ok.1 h
    cases h
    have hpr := follows_checkConstraint.kept hfirst (.refl hp)
    have hrq := (meets_allHold fun _ _ => follows_checkConstraint).kept hothers
      (.refl hpr.remembers)
    intro b' hb' ha
    rcases List.mem_cons.1 hb' with rfl | hb'
    · exact settledAt_widen (checkConstraint_settles hfirst ha) (.refl c p) hpr.extends hrq.extends
    · exact settledAt_widen (checkAllAt_settles hothers hq hpr.remembers b' hb' ha) hpr.accounts
        hrq.extends (.refl q)

theorem checkReturned_settles {s : Subject} {e : ExecutableMetadata} {path : Path} {value : Value}
    {group : TypeName} {p q : Progress}
    (h : (c.checkReturned s e path value group).exec p = (.ok (), q)) (hq : c.stops q = false)
    (hp : c.Remembers p) {b : BoundConstraint} {path' : Path} {value' : Value}
    (hD : (Work.defaultReturned s e path value).Demands c group b path' value')
    (ha : b.appliesTo group) : b.SettledAt s.object path' value' p q := by
  obtain ⟨hb, rfl, rfl⟩ := hD
  obtain ⟨holds, r, hr, h⟩ := exec_bind_ok.1 h
  cases h
  exact checkAllAt_settles hr hq hp b hb ha

theorem follows_runExecutableGroup {object : Option ObjectId} {type : TypeName} {m : Metadata}
    (hm : c.Assembles type m) {run : TypeName → Run Unit}
    (hrun : ∀ g p, Meets (run g) (c.Follows p) Any AnyHalt) (group : TypeName) (p : Progress) :
    Meets (c.runExecutableGroup object m run group) (c.Follows p) Any AnyHalt :=
  meets_runExecutableGroup ((follows_cascades p).meaning object type m hm) (hrun · p)

/-- If nothing new is found, the default group of an executable leaves nothing unchecked. -/
theorem runExecutableGroup_settles
    (hs : c.registry.sequenceMembers? TypeName.defaultGroup = none)
    {object object' : Option ObjectId} {type : TypeName} {m : Metadata} (hm : c.Assembles type m)
    {run : TypeName → Run Unit} (hrun : ∀ g p, Meets (run g) (c.Follows p) Any AnyHalt)
    {D : TypeName → BoundConstraint → Path → Value → Prop}
    (hsettles : ∀ g {p q}, (run g).exec p = (.ok (), q) → c.stops q = false →
      c.Remembers p → c.OnlyRepeats p q → ∀ b path value, D g b path value →
        b.SettledAt object' path value p q) (group : TypeName) {p q : Progress}
    (h : (c.runExecutableGroup object m run group).exec p = (.ok (), q)) (hq : c.stops q = false)
    (hp : c.Remembers p) (hpq : c.OnlyRepeats p q) :
    ∀ b path value, D group b path value → b.SettledAt object' path value p q := by
  intro b path value hD
  unfold Call.runExecutableGroup at h
  split at h
  · next hg =>
    obtain rfl : group = TypeName.defaultGroup := by simpa [TypeName.isDefault] using hg
    obtain ⟨d, r, hd, h⟩ := exec_bind_ok.1 h
    have hpr := ((follows_cascades p).meaning object type m hm).kept hd (.refl hp)
    have hmeans := (defaultMeaning_remembers hm object).answer hd hp
    have hrq := (meets_runOrder (hrun · r) fun _ => .unit).kept h (.refl hpr.remembers)
    have hR := hpq.second hpr.extends hrq.extends
    refine settledAt_widen (p := r) ?_ hpr.accounts hrq.extends (.refl q)
    obtain ⟨_, r₁, h₁, h⟩ := exec_bind_ok.1 h
    obtain ⟨_, r₂, h₂, h₃⟩ := exec_bind_ok.1 h
    have hr := stops_eq_false hrq.extends hq
    cases hredef : m.redefinesDefault with
    | false =>
      rw [hmeans.ordinary hredef] at h₁ h₂ h₃
      have h₂₁ : r₂ = r₁ := (meets_each fun _ _ => Meets.unit).kept (I := (· = r₁)) (E := AnyHalt)
        h₂ rfl
      cases h₃
      subst h₂₁
      exact hsettles _ (by rwa [Order.default, each_singleton hr] at h₁) hq hpr.remembers hR b path
        value hD
    | true =>
      obtain ⟨hgroups, sequence, hseq, hpos⟩ := hmeans.redefined hs hredef
      rw [hgroups] at h₁ h₂
      cases h₁
      cases h₂
      rw [hseq, each_singleton hr] at h₃
      exact runPositions_settles hrun (fun _ _ => .unit) hsettles h₃ hq hpr.remembers hR _ hpos _
        (List.mem_singleton.2 rfl) b path value hD
  · exact hsettles group h hq hp hpq b path value hD

/-! ### The end of a sequence -/

theorem follows_constraints (w : Work) {type : TypeName} (hw : c.Assembles type w.of.metadata)
    (g : TypeName) (p : Progress) : Meets (w.constraints c g) (c.Follows p) Any AnyHalt := by
  cases w with
  | subject s depth => exact follows_runGroup s g p
  | redefined s bs => exact .unit
  | arguments s e path values => exact follows_runExecutableGroup hw follows_checkArguments g p
  | defaultArguments s e path values => exact follows_checkArguments g p
  | returned s e path value => exact follows_runExecutableGroup hw follows_checkReturned g p
  | defaultReturned s e path value => exact follows_checkReturned g p

theorem follows_workCascades (w : Work) (g : TypeName) (p : Progress) :
    Meets (w.cascades c g) (c.Follows p) Any AnyHalt := by
  cases w with
  | subject s depth => exact meets_runCascades ((follows_cascades p).cascade depth) g
  | arguments s e path values =>
    exact meets_each fun step _ => (follows_cascades p).cascade c.depth step
  | returned s e path value =>
    exact meets_each fun step _ => (follows_cascades p).cascade c.depth step
  | _ => exact .unit

theorem constraints_settle (hs : c.registry.sequenceMembers? TypeName.defaultGroup = none)
    (w : Work) (hredef : w.isRedefined = false) {type : TypeName}
    (hw : c.Assembles type w.of.metadata) (g : TypeName) {p q : Progress}
    (h : (w.constraints c g).exec p = (.ok (), q)) (hq : c.stops q = false) (hp : c.Remembers p)
    (hpq : c.OnlyRepeats p q) (hn : w.isSubject → g.isDefault →
      c.FindsNothing p q ∨ c.Ordinary w.of.metadata.hierarchy)
    (b : BoundConstraint) (path : Path) (value : Value) (hD : w.Demands c g b path value)
    (ha : b.appliesTo g) : b.SettledAt w.of.object path value p q := by
  cases w with
  | subject s depth =>
    have hn' := fun hg => (hn rfl hg).imp_left (And.intro hs)
    exact runGroup_settles h hq hp hn' b hD.1 ha path value hD.2
  | redefined s bs => cases hredef
  | arguments s e at_ values =>
    exact runExecutableGroup_settles (D := fun g b path value =>
        (Work.defaultArguments s e at_ values).Demands c g b path value ∧ b.appliesTo g) hs hw
      follows_checkArguments (fun g p q h hq hp hpq b path value hD =>
        checkArguments_settles h hq hp hpq hD.1 hD.2) g h hq hp hpq b path value ⟨hD, ha⟩
  | defaultArguments s e at_ values => exact checkArguments_settles h hq hp hpq hD ha
  | returned s e at_ v =>
    exact runExecutableGroup_settles (D := fun g b path value =>
        (Work.defaultReturned s e at_ v).Demands c g b path value ∧ b.appliesTo g) hs hw
      follows_checkReturned (fun g p q h hq hp _ b path value hD =>
        checkReturned_settles h hq hp hD.1 hD.2) g h hq hp hpq b path value ⟨hD, ha⟩
  | defaultReturned s e at_ v => exact checkReturned_settles h hq hp hD ha

theorem Work.eq_redefined {w : Work} (h : w.isRedefined = true) : ∃ s bs, w = .redefined s bs := by
  cases w with
  | redefined s bs => exact ⟨s, bs, rfl⟩
  | _ => cases h

theorem exec_position_redefined {s : Subject} {bs : List BoundConstraint} {groups : List Group}
    {p q : Progress} (h : ((Work.redefined s bs).position c groups).exec p = (.ok (), q)) :
    ∃ holds, (c.checkPosition s bs groups).exec p = (.ok holds, q) := by
  obtain ⟨holds, r, hr, h⟩ := exec_bind_ok.1 h
  cases h
  exact ⟨holds, hr⟩

theorem position_eq {w : Work} (h : w.isRedefined = false) :
    w.position c = c.runPosition (w.constraints c) (w.cascades c) := by
  cases w <;> first | rfl | cases h

theorem sequence_eq {w : Work} (h : w.isRedefined = false) :
    w.sequence c = c.runPositions (w.constraints c) (w.cascades c) := by
  cases w <;> first | rfl | cases h

/-- What stands between a constraint of a position and being checked there: its default group has
been broken off, because that is redefined and found something. -/
def BrokenOff (c : Call) (w : Work) (g : TypeName) (p q : Progress) : Prop :=
  w.isSubject ∧ g.isDefault ∧ ¬ c.Ordinary w.of.metadata.hierarchy ∧ ¬ c.FindsNothing p q

/-- Whether a sequence goes on behind a position, given the progress before and after it. -/
def GoesOn (c : Call) (w : Work) (p q : Progress) : Prop :=
  if w.isRedefined then c.FindsNothing p q else c.OnlyRepeats p q

/-- Behind a position that is not stopped a sequence goes on just if `GoesOn` says so. -/
theorem exec_sequence (w : Work) {type : TypeName} (hw : c.Assembles type w.of.metadata)
    {groups : List Group} {p q : Progress} (h : (w.position c groups).exec p = (.ok (), q))
    (hp : c.Remembers p) (hq : c.stops q = false) (rest : List (List Group)) :
    (c.GoesOn w p q → (w.sequence c (groups :: rest)).exec p = (w.sequence c rest).exec q) ∧
    (¬ c.GoesOn w p q → (w.sequence c (groups :: rest)).exec p = (.ok (), q)) := by
  cases hredef : w.isRedefined with
  | true =>
    obtain ⟨s, bs, rfl⟩ := Work.eq_redefined hredef
    obtain ⟨holds, hr⟩ := exec_position_redefined h
    have hcov := checkPosition_covers hr hq
    simp only [GoesOn, hredef, if_true, ← hcov.holds_iff]
    simp only [Work.sequence, Call.checkPositions, exec_bind, hr]
    cases holds <;> simp
  | false =>
    rw [position_eq hredef] at h
    have hpq := (meets_runPosition (follows_constraints w hw · p) (follows_workCascades w · p)
      groups).kept h (.refl hp)
    have hiff := length_violations_iff hpq.accounts hq
    rw [sequence_eq hredef, exec_runPositions h]
    simp only [GoesOn, hredef, Bool.false_eq_true, if_false]
    exact ⟨fun hr => if_pos (hiff.2 hr), fun hr => if_neg fun hl => hr (hiff.1 hl)⟩

theorem exec_sequence_of_stops (w : Work) {groups : List Group} {p q : Progress}
    (h : (w.position c groups).exec p = (.ok (), q)) (hq : c.stops q)
    (rest : List (List Group)) : (w.sequence c (groups :: rest)).exec p = (.ok (), q) := by
  cases hredef : w.isRedefined with
  | true =>
    obtain ⟨s, bs, rfl⟩ := Work.eq_redefined hredef
    obtain ⟨holds, hr⟩ := exec_position_redefined h
    simp only [Work.sequence, Call.checkPositions, exec_bind, hr]
    cases holds with
    | true => exact exec_checkPositions_of_stops hq rest
    | false => rfl
  | false =>
    rw [position_eq hredef] at h
    rw [sequence_eq hredef, exec_runPositions h]
    split
    · exact exec_runPositions_of_stops hq rest
    · rfl

/-! ### What a sequence goes on in spite of -/

theorem logs_ownCheck {s : Subject} {group : TypeName} {value : Value} {path : Path}
    {b : BoundConstraint} (hb : c.Owns b) (p : Progress) :
    Meets (c.checkConstraint s group value path b) (c.Logs c.OwnsChecked p) Any AnyHalt := by
  have h : Meets (c.checkConstraint s group value path b)
      (fun q => c.Logs c.OwnsChecked p q ∧ True) Any AnyHalt :=
    logs_checkConstraint ownsChecked_lasting (fun _ _ h _ => h) fun _ _ _ _ => hb
  simpa using h

/-- At a position only constraints of the types they name are checked. -/
theorem logs_constraints {w : Work} (hw : w.Fits c) (g : TypeName) (p : Progress) :
    Meets (w.constraints c g) (c.Logs c.OwnsChecked p) Any AnyHalt := by
  obtain ⟨type, hm⟩ := hw.metadata
  have howns := hw.given
  have hmeaning := logs_defaultMeaning (Φ := c.OwnsChecked) (p := p) ownsChecked_lasting hm w.of.object
  cases w with
  | subject s depth => exact logs_runGroup ownsChecked_lasting (tells_ownsChecked hm g)
  | redefined s bs => exact .unit
  | arguments s e at_ values =>
    exact meets_runExecutableGroup hmeaning fun g =>
      meets_checkArguments fun b hb _ _ => logs_ownCheck (howns b hb) p
  | defaultArguments s e at_ values =>
    exact meets_checkArguments fun b hb _ _ => logs_ownCheck (howns b hb) p
  | returned s e at_ v =>
    exact meets_runExecutableGroup hmeaning fun g =>
      meets_checkReturned fun b hb => logs_ownCheck (howns b hb) p
  | defaultReturned s e at_ v =>
    exact meets_checkReturned fun b hb => logs_ownCheck (howns b hb) p

theorem logs_workCascades (w : Work) (g : TypeName) (p : Progress) :
    Meets (w.cascades c g) (c.Logs c.OwnsChecked p) Any AnyHalt := by
  have hcascade : KeptByCascades c (c.Logs c.OwnsChecked p) AnyHalt :=
    logs_cascades ownsChecked_lasting fun s hs group =>
      hs.object.elim fun _ h => tells_ownsChecked h.2 group
  cases w with
  | subject s depth => exact meets_runCascades (hcascade.cascade depth) g
  | arguments s e path values => exact meets_each fun step _ => hcascade.cascade c.depth step
  | returned s e path value => exact meets_each fun step _ => hcascade.cascade c.depth step
  | _ => exact .unit

theorem owns_of_demands {w : Work} (hw : w.Fits c) {group : TypeName} {b : BoundConstraint}
    {path : Path} {value : Value} (h : w.Demands c group b path value) : c.Owns b := by
  obtain ⟨type, hm⟩ := hw.metadata
  have hgiven := hw.given
  have harguments : ∀ {e : ExecutableMetadata} {at_ : Path} {values : List Value},
      (∀ b ∈ e.constraints, c.Owns b) →
      ((∃ x ∈ e.parameters.zip values, b ∈ x.1.constraints ∧ path = at_.property x.1.name ∧
        value = x.2) ∨ (b ∈ e.crossParameter ∧ path = at_.crossParameter ∧ value = .list values)) →
      c.Owns b := by
    rintro e at_ values he (⟨x, hx, hb, -, -⟩ | ⟨hb, -, -⟩)
    · exact he b (mem_constraints_of_zip hx hb)
    · exact he b (by simp [ExecutableMetadata.constraints, hb])
  cases w with
  | subject s depth => exact owns_of_mem_demanded hm h.1
  | redefined s bs => exact hgiven b h.1
  | arguments s e at_ values => exact harguments hgiven h
  | defaultArguments s e at_ values => exact harguments hgiven h
  | returned s e at_ v => exact hgiven b (by simp [Work.given, ExecutableMetadata.constraints, h.1])
  | defaultReturned s e at_ v =>
    exact hgiven b (by simp [Work.given, ExecutableMetadata.constraints, h.1])

/-- What lets a sequence go on behind a position of which a constraint does not hold. What the
constraint finds has been found before; or it belongs to several groups and is done under another
one, at the same path; or its default group broke off before it; or a registry has it that the default
group itself is a sequence. -/
def Overlooks (c : Call) (w : Work) (g : TypeName) (b : BoundConstraint) (path : Path)
    (p q : Progress) : Prop :=
  (w.isRedefined = false ∧ ∃ group value, .checked w.of.object path b group value ∈ q.since p) ∨
  (1 < b.groups.length ∧ (w.of.object, path, b.key) ∈ p.processedConstraints) ∨
  c.BrokenOff w g p q ∨ c.registry.isGroupSequence TypeName.defaultGroup

theorem exec_sequence_error (w : Work) {groups : List Group} {p q : Progress} {halt : Halt}
    (h : (w.position c groups).exec p = (.error halt, q)) (rest : List (List Group)) :
    (w.sequence c (groups :: rest)).exec p = (.error halt, q) := by
  cases hredef : w.isRedefined with
  | true =>
    obtain ⟨s, bs, rfl⟩ := Work.eq_redefined hredef
    rcases exec_bind_error.1 h with h | ⟨_, _, _, h⟩
    · simp only [Work.sequence, Call.checkPositions, exec_bind, h]
    · cases h
  | false =>
    rw [position_eq hredef] at h
    rw [sequence_eq hredef, Call.runPositions]
    unfold violationCount
    simp only [exec_bind, exec_get, exec_pure, h]

/-- Behind a position at which a sequence goes on, each constraint of the position is settled. -/
theorem position_settles (hs : c.registry.sequenceMembers? TypeName.defaultGroup = none)
    (w : Work) {type : TypeName} (hw : c.Assembles type w.of.metadata) {groups : List Group}
    {p q : Progress} (h : (w.position c groups).exec p = (.ok (), q)) (hp : c.Remembers p)
    (hq : c.stops q = false) (hgo : c.GoesOn w p q) {g : Group} (hg : g ∈ groups)
    {b : BoundConstraint} {path : Path} {value : Value} (hD : w.Demands c g.name b path value)
    (ha : b.appliesTo g.name) :
    b.SettledAt w.of.object path value p q ∨ c.BrokenOff w g.name p q := by
  cases hredef : w.isRedefined with
  | true =>
    obtain ⟨s, bs, rfl⟩ := Work.eq_redefined hredef
    obtain ⟨holds, hr⟩ := exec_position_redefined h
    exact .inl ((checkPosition_covers hr hq).settled g.name (List.mem_map.2 ⟨g, hg, rfl⟩) b hD.1 ha
      path value hD.2)
  | false =>
    rw [position_eq hredef] at h
    have hrep : c.OnlyRepeats p q := by simpa [GoesOn, hredef] using hgo
    by_cases hb : c.BrokenOff w g.name p q
    · exact .inr hb
    · -- Either the position breaks no default group off, or the group in question is another one.
      refine .inl (runPosition_settles
        (R := fun p q => c.OnlyRepeats p q ∧ ((w.isSubject ∧ g.name.isDefault) →
          c.FindsNothing p q ∨ c.Ordinary w.of.metadata.hierarchy))
        (D := fun g' b path value => w.Demands c g' b path value ∧ b.appliesTo g' ∧ g' = g.name)
        (fun hR h₁ h₂ => ⟨⟨hR.1.first h₁ h₂, fun hn => (hR.2 hn).imp_left fun hn =>
            ((findsNothing_trans h₁ h₂).1 hn).1⟩, hR.1.second h₁ h₂, fun hn =>
            (hR.2 hn).imp_left fun hn => ((findsNothing_trans h₁ h₂).1 hn).2⟩)
        (follows_constraints w hw) (follows_workCascades w)
        ?_ h hq hp ⟨hrep, ?_⟩ g hg b path value
        ⟨hD, ha, rfl⟩)
      · intro g' p q h hq hp hR b path value hD
        obtain ⟨hD, ha, rfl⟩ := hD
        exact constraints_settle hs w hredef hw _ h hq hp hR.1 (fun h₁ h₂ => hR.2 ⟨h₁, h₂⟩) b path
          value hD ha
      · intro hn
        by_cases ho : c.Ordinary w.of.metadata.hierarchy
        · exact .inr ho
        · by_cases hf : c.FindsNothing p q
          · exact .inl hf
          · exact absurd ⟨hn.1, hn.2, ho, hf⟩ hb

/-- At a position of work that fits, only constraints of the types they name are checked. -/
theorem logs_position {w : Work} (hw : w.Fits c) (hredef : w.isRedefined = false)
    (groups : List Group) (p : Progress) :
    Meets (w.position c groups) (c.Logs c.OwnsChecked p) Any AnyHalt := by
  rw [position_eq hredef]
  exact meets_runPosition (logs_constraints hw · p) (logs_workCascades w · p) groups

/-- Where a sequence goes on although a constraint of the position fails, that one is overlooked. -/
theorem overlooks_of_goesOn {w : Work} (hw : w.Fits c) {groups : List Group} {p q : Progress}
    (h : (w.position c groups).exec p = (.ok (), q)) (hp : c.Remembers p)
    (hq : c.stops q = false) (hgo : c.GoesOn w p q) {g : Group} (hg : g ∈ groups)
    {b : BoundConstraint} {path : Path} {value : Value} (hD : w.Demands c g.name b path value)
    (ha : b.appliesTo g.name) {vs : List Violation}
    (hvs : c.failures w.of.object path value b = .ok vs) (hfails : vs ≠ []) :
    c.Overlooks w g.name b path p q := by
  obtain ⟨type, hm⟩ := hw.metadata
  cases hs : c.registry.sequenceMembers? TypeName.defaultGroup with
  | some members => exact .inr (.inr (.inr (by simp [Registry.isGroupSequence, hs])))
  | none => ?_
  refine (position_settles hs w hm h hp hq hgo hg hD ha).elim ?_
    fun hbroken => .inr (.inr (.inl hbroken))
  intro hsettled
  cases hredef : w.isRedefined with
  | false =>
    rcases hsettled with ⟨group, he⟩ | ⟨hgroups, hmark | ⟨b', group, value', he, hk⟩⟩
    · exact .inl ⟨hredef, group, value, he⟩
    · exact .inr (.inl ⟨hgroups, hmark⟩)
    · have hb' : c.Owns b' := ((logs_position hw hredef groups p).kept h (.refl hp)).2 _ he
      obtain rfl := hb'.eq_of_key_eq (owns_of_demands hw hD) hk
      exact .inl ⟨hredef, group, value', he⟩
  | true =>
    obtain ⟨s, bs, rfl⟩ := Work.eq_redefined hredef
    have hnothing : c.FindsNothing p q := by simpa [GoesOn, hredef] using hgo
    obtain ⟨holds, hr⟩ := exec_position_redefined h
    have hchecks := (checkPosition_covers hr hq).checks
    have hnot : ∀ group, .checked s.object path b group value ∉ q.since p := fun group he =>
      hfails ((found_checked hvs).symm.trans (hnothing _ he))
    rcases hsettled with ⟨group, he⟩ | ⟨hgroups, hmark | ⟨b', group, value', he, hk⟩⟩
    · exact absurd he (hnot group)
    · exact .inr (.inl ⟨hgroups, hmark⟩)
    · obtain ⟨-, hb', hplace⟩ := hchecks _ _ _ _ _ he
      obtain rfl := (hw.given b' hb').eq_of_key_eq (hw.given b hD.1) hk
      rw [hD.2] at hplace
      cases hplace
      exact absurd he (hnot group)

/-- When a sequence ends behind a position. It does if the call fails there or has found all it looks
for, and if a check made at the position finds something that counts as new (`GoesOn`); else its next
position runs. A constraint of the position that fails then is one that has been overlooked. -/
theorem sequence_short_circuit (w : Work) (hw : w.Fits c) (groups : List Group)
    (rest : List (List Group)) (p : Progress) (hp : c.Remembers p) :
    (∀ halt q, (w.position c groups).exec p = (.error halt, q) →
      (w.sequence c (groups :: rest)).exec p = (.error halt, q)) ∧
    ∀ q, (w.position c groups).exec p = (.ok (), q) →
      (c.stops q ∨ ¬ c.GoesOn w p q → (w.sequence c (groups :: rest)).exec p = (.ok (), q)) ∧
      (c.stops q = false → c.GoesOn w p q →
        (w.sequence c (groups :: rest)).exec p = (w.sequence c rest).exec q ∧
        ∀ g ∈ groups, ∀ b path value vs, w.Demands c g.name b path value → b.appliesTo g.name →
          c.failures w.of.object path value b = .ok vs → vs ≠ [] →
          c.Overlooks w g.name b path p q) := by
  obtain ⟨type, hm⟩ := hw.metadata
  refine ⟨fun halt q h => exec_sequence_error w h rest, fun q h => ⟨fun hend => ?_, fun hq hgo => ?_⟩⟩
  · cases hq : c.stops q with
    | true => exact exec_sequence_of_stops w h hq rest
    | false => exact (exec_sequence w hm h hp hq rest).2 (hend.resolve_left (by simp [hq]))
  · exact ⟨(exec_sequence w hm h hp hq rest).1 hgo, fun g hg b path value vs hD ha hvs hfails =>
      overlooks_of_goesOn hw h hp hq hgo hg hD ha hvs hfails⟩

/-! ### A sequence that goes on -/

/-- An object that lacks two properties. One must not be null in the first group of a sequence, the
other one in the second. -/
def sequenced : Validator where
  registry := [
    { name := ⟨"A"⟩, kind := .interface },
    { name := ⟨"B"⟩, kind := .interface },
    { name := ⟨"S"⟩, kind := .interface, sequence := some [⟨"A"⟩, ⟨"B"⟩] },
    { name := ⟨"T"⟩, kind := .concrete, fields := [
      ⟨"x", { own := { constraints := [{ kind := "NotNull", groups := [⟨"A"⟩] }] } }⟩,
      ⟨"y", { own := { constraints := [{ kind := "NotNull", groups := [⟨"B"⟩] }] } }⟩] : TypeDefinition }
    ].foldl Registry.register .initial
  evaluators := Standard.evaluators
  config := {}
  store := ⟨[(⟨"t"⟩, ⟨⟨"T"⟩, []⟩)]⟩
  memory := {}

/-- The metadata of the object. -/
def sequencedMetadata : Metadata :=
  (Metadata.assemble sequenced.registry sequenced.config.methodRules ⟨"T"⟩).toOption.get
    (by decide +kernel)

/-- Asked for on its own, the sequence ends at the first failure. -/
theorem sequence_short_circuit_at_failure :
    let c := sequenced.call (some ⟨"t"⟩) ⟨"T"⟩
    let w := Work.subject
      { object := some ⟨"t"⟩, metadata := sequencedMetadata, path := .root } c.depth
    let p : Progress := { memory := {} }
    let q := ((w.position c [Group.plain ⟨"A"⟩]).exec p).2
    w.Fits c ∧ c.Remembers p ∧ (w.position c [Group.plain ⟨"A"⟩]).exec p = (.ok (), q) ∧
      ¬ c.GoesOn w p q ∧
      (w.sequence c [[Group.plain ⟨"A"⟩], [Group.plain ⟨"B"⟩]]).exec p = (.ok (), q) := by
  intro c w p q
  have hm : c.Assembles ⟨"T"⟩ sequencedMetadata := toOption_eq_some (Option.some_get _).symm
  have hw : w.Fits c := fits_subject hm c.depth
  have hp : c.Remembers p := ⟨MetadataCache.coherent_nil _ _, by simp [p]⟩
  have hok : ((w.position c [Group.plain ⟨"A"⟩]).exec p).1.toOption = some () := by decide +kernel
  have hq : (w.position c [Group.plain ⟨"A"⟩]).exec p = (.ok (), q) :=
    Prod.ext (toOption_eq_some hok) rfl
  have hnew : ¬ c.GoesOn w p q := by
    have hfound : ((q.since p).any fun e => !(c.found e).isEmpty) = true := by decide +kernel
    intro hgo
    obtain ⟨e, he, hv⟩ := List.any_eq_true.1 hfound
    obtain ⟨v, hv⟩ := List.exists_mem_of_ne_nil (c.found e) (by simpa using hv)
    obtain ⟨_, hnil, -⟩ := hgo e he v hv
    cases hnil
  exact ⟨hw, hp, hq, hnew,
    ((sequence_short_circuit w hw _ _ p hp).2 q hq).1 (.inr hnew)⟩

/-- Asked for behind the group of its first position, the sequence goes on to the second position
although a constraint of the first one fails. -/
theorem requested_group_hides_failure :
    (Sequence.build sequenced.registry ⟨"S"⟩ [⟨"A"⟩, ⟨"B"⟩]).toOption.map (·.positions) =
      some [[Group.plain ⟨"A"⟩], [Group.plain ⟨"B"⟩]] ∧
    (∃ e ∈ (sequenced.validate ⟨"t"⟩ [⟨"A"⟩, ⟨"S"⟩]).journal,
      e.isCheckAt ⟨"t"⟩ (Path.root.property "x") ⟨"A"⟩ ∧
        (sequenced.call (some ⟨"t"⟩) ⟨"T"⟩).found e ≠ []) ∧
    ∃ e ∈ (sequenced.validate ⟨"t"⟩ [⟨"A"⟩, ⟨"S"⟩]).journal, e.isBeginAt ⟨"t"⟩ .root ⟨"B"⟩ := by
  refine ⟨by decide +kernel, ?_, by decide +kernel⟩
  have h : ((sequenced.validate ⟨"t"⟩ [⟨"A"⟩, ⟨"S"⟩]).journal.any fun e =>
      e.isCheckAt ⟨"t"⟩ (Path.root.property "x") ⟨"A"⟩ &&
        !((sequenced.call (some ⟨"t"⟩) ⟨"T"⟩).found e).isEmpty) = true := by decide +kernel
  simpa using h

end Call

end ObjectValidation
