import ObjectValidation.Proofs.Outcome
import ObjectValidation.Proofs.ShortCircuit
/-!
# When arguments are checked together

What an executable demands of all its arguments together is to wait until each argument is valid on
its own. Arguments are checked in rounds, one for each group, and a round goes on to all of them
together just if it has found nothing new (`exec_checkArguments`). What is found wrong with an argument
may not be new: the constraint has been checked for another group, or for the same group in another
sequence, and it is not even checked again if it belongs to several groups.

So all that is wrong with the arguments for the group of a round that checks them together has been
found before the round (`perform_waits`), and that is no less than the program does
(`checked_together_although_invalid`).
-/

namespace ObjectValidation

open Run

/-! ### What a computation adds to a journal -/

/-- Whether a check is for an object and a group, and the constraint is one that `D` has at that path
and value. Nothing is said of events that are no checks. -/
def Event.Checks (object : Option ObjectId) (group : TypeName)
    (D : BoundConstraint → Path → Value → Prop) : Event → Prop
  | .checked object' path b group' value => object' = object ∧ group' = group ∧ D b path value
  | _ => True

theorem Event.Checks.mono {object : Option ObjectId} {group : TypeName}
    {D D' : BoundConstraint → Path → Value → Prop} {e : Event} (h : e.Checks object group D)
    (hD : ∀ b path value, D b path value → D' b path value) : e.Checks object group D' := by
  cases e with
  | checked => exact ⟨h.1, h.2.1, hD _ _ _ h.2.2⟩
  | _ => trivial

/-- Whether the second progress has, in its journal, the events of the first one and behind them only
events with `A`. -/
def Progress.Adds (A : Event → Prop) (p q : Progress) : Prop :=
  ∃ es, q.journal = p.journal ++ es ∧ ∀ e ∈ es, A e

namespace Progress

/-- Whether the progress is that of a call that has just begun. -/
structure IsFresh (o : Progress) : Prop where
  violations : o.violations = []
  journal : o.journal = []
  done : o.processedConstraints = []

variable {A : Event → Prop} {p q : Progress}

theorem Adds.refl (A : Event → Prop) (p : Progress) : p.Adds A p := ⟨[], by simp, by simp⟩

theorem Adds.append (h : p.Adds A q) {e : Event} (he : A e) :
    p.Adds A { q with journal := q.journal ++ [e] } := by
  obtain ⟨es, hj, hes⟩ := h
  refine ⟨es ++ [e], by simp [hj], fun e' he' => ?_⟩
  rcases List.mem_append.1 he' with he' | he'
  · exact hes e' he'
  · exact List.mem_singleton.1 he' ▸ he

theorem Adds.journal_eq (h : p.Adds A q) : q.journal = p.journal ++ q.since p := by
  obtain ⟨es, hj, -⟩ := h
  simp [since, hj]

theorem Adds.of_mem_since (h : p.Adds A q) {e : Event} (he : e ∈ q.since p) : A e := by
  obtain ⟨es, hj, hes⟩ := h
  exact hes e (by simpa [since, hj] using he)

end Progress

namespace Call

variable {c : Call}

/-- A check adds itself, if anything, whichever way it ends. -/
theorem checkConstraint_adds {s : Subject} {group : TypeName} {value : Value} {path : Path}
    {b : BoundConstraint} {D : BoundConstraint → Path → Value → Prop} (h : D b path value)
    (p : Progress) :
    Keeps (c.checkConstraint s group value path b) (p.Adds (·.Checks s.object group D)) := by
  refine meets_checkConstraint (fun _ _ hq => hq) (fun _ q hq => hq.append ⟨rfl, rfl, h⟩)
    (fun q e he hq => hq.append ?_) (fun _ _ hq => hq) fun _ hq _ => hq
  cases e with
  | checked => cases he
  | _ => trivial

/-! ### What is told of all events of a call -/

/-- Whether something is so of all events of a journal. -/
def Told (Φ : List Event → Event → Prop) (p : Progress) : Prop := ∀ e ∈ p.journal, Φ p.journal e

variable {Φ : List Event → Event → Prop} {p q : Progress}

theorem Told.append (h : Told Φ p) (hΦ : Lasting Φ) {es : List Event}
    (hj : q.journal = p.journal ++ es) (hes : ∀ e ∈ es, Φ q.journal e) : Told Φ q := by
  intro e he
  rw [hj] at he
  rcases List.mem_append.1 he with he | he
  · rw [hj]
    exact hΦ.mono _ _ _ (h e he)
  · exact hes e he

section

variable (hΦ : Lasting Φ)

include hΦ

theorem Told.trace (h : Told Φ p) {e : Event} (he : e.isTrace) :
    Told Φ { p with journal := p.journal ++ [e] } := by
  refine h.append hΦ rfl fun e' he' => ?_
  rw [List.mem_singleton.1 he']
  exact hΦ.trace _ e he

/-- What can be told of the walk of a subject is told whichever way the walk ends. -/
theorem told_runGroup {s : Subject} {group : TypeName} (h : c.Tells Φ s group) :
    Meets (c.runGroup s group) (fun p => c.Coherent p ∧ Told Φ p) Any fun _ => Told Φ := by
  let began : Event := .began s.object s.path group
  let I (p : Progress) : Prop := c.Coherent p ∧ Told Φ p ∧ began ∈ p.journal
  have hwalk : KeptByWalk c s I (fun _ => Told Φ) (c.Serves s.metadata.hierarchy group)
      (· ∈ c.demanded s group) := by
    refine ⟨⟨fun type m _ => ?_, fun g b hg hb => ?_, fun g _ => ?_⟩, ?_⟩
    · exact meets_defaultMeaning (fun _ _ hp => hp.2.1)
        (fun _ _ _ hp => ⟨hp.1, hp.2.1.trace hΦ rfl, List.mem_append_left _ hp.2.2⟩)
        (fun _ _ hp => hp) s.object m
    · refine meets_checkBound_of fun path value hplace => ?_
      refine meets_checkConstraint (fun _ _ hp => hp.2.1) (fun ha p hp => ?_)
        (fun p e he hp => ?_) (fun _ _ hp => hp) fun _ hp _ => hp
      · refine ⟨hp.1, hp.2.1.append hΦ rfl fun e he => ?_, List.mem_append_left _ hp.2.2⟩
        rw [List.mem_singleton.1 he]
        exact h.checked _ g b path value (List.mem_append_left _ hp.2.2) hg hb ha hplace
      · exact ⟨hp.1, hp.2.1.trace hΦ (Event.isTrace_of_isConsulted he),
          List.mem_append_left _ hp.2.2⟩
    · refine meets_markProcessed fun p q hp hm => ?_
      have hcoherent := hp.1
      unfold Coherent at hcoherent
      rw [← hm.memory] at hcoherent
      refine ⟨hcoherent, ?_, hm.journal ▸ hp.2.2⟩
      intro e he
      rw [hm.journal] at he ⊢
      exact hp.2.1 e he
    · exact meets_metadataOf (fun p hp => hp.1) (fun _ _ hp => hp.2.1) fun _ _ hcache hp =>
        ⟨hcache, hp.2⟩
  refine hwalk.runGroup (fun _ => id) (fun _ => id) (fun p hp => ?_) fun p hp => ⟨hp.1, hp.2.1⟩
  refine ⟨hp.1, hp.2.append hΦ rfl fun e he => ?_, by simp [began]⟩
  rw [List.mem_singleton.1 he]
  exact h.began _

theorem told_cascades (h : ∀ s, c.Knows s → ∀ group, c.Tells Φ s group) :
    KeptByCascades c (fun p => c.Coherent p ∧ Told Φ p) fun _ => Told Φ where
  failed _ _ hp := hp.2
  exhausted _ hp := hp.2
  metadata := meets_metadataOf (fun _ hp => hp.1) (fun _ _ hp => hp.2) fun _ _ hcache hp =>
    ⟨hcache, hp.2⟩
  meaning object _ m _ := meets_defaultMeaning (fun _ _ hp => hp.2)
    (fun _ _ _ hp => ⟨hp.1, hp.2.trace hΦ rfl⟩) (fun _ _ hp => hp) object m
  expand := meets_expanding (fun _ _ hp => hp.2) fun _ _ hp => hp
  chain _ _ hp := hp
  halted _ _ _ hp := hp
  group s group hs := told_runGroup hΦ (h s hs group)

end

/-! ### Rounds -/

section

variable (c : Call) (s : Subject) (e : ExecutableMetadata) (path : Path) (values : List Value)
  (group : TypeName)

/-- Whether a constraint is one that a parameter has, on its argument. -/
def OfArgument (b : BoundConstraint) (at_ : Path) (value : Value) : Prop :=
  ∃ x ∈ e.parameters.zip values, b ∈ x.1.constraints ∧ at_ = path.property x.1.name ∧ value = x.2

/-- Whether a constraint is one that is put on all arguments together. -/
def OfAllArguments (b : BoundConstraint) (at_ : Path) (value : Value) : Prop :=
  b ∈ e.crossParameter ∧ at_ = path.crossParameter ∧ value = .list values

/-- A round of checks of the arguments of an executable for a group, behind what the journal has
before. Each argument is checked on its own, except that a constraint of several groups may have been
checked before the round. -/
structure Round (before round : List Event) : Prop where
  checks : ∀ event ∈ round, event.Checks s.object group fun b at_ value =>
    OfArgument e path values b at_ value ∨ OfAllArguments e path values b at_ value
  arguments : ∀ b at_ value, OfArgument e path values b at_ value → b.appliesTo group →
    .checked s.object at_ b group value ∈ round ∨
      (1 < b.groups.length ∧ ∃ g, .checked s.object at_ b g value ∈ before)

/-- Whether all that the constraints of parameters for a group find wrong with the arguments has been
found before. -/
def KnowsFaults (before : List Event) : Prop :=
  ∀ b at_ value, OfArgument e path values b at_ value → b.appliesTo group →
    ∃ vs, c.failures s.object at_ value b = .ok vs ∧
      ∀ w ∈ vs, ∃ earlier ∈ before, ∃ u ∈ c.found earlier, u.key = w.key

/-- What is so of the checks in a journal: those of all arguments together are part of rounds, in front
of which all that is wrong with the arguments has been found. -/
def InRounds (j : List Event) : Event → Prop
  | .checked object at_ b group value => c.Owns b ∧
      (∀ index, b.location = .parameter index → OfArgument e path values b at_ value) ∧
      (b.location = .crossParameter → ∃ before round, before ++ round <+: j ∧
        .checked object at_ b group value ∈ round ∧ Round s e path values group before round ∧
        c.KnowsFaults s e path values group before)
  | _ => True

end

variable {s : Subject} {e : ExecutableMetadata} {path : Path} {values : List Value}
  {group : TypeName}

theorem inRounds_lasting : Lasting (c.InRounds s e path values) where
  mono j added event h := by
    cases event with
    | checked object at_ b group value =>
      obtain ⟨howns, hargument, hcross⟩ := h
      refine ⟨howns, hargument, fun hb => ?_⟩
      obtain ⟨before, round, hprefix, hrest⟩ := hcross hb
      exact ⟨before, round, hprefix.trans (List.prefix_append _ _), hrest⟩
    | _ => trivial
  trace j event h := by
    cases event with
    | checked => cases h
    | _ => trivial

/-- Objects are not checked by what executables demand. -/
theorem Knows.tells_inRounds {s' : Subject} (hs : c.Knows s') (group : TypeName) :
    c.Tells (c.InRounds s e path values) s' group := by
  obtain ⟨x, -, hm⟩ := hs.object
  refine ⟨fun _ => trivial, fun j g b at_ value _ _ hb _ hplace => ?_⟩
  have hinstance : (∀ index, b.location ≠ .parameter index) ∧ b.location ≠ .crossParameter := by
    unfold Subject.place at hplace
    split at hplace
    · split at hplace <;> simp_all
    · cases hplace
  exact ⟨owns_of_mem_demanded hm hb, fun index h => absurd h (hinstance.1 index),
    fun h => absurd h hinstance.2⟩

section

variable {type : TypeName} (hm : c.Assembles type s.metadata)
  (he : e ∈ s.metadata.methods ++ s.metadata.constructors)

include hm he

theorem owns_of_mem_executable {b : BoundConstraint} (hb : b ∈ e.constraints) : c.Owns b :=
  owns_of_mem hm (List.mem_append_right _ (List.mem_flatMap.2 ⟨e, he, hb⟩))

/-- A constraint of a parameter tells which argument it is for. -/
theorem location_of_mem_zip {x : ParameterMetadata × Value} (hx : x ∈ e.parameters.zip values) :
    ∃ index, (e.parameters.zip values)[index]? = some x ∧
      ∀ b ∈ x.1.constraints, b.location = .parameter index := by
  obtain ⟨index, hindex⟩ := List.mem_iff_getElem?.1 hx
  exact ⟨index, hindex, (Metadata.location_of_mem_arguments hm he).1 index x.1
    (List.getElem?_zip_eq_some.1 hindex).1⟩

theorem OfArgument.unique {b : BoundConstraint} {at_ at' : Path} {value value' : Value}
    (h : OfArgument e path values b at_ value) (h' : OfArgument e path values b at' value') :
    at_ = at' ∧ value = value' := by
  obtain ⟨x, hx, hb, rfl, rfl⟩ := h
  obtain ⟨x', hx', hb', rfl, rfl⟩ := h'
  obtain ⟨index, hindex, hl⟩ := location_of_mem_zip hm he hx
  obtain ⟨index', hindex', hl'⟩ := location_of_mem_zip hm he hx'
  obtain rfl : index = index' := Location.parameter.inj ((hl b hb).symm.trans (hl' b hb'))
  obtain rfl : x = x' := Option.some.inj (hindex.symm.trans hindex')
  exact ⟨rfl, rfl⟩

theorem OfArgument.owns {b : BoundConstraint} {at_ : Path} {value : Value}
    (h : OfArgument e path values b at_ value) : c.Owns b := by
  obtain ⟨x, hx, hb, -, -⟩ := h
  exact owns_of_mem_executable hm he (mem_constraints_of_zip hx hb)

theorem OfArgument.exists_location {b : BoundConstraint} {at_ : Path} {value : Value}
    (h : OfArgument e path values b at_ value) : ∃ index, b.location = .parameter index := by
  obtain ⟨x, hx, hb, -, -⟩ := h
  obtain ⟨index, -, hl⟩ := location_of_mem_zip hm he hx
  exact ⟨index, hl b hb⟩

end

/-! ### What a round does -/

theorem checkEach_adds (p : Progress) : Keeps (c.checkEach s e path values group)
    (p.Adds (·.Checks s.object group (OfArgument e path values))) :=
  meets_each fun x hx => meets_each fun _ hb =>
    (checkConstraint_adds ⟨x, hx, hb, rfl, rfl⟩ p).next fun _ => .pure trivial

theorem checkTogether_adds (p : Progress) : Keeps (c.checkTogether s e path values group)
    (p.Adds (·.Checks s.object group (OfAllArguments e path values))) :=
  meets_each fun _ hb => (checkConstraint_adds ⟨hb, rfl, rfl⟩ p).next fun _ => .pure trivial

section

variable {type : TypeName} (hm : c.Assembles type s.metadata)
  (he : e ∈ s.metadata.methods ++ s.metadata.constructors) {o p q : Progress} (ho : o.IsFresh)
  (hp : c.Follows o p) (htold : Told (c.InRounds s e path values) p)

include hm he ho hp htold

/-- A round that has checked each argument on its own, without finding anything new, knows all that is
wrong with them. -/
theorem round_of_checkEach (h : (c.checkEach s e path values group).exec p = (.ok (), q))
    (hq : c.stops q = false) (hnew : q.violations.length = p.violations.length) :
    Round s e path values group p.journal (q.since p) ∧
      c.KnowsFaults s e path values group p.journal := by
  have hpq := (follows_checkEach group p).kept h (.refl hp.remembers)
  have hadds := (checkEach_adds p).kept h (.refl _ p)
  have hstops := stops_eq_false hpq.extends hq
  have hrepeats := (length_violations_iff hpq.accounts hq).1 hnew
  have hsince : p.since o = p.journal := by simp [Progress.since, ho.journal]
  have hchecked : ∀ b at_ value, OfArgument e path values b at_ value → b.appliesTo group →
      .checked s.object at_ b group value ∈ q.since p ∨
        (1 < b.groups.length ∧ ∃ g, .checked s.object at_ b g value ∈ p.journal) := by
    rintro b at_ value hof ha
    obtain ⟨index, hlocation⟩ := hof.exists_location hm he
    have hsettled : b.SettledAt s.object at_ value p q := by
      obtain ⟨x, hx, hb, rfl, rfl⟩ := hof
      exact checkEach_settles h hq hp.remembers hx hb ha
    rcases hsettled with ⟨g, hevent⟩ | ⟨hgroups, hmark | ⟨b', g, value', hevent, hk⟩⟩
    · obtain ⟨-, rfl, -⟩ := hadds.of_mem_since hevent
      exact .inl hevent
    · obtain hnone | ⟨b', g, value', hevent, hk⟩ := hp.accounts.done _ hmark
      · simp [ho.done] at hnone
      rw [hsince] at hevent
      obtain ⟨howns, hargument, -⟩ := htold _ hevent
      obtain rfl := howns.eq_of_key_eq (hof.owns hm he) hk
      obtain ⟨-, rfl⟩ := hof.unique hm he (hargument index hlocation)
      exact .inr ⟨hgroups, g, hevent⟩
    · obtain ⟨-, rfl, hof'⟩ := hadds.of_mem_since hevent
      obtain rfl := (hof'.owns hm he).eq_of_key_eq (hof.owns hm he) hk
      obtain ⟨-, rfl⟩ := hof.unique hm he hof'
      exact .inl hevent
  refine ⟨⟨fun event hevent => (hadds.of_mem_since hevent).mono fun _ _ _ => .inl, hchecked⟩, ?_⟩
  intro b at_ value hof ha
  rcases hchecked b at_ value hof ha with hevent | ⟨-, g, hevent⟩
  · obtain ⟨vs, hvs⟩ := hpq.accounts.evaluated hq _ _ _ _ _ hevent
    refine ⟨vs, hvs, fun w hw => ?_⟩
    obtain ⟨u, hu, hk⟩ := hrepeats _ hevent w (by rwa [found_checked hvs])
    rw [hp.accounts.found hstops, hsince, ho.violations] at hu
    obtain ⟨earlier, hearlier, hu⟩ :=
      List.mem_flatMap.1 ((Violation.mem_addAll hu).resolve_left (by simp))
    exact ⟨earlier, hearlier, u, hu, hk⟩
  · obtain ⟨vs, hvs⟩ := hp.accounts.evaluated hstops _ _ _ _ _ (hsince ▸ hevent)
    exact ⟨vs, hvs, fun w hw => ⟨_, hevent, w, by rwa [found_checked hvs], rfl⟩⟩

omit ho hp in
theorem told_checkEach :
    Told (c.InRounds s e path values) ((c.checkEach s e path values group).exec p).2 := by
  have hadds : p.Adds (·.Checks s.object group (OfArgument e path values))
      ((c.checkEach s e path values group).exec p).2 := (checkEach_adds p).ends (.refl _ p)
  refine htold.append inRounds_lasting hadds.journal_eq fun event hevent => ?_
  have hof := hadds.of_mem_since hevent
  cases event with
  | checked object at_ b g value =>
    obtain ⟨index, hl⟩ := hof.2.2.exists_location hm he
    exact ⟨hof.2.2.owns hm he, fun _ _ => hof.2.2, fun hcross => by simp [hl] at hcross⟩
  | _ => trivial

/-- What a round checks on all arguments together belongs to the round. -/
theorem told_checkTogether (h : (c.checkEach s e path values group).exec p = (.ok (), q))
    (hnew : q.violations.length = p.violations.length) :
    Told (c.InRounds s e path values) ((c.checkTogether s e path values group).exec q).2 := by
  have hpq : p.Adds (·.Checks s.object group (OfArgument e path values)) q :=
    (checkEach_adds p).kept h (.refl _ p)
  have hq : Told (c.InRounds s e path values) q := by
    have hends : Told (c.InRounds s e path values)
      ((c.checkEach s e path values group).exec p).2 := told_checkEach hm he htold
    rwa [h] at hends
  cases hstops : c.stops q with
  | true =>
    unfold checkTogether
    rw [exec_each_of_stops hstops]
    exact hq
  | false =>
    obtain ⟨hround, hknows⟩ := round_of_checkEach hm he ho hp htold h hstops hnew
    generalize hr : ((c.checkTogether s e path values group).exec q).2 = r
    have hqr : q.Adds (·.Checks s.object group (OfAllArguments e path values)) r :=
      hr ▸ (checkTogether_adds q).ends (.refl _ q)
    refine hq.append inRounds_lasting hqr.journal_eq fun event hevent => ?_
    have hof := hqr.of_mem_since hevent
    cases event with
    | checked object at_ b g value =>
      obtain ⟨rfl, rfl, hall⟩ := hof
      have hl := (Metadata.location_of_mem_arguments hm he).2 b hall.1
      have hb : b ∈ e.constraints := by simp [ExecutableMetadata.constraints, hall.1]
      refine ⟨owns_of_mem_executable hm he hb, fun _ h => by simp [hl] at h, fun _ => ?_⟩
      refine ⟨p.journal, q.since p ++ r.since q, ?_, List.mem_append_right _ hevent, ⟨?_, ?_⟩,
        hknows⟩
      · have hjournal : p.journal ++ (q.since p ++ r.since q) = r.journal := by
          rw [← List.append_assoc, ← hpq.journal_eq, ← hqr.journal_eq]
        exact hjournal ▸ List.prefix_rfl
      · intro event' hevent'
        rcases List.mem_append.1 hevent' with hevent' | hevent'
        · exact hround.checks event' hevent'
        · exact (hqr.of_mem_since hevent').mono fun _ _ _ => .inr
      · intro b' at' value' hof' ha
        exact (hround.arguments b' at' value' hof' ha).imp_left (List.mem_append_left _)
    | _ => trivial

/-- Rounds are told of whichever way they end. -/
theorem told_round : Told (c.InRounds s e path values)
    ((c.checkArguments s e path values group).exec p).2 := by
  have heach : Told (c.InRounds s e path values) ((c.checkEach s e path values group).exec p).2 :=
    told_checkEach hm he htold
  rw [exec_checkArguments]
  cases h : (c.checkEach s e path values group).exec p with
  | mk a q =>
    rw [h] at heach
    cases a with
    | error halt => exact heach
    | ok _ =>
      simp only
      split
      · next hnew => exact told_checkTogether hm he ho hp htold h hnew
      · exact heach

end

/-! ### Operations on arguments -/

/-- Whether the rounds of an executable are told of. -/
abbrev RoundsTold (c : Call) (s : Subject) (e : ExecutableMetadata) (values : List Value) :
    Progress → Prop := Told (c.InRounds s e (Path.executable e.signature.name) values)

/-- What a call that validates arguments keeps from its beginning on. -/
abbrev Attends (c : Call) (s : Subject) (e : ExecutableMetadata) (values : List Value)
    (o p : Progress) : Prop := (c.Coherent p ∧ c.RoundsTold s e values p) ∧ c.Follows o p

theorem roundsTold_cascades : KeptByCascades c (fun p => c.Coherent p ∧ c.RoundsTold s e values p)
    fun _ => c.RoundsTold s e values :=
  told_cascades inRounds_lasting fun _ hs group => hs.tells_inRounds group

theorem attends_validateArguments {type : TypeName} (hm : c.Assembles type s.metadata)
    (he : e ∈ s.metadata.methods ++ s.metadata.constructors) {o : Progress} (ho : o.IsFresh)
    (groups : List TypeName) : Meets (c.validateArguments s e values groups)
      (c.Attends s e values o) Any fun _ => c.RoundsTold s e values := by
  let path := Path.executable e.signature.name
  have htold : KeptByCascades c (fun p => c.Coherent p ∧ c.RoundsTold s e values p)
    fun _ => c.RoundsTold s e values := roundsTold_cascades
  have hfollows := follows_cascades (c := c) o
  have hround (g : TypeName) : Meets (c.checkArguments s e path values g) (c.Attends s e values o) Any
      fun _ => c.RoundsTold s e values := by
    rintro p ⟨⟨-, hp⟩, hop⟩
    have hends : c.RoundsTold s e values ((c.checkArguments s e path values g).exec p).2 :=
      told_round hm he ho hop hp
    cases h : (c.checkArguments s e path values g).exec p with
    | mk a q =>
      rw [h] at hends
      cases a with
      | error halt => exact hends
      | ok _ =>
        have hq := (follows_checkArguments g o).kept h hop
        exact ⟨⟨⟨hq.remembers.coherent, hends⟩, hq⟩, trivial⟩
  have hrest : Meets (do
      let order ← c.orderOf groups
      c.runOrder order (c.runExecutableGroup s.object s.metadata (c.checkArguments s e path values))
        fun group => c.each (argumentSteps e path values group) c.visit
      return (← get).violations) (c.Attends s e values o) Any fun _ => c.RoundsTold s e values := by
    refine ((htold.expand _).both (hfollows.expand _)).any.next fun order => ?_
    refine Meets.next ?_ fun _ => Meets.get.any.next fun _ => .pure trivial
    refine meets_runOrder (fun g => meets_runExecutableGroup ?_ hround) fun g =>
      meets_each fun step _ => ?_
    · exact ((htold.meaning s.object type s.metadata hm).both
        (hfollows.meaning s.object type s.metadata hm)).any
    · exact ((htold.cascade c.depth step).both (hfollows.cascade c.depth step)).any
  unfold Call.validateArguments
  refine .ite (Meets.next (.fail fun _ hp => hp.1.2) fun _ => ?_) ?_
  · exact .ite (.pure trivial) hrest
  · exact .ite (.pure trivial) hrest

end Call

/-- The executable whose arguments an operation validates, with them, for the subject it belongs to. -/
inductive Operation.Passes (c : Call) : Operation → Subject → ExecutableMetadata → List Value → Prop
  | method {object : ObjectId} {signature : Signature} {values : List Value} {groups : List TypeName}
    {metadata : Metadata} {e : ExecutableMetadata} :
    c.Assembles (c.store.typeOf object) metadata → metadata.method? signature = some e →
    Passes c (.arguments object signature values groups)
      { object := some object, metadata, path := .root } e values
  | constructor {type : TypeName} {signature : Signature} {values : List Value}
    {groups : List TypeName} {metadata : Metadata} {e : ExecutableMetadata} :
    c.Assembles type metadata → metadata.constructor? signature = some e →
    Passes c (.constructorArguments type signature values groups)
      { object := none, metadata, path := .root } e values

theorem Call.attends_body {c : Call} {op : Operation} {s : Subject} {e : ExecutableMetadata}
    {values : List Value} (hop : op.Passes c s e values) {o : Progress} (ho : o.IsFresh) :
    Meets (op.body c) (c.Attends s e values o) Any fun _ => c.RoundsTold s e values := by
  have hmetadata (type : TypeName) : Meets (c.metadataOf type) (c.Attends s e values o)
      (c.Assembles type) fun _ => c.RoundsTold s e values :=
    ((roundsTold_cascades.metadata type).both ((follows_cascades o).metadata type)).mono
      fun _ hm => hm.1
  cases hop with
  | method hm hfind =>
    refine (hmetadata _).bind fun m hm' => ?_
    obtain rfl := hm'.unique hm
    simp only [hfind]
    have he : e ∈ m.methods := List.mem_of_find?_eq_some hfind
    exact attends_validateArguments hm (List.mem_append_left _ he) ho _
  | constructor hm hfind =>
    refine (hmetadata _).bind fun m hm' => ?_
    obtain rfl := hm'.unique hm
    simp only [hfind]
    have he : e ∈ m.constructors := List.mem_of_find?_eq_some hfind
    exact attends_validateArguments hm (List.mem_append_right _ he) ho _

namespace Validator

open Call

variable {v : Validator} {op : Operation} {s : Subject} {e : ExecutableMetadata}
  {values : List Value}

/-- A constraint on all arguments together is checked for a group only in a round that has checked the
arguments one by one for that group, and in front of which all that is wrong with them for the group has
been found. So they are valid, unless what is wrong with them has been found for another group or in
another sequence before. -/
theorem perform_waits (hv : v.Coherent) (hop : op.Passes (op.call v) s e values)
    {object : Option ObjectId} {at_ : Path} {b : BoundConstraint} {group : TypeName} {value : Value}
    (h : .checked object at_ b group value ∈ (v.perform op).journal)
    (hb : b.location = .crossParameter) :
    ∃ before round, before ++ round <+: (v.perform op).journal ∧
      .checked object at_ b group value ∈ round ∧
      Round s e (Path.executable e.signature.name) values group before round ∧
      (op.call v).KnowsFaults s e (Path.executable e.signature.name) values group before := by
  let c := op.call v
  let o := c.start v.memory
  have hcoherent : c.Coherent o := by
    unfold Call.Coherent
    cases op <;> exact hv
  have hremembers : c.Remembers o := ⟨hcoherent, by simp [o, Call.start]⟩
  have hfresh : o.IsFresh := ⟨rfl, rfl, rfl⟩
  have htold : c.RoundsTold s e values ((op.body c).exec o).2 := by
    have hbody := attends_body hop hfresh o ⟨⟨hcoherent, by simp [Told, o, Call.start]⟩,
      .refl hremembers⟩
    revert hbody
    cases (op.body c).exec o with
    | mk a q =>
      cases a with
      | error halt => exact id
      | ok vs => exact fun hq => hq.1.1.2
  rw [perform_eq, run_eq] at h ⊢
  obtain ⟨-, -, hcross⟩ := htold _ h
  exact hcross hb

/-- A service that takes bookings. The day must not be null for two groups, and for the second one a
booking must have no arguments. -/
def booking : Validator where
  registry := [
    { name := ⟨"A"⟩, kind := .interface },
    { name := ⟨"B"⟩, kind := .interface },
    { name := ⟨"Service"⟩, kind := .concrete, methods := [
      { kind := .method, name := "book", declaredBy := ⟨"Service"⟩, parameters := [
          ⟨"day", ⟨"Integer"⟩,
            { own := { constraints := [{ kind := "NotNull", groups := [⟨"A"⟩, ⟨"B"⟩] }] } }⟩],
        returnType := none, returnValue := {}, crossParameter := [
          { kind := "Size", groups := [⟨"B"⟩], attributes := [("max", .int 0)] }],
        isPrivate := false, isStatic := false }] : TypeDefinition }
    ].foldl Registry.register .initial
  evaluators := Standard.evaluators
  config := {}
  store := ⟨[(⟨"s"⟩, ⟨⟨"Service"⟩, []⟩)]⟩
  memory := {}

/-- Books a day. -/
def booking.book (day : Value) : Operation :=
  .arguments ⟨"s"⟩ (.of "book" [⟨"Integer"⟩]) [day] [⟨"A"⟩, ⟨"B"⟩]

/-- The metadata of the service. -/
def booking.service : Metadata :=
  (Metadata.assemble booking.registry booking.config.methodRules ⟨"Service"⟩).toOption.get
    (by decide +kernel)

/-- What the service demands of bookings. -/
def booking.method : ExecutableMetadata :=
  (booking.service.method? (.of "book" [⟨"Integer"⟩])).get (by decide +kernel)

theorem booking.passes (day : Value) : (book day).Passes ((book day).call booking)
    { object := some ⟨"s"⟩, metadata := service, path := .root } method [day] :=
  .method (toOption_eq_some (Option.some_get _).symm) (Option.some_get _).symm

/-- Whether an event is that all arguments together are checked for the second group. -/
def booking.checksTogether : Event → Bool
  | .checked _ _ b group _ => b.location = .crossParameter && group = ⟨"B"⟩
  | _ => false

theorem booking.of_checksTogether {event : Event} (h : checksTogether event) :
    ∃ object at_ b value, event = .checked object at_ b ⟨"B"⟩ value ∧
      b.location = .crossParameter := by
  unfold checksTogether at h
  split at h
  · next object at_ b group value =>
    simp only [Bool.and_eq_true, decide_eq_true_eq] at h
    obtain ⟨hb, rfl⟩ := h
    exact ⟨object, at_, b, value, rfl, hb⟩
  · cases h

/-- If a day is given, all arguments are checked together behind a round that knows what is wrong with
them. -/
theorem perform_waits_booking :
    ∃ object at_ b value, b.location = .crossParameter ∧ ∃ before round,
      .checked object at_ b ⟨"B"⟩ value ∈ round ∧
      before ++ round <+: (booking.perform (booking.book (.int 3))).journal ∧
      ((booking.book (.int 3)).call booking).KnowsFaults
        { object := some ⟨"s"⟩, metadata := booking.service, path := .root } booking.method
        (Path.executable booking.method.signature.name) [.int 3] ⟨"B"⟩ before := by
  have hany : (booking.perform (booking.book (.int 3))).journal.any booking.checksTogether := by
    decide +kernel
  obtain ⟨event, hevent, htogether⟩ := List.any_eq_true.1 hany
  obtain ⟨object, at_, b, value, rfl, hb⟩ := booking.of_checksTogether htogether
  obtain ⟨before, round, hprefix, hround, -, hknows⟩ :=
    perform_waits (v := booking) (MetadataCache.coherent_nil _ _) (booking.passes (.int 3)) hevent hb
  exact ⟨object, at_, b, value, hb, before, round, hround, hprefix, hknows⟩

/-- If no day is given, all arguments are checked together for the second group, although the one
argument is not valid for it: that has been found for the first group. -/
theorem checked_together_although_invalid :
    let op := booking.book .null
    let c := op.call booking
    let s : Subject := { object := some ⟨"s"⟩, metadata := booking.service, path := .root }
    op.Passes c s booking.method [.null] ∧
      (∃ object at_ b value, b.location = .crossParameter ∧
        .checked object at_ b ⟨"B"⟩ value ∈ (booking.perform op).journal) ∧
      ∃ b at_ value, OfArgument booking.method (Path.executable booking.method.signature.name) [.null]
        b at_ value ∧ b.appliesTo ⟨"B"⟩ ∧ ∃ vs, c.failures s.object at_ value b = .ok vs ∧ vs ≠ [] := by
  intro op c s
  refine ⟨booking.passes .null, ?_, ?_⟩
  · have hany : (booking.perform op).journal.any booking.checksTogether := by decide +kernel
    obtain ⟨event, hevent, htogether⟩ := List.any_eq_true.1 hany
    obtain ⟨object, at_, b, value, rfl, hb⟩ := booking.of_checksTogether htogether
    exact ⟨object, at_, b, value, hb, hevent⟩
  · have h : ∃ x ∈ booking.method.parameters.zip [Value.null], ∃ b ∈ x.1.constraints,
        b.appliesTo ⟨"B"⟩ ∧ ∃ vs ∈ (c.failures s.object
          ((Path.executable booking.method.signature.name).property x.1.name) x.2 b).toOption,
          vs ≠ [] := by decide +kernel
    obtain ⟨x, hx, b, hb, ha, vs, hvs, hne⟩ := h
    exact ⟨b, _, x.2, ⟨x, hx, hb, rfl, rfl⟩, ha, vs, toOption_eq_some hvs, hne⟩

end Validator

end ObjectValidation
