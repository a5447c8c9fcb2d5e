import ObjectValidation.Proofs.Frame
/-!
# What a walk checks

A walk that is not stopped leaves none of the constraints that it has to check aside: each has been
checked in the walk or, if it has several groups, may have been done before (`Settled`). A walk by a
redefined default group breaks off where a check fails, so this is said of walks that find nothing,
or that no redefinition governs.
-/

namespace ObjectValidation

open Run

/-- Whether the event is one that a check or a question leaves by the way. -/
def Event.isTrace : Event → Bool
  | .consulted .. | .asked .. => true
  | _ => false

/-- Whether the event is that a check was made at an object and a path for a group. -/
def Event.isCheckAt (object : ObjectId) (path : Path) (group : TypeName) : Event → Bool
  | .checked o p _ g _ => o = some object && p = path && g = group
  | _ => false

/-- Whether the event is that the walk of an object at a path for a group began. -/
def Event.isBeginAt (object : ObjectId) (path : Path) (group : TypeName) : Event → Bool
  | .began o p g => o = some object && p = path && g = group
  | _ => false

theorem Event.isBeginAt_iff {object : ObjectId} {path : Path} {group : TypeName} {e : Event} :
    e.isBeginAt object path group ↔ e = .began (some object) path group := by
  cases e <;> simp [isBeginAt, and_assoc]

theorem Event.isTrace_of_isConsulted {e : Event} (h : e.isConsulted) : e.isTrace := by
  cases e <;> simp_all [isConsulted, isTrace]

/-- Whether a constraint has been checked on a value at a path between two progresses; one of several
groups may have been done before the first. -/
def BoundConstraint.SettledAt (b : BoundConstraint) (object : Option ObjectId) (path : Path)
    (value : Value) (p q : Progress) : Prop :=
  (∃ group, .checked object path b group value ∈ q.since p) ∨
  (1 < b.groups.length ∧ ((object, path, b.key) ∈ p.processedConstraints ∨
    ∃ b' group value', .checked object path b' group value' ∈ q.since p ∧ b'.key = b.key))

namespace Call

variable {c : Call}

theorem checkBound_eq (s : Subject) (group : TypeName) (b : BoundConstraint) :
    c.checkBound s group b =
      match s.place c.store b with
      | some (path, value) => c.checkConstraint s group value path b
      | none => return true := by
  unfold Call.checkBound Subject.place
  cases b.location <;> split <;> rfl

/-- A constraint of an object applies to nothing of the subject that counts, or it is checked on the value
that it applies to. -/
theorem checkBound_ok {s : Subject} {group : TypeName} {b : BoundConstraint} {p q : Progress}
    {holds : Bool} (h : (c.checkBound s group b).exec p = (.ok holds, q)) :
    (s.place c.store b = none ∧ holds = true ∧ q = p) ∨
    ∃ path value, s.place c.store b = some (path, value) ∧
      (c.checkConstraint s group value path b).exec p = (.ok holds, q) := by
  rw [checkBound_eq] at h
  cases hplace : s.place c.store b with
  | none =>
    rw [hplace] at h
    cases h
    exact .inl ⟨rfl, rfl, rfl⟩
  | some target =>
    rw [hplace] at h
    exact .inr ⟨target.1, target.2, rfl, h⟩

/-- What the check on the value that a constraint applies to keeps is kept where it applies to none. -/
theorem meets_checkBound_of {I : Progress → Prop} {E : Halt → Progress → Prop} {s : Subject}
    {group : TypeName} {b : BoundConstraint} (h : ∀ path value, s.place c.store b = some (path, value) →
      Meets (c.checkConstraint s group value path b) I Any E) :
    Meets (c.checkBound s group b) I Any E := by
  rw [checkBound_eq]
  split
  · next path value hplace => exact h path value hplace
  · exact .pure trivial

/-- No check that has been made since the first progress found anything wrong. -/
def FindsNothing (c : Call) (p q : Progress) : Prop := ∀ e ∈ q.since p, c.found e = []

theorem findsNothing_trans {p q r : Progress} (h : p.Extends q) (h' : q.Extends r) :
    c.FindsNothing p r ↔ c.FindsNothing p q ∧ c.FindsNothing q r := by
  simp [FindsNothing, h.since_append h', or_imp, forall_and]

theorem FindsNothing.refl (p : Progress) : c.FindsNothing p p := by simp [FindsNothing]

/-- Whether a constraint of the subject is settled where it applies. -/
def Settled (c : Call) (s : Subject) (b : BoundConstraint) (p q : Progress) : Prop :=
  ∀ path value, s.place c.store b = some (path, value) → b.SettledAt s.object path value p q

/-- What is settled between two progresses is settled between an earlier and a later one. -/
theorem settledAt_widen {object : Option ObjectId} {b : BoundConstraint} {path : Path}
    {value : Value} {o p q r : Progress} (h : b.SettledAt object path value p q)
    (hp : c.Accounts o p) (hpq : p.Extends q) (hqr : q.Extends r) :
    b.SettledAt object path value o r := by
  have hop := hp.toExtends
  have hsub : q.since p ⊆ r.since o := fun e he =>
    hop.since_subset (hpq.trans hqr) (hpq.subset_since hqr he)
  rcases h with ⟨g, he⟩ | ⟨hgroups, hdone⟩
  · exact .inl ⟨g, hsub he⟩
  · refine .inr ⟨hgroups, ?_⟩
    rcases hdone with hmark | ⟨b', g, v, he, hk⟩
    · refine (hp.done _ hmark).imp id fun ⟨b', g, v, he, hk⟩ => ⟨b', g, v, ?_, hk⟩
      exact hop.subset_since (hpq.trans hqr) he
    · exact .inr ⟨b', g, v, hsub he, hk⟩

theorem Settled.widen {s : Subject} {b : BoundConstraint} {o p q r : Progress}
    (h : c.Settled s b p q) (hp : c.Accounts o p) (hpq : p.Extends q) (hqr : q.Extends r) :
    c.Settled s b o r := fun path value hplace => settledAt_widen (h path value hplace) hp hpq hqr

/-! ### Checks -/

theorem checkConstraint_accounts {s : Subject} {group : TypeName} {value : Value} {path : Path}
    {b : BoundConstraint} {p : Progress} :
    Meets (c.checkConstraint s group value path b) (c.Accounts p) Any AnyHalt :=
  .of_ok fun _ _ _ hq hexec => ⟨hq.check hexec, trivial⟩

/-- What a check adds to the journal. -/
theorem checkConstraint_journal {s : Subject} {group : TypeName} {value : Value} {path : Path}
    {b : BoundConstraint} {p q : Progress} {holds : Bool}
    (h : (c.checkConstraint s group value path b).exec p = (.ok holds, q)) :
    ∃ es, q.journal = p.journal ++ es ∧ ∀ e ∈ es, e.isTrace ∨
      (b.appliesTo group ∧ e = .checked s.object path b group value) := by
  cases ha : b.appliesTo group with
  | false =>
    rw [exec_checkConstraint_of_done (.inl ha)] at h
    cases h
    exact ⟨[], by simp, by simp⟩
  | true =>
    rcases checkConstraint_ok h with ⟨rfl, -, -⟩ | ⟨es, vs, hes, rfl, -⟩
    · exact ⟨[], by simp, by simp⟩
    · refine ⟨.checked s.object path b group value :: es, rfl, ?_⟩
      intro e he
      rcases List.mem_cons.1 he with rfl | he
      · exact .inr ⟨rfl, rfl⟩
      · exact .inl (Event.isTrace_of_isConsulted (hes e he))

/-- What a check answers is whether it finds nothing. -/
theorem checkConstraint_holds {s : Subject} {group : TypeName} {value : Value} {path : Path}
    {b : BoundConstraint} {p q : Progress} {holds : Bool}
    (h : (c.checkConstraint s group value path b).exec p = (.ok holds, q))
    (hq : c.stops q = false) : holds = true ↔ c.FindsNothing p q := by
  rcases checkConstraint_ok h with ⟨rfl, rfl, -⟩ | ⟨es, vs, hes, rfl, hvs⟩
  · simp [FindsNothing.refl]
  · obtain ⟨hfail, rfl⟩ := hvs hq
    have hsince : ((p.after (.checked s.object path b group value :: es) vs).noting s.object path
        b).since p = .checked s.object path b group value :: es := by
      simp [Progress.since, Progress.after, Progress.noting]
    simp only [FindsNothing, hsince, List.mem_cons, forall_eq_or_imp, found_checked hfail,
      List.isEmpty_iff]
    exact ⟨fun h => ⟨h, fun e he => found_consulted (hes e he)⟩, fun h => h.1⟩

theorem checkConstraint_settles {s : Subject} {group : TypeName} {value : Value} {path : Path}
    {b : BoundConstraint} {p q : Progress} {holds : Bool}
    (h : (c.checkConstraint s group value path b).exec p = (.ok holds, q))
    (hb : b.appliesTo group) : b.SettledAt s.object path value p q := by
  rcases checkConstraint_ok h with ⟨rfl, -, hskip⟩ | ⟨es, vs, hes, rfl, hvs⟩
  · obtain ⟨hgroups, hmark⟩ := hskip.resolve_left (by simp [hb])
    exact .inr ⟨hgroups, .inl hmark⟩
  · left
    exact ⟨group, by simp [Progress.since, Progress.after, Progress.noting]⟩

/-- What a computation of checks achieves that is not stopped. -/
structure Covers (c : Call) (s : Subject) (bs : List BoundConstraint) (gs : List TypeName)
    (holds : Bool) (p q : Progress) : Prop extends c.Accounts p q where
  holds_iff : holds = true ↔ c.FindsNothing p q
  settled : ∀ group ∈ gs, ∀ b ∈ bs, b.appliesTo group → c.Settled s b p q
  /-- Nothing else has been checked. -/
  checks : ∀ object path b group value, .checked object path b group value ∈ q.since p →
    object = s.object ∧ b ∈ bs ∧ s.place c.store b = some (path, value)

theorem checkBound_covers {s : Subject} {group : TypeName} {b : BoundConstraint} {p q : Progress}
    {holds : Bool} (h : (c.checkBound s group b).exec p = (.ok holds, q))
    (hq : c.stops q = false) : c.Covers s [b] [group] holds p q := by
  rcases checkBound_ok h with ⟨hplace, rfl, rfl⟩ | ⟨path, value, hplace, h⟩
  · refine ⟨.refl c q, by simp [FindsNothing.refl], ?_, by simp⟩
    intro g hg b' hb' _ path value hp
    simp_all
  · refine ⟨(Accounts.refl c p).check h, checkConstraint_holds h hq, ?_, ?_⟩
    · intro g hg b' hb' ha
      simp only [List.mem_singleton] at hg hb'
      subst hg hb'
      intro path' value' hp
      rw [hplace] at hp
      cases hp
      exact checkConstraint_settles h ha
    · intro object path' b' g value' he
      obtain ⟨es, hj, hes⟩ := checkConstraint_journal h
      have hsince : q.since p = es := by simp [Progress.since, hj]
      rcases hes _ (hsince ▸ he) with htrace | ⟨-, he⟩
      · simp [Event.isTrace] at htrace
      · cases he
        exact ⟨rfl, List.mem_singleton.2 rfl, hplace⟩

theorem Covers.append {s : Subject} {bs bs' : List BoundConstraint} {gs : List TypeName}
    {holds holds' : Bool} {p q r : Progress} (h : c.Covers s bs gs holds p q)
    (h' : c.Covers s bs' gs holds' q r) : c.Covers s (bs ++ bs') gs (holds && holds') p r := by
  refine ⟨h.toAccounts.trans h'.toAccounts, ?_, ?_, ?_⟩
  · rw [Bool.and_eq_true, h.holds_iff, h'.holds_iff,
      findsNothing_trans h.toExtends h'.toExtends]
  · intro g hg b hb ha
    rcases List.mem_append.1 hb with hb | hb
    · exact (h.settled g hg b hb ha).widen (.refl c p) h.toExtends h'.toExtends
    · exact (h'.settled g hg b hb ha).widen h.toAccounts h'.toExtends (.refl r)
  · intro o path b g v he
    rw [h.since_append h'.toExtends] at he
    rcases List.mem_append.1 he with he | he
    · exact (h.checks o path b g v he).imp_right fun hb => ⟨List.mem_append_left _ hb.1, hb.2⟩
    · exact (h'.checks o path b g v he).imp_right fun hb => ⟨List.mem_append_right _ hb.1, hb.2⟩

theorem checkBound_accounts {s : Subject} {group : TypeName} {b : BoundConstraint} {p : Progress} :
    Meets (c.checkBound s group b) (c.Accounts p) Any AnyHalt :=
  meets_checkBound_of fun _ _ _ => checkConstraint_accounts

theorem checkAll_covers {s : Subject} {group : TypeName} : ∀ {bs : List BoundConstraint}
    {p q : Progress} {holds : Bool}, (c.checkAll s bs group).exec p = (.ok holds, q) →
    c.stops q = false → c.Covers s bs [group] holds p q
  | [], p, q, holds, h, _ => by
    cases h
    exact ⟨.refl c p, by simp [FindsNothing.refl], by simp, by simp⟩
  | b :: bs, p, q, holds, h, hq => by
    have hacc : c.Accounts p q :=
      (meets_allHold fun _ _ => checkBound_accounts).kept h (.refl c p)
    have hp := stops_eq_false hacc.toExtends hq
    unfold Call.checkAll at h
    simp only [exec_allHold_cons, hp, Bool.false_eq_true, if_false] at h
    obtain ⟨first, r, hfirst, h⟩ := exec_bind_ok.1 h
    obtain ⟨others, r', hothers, h⟩ := exec_bind_ok.1 h
    cases h
    have hrest := checkAll_covers hothers hq
    have hr := stops_eq_false hrest.toExtends hq
    exact (checkBound_covers hfirst hr).append hrest

/-! ### Marks -/

/-- What it does to the progress to note that a subject has been validated for a group. -/
structure Marks (c : Call) (s : Subject) (group : TypeName) (p q : Progress) : Prop where
  memory : q.memory = p.memory
  journal : q.journal = p.journal
  violations : q.violations = p.violations
  constraints : q.processedConstraints = p.processedConstraints
  chain : q.chain = p.chain
  defaults : q.defaults = p.defaults
  groups_subset : p.processedGroups ⊆ q.processedGroups
  paths_subset : p.processedPaths ⊆ q.processedPaths
  groups : ∀ x ∈ q.processedGroups, x ∈ p.processedGroups ∨ x = (s.object, group)
  paths : ∀ x ∈ q.processedPaths, x ∈ p.processedPaths ∨ x = (s.object, s.path)
  marked : c.config.trackProcessed →
    (s.object, group) ∈ q.processedGroups ∧ (s.object, s.path) ∈ q.processedPaths

theorem exec_markProcessed (s : Subject) (group : TypeName) (p : Progress) :
    ∃ q, (c.markProcessed s group).exec p = (.ok (), q) ∧ c.Marks s group p q := by
  unfold Call.markProcessed
  split
  · refine ⟨_, rfl, rfl, rfl, rfl, rfl, rfl, rfl, ?_, ?_, ?_, ?_, fun _ => ⟨?_, ?_⟩⟩
    all_goals simp only
    all_goals grind
  · next h => exact ⟨p, rfl, rfl, rfl, rfl, rfl, rfl, rfl, fun _ => id, fun _ => id,
      fun _ => .inl, fun _ => .inl, fun h' => absurd h' h⟩

theorem Accounts.mark {p q r : Progress} {s : Subject} {group : TypeName} (h : c.Accounts p q)
    (hm : c.Marks s group q r) : c.Accounts p r :=
  h.add [] (by simp) (by simp [hm.journal]) hm.violations hm.groups_subset hm.paths_subset
    hm.constraints

theorem checkGroup_covers {s : Subject} {bs : List BoundConstraint} {group : TypeName}
    {p q : Progress} {holds : Bool} (h : (c.checkGroup s bs group).exec p = (.ok holds, q))
    (hq : c.stops q = false) : c.Covers s bs [group] holds p q := by
  unfold Call.checkGroup at h
  rw [exec_bind, exec_isStopped] at h
  simp only at h
  split at h
  · next hs =>
    cases h
    simp [hs] at hq
  · obtain ⟨all, r, hall, h⟩ := exec_bind_ok.1 h
    rw [exec_bind, exec_isStopped] at h
    simp only at h
    split at h
    · next hs =>
      cases h
      simp [hs] at hq
    · next hs =>
      obtain ⟨_, r', hmark, h⟩ := exec_bind_ok.1 h
      cases h
      obtain ⟨q', hq', hm⟩ := exec_markProcessed (c := c) s group r
      rw [hq'] at hmark
      cases hmark
      have hcov := checkAll_covers hall (by simpa using hs)
      have hrq := (Accounts.refl c r).mark hm
      have hsince : q.since r = [] := by simp [Progress.since, hm.journal]
      refine ⟨hcov.toAccounts.mark hm, ?_, ?_, ?_⟩
      · rw [hcov.holds_iff, findsNothing_trans hcov.toExtends hrq.toExtends]
        simp [FindsNothing, hsince]
      · intro g hg b hb ha
        exact (hcov.settled g hg b hb ha).widen (.refl c p) hcov.toExtends hrq.toExtends
      · rw [hcov.since_append hrq.toExtends, hsince, List.append_nil]
        exact hcov.checks

theorem checkPosition_covers {s : Subject} {bs : List BoundConstraint} :
    ∀ {position : List Group} {p q : Progress} {holds : Bool},
    (c.checkPosition s bs position).exec p = (.ok holds, q) → c.stops q = false →
    c.Covers s bs (position.map (·.name)) holds p q
  | [], p, q, holds, h, _ => by
    cases h
    exact ⟨.refl c p, by simp [FindsNothing.refl], by simp, by simp⟩
  | g :: rest, p, q, holds, h, hq => by
    obtain ⟨first, r, hfirst, h⟩ := exec_bind_ok.1 h
    obtain ⟨others, r', hothers, h⟩ := exec_bind_ok.1 h
    cases h
    have hrest := checkPosition_covers hothers hq
    have hg := checkGroup_covers hfirst (stops_eq_false hrest.toExtends hq)
    refine ⟨hg.toAccounts.trans hrest.toAccounts, ?_, ?_,
      ?_⟩
    · rw [Bool.and_eq_true, hg.holds_iff, hrest.holds_iff,
        findsNothing_trans hg.toExtends hrest.toExtends]
    · intro g' hg' b hb ha
      rw [List.map_cons] at hg'
      rcases List.mem_cons.1 hg' with rfl | hg'
      · exact (hg.settled _ (by simp) b hb ha).widen (.refl c p) hg.toExtends hrest.toExtends
      · exact (hrest.settled g' hg' b hb ha).widen hg.toAccounts hrest.toExtends (.refl q)
    · intro o path b g' v he
      rw [hg.since_append hrest.toExtends] at he
      exact (List.mem_append.1 he).elim (hg.checks o path b g' v) (hrest.checks o path b g' v)

/-! ### What is remembered of default groups -/

/-- Whether an order may stand for the default group of a type: it runs the default group, alone if
the type does not redefine it. -/
structure Means (c : Call) (m : Metadata) (d : DefaultMeaning) : Prop where
  ordinary : m.redefinesDefault = false → d.order = .default
  redefined : c.registry.sequenceMembers? TypeName.defaultGroup = none → m.redefinesDefault →
    d.order.RunsDefault

/-- Whether what is remembered is right: metadata as it would be put together again, and what may
stand for default groups. -/
structure Remembers (c : Call) (p : Progress) : Prop where
  coherent : c.Coherent p
  defaults : ∀ object type d, ((object, type), d) ∈ p.defaults →
    ∀ m, c.Assembles type m → c.Means m d

theorem Remembers.congr {p q : Progress} (h : c.Remembers p) (hm : q.memory.metadata =
    p.memory.metadata) (hd : q.defaults = p.defaults) : c.Remembers q where
  coherent := by
    unfold Coherent
    rw [hm]
    exact h.coherent
  defaults := by
    rw [hd]
    exact h.defaults

theorem means_defaultOrder {type : TypeName} {m : Metadata} (hm : c.Assembles type m)
    {groups : List TypeName} (hg : m.hasProvider → TypeName.defaultGroup ∈ groups) {o : Order}
    (ho : m.defaultOrder c.registry groups = .ok o) : c.Means m ⟨groups, o⟩ := by
  unfold Metadata.defaultOrder at ho
  constructor
  · intro hr
    split at ho
    · cases ho
      rfl
    · next hd => simp [Metadata.redefinesDefault, hd] at hr
    · next hd => simp [Metadata.redefinesDefault, hd] at hr
  · intro hs hr
    split at ho
    · next hd => simp [Metadata.redefinesDefault, hd] at hr
    · next listed order hd =>
      cases ho
      exact Metadata.listed_runsDefault hs hm hd
    · next provider hd =>
      exact Order.ofDefaultSequence_runsDefault hs (hg (by simp [Metadata.hasProvider, hd])) ho

theorem defaultGroups_ok {object : Option ObjectId} {m : Metadata} {groups : List TypeName}
    {p q : Progress} (h : (c.defaultGroups object m).exec p = (.ok groups, q)) :
    (m.hasProvider → TypeName.defaultGroup ∈ groups) ∧ q.memory = p.memory ∧
      q.defaults = p.defaults := by
  unfold Call.defaultGroups at h
  split at h
  · next hd =>
    cases h
    simp [Metadata.hasProvider, hd]
  · next hd =>
    cases h
    simp [Metadata.hasProvider, hd]
  · obtain ⟨_, r, hr, h⟩ := exec_bind_ok.1 h
    cases hr
    obtain ⟨hg, rfl⟩ := exec_ofExcept_eq_ok.1 h
    exact ⟨fun _ => default_mem_redefinition hg, rfl, rfl⟩

/-- What the default group is taken to mean is what may stand for it. -/
theorem defaultMeaning_remembers {type : TypeName} {m : Metadata} (hm : c.Assembles type m)
    (object : Option ObjectId) :
    Meets (c.defaultMeaning object m) c.Remembers (c.Means m) AnyHalt := by
  have htype : m.type = type := (Metadata.sources hm).1
  refine .of_ok fun p d q hp hexec => ?_
  unfold Call.defaultMeaning at hexec
  obtain ⟨_, _, hget, h⟩ := exec_bind_ok.1 hexec
  cases hget
  split at h
  · next d' hd' =>
    cases h
    exact ⟨hp, hp.defaults object m.type d (Assembly.mem_of_lookup hd') m (htype ▸ hm)⟩
  · obtain ⟨groups, r, hgroups, h⟩ := exec_bind_ok.1 h
    obtain ⟨order, r', horder, h⟩ := exec_bind_ok.1 h
    obtain ⟨_, r'', hmod, h⟩ := exec_bind_ok.1 h
    cases hmod
    cases h
    obtain ⟨hg, hmem, hdef⟩ := defaultGroups_ok hgroups
    obtain ⟨ho, rfl⟩ := exec_ofExcept_eq_ok.1 horder
    have hmeans := means_defaultOrder hm hg ho
    have hr := hp.congr (congrArg Memory.metadata hmem) hdef
    refine ⟨⟨hr.coherent, ?_⟩, hmeans⟩
    intro object' type' d' hd' m' hm'
    rcases List.mem_append.1 hd' with hd' | hd'
    · exact hr.defaults object' type' d' hd' m' hm'
    · cases List.mem_singleton.1 hd'
      rw [htype] at hm'
      obtain rfl := hm.unique hm'
      exact hmeans

/-! ### Walks -/

/-- A check changes nothing but findings, marks of constraints and the journal. -/
theorem checkConstraint_frame {s : Subject} {group : TypeName} {value : Value} {path : Path}
    {b : BoundConstraint} {p q : Progress} {holds : Bool}
    (h : (c.checkConstraint s group value path b).exec p = (.ok holds, q)) :
    q.memory = p.memory ∧ q.defaults = p.defaults ∧ q.chain = p.chain ∧
      q.processedGroups = p.processedGroups ∧ q.processedPaths = p.processedPaths := by
  rcases checkConstraint_ok h with ⟨rfl, -, -⟩ | ⟨es, vs, -, rfl, -⟩
  · simp
  · simp [Progress.after, Progress.noting]

theorem checkBound_frame {s : Subject} {group : TypeName} {b : BoundConstraint} {p q : Progress}
    {holds : Bool} (h : (c.checkBound s group b).exec p = (.ok holds, q)) :
    q.memory = p.memory ∧ q.defaults = p.defaults ∧ q.chain = p.chain ∧
      q.processedGroups = p.processedGroups ∧ q.processedPaths = p.processedPaths := by
  rcases checkBound_ok h with ⟨-, -, rfl⟩ | ⟨path, value, -, h⟩
  · simp
  · exact checkConstraint_frame h

theorem meets_checkBound {I : Progress → Prop} {s : Subject} {group : TypeName}
    {b : BoundConstraint}
    (h : ∀ p q holds, I p → (c.checkBound s group b).exec p = (.ok holds, q) → I q) :
    Meets (c.checkBound s group b) I Any AnyHalt :=
  .of_ok fun p holds q hp hexec => ⟨h p q holds hp hexec, trivial⟩

theorem meets_markProcessed {I : Progress → Prop} {E : Halt → Progress → Prop} {s : Subject}
    {group : TypeName} (h : ∀ p q, I p → c.Marks s group p q → I q) :
    Meets (c.markProcessed s group) I Any E := by
  intro p hp
  obtain ⟨q, hexec, hm⟩ := exec_markProcessed s group p
  rw [hexec]
  exact ⟨h p q hp hm, trivial⟩

/-- Whether the second progress may follow the first one in a call. -/
def Follows (c : Call) (p q : Progress) : Prop := c.Remembers q ∧ c.Accounts p q

theorem Follows.remembers {p q : Progress} (h : c.Follows p q) : c.Remembers q := h.1

theorem Follows.accounts {p q : Progress} (h : c.Follows p q) : c.Accounts p q := h.2

theorem Follows.extends {p q : Progress} (h : c.Follows p q) : p.Extends q := h.2.toExtends

theorem Follows.refl {p : Progress} (h : c.Remembers p) : c.Follows p p := ⟨h, .refl c p⟩

theorem Follows.trans {p q r : Progress} (h : c.Follows p q) (h' : c.Follows q r) :
    c.Follows p r := ⟨h'.1, h.2.trans h'.2⟩

theorem Follows.mark {p q r : Progress} {s : Subject} {group : TypeName} (h : c.Follows p q)
    (hm : c.Marks s group q r) : c.Follows p r :=
  ⟨h.1.congr (congrArg Memory.metadata hm.memory) hm.defaults, h.2.mark hm⟩

theorem Follows.began {p q : Progress} (h : c.Follows p q) (object : Option ObjectId)
    (path : Path) (group : TypeName) :
    c.Follows p { q with journal := q.journal ++ [.began object path group] } :=
  ⟨h.1.congr rfl rfl, h.2.began object path group⟩

theorem follows_checkConstraint {s : Subject} {group : TypeName} {value : Value} {path : Path}
    {b : BoundConstraint} {p : Progress} :
    Meets (c.checkConstraint s group value path b) (c.Follows p) Any AnyHalt := by
  refine .of_ok fun q holds r hq hexec => ?_
  have hframe := checkConstraint_frame hexec
  exact ⟨⟨hq.1.congr (congrArg Memory.metadata hframe.1) hframe.2.1, hq.2.check hexec⟩, trivial⟩

/-- What follows a progress in a call is followed by what a walk leads to. -/
theorem follows_walk (s : Subject) (p : Progress) :
    KeptByWalk c s (c.Follows p) AnyHalt (fun _ => True) fun _ => True where
  metadata := meets_metadataOf (fun _ h => h.1.coherent) (fun _ _ _ => trivial)
    fun _ _ hcache hq => ⟨⟨hcache, hq.1.defaults⟩,
      hq.2.add [] (by simp) (by simp) rfl (fun _ => id) (fun _ => id) rfl⟩
  meaning _ m hm := ((defaultMeaning_remembers hm s.object).both <| meets_defaultMeaning
    (fun _ _ _ => trivial)
    (fun _ type object hq => hq.add [.asked type object] (by simp [found]) rfl rfl (fun _ => id)
      (fun _ => id) rfl)
    (fun _ d hq => hq.add [] (by simp) (by simp) rfl (fun _ => id) (fun _ => id) rfl)
    s.object m).any
  check _ _ _ _ := meets_checkBound fun _ _ _ hq h =>
    ⟨hq.1.congr (congrArg Memory.metadata (checkBound_frame h).1) (checkBound_frame h).2.1,
      checkBound_accounts.kept h hq.2⟩
  mark _ _ := meets_markProcessed fun _ _ hq hm => hq.mark hm

theorem follows_runGroup (s : Subject) (group : TypeName) (p : Progress) :
    Meets (c.runGroup s group) (c.Follows p) Any AnyHalt :=
  (follows_walk s p).runGroup (fun _ _ => trivial) (fun _ _ => trivial)
    (fun _ hq => hq.began s.object s.path group) fun _ => id

/-- What follows a progress in a call is followed by what cascades lead to. -/
theorem follows_cascades (p : Progress) : KeptByCascades c (c.Follows p) AnyHalt where
  failed _ _ _ := trivial
  exhausted _ _ := trivial
  metadata := meets_metadataOf (fun _ h => h.1.coherent) (fun _ _ _ => trivial)
    fun _ _ hcache hq => ⟨⟨hcache, hq.1.defaults⟩,
      hq.2.add [] (by simp) (by simp) rfl (fun _ => id) (fun _ => id) rfl⟩
  meaning object type m hm := (follows_walk { object, metadata := m, path := .root } p).meaning
    type m hm
  expand := meets_expanding (fun _ _ _ => trivial) fun _ _ hq => ⟨hq.1.congr rfl rfl,
    hq.2.add [] (by simp) (by simp) rfl (fun _ => id) (fun _ => id) rfl⟩
  chain _ _ hq := ⟨hq.1.congr rfl rfl,
    hq.2.add [] (by simp) (by simp) rfl (fun _ => id) (fun _ => id) rfl⟩
  halted _ _ _ _ := trivial
  group s group _ := follows_runGroup s group p

theorem checkPositions_settles {s : Subject} {bs : List BoundConstraint} :
    ∀ {positions : List (List Group)} {p q : Progress},
    (c.checkPositions s bs positions).exec p = (.ok (), q) → c.stops q = false →
    c.Accounts p q ∧ (c.FindsNothing p q → ∀ position ∈ positions, ∀ g ∈ position, ∀ b ∈ bs,
      b.appliesTo g.name → c.Settled s b p q)
  | [], p, q, h, _ => by
    cases h
    exact ⟨.refl c p, by simp⟩
  | position :: rest, p, q, h, hq => by
    obtain ⟨holds, r, hpos, h⟩ := exec_bind_ok.1 h
    cases holds with
    | false =>
      cases h
      have hcov := checkPosition_covers hpos hq
      refine ⟨hcov.toAccounts, ?_⟩
      intro hn
      have := hcov.holds_iff.2 hn
      simp at this
    | true =>
      obtain ⟨hacc, hsettled⟩ := checkPositions_settles h hq
      have hcov := checkPosition_covers hpos (stops_eq_false hacc.toExtends hq)
      refine ⟨hcov.toAccounts.trans hacc, ?_⟩
      intro hn position' hpos' g hg b hb ha
      rcases List.mem_cons.1 hpos' with rfl | hpos'
      · exact (hcov.settled g.name (List.mem_map.2 ⟨g, hg, rfl⟩) b hb ha).widen (.refl c p)
          hcov.toExtends hacc.toExtends
      · have hn' := ((findsNothing_trans hcov.toExtends hacc.toExtends).1 hn).2
        exact (hsettled hn' position' hpos' g hg b hb ha).widen hcov.toAccounts hacc.toExtends
          (.refl q)

theorem each_singleton {α : Type} {x : α} {step : α → Run Unit} {p : Progress}
    (hp : c.stops p = false) : (c.each [x] step).exec p = (step x).exec p := by
  rw [exec_each_cons, hp]
  simp only [Bool.false_eq_true, if_false, exec_bind, exec_each_nil]
  cases (step x).exec p with
  | mk a q => cases a <;> rfl

/-- The mark at the end of a walk is made only if the call goes on. -/
theorem markUnlessStopped_ok {s : Subject} {group : TypeName} {p q : Progress}
    (h : (c.isStopped >>= fun stopped =>
      if stopped then pure () else c.markProcessed s group).exec p = (.ok (), q))
    (hq : c.stops q = false) : p.Extends q ∧ c.stops p = false := by
  obtain ⟨hp, h⟩ := exec_unless_isStopped h hq
  obtain ⟨q', hexec, hmark⟩ := exec_markProcessed (c := c) s group p
  rw [hexec] at h
  cases h
  exact ⟨((Accounts.refl c p).mark hmark).toExtends, hp⟩

/-- A redefined default group that finds nothing leaves no default constraint unchecked. -/
theorem runRedefined_settles (hs : c.registry.sequenceMembers? TypeName.defaultGroup = none)
    {s : Subject} {type : TypeName} {m : Metadata} {bs : List BoundConstraint} {p q : Progress}
    (hm : c.Assembles type m) (hr : m.redefinesDefault)
    (h : (c.runRedefined s m bs).exec p = (.ok (), q)) (hq : c.stops q = false)
    (hp : c.Remembers p) (hn : c.FindsNothing p q) :
    ∀ b ∈ bs, b.appliesTo TypeName.defaultGroup → c.Settled s b p q := by
  intro b hb ha
  obtain ⟨d, r, hd, h⟩ := exec_bind_ok.1 h
  obtain ⟨_, r', hrun, h⟩ := exec_bind_ok.1 h
  obtain ⟨-, sequence, hseq, hpos⟩ := ((defaultMeaning_remembers hm s.object).answer hd hp).redefined hs hr
  have hpr := (((follows_walk s p).meaning type m hm).kept hd (.refl hp)).accounts
  rw [hseq] at hrun
  have hr'q := markUnlessStopped_ok h hq
  have hrr : c.stops r = false := by
    refine Bool.eq_false_iff.2 ?_
    intro hstop
    rw [exec_each_of_stops hstop] at hrun
    cases hrun
    simp [hstop] at hr'q
  rw [each_singleton hrr] at hrun
  obtain ⟨hacc, hsettled⟩ := checkPositions_settles hrun hr'q.2
  have hn' := ((findsNothing_trans hacc.toExtends hr'q.1).1
    ((findsNothing_trans hpr.toExtends (hacc.toExtends.trans hr'q.1)).1 hn).2).1
  exact (hsettled hn' _ hpos _ (List.mem_singleton.2 rfl) b hb ha).widen hpr hacc.toExtends hr'q.1

theorem runHierarchy_settles {s : Subject} : ∀ {types covered : List TypeName} {p q : Progress},
    (c.runHierarchy s covered types).exec p = (.ok (), q) → c.stops q = false → c.Remembers p →
    (c.registry.sequenceMembers? TypeName.defaultGroup = none ∧ c.FindsNothing p q) ∨
      c.Ordinary types →
    ∀ b ∈ c.demandedFrom covered types, b.appliesTo TypeName.defaultGroup → c.Settled s b p q
  | [], covered, p, q, h, hq, hp, hn, b, hb, ha => by simp [demandedFrom] at hb
  | type :: above, covered, p, q, h, hq, hp, hn, b, hb, ha => by
    obtain ⟨m, r, hmeta, h⟩ := exec_bind_ok.1 h
    have hm := ((follows_walk s p).metadata type).answer hmeta (.refl hp)
    obtain ⟨hr, hpr⟩ := ((follows_walk s p).metadata type).kept hmeta (.refl hp)
    split at h
    · next hredef =>
      rw [demandedFrom_redefined hm hredef] at hb
      have hrq := (((follows_walk s r).runRedefined (fun _ _ => trivial)
        (fun _ => trivial) hm).kept h
        (.refl hr)).accounts
      obtain ⟨hs, hn⟩ := hn.resolve_right fun ho => by simp [ho type (by simp) m hm] at hredef
      have hn' := ((findsNothing_trans hpr.toExtends hrq.toExtends).1 hn).2
      exact (runRedefined_settles hs hm hredef h hq hr hn' b hb ha).widen hpr hrq.toExtends (.refl q)
    · next hord =>
      rw [demandedFrom_ordinary hm (by simpa using hord)] at hb
      obtain ⟨holds, r₁, hall, h⟩ := exec_bind_ok.1 h
      obtain ⟨hr₁, h⟩ := exec_unless_isStopped h hq
      obtain ⟨_, r₂, hmark, h⟩ := exec_bind_ok.1 h
      obtain ⟨r₂', hexec, hmarks⟩ := exec_markProcessed (c := c) s TypeName.defaultGroup r₁
      rw [hexec] at hmark
      cases hmark
      have hcov := checkAll_covers hall hr₁
      obtain ⟨hr₂, hpr₂⟩ := (((follows_walk s p).checkAll (fun _ _ => trivial) trivial).kept hall
        ⟨hr, hpr⟩).mark hmarks
      have hrq := (((follows_walk s r₂).runHierarchy above _ (fun _ _ => trivial)
        fun _ _ => trivial).kept h
        (.refl hr₂)).accounts
      rcases List.mem_append.1 hb with hb | hb
      · have hr₁₂ := (Accounts.refl c r₁).mark hmarks
        exact (hcov.settled _ (by simp) b hb ha).widen hpr hcov.toExtends
          (hr₁₂.toExtends.trans hrq.toExtends)
      · have hn' := hn.imp
          (fun hn => And.intro hn.1 ((findsNothing_trans hpr₂.toExtends hrq.toExtends).1 hn.2).2)
          Ordinary.above
        exact (runHierarchy_settles h hq hr₂ hn' b hb ha).widen hpr₂ hrq.toExtends (.refl q)

/-- A walk for a group that is not stopped leaves no constraint of the group unchecked. -/
theorem runGroup_settles {s : Subject} {group : TypeName} {p q : Progress}
    (h : (c.runGroup s group).exec p = (.ok (), q)) (hq : c.stops q = false) (hp : c.Remembers p)
    (hn : group.isDefault →
      (c.registry.sequenceMembers? TypeName.defaultGroup = none ∧ c.FindsNothing p q) ∨
        c.Ordinary s.metadata.hierarchy) :
    ∀ b ∈ c.demanded s group, b.appliesTo group → c.Settled s b p q := by
  intro b hb ha
  unfold Call.runGroup at h
  unfold demanded at hb
  obtain ⟨_, r, hbegan, h⟩ := exec_bind_ok.1 h
  cases hbegan
  obtain ⟨hr, hpr⟩ := (Follows.refl hp).began s.object s.path group
  split at h
  · next hg =>
    obtain rfl : group = TypeName.defaultGroup := by simpa [TypeName.isDefault] using hg
    rw [if_pos hg] at hb
    have hrq := (((follows_walk s _).runHierarchy _ _ (fun _ _ => trivial)
      fun _ _ => trivial).kept h
      (.refl hr)).accounts
    have hn' := (hn hg).imp_left fun hn =>
      And.intro hn.1 ((findsNothing_trans hpr.toExtends hrq.toExtends).1 hn.2).2
    exact (runHierarchy_settles h hq hr hn' b hb ha).widen hpr hrq.toExtends (.refl q)
  · next hg =>
    rw [if_neg hg] at hb
    obtain ⟨holds, r₁, hall, h⟩ := exec_bind_ok.1 h
    have hr₁q := markUnlessStopped_ok h hq
    have hcov := checkAll_covers hall hr₁q.2
    exact (hcov.settled _ (by simp) b hb ha).widen hpr hcov.toExtends hr₁q.1

end Call

end ObjectValidation
