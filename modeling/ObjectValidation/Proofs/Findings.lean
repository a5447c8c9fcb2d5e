import ObjectValidation.Proofs.Clean
/-!
# What walks find

Walks of one subject for one group find the same, whatever was checked before them in their calls
(`found_where_walked`): a check that one of them makes has been made in the call of the other, if not
in the walk then before it.

So where a walk has been made in one call it can be made in every other call (`succeeds_of_walked`), be
it one that does nothing else (`constraintPass`).
-/

namespace ObjectValidation

open Run

namespace Call

variable {c : Call}

/-- There is just one subject that an object at a path makes. -/
theorem Knows.eq {s s' : Subject} (hs : c.Knows s) (hs' : c.Knows s') (hobject : s.object = s'.object)
    (hpath : s.path = s'.path) : s = s' := by
  obtain ⟨x, hx, hm⟩ := hs.object
  obtain ⟨x', hx', hm'⟩ := hs'.object
  obtain rfl : x = x' := Option.some.inj (hx.symm.trans (hobject.trans hx'))
  have hmetadata : s.metadata = s'.metadata := hm.unique hm'
  obtain ⟨object, metadata, path, only⟩ := s
  obtain ⟨object', metadata', path', only'⟩ := s'
  cases hobject
  cases hpath
  cases hmetadata
  cases hs.whole
  cases hs'.whole
  rfl

/-- What a check of a call has found is among its violations, at least as one of the same key. -/
theorem exists_mem_violations {o q : Progress} (hq : c.stops q = false) (h : c.Follows o q)
    {e : Event} (he : e ∈ q.since o) {w : Violation} (hw : w ∈ c.found e) :
    ∃ v ∈ q.violations, v.key = w.key := by
  rw [h.accounts.found hq]
  exact Violation.exists_mem_addAll (List.mem_flatMap.2 ⟨e, he, hw⟩)

/-- What a check finds wrong is ascribed to the object that is checked. -/
theorem leaf_of_found {object : Option ObjectId} {path : Path} {b : BoundConstraint}
    {group : TypeName} {value : Value} {w : Violation}
    (hw : w ∈ c.found (.checked object path b group value)) : w.leaf = object := by
  cases hvs : c.failures object path value b with
  | error e => simp [found, hvs, Except.toOption] at hw
  | ok vs =>
    rw [found_checked hvs] at hw
    obtain ⟨target, -, ws, hws, hw⟩ := exists_target_of_mem_failures hvs hw
    exact (of_mem_failuresOf hws hw).1

/-- What a call finds is found by a walk that has begun, and another call finds it where it has made
that walk. -/
theorem found_where_walked {o q : Progress} (hord : ∀ types, c.Ordinary types)
    (ho : o.violations = []) (hlogs : c.Logs c.Traced o q) (hq : c.stops q = false) {v : Violation}
    (hv : v ∈ q.violations) :
    ∃ s group, c.Knows s ∧ v.leaf = s.object ∧ .began s.object s.path group ∈ q.journal ∧
      ∀ o' q', o'.processedConstraints = [] → c.Logs c.Traced o' q' → c.stops q' = false →
        c.Walked o' q' s group → ∃ w ∈ q'.violations, w.key = v.key := by
  rw [hlogs.1.accounts.found hq, ho] at hv
  obtain ⟨e, he, hv⟩ := List.mem_flatMap.1 ((Violation.mem_addAll hv).resolve_left (by simp))
  cases e with
  | checked object path b g value =>
    obtain ⟨s, group, hs, rfl, hbegan, hg, hb, ha, hplace⟩ := hlogs.2 _ he
    obtain rfl := hg.resolve_right fun hg => hg.2 (hord _)
    refine ⟨s, g, hs, leaf_of_found hv, hbegan, ?_⟩
    rintro o' q' ho' hlogs' hq' ⟨p₁, p₂, hp₁, hrun, hp₁₂, hp₂⟩
    have hsettled := runGroup_settles hrun (stops_eq_false hp₂.extends hq') hp₁.remembers
      (fun _ => .inr (hord _)) b hb ha
    obtain ⟨g', he'⟩ := checked_of_settled ho' hlogs' hp₁ hp₁₂ hp₂ hs hb hsettled hplace
    exact exists_mem_violations hq' hlogs'.1 he' hv
  | _ => simp [found] at hv

/-! ### Walks that can be made -/

/-- Whether a computation comes to its end from every progress with a coherent memory and leaves one
with a coherent memory. -/
abbrev Succeeds {α : Type} (c : Call) (x : Run α) : Prop := Meets x c.Coherent Any NoHalt

/-- Whether a computation so comes to the one answer. -/
abbrev Yields {α : Type} (c : Call) (x : Run α) (a : α) : Prop := Meets x c.Coherent (· = a) NoHalt

/-- Whether a constraint of a subject can be evaluated where it applies. -/
def Evaluates (c : Call) (s : Subject) (b : BoundConstraint) : Prop :=
  ∀ path value, s.place c.store b = some (path, value) →
    ∃ vs, c.failures s.object path value b = .ok vs

theorem yields_failing {site : EvaluationSite} {value : Value} {k : Constraint} {ks : List Constraint}
    (h : k.failing (c.verdict site value) = .ok ks) :
    c.Yields (k.failing (c.judge site value)) ks := by
  intro p hp
  obtain ⟨q, hq⟩ := failing_exec k h p
  obtain ⟨-, es, -, rfl⟩ := failing_ok k hq
  rw [hq]
  exact ⟨hp, rfl⟩

theorem succeeds_evaluate {s : Subject} {k : Constraint} {value : Value} {path : Path}
    {vs : List Violation} (h : c.failuresOf s.object k (path, value) = .ok vs) :
    c.Succeeds (c.evaluate s k value path) := by
  obtain ⟨ks, hks, -⟩ := bind_eq_ok.1 h
  refine (yields_failing hks).bind fun _ _ => (Meets.forM fun f _ => ?_).next fun _ => .pure trivial
  refine Meets.update fun p hp => ?_
  split
  · exact hp
  · exact hp

theorem succeeds_evaluateBound {s : Subject} {value : Value} {path : Path} {b : BoundConstraint}
    {vs : List Violation} (h : c.failures s.object path value b = .ok vs) :
    c.Succeeds (c.evaluateBound s value path b) := by
  obtain ⟨vss, hvss, -⟩ := bind_eq_ok.1 h
  have htargets : ∀ t ∈ b.targets path value, c.Succeeds (c.evaluate s b.constraint t.2 t.1) := by
    intro t ht
    obtain ⟨ws, -, hws⟩ := (mapM_eq_ok hvss).2 t ht
    exact succeeds_evaluate hws
  cases hb : b.container with
  | none =>
    simp only [Call.evaluateBound, hb]
    exact htargets (path, value) (by simp [BoundConstraint.targets, hb])
  | some kind =>
    rw [evaluateBound_eq_allHold hb]
    exact meets_allHold htargets

theorem succeeds_checkBound {s : Subject} {group : TypeName} {b : BoundConstraint}
    (h : b.appliesTo group → c.Evaluates s b) : c.Succeeds (c.checkBound s group b) := by
  refine meets_checkBound_of fun path value hplace => ?_
  unfold Call.checkConstraint
  split
  · exact .pure trivial
  · next ha =>
    obtain ⟨vs, hvs⟩ := h (by simpa using ha) path value hplace
    refine Meets.get.any.next fun p => .ite (.pure trivial) ?_
    refine (Meets.record fun _ => id).next fun _ => (succeeds_evaluateBound hvs).next fun _ => ?_
    refine .ite (Meets.next ?_ fun _ => .pure trivial) (.pure trivial)
    exact .update fun _ => id

theorem succeeds_checkAll {s : Subject} {group : TypeName} {bs : List BoundConstraint}
    (h : ∀ b ∈ bs, b.appliesTo group → c.Evaluates s b) : c.Succeeds (c.checkAll s bs group) :=
  meets_allHold fun b hb => succeeds_checkBound (h b hb)

theorem succeeds_markProcessed (s : Subject) (group : TypeName) :
    c.Succeeds (c.markProcessed s group) := .ite (.update fun _ => id) .unit

theorem yields_metadataOf {type : TypeName} {m : Metadata} (hm : c.Assembles type m) :
    c.Yields (c.metadataOf type) m := by
  intro p hp
  obtain ⟨cache, hcache, hexec⟩ := exec_metadataOf hp type
  unfold Assembles at hm
  rw [hm] at hexec
  rw [hexec]
  exact ⟨hcache, rfl⟩

theorem succeeds_runHierarchy (hord : ∀ types, c.Ordinary types) {s : Subject} :
    ∀ {types covered : List TypeName}, c.Walkable types →
    (∀ b ∈ c.demandedFrom covered types, b.appliesTo TypeName.defaultGroup → c.Evaluates s b) →
    c.Succeeds (c.runHierarchy s covered types)
  | [], _, _, _ => .unit
  | type :: above, covered, ⟨m, hm, habove⟩, h => by
    have hordinary : m.redefinesDefault = false := hord [type] type (by simp) m hm
    rw [demandedFrom_ordinary hm hordinary] at h
    unfold Call.runHierarchy
    refine (yields_metadataOf hm).bind ?_
    rintro m rfl
    rw [if_neg (by simp [hordinary])]
    refine (succeeds_checkAll fun b hb => h b (List.mem_append_left _ hb)).next fun _ => ?_
    refine meets_isStopped.next fun _ => .ite .unit ((succeeds_markProcessed s _).next fun _ => ?_)
    exact succeeds_runHierarchy hord (habove hordinary) fun b hb => h b (List.mem_append_right _ hb)

/-- A walk succeeds if the hierarchy has metadata and all that is to be checked can be evaluated. -/
theorem succeeds_runGroup (hord : ∀ types, c.Ordinary types) {s : Subject} {group : TypeName}
    (hwalkable : group.isDefault → c.Walkable s.metadata.hierarchy)
    (h : ∀ b ∈ c.demanded s group, b.appliesTo group → c.Evaluates s b) :
    c.Succeeds (c.runGroup s group) := by
  unfold demanded at h
  refine (Meets.record fun _ => id).next fun _ => ?_
  split
  · next hg =>
    obtain rfl : group = TypeName.defaultGroup := by simpa [TypeName.isDefault] using hg
    exact succeeds_runHierarchy hord (hwalkable hg) (by simpa [hg] using h)
  · next hg =>
    rw [if_neg hg] at h
    exact (succeeds_checkAll h).next fun _ => meets_isStopped.next fun _ =>
      .ite .unit (succeeds_markProcessed s group)

/-- A walk that has been made in a call can be made in every other one. -/
theorem succeeds_of_walked {o q : Progress} (hord : ∀ types, c.Ordinary types)
    (ho : o.processedConstraints = []) (hlogs : c.Logs c.Traced o q) (hq : c.stops q = false)
    {s : Subject} (hs : c.Knows s) {group : TypeName} (h : c.Walked o q s group) :
    c.Succeeds (c.runGroup s group) := by
  obtain ⟨p₁, p₂, hp₁, hrun, hp₁₂, hp₂⟩ := h
  have hp₂q := stops_eq_false hp₂.extends hq
  refine succeeds_runGroup hord ?_ ?_
  · intro hg
    obtain rfl : group = TypeName.defaultGroup := by simpa [TypeName.isDefault] using hg
    exact walkable_of_runGroup hrun hp₂q hp₁.remembers
  · intro b hb ha path value hplace
    have hsettled := runGroup_settles hrun hp₂q hp₁.remembers (fun _ => .inr (hord _)) b hb ha
    obtain ⟨g, he⟩ := checked_of_settled ho hlogs hp₁ hp₁₂ hp₂ hs hb hsettled hplace
    exact hlogs.1.accounts.evaluated hq _ _ _ _ _ he

/-! ### One walk alone -/

/-- Checks what an object demands at a path for a group, and does nothing else. -/
def constraintPass (c : Call) (x : ObjectId) (path : Path) (group : TypeName) :
    Run (List Violation) := do
  let metadata ← c.metadataOf (c.store.typeOf x)
  c.runGroup { object := some x, metadata, path } group
  return (← get).violations

variable {x : ObjectId} {path : Path} {group : TypeName} {o q : Progress}

/-- A constraint pass makes the one walk. -/
theorem constraintPass_ok {vs : List Violation} (ho : c.Remembers o)
    (h : (c.constraintPass x path group).exec o = (.ok vs, q)) :
    ∃ s, c.Knows s ∧ s.object = some x ∧ s.path = path ∧ c.Walked o q s group ∧
      c.Logs c.Traced o q ∧ q.violations = vs ∧ ∀ object path' g,
        .began object path' g ∈ q.journal → .began object path' g ∈ o.journal ∨
          (object = some x ∧ path' = path ∧ g = group) := by
  obtain ⟨m, p₁, hmeta, h⟩ := exec_bind_ok.1 h
  obtain ⟨_, p₂, hrun, h⟩ := exec_bind_ok.1 h
  cases h
  have hm := ((follows_cascades o).metadata _).answer hmeta (.refl ho)
  have hp₁ := ((follows_cascades o).metadata _).kept hmeta (.refl ho)
  have hquiet := (quiet_metadataOf _).kept hmeta (.refl o)
  have hknows : c.Knows { object := some x, metadata := m, path } := ⟨⟨x, rfl, hm⟩, rfl⟩
  have hadv := (advances_runGroup hp₁.remembers hrun).1
  have hlogs := (logs_runGroup traced_lasting (hknows.tells_traced group)).kept hrun
    ((logs_metadataOf traced_lasting _).kept hmeta (.refl ho))
  refine ⟨_, hknows, rfl, rfl, ?_, hlogs, rfl, ?_⟩
  · exact ⟨p₁, _, hp₁, hrun, hadv.follows, .refl hadv.follows.remembers⟩
  · intro object path' g hmem
    exact (hadv.began object path' g hmem).imp_left (hquiet.began object path' g)

/-- A constraint pass succeeds where a call has made its walk. -/
theorem exists_constraintPass (hord : ∀ types, c.Ordinary types)
    (ho : o.processedConstraints = []) (hlogs : c.Logs c.Traced o q) (hq : c.stops q = false)
    {s : Subject} (hs : c.Knows s) (hx : s.object = some x) (h : c.Walked o q s group)
    {o' : Progress} (ho' : c.Coherent o') :
    ∃ vs q', (c.constraintPass x s.path group).exec o' = (.ok vs, q') := by
  obtain ⟨y, hy, hm⟩ := hs.object
  obtain rfl : x = y := by simpa [hx] using hy
  have hsubject : s = { object := some x, metadata := s.metadata, path := s.path } :=
    hs.eq ⟨⟨x, rfl, hm⟩, rfl⟩ hx rfl
  have hwalk := succeeds_of_walked hord ho hlogs hq hs h
  rw [hsubject] at hwalk
  have hpass : c.Succeeds (c.constraintPass x s.path group) := by
    refine (yields_metadataOf hm).bind ?_
    rintro m rfl
    exact hwalk.next fun _ => Meets.get.any.next fun _ => .pure trivial
  exact hpass.succeeds ho'

end Call

end ObjectValidation
