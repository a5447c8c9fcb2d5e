import ObjectValidation.Proofs.Consultations
/-!
# How the progress of a call grows

A call forgets nothing: what it has found and done stays (`Progress.Extends`). What it has found since
an earlier progress is what the checks in its journal since then found, for which the evaluators were
consulted (`Call.Accounts`).
-/

namespace ObjectValidation

/-- Whether the second progress has all that the first one has. -/
structure Progress.Extends (p q : Progress) : Prop where
  journal : p.journal <+: q.journal
  violations : p.violations <+: q.violations
  groups : p.processedGroups ⊆ q.processedGroups
  paths : p.processedPaths ⊆ q.processedPaths
  marks : p.processedConstraints ⊆ q.processedConstraints

namespace Progress

theorem Extends.refl (p : Progress) : p.Extends p where
  journal := List.prefix_refl _
  violations := List.prefix_refl _
  groups := fun _ => id
  paths := fun _ => id
  marks := fun _ => id

theorem Extends.trans {p q r : Progress} (h : p.Extends q) (h' : q.Extends r) : p.Extends r where
  journal := h.journal.trans h'.journal
  violations := h.violations.trans h'.violations
  groups := fun _ hx => h'.groups (h.groups hx)
  paths := fun _ hx => h'.paths (h.paths hx)
  marks := fun _ hx => h'.marks (h.marks hx)

/-- What a progress has in its journal beyond that of an earlier one. -/
def since (q p : Progress) : List Event := q.journal.drop p.journal.length

theorem Extends.journal_eq {p q : Progress} (h : p.Extends q) :
    q.journal = p.journal ++ q.since p := by
  obtain ⟨es, hes⟩ := h.journal
  simp [since, ← hes]

@[simp] theorem since_self (p : Progress) : p.since p = [] := by simp [since]

theorem Extends.since_append {p q r : Progress} (h : p.Extends q) (h' : q.Extends r) :
    r.since p = q.since p ++ r.since q := by
  have hr := (h.trans h').journal_eq
  rw [h'.journal_eq, h.journal_eq, List.append_assoc] at hr
  exact (List.append_cancel_left hr).symm

theorem Extends.since_subset {p q r : Progress} (h : p.Extends q) (h' : q.Extends r) :
    r.since q ⊆ r.since p := by
  rw [h.since_append h']
  exact List.subset_append_right _ _

theorem Extends.subset_since {p q r : Progress} (h : p.Extends q) (h' : q.Extends r) :
    q.since p ⊆ r.since p := by
  rw [h.since_append h']
  exact List.subset_append_left _ _

section

variable {p : Progress} {object : Option ObjectId} {path : Path} {b : BoundConstraint}

/-- What is done once a constraint is noted has been done before or is the constraint. -/
theorem mem_noting {mark : Option ObjectId × Path × TypeName × Nat}
    (h : mark ∈ (p.noting object path b).processedConstraints) :
    mark ∈ p.processedConstraints ∨ mark = (object, path, b.key) := by
  unfold noting at h
  dsimp only at h
  split at h
  · exact (List.mem_cons.1 h).symm
  · exact .inl h

theorem extends_noting_after {es : List Event} {vs : List Violation} :
    p.Extends ((p.after es vs).noting object path b) where
  journal := List.prefix_append _ _
  violations := Violation.prefix_addAll _ _
  groups _ := id
  paths _ := id
  marks := by
    unfold noting
    dsimp only
    split
    · exact List.subset_cons_self _ _
    · exact fun _ => id

end

theorem since_eq_of_journal {p q r : Progress} (h : q.journal = r.journal) :
    q.since p = r.since p := by rw [since, since, h]

end Progress

namespace Call

open Run

/-- The second progress has all that the first one has and, unless the call has found all it looks
for, accounts for what it has found since then. -/
structure Accounts (c : Call) (p q : Progress) : Prop extends p.Extends q where
  /-- What is done has been done before or has been checked since. -/
  done : ∀ mark ∈ q.processedConstraints, mark ∈ p.processedConstraints ∨
    ∃ b g value, .checked mark.1 mark.2.1 b g value ∈ q.since p ∧ b.key = mark.2.2
  found : c.stops q = false → q.violations =
    Violation.addAll p.violations ((q.since p).flatMap c.found)
  /-- All that was checked was evaluated. -/
  consulted : c.stops q = false → c.Consulted (q.since p)

variable {c : Call}

theorem stops_eq_false {p q : Progress} (h : p.Extends q) (hq : c.stops q = false) :
    c.stops p = false :=
  Bool.eq_false_iff.2 fun hp => by simp [stops_mono h.violations hp] at hq

/-- All that was checked could be evaluated. -/
theorem Accounts.evaluated {p q : Progress} (h : c.Accounts p q) (hq : c.stops q = false)
    (object : Option ObjectId) (path : Path) (b : BoundConstraint) (g : TypeName) (value : Value)
    (he : .checked object path b g value ∈ q.since p) : ∃ vs, c.failures object path value b = .ok vs :=
  (h.consulted hq).exists_failures he

theorem Accounts.refl (c : Call) (p : Progress) : c.Accounts p p where
  toExtends := .refl p
  done := fun _ h => .inl h
  found := by simp [Violation.addAll]
  consulted := fun _ => consulted_of_unchecked (by simp)

theorem Accounts.trans {p q r : Progress} (h : c.Accounts p q) (h' : c.Accounts q r) :
    c.Accounts p r := by
  have hsince := h.since_append h'.toExtends
  refine ⟨h.toExtends.trans h'.toExtends, ?_, ?_, ?_⟩
  · intro mark hm
    rcases h'.done mark hm with hm | ⟨b, g, v, he, hk⟩
    · refine (h.done mark hm).imp id fun ⟨b, g, v, he, hk⟩ => ⟨b, g, v, ?_, hk⟩
      simp [hsince, he]
    · exact .inr ⟨b, g, v, by simp [hsince, he], hk⟩
  · intro hr
    rw [h'.found hr, h.found (stops_eq_false h'.toExtends hr), hsince, List.flatMap_append,
      Violation.addAll_append]
  · intro hr
    rw [hsince]
    exact (h.consulted (stops_eq_false h'.toExtends hr)).append (h'.consulted hr)

/-- What does not touch findings and marks, and adds no check to the journal, changes nothing. -/
theorem Accounts.add {p q r : Progress} (h : c.Accounts p q) (es : List Event)
    (hes : ∀ e ∈ es, c.found e = [] ∧ ∀ object path b g value, e ≠ .checked object path b g value)
    (hj : r.journal = q.journal ++ es) (hv : r.violations = q.violations)
    (hg : q.processedGroups ⊆ r.processedGroups) (hp : q.processedPaths ⊆ r.processedPaths)
    (hc : r.processedConstraints = q.processedConstraints) : c.Accounts p r := by
  have hsince : r.since q = es := by simp [Progress.since, hj]
  refine h.trans ⟨⟨⟨es, hj.symm⟩, hv ▸ List.prefix_refl _, hg, hp, hc ▸ fun _ => id⟩,
    fun _ hm => .inl (hc ▸ hm), fun _ => ?_,
    fun _ => hsince ▸ consulted_of_unchecked fun e he => (hes e he).2⟩
  have hnil : es.flatMap c.found = [] := by simpa using fun e he => (hes e he).1
  rw [hv, hsince, hnil]
  rfl

theorem Accounts.began {p q : Progress} (h : c.Accounts p q) (object : Option ObjectId)
    (path : Path) (group : TypeName) :
    c.Accounts p { q with journal := q.journal ++ [.began object path group] } :=
  h.add [.began object path group] (by simp [Call.found]) rfl rfl (fun _ => id) (fun _ => id) rfl

/-- The record of a check accounts for what it finds. -/
theorem accounts_checked {q : Progress} {object : Option ObjectId} {group : TypeName} {value : Value}
    {path : Path} {b : BoundConstraint} {es : List Event} {vs : List Violation}
    (hes : ∀ e ∈ es, e.isConsulted)
    (hvs : c.stops ((q.after (.checked object path b group value :: es) vs).noting object path b) =
      false → c.failures object path value b = .ok vs ∧
        ∀ t ∈ b.targets path value, c.Evaluated object b.constraint t es) :
    c.Accounts q ((q.after (.checked object path b group value :: es) vs).noting object path b) := by
  have hsince : ((q.after (.checked object path b group value :: es) vs).noting object path b).since q =
      .checked object path b group value :: es := by
    simp [Progress.since, Progress.after, Progress.noting]
  refine ⟨Progress.extends_noting_after, ?_, ?_, ?_⟩
  · intro mark hmark
    refine (Progress.mem_noting hmark).imp id ?_
    rintro rfl
    exact ⟨b, group, value, by simp [hsince], rfl⟩
  · intro hs
    rw [hsince, List.flatMap_cons, found_checked (hvs hs).1, flatMap_found_eq_nil hes, List.append_nil]
    rfl
  · intro hs
    rw [hsince]
    exact consulted_checked hes (hvs hs).2

theorem Accounts.check {p q r : Progress} {s : Subject} {group : TypeName} {value : Value}
    {path : Path} {b : BoundConstraint} {holds : Bool} (h : c.Accounts p q)
    (hr : (c.checkConstraint s group value path b).exec q = (.ok holds, r)) : c.Accounts p r := by
  rcases checkConstraint_evaluated hr with rfl | ⟨es, vs, hes, rfl, hvs⟩
  · exact h
  · exact h.trans (accounts_checked hes hvs)

end Call

end ObjectValidation
