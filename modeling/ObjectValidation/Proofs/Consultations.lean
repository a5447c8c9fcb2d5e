import ObjectValidation.Proofs.Composition
/-!
# Whom checks consult

A check is more than a note in the journal: if it runs to its end, it has evaluated its constraint on each
value that the constraint applies to, and asked the evaluators for that. It asks the evaluator of each
declaration in the constraint that would report its own failure, and of all of them where nothing fails
(`Call.Evaluated`). The journal has these consultations right behind the check (`Call.Consulted`).
-/

namespace ObjectValidation

open Run

namespace Call

variable {c : Call} {site : EvaluationSite} {value : Value} {k : Constraint} {ks : List Constraint}
  {p q : Progress}

/-- The consultation of the evaluator of a declaration, if there is one for the value. -/
def consultation (c : Call) (site : EvaluationSite) (value : Value) (k : Constraint) : List Event :=
  (c.evaluators.find? k.kind value).toList.map fun e =>
    .consulted k.kind site value.effective e.isStandard

/-- Whether events have the consultations of a constraint that reports some declarations: of each
declaration that would report its own failure, and of all of them if nothing is reported. -/
def Asks (c : Call) (site : EvaluationSite) (value : Value) (k : Constraint) (ks : List Constraint)
    (es : List Event) : Prop :=
  ∀ a part, k.at? a = some part → k.reporter a = a ∨ ks = [] → c.consultation site value part ⊆ es

theorem Asks.mono {ks' : List Constraint} {es es' : List Event} (h : c.Asks site value k ks es)
    (hks : ks' = [] → ks = []) (hes : es ⊆ es') : c.Asks site value k ks' es' :=
  fun a part hpart hreports => List.Subset.trans (h a part hpart (hreports.imp_right hks)) hes

/-! ### Evaluating a constraint -/

theorem judge_journal {verdict : Option Bool}
    (h : (c.judge site value k).exec p = (.ok verdict, q)) :
    q.journal = p.journal ++ c.consultation site value k := by
  unfold Call.judge at h
  unfold consultation
  split at h
  · next e he =>
    obtain ⟨_, r, hr, h⟩ := exec_bind_ok.1 h
    cases hr
    split at h
    · cases h
      rw [he]
      rfl
    · cases h
  · next he =>
    split at h
    · cases h
    · cases h
      rw [he]
      exact (List.append_nil _).symm

/-- Parts that are evaluated one after the other are all asked, unless one failing part is enough. -/
theorem failingParts_asks {single : Bool} : ∀ {parts : List Constraint} {p q : Progress}
    {ks : List Constraint},
    (∀ part ∈ parts, ∀ {p q ks}, (part.failing (c.judge site value)).exec p = (.ok ks, q) →
      ∃ es, q.journal = p.journal ++ es ∧ c.Asks site value part ks es) →
    (Constraint.failingParts (c.judge site value) single parts).exec p = (.ok ks, q) →
    ∃ es, q.journal = p.journal ++ es ∧
      (single = false ∨ ks = [] → ∀ part ∈ parts, c.Asks site value part ks es)
  | [], _, _, _, _, h => by
    cases h
    exact ⟨[], by simp, by simp⟩
  | part :: rest, p, q, ks, hparts, h => by
    obtain ⟨hpart, hrest⟩ := List.forall_mem_cons.1 hparts
    unfold Constraint.failingParts at h
    obtain ⟨nested, r, hnested, h⟩ := exec_bind_ok.1 h
    obtain ⟨es, hr, hasks⟩ := hpart hnested
    split at h
    · next hfound =>
      cases h
      exact ⟨es, hr, fun hall => by simp_all⟩
    · obtain ⟨others, r', hothers, h⟩ := exec_bind_ok.1 h
      cases h
      obtain ⟨es', hr', hasks'⟩ := failingParts_asks hrest hothers
      refine ⟨es ++ es', by rw [hr', hr, List.append_assoc], fun hall => ?_⟩
      have hall' : single = false ∨ others = [] :=
        hall.imp_right fun hnil => (List.append_eq_nil_iff.1 hnil).2
      refine List.forall_mem_cons.2 ⟨?_, fun part' hpart' => ?_⟩
      · exact hasks.mono (fun hnil => (List.append_eq_nil_iff.1 hnil).1) (List.subset_append_left _ _)
      · exact (hasks' hall' part' hpart').mono (fun hnil => (List.append_eq_nil_iff.1 hnil).2)
          (List.subset_append_right _ _)

/-- A constraint that is evaluated to the end asks for itself and then for its parts. -/
theorem failing_asks (k : Constraint) : ∀ {p q : Progress} {ks : List Constraint},
    (k.failing (c.judge site value)).exec p = (.ok ks, q) →
    ∃ es, q.journal = p.journal ++ es ∧ c.Asks site value k ks es := by
  induction k using Constraint.induction_parts with
  | h k ih =>
    intro p q ks h
    obtain ⟨kind, groups, payload, attributes, composing, single, template, source, owner⟩ := k
    unfold Constraint.failing at h
    obtain ⟨verdict, r, hjudge, h⟩ := exec_bind_ok.1 h
    obtain ⟨parts, r', hparts, h⟩ := exec_bind_ok.1 h
    obtain ⟨es, hr', hasks⟩ := failingParts_asks (fun part hpart => ih part hpart) hparts
    obtain ⟨rfl, hks⟩ : r' = q ∧ (ks = [] → parts = []) := by
      split at h <;> cases h <;> simp
    refine ⟨_, by rw [hr', judge_journal hjudge, List.append_assoc], fun a part hpart hreports => ?_⟩
    cases a with
    | nil =>
      obtain rfl := Option.some.inj (Constraint.at?_nil.symm.trans hpart)
      exact List.subset_append_left _ _
    | cons i a =>
      obtain ⟨above, habove, hnested⟩ := Option.bind_eq_some_iff.1 (Constraint.at?_cons.symm.trans hpart)
      have hmem : above ∈ composing := List.mem_of_getElem? habove
      refine List.Subset.trans ?_ (List.subset_append_right _ _)
      -- A part below one that reports as single reports nothing for itself.
      cases single with
      | true =>
        rw [Constraint.reporter_of_single rfl] at hreports
        have hnone := hks (hreports.resolve_left (by simp))
        exact hasks (.inr hnone) above hmem a part hnested (.inr hnone)
      | false =>
        rw [Constraint.reporter_cons rfl habove, List.cons.injEq] at hreports
        exact hasks (.inl rfl) above hmem a part hnested (hreports.imp And.right hks)

/-! ### Checks -/

/-- Whether a constraint was evaluated on a value at a path: its declarations fail as their evaluators say,
and the events tell that these were asked. -/
def Evaluated (c : Call) (leaf : Option ObjectId) (k : Constraint) (t : Path × Value)
    (es : List Event) : Prop :=
  ∃ ks, k.failing (c.verdict (c.siteAt leaf t.1) t.2) = .ok ks ∧
    c.Asks (c.siteAt leaf t.1) t.2 k ks es

theorem Evaluated.mono {leaf : Option ObjectId} {t : Path × Value} {es es' : List Event}
    (h : c.Evaluated leaf k t es) (hes : es ⊆ es') : c.Evaluated leaf k t es' := by
  obtain ⟨ks, hks, hasks⟩ := h
  exact ⟨ks, hks, hasks.mono id hes⟩

section

variable {s : Subject} {path : Path} {holds : Bool} {b : BoundConstraint} {group : TypeName}

theorem evaluate_evaluated (h : (c.evaluate s k value path).exec p = (.ok holds, q)) :
    ∃ es, q.journal = p.journal ++ es ∧ c.Evaluated s.object k (path, value) es := by
  unfold Call.evaluate at h
  obtain ⟨ks, r, hk, h⟩ := exec_bind_ok.1 h
  obtain ⟨_, r', hr, h⟩ := exec_bind_ok.1 h
  rw [reportAll_exec] at hr
  cases hr
  cases h
  obtain ⟨es, hes, hasks⟩ := failing_asks k hk
  exact ⟨es, by simp [Progress.after, hes], ks, (failing_ok k hk).1, hasks⟩

theorem evaluateAll_evaluated : ∀ (ts : List (Path × Value)) {p q : Progress} {holds : Bool},
    (c.allHold ts fun t => c.evaluate s k t.2 t.1).exec p = (.ok holds, q) →
    ∃ es, q.journal = p.journal ++ es ∧
      (c.stops q = false → ∀ t ∈ ts, c.Evaluated s.object k t es)
  | [], _, _, _, h => by
    cases h
    exact ⟨[], by simp, by simp⟩
  | t :: ts, p, q, holds, h => by
    rw [exec_allHold_cons] at h
    split at h
    · next hs =>
      rw [exec_allHold_of_stops hs] at h
      cases h
      exact ⟨[], by simp, fun hq => by simp [hq] at hs⟩
    · obtain ⟨a, r, ha, h⟩ := exec_bind_ok.1 h
      obtain ⟨others, r', ho, h⟩ := exec_bind_ok.1 h
      cases h
      obtain ⟨es, hr, hfirst⟩ := evaluate_evaluated ha
      obtain ⟨es', hr', hothers⟩ := evaluateAll_evaluated ts ho
      refine ⟨es ++ es', by rw [hr', hr, List.append_assoc], fun hq => ?_⟩
      exact List.forall_mem_cons.2 ⟨hfirst.mono (List.subset_append_left _ _),
        fun t ht => (hothers hq t ht).mono (List.subset_append_right _ _)⟩

theorem evaluateBound_evaluated (h : (c.evaluateBound s value path b).exec p = (.ok holds, q)) :
    ∃ es, q.journal = p.journal ++ es ∧
      (c.stops q = false → ∀ t ∈ b.targets path value, c.Evaluated s.object b.constraint t es) := by
  cases hb : b.container with
  | none =>
    simp only [Call.evaluateBound, hb] at h
    obtain ⟨es, hes, hevaluated⟩ := evaluate_evaluated h
    exact ⟨es, hes, fun _ => by simpa [BoundConstraint.targets, hb] using hevaluated⟩
  | some kind =>
    rw [evaluateBound_eq_allHold hb] at h
    exact evaluateAll_evaluated _ h

/-- A check that is made comes into the journal with what its evaluation asks behind it. -/
theorem checkConstraint_evaluated
    (h : (c.checkConstraint s group value path b).exec p = (.ok holds, q)) :
    q = p ∨ ∃ (es : List Event) (vs : List Violation), (∀ e ∈ es, e.isConsulted) ∧
      q = (p.after (.checked s.object path b group value :: es) vs).noting s.object path b ∧
      (c.stops q = false → c.failures s.object path value b = .ok vs ∧
        ∀ t ∈ b.targets path value, c.Evaluated s.object b.constraint t es) := by
  by_cases hdone : b.appliesTo group = false ∨
      (1 < b.groups.length ∧ (s.object, path, b.key) ∈ p.processedConstraints)
  · rw [exec_checkConstraint_of_done hdone] at h
    cases h
    exact .inl rfl
  · obtain ⟨r, hr, rfl⟩ := exec_checkConstraint_ok_of_due hdone h
    obtain ⟨es, vs, hes, rfl, hvs⟩ := evaluateBound_ok hr
    obtain ⟨es', hes', hevaluated⟩ := evaluateBound_evaluated hr
    obtain rfl := List.append_cancel_left hes'
    exact .inr ⟨es, vs, hes, by simp [Progress.after], fun hq => ⟨(hvs hq).1, hevaluated hq⟩⟩

end

/-! ### Journals -/

/-- Whether each check in a journal was made: right behind it are consultations, and by these the
constraint was evaluated on each value that it applies to. -/
def Consulted (c : Call) (j : List Event) : Prop :=
  ∀ before object path b group value after,
    j = before ++ .checked object path b group value :: after →
    ∃ es, es <+: after ∧ (∀ e ∈ es, e.isConsulted) ∧
      ∀ t ∈ b.targets path value, c.Evaluated object b.constraint t es

theorem consulted_of_unchecked {es : List Event}
    (h : ∀ e ∈ es, ∀ object path b g value, e ≠ .checked object path b g value) : c.Consulted es := by
  rintro before object path b group value after rfl
  exact absurd rfl (h _ (by simp) object path b group value)

theorem Consulted.append {j j' : List Event} (h : c.Consulted j) (h' : c.Consulted j') :
    c.Consulted (j ++ j') := by
  intro before object path b group value after hsplit
  rcases List.append_eq_append_iff.1 hsplit with ⟨as, -, hj'⟩ | ⟨bs, hj, hafter⟩
  · exact h' as object path b group value after hj'
  cases bs with
  | nil => exact h' [] object path b group value after hafter.symm
  | cons _ bs =>
    obtain ⟨rfl, rfl⟩ := List.cons.inj hafter
    obtain ⟨es, hes, hconsulted, hevaluated⟩ := h before object path b group value bs hj
    exact ⟨es, hes.trans (List.prefix_append bs j'), hconsulted, hevaluated⟩

theorem consulted_checked {object : Option ObjectId} {path : Path} {b : BoundConstraint}
    {group : TypeName} {es : List Event} (hes : ∀ e ∈ es, e.isConsulted)
    (h : ∀ t ∈ b.targets path value, c.Evaluated object b.constraint t es) :
    c.Consulted (.checked object path b group value :: es) := by
  intro before object' path' b' group' value' after hsplit
  cases before with
  | nil =>
    obtain ⟨hcheck, rfl⟩ := List.cons.inj hsplit
    cases hcheck
    exact ⟨es, List.prefix_rfl, hes, h⟩
  | cons _ before =>
    have hmem : .checked object' path' b' group' value' ∈ es := by
      rw [(List.cons.inj hsplit).2]
      simp
    simpa [Event.isConsulted] using hes _ hmem

/-- A check that was made has found what it finds wrong, if anything. -/
theorem Consulted.exists_failures {j : List Event} (h : c.Consulted j) {object : Option ObjectId}
    {path : Path} {b : BoundConstraint} {group : TypeName}
    (he : .checked object path b group value ∈ j) : ∃ vs, c.failures object path value b = .ok vs := by
  obtain ⟨before, after, hsplit⟩ := List.append_of_mem he
  obtain ⟨es, -, -, hevaluated⟩ := h before object path b group value after hsplit
  choose! ks hks _ using hevaluated
  have hfails : ∀ t ∈ b.targets path value, c.failuresOf object b.constraint t =
      .ok ((ks t).map (c.violation (c.siteAt object t.1) t.2)) :=
    fun t ht => bind_eq_ok.2 ⟨ks t, hks t ht, rfl⟩
  exact ⟨_, bind_eq_ok.2 ⟨_, mapM_eq_ok_map hfails, rfl⟩⟩

end Call

end ObjectValidation
