import ObjectValidation.Proofs.Metadata
import ObjectValidation.Proofs.Run
/-!
# What a check finds

What a constraint finds wrong with a value depends on nothing that a call does on the way: `failures`
gives it without running anything. A check that runs to its end reports just that
(`checkConstraint_ok`), so the journal of a call tells which violations it has found.
-/

namespace ObjectValidation

open Run

/-! ### Violations found one after the other -/

namespace Violation

/-- Violations with one more, unless one of the same key is among them. -/
def add (vs : List Violation) (v : Violation) : List Violation :=
  if vs.any (·.isRepeatOf v) then vs else vs ++ [v]

/-- Violations with others added in turn. -/
def addAll (vs ws : List Violation) : List Violation := ws.foldl add vs

theorem prefix_add (vs : List Violation) (v : Violation) : vs <+: add vs v := by
  unfold add
  split
  · exact List.prefix_refl vs
  · exact List.prefix_append vs [v]

theorem prefix_addAll : ∀ (ws vs : List Violation), vs <+: addAll vs ws
  | [], vs => List.prefix_refl vs
  | w :: ws, vs => (prefix_add vs w).trans (prefix_addAll ws (add vs w))

theorem addAll_append (vs ws us : List Violation) :
    addAll vs (ws ++ us) = addAll (addAll vs ws) us := List.foldl_append

theorem repeated_iff {vs : List Violation} {v : Violation} :
    vs.any (·.isRepeatOf v) = true ↔ ∃ w ∈ vs, w.key = v.key := by
  simp [List.any_eq_true, isRepeatOf_iff]

/-- Adding violations changes nothing just if all of them repeat earlier ones. -/
theorem addAll_eq_self_iff {vs : List Violation} : ∀ {ws : List Violation},
    addAll vs ws = vs ↔ ∀ w ∈ ws, ∃ v ∈ vs, v.key = w.key
  | [] => by simp [addAll]
  | w :: ws => by
    by_cases hw : ∃ v ∈ vs, v.key = w.key
    · have hadd : add vs w = vs := if_pos (repeated_iff.2 hw)
      have h : addAll vs (w :: ws) = addAll vs ws := by rw [addAll, List.foldl_cons, hadd, addAll]
      simp [h, addAll_eq_self_iff, hw]
    · have hadd : add vs w = vs ++ [w] := if_neg fun h => hw (repeated_iff.1 h)
      have hlen := (prefix_addAll ws (add vs w)).length_le
      constructor
      · intro h
        rw [addAll, List.foldl_cons, ← addAll] at h
        rw [h, hadd, List.length_append, List.length_singleton] at hlen
        omega
      · intro h
        exact absurd (h w (by simp)) hw

theorem length_addAll_eq_iff {vs ws : List Violation} :
    (addAll vs ws).length = vs.length ↔ ∀ w ∈ ws, ∃ v ∈ vs, v.key = w.key := by
  rw [← addAll_eq_self_iff]
  exact ⟨fun h => ((prefix_addAll ws vs).eq_of_length h.symm).symm, fun h => by rw [h]⟩

/-- Whatever is added is there in the end, at least as one of the same key. -/
theorem exists_mem_addAll {w : Violation} : ∀ {ws vs : List Violation}, w ∈ ws →
    ∃ v ∈ addAll vs ws, v.key = w.key
  | u :: ws, vs, h => by
    rcases List.mem_cons.1 h with rfl | h
    · have hv : ∃ v ∈ add vs w, v.key = w.key := by
        unfold add
        split
        · next hw => exact repeated_iff.1 hw
        · exact ⟨w, by simp, rfl⟩
      obtain ⟨v, hv, hk⟩ := hv
      exact ⟨v, (prefix_addAll ws _).subset hv, hk⟩
    · exact @exists_mem_addAll w ws (add vs u) h

theorem mem_addAll {v : Violation} : ∀ {ws vs : List Violation}, v ∈ addAll vs ws →
    v ∈ vs ∨ v ∈ ws
  | [], _, h => .inl h
  | w :: ws, vs, h => by
    rcases @mem_addAll v ws (add vs w) h with h | h
    · unfold add at h
      split at h
      · exact .inl h
      · rcases List.mem_append.1 h with h | h
        · exact .inl h
        · exact .inr (by simp_all)
    · exact .inr (by simp [h])

theorem addAll_eq_nil_iff {ws : List Violation} : addAll [] ws = [] ↔ ws = [] := by
  rw [addAll_eq_self_iff]
  cases ws with
  | nil => simp
  | cons w ws => simpa using ⟨w, fun h => absurd rfl h⟩

end Violation

/-! ### Where a constraint applies -/

/-- The value that a constraint of a subject applies to and its path, if the constraint counts. -/
def Subject.place (s : Subject) (store : Store) (b : BoundConstraint) : Option (Path × Value) :=
  if s.includes b.location then
    match b.location with
    | .self => some (s.path, s.value)
    | .property name => some (s.path.property name, s.property store name)
    | _ => none
  else none

/-- The values that a constraint on a value is evaluated on, with their paths. -/
def BoundConstraint.targets (b : BoundConstraint) (path : Path) (value : Value) :
    List (Path × Value) :=
  match b.container with
  | none => [(path, value)]
  | some kind => (kind.contents value).map fun (position, item) =>
    ((path.element position).property kind.label, item)

/-- Whether the event is that an evaluator was consulted. -/
def Event.isConsulted : Event → Bool
  | .consulted .. => true
  | _ => false

/-- The progress with events and violations added. -/
def Progress.after (p : Progress) (es : List Event) (vs : List Violation) : Progress :=
  { p with journal := p.journal ++ es, violations := Violation.addAll p.violations vs }

theorem Progress.after_after (p : Progress) (es fs : List Event) (vs ws : List Violation) :
    (p.after es vs).after fs ws = p.after (es ++ fs) (vs ++ ws) := by
  simp [after, Violation.addAll_append]

@[simp] theorem Progress.after_nil (p : Progress) : p.after [] [] = p := by
  simp [after, Violation.addAll]

/-- The progress with a constraint noted as done, which only one of several groups needs. -/
def Progress.noting (p : Progress) (object : Option ObjectId) (path : Path)
    (b : BoundConstraint) : Progress :=
  { p with processedConstraints :=
      if 1 < b.groups.length then (object, path, b.key) :: p.processedConstraints
      else p.processedConstraints }

namespace Call

variable (c : Call)

/-- The verdict of the evaluator of a declaration, without the traces that asking for it leaves. -/
def verdict (site : EvaluationSite) (value : Value) (k : Constraint) :
    Except Error (Option Bool) :=
  match c.evaluators.find? k.kind value with
  | some e =>
    match e.check c.store k value.effective site with
    | .ok valid => .ok (some valid)
    | .error reason => .error (.evaluationFailed k.kind site.path.text (c.store.text value) reason)
  | none =>
    if k.composing.isEmpty then .error (.noEvaluator k.kind value.effective.kind) else .ok none

/-- Where a value at a path is evaluated. -/
def siteAt (leaf : Option ObjectId) (path : Path) : EvaluationSite :=
  { rootType := c.rootType, path, leaf }

/-- What a declaration finds wrong with a value. -/
def failuresOf (leaf : Option ObjectId) (k : Constraint) (target : Path × Value) :
    Except Error (List Violation) := do
  let failing ← k.failing (c.verdict (c.siteAt leaf target.1) target.2)
  return failing.map (c.violation (c.siteAt leaf target.1) target.2)

/-- What a constraint finds wrong with a value, or with the values in it. -/
def failures (leaf : Option ObjectId) (path : Path) (value : Value) (b : BoundConstraint) :
    Except Error (List Violation) :=
  return (← (b.targets path value).mapM (c.failuresOf leaf b.constraint)).flatten

/-- What the check that an event tells of finds wrong. -/
def found : Event → List Violation
  | .checked object path b _ value => (c.failures object path value b).toOption.getD []
  | _ => []

variable {c}

@[simp] theorem found_consulted {e : Event} (h : e.isConsulted) : c.found e = [] := by
  cases e <;> first | rfl | simp [Event.isConsulted] at h

theorem found_checked {object : Option ObjectId} {path : Path} {b : BoundConstraint}
    {group : TypeName} {value : Value} {vs : List Violation}
    (h : c.failures object path value b = .ok vs) :
    c.found (.checked object path b group value) = vs := by
  simp [found, h, Except.toOption]

/-- What a declaration finds wrong is ascribed to the object and to the path of the value. -/
theorem of_mem_failuresOf {leaf : Option ObjectId} {k : Constraint} {target : Path × Value}
    {ws : List Violation} {w : Violation} (h : c.failuresOf leaf k target = .ok ws) (hw : w ∈ ws) :
    w.leaf = leaf ∧ w.path = target.1 := by
  obtain ⟨ks, -, h⟩ := bind_eq_ok.1 h
  cases h
  obtain ⟨k, -, rfl⟩ := List.mem_map.1 hw
  exact ⟨rfl, rfl⟩

theorem exists_target_of_mem_failures {leaf : Option ObjectId} {path : Path} {value : Value}
    {b : BoundConstraint} {vs : List Violation} {w : Violation}
    (h : c.failures leaf path value b = .ok vs) (hw : w ∈ vs) :
    ∃ target ∈ b.targets path value, ∃ ws, c.failuresOf leaf b.constraint target = .ok ws ∧ w ∈ ws := by
  obtain ⟨vss, hvss, hflat⟩ := bind_eq_ok.1 h
  cases hflat
  obtain ⟨ws, hws, hw⟩ := List.mem_flatten.1 hw
  obtain ⟨target, htarget, hws⟩ := (mapM_eq_ok hvss).1 ws hws
  exact ⟨target, htarget, ws, hws, hw⟩

theorem flatMap_found_eq_nil {es : List Event} (h : ∀ e ∈ es, e.isConsulted) :
    es.flatMap c.found = [] := by
  simpa using fun e he => found_consulted (h e he)

theorem stops_mono {p q : Progress} (h : p.violations <+: q.violations) (hp : c.stops p) :
    c.stops q := by
  simp only [stops, Bool.and_eq_true, Bool.not_eq_true', List.isEmpty_eq_false_iff] at hp ⊢
  exact ⟨hp.1, fun hq => hp.2 (List.prefix_nil.1 (hq ▸ h))⟩

/-! ### Evaluating -/

theorem judge_ok {site : EvaluationSite} {value : Value} {k : Constraint} {p q : Progress}
    {a : Option Bool} (h : (c.judge site value k).exec p = (.ok a, q)) :
    c.verdict site value k = .ok a ∧
      ∃ es : List Event, (∀ e ∈ es, e.isConsulted) ∧ q = p.after es [] := by
  unfold Call.judge at h
  unfold verdict
  split at h
  · next e he =>
    obtain ⟨_, r, hr, h⟩ := exec_bind_ok.1 h
    cases hr
    split at h
    · next valid hv =>
      cases h
      exact ⟨by simp_all, [_], by simp [Event.isConsulted], rfl⟩
    · cases h
  · next he =>
    split at h
    · cases h
    · next hc =>
      cases h
      exact ⟨by simp_all, [], by simp, by simp⟩

mutual

/-- A declaration that is evaluated along the way fails as it does on its own. -/
theorem failing_ok {site : EvaluationSite} {value : Value} : ∀ (k : Constraint) {p q : Progress}
    {ks : List Constraint}, (k.failing (c.judge site value)).exec p = (.ok ks, q) →
    k.failing (c.verdict site value) = .ok ks ∧
      ∃ es : List Event, (∀ e ∈ es, e.isConsulted) ∧ q = p.after es []
  | ⟨_, _, _, _, composing, single, _, _, _⟩, p, q, ks, h => by
    unfold Constraint.failing at h ⊢
    obtain ⟨a, r, hj, h⟩ := exec_bind_ok.1 h
    obtain ⟨hv, es, hes, rfl⟩ := judge_ok hj
    obtain ⟨parts, r', hp, h⟩ := exec_bind_ok.1 h
    obtain ⟨hps, fs, hfs, rfl⟩ := failingParts_ok single composing hp
    refine ⟨?_, es ++ fs, fun e he => (List.mem_append.1 he).elim (hes e) (hfs e), ?_⟩
    · simp only [hv, hps, bind, Except.bind]
      split at h
      · next hs =>
        cases h
        exact if_pos hs
      · next hs =>
        cases h
        exact if_neg hs
    · rw [Progress.after_after] at h
      split at h <;> cases h <;> rfl

theorem failingParts_ok {site : EvaluationSite} {value : Value} (single : Bool) :
    ∀ (parts : List Constraint) {p q : Progress} {ks : List Constraint},
    (Constraint.failingParts (c.judge site value) single parts).exec p = (.ok ks, q) →
    Constraint.failingParts (c.verdict site value) single parts = .ok ks ∧
      ∃ es : List Event, (∀ e ∈ es, e.isConsulted) ∧ q = p.after es []
  | [], p, q, ks, h => by
    cases h
    exact ⟨rfl, [], by simp, by simp⟩
  | part :: rest, p, q, ks, h => by
    unfold Constraint.failingParts at h ⊢
    obtain ⟨nested, r, hn, h⟩ := exec_bind_ok.1 h
    obtain ⟨hns, es, hes, rfl⟩ := failing_ok part hn
    rw [hns]
    change (if _ then _ else _ : Except Error _) = _ ∧ _
    split at h
    · next hs =>
      cases h
      exact ⟨if_pos hs, es, hes, rfl⟩
    · next hs =>
      obtain ⟨others, r', ho, h⟩ := exec_bind_ok.1 h
      obtain ⟨hos, fs, hfs, rfl⟩ := failingParts_ok single rest ho
      cases h
      refine ⟨?_, es ++ fs, fun e he => (List.mem_append.1 he).elim (hes e) (hfs e), ?_⟩
      · rw [if_neg hs, hos]
        rfl
      · rw [Progress.after_after]
        rfl

end

theorem judge_exec {site : EvaluationSite} {value : Value} {k : Constraint} {a : Option Bool}
    (h : c.verdict site value k = .ok a) (p : Progress) :
    ∃ q, (c.judge site value k).exec p = (.ok a, q) := by
  unfold verdict at h
  unfold Call.judge
  cases he : c.evaluators.find? k.kind value with
  | some e =>
    simp only [he] at h ⊢
    cases hvalid : e.check c.store k value.effective site with
    | ok valid =>
      rw [hvalid] at h
      cases h
      exact ⟨_, exec_bind_ok.2 ⟨(), _, rfl, rfl⟩⟩
    | error reason =>
      rw [hvalid] at h
      cases h
  | none =>
    simp only [he] at h ⊢
    split at h
    · cases h
    · next hcomposing =>
      cases h
      rw [if_neg hcomposing]
      exact ⟨p, rfl⟩

mutual

/-- A declaration that fails on its own fails so along the way. -/
theorem failing_exec {site : EvaluationSite} {value : Value} : ∀ (k : Constraint)
    {ks : List Constraint}, k.failing (c.verdict site value) = .ok ks → ∀ p : Progress,
    ∃ q, (k.failing (c.judge site value)).exec p = (.ok ks, q)
  | ⟨_, _, _, _, composing, single, _, _, _⟩, ks, h, p => by
    unfold Constraint.failing at h ⊢
    obtain ⟨a, ha, h⟩ := bind_eq_ok.1 h
    obtain ⟨parts, hparts, h⟩ := bind_eq_ok.1 h
    obtain ⟨r, hr⟩ := judge_exec ha p
    obtain ⟨q, hq⟩ := failingParts_exec single composing hparts r
    refine ⟨q, exec_bind_ok.2 ⟨a, r, hr, exec_bind_ok.2 ⟨parts, q, hq, ?_⟩⟩⟩
    split at h
    · next hsingle =>
      cases h
      rw [if_pos hsingle]
      rfl
    · next hsingle =>
      cases h
      rw [if_neg hsingle]
      rfl

theorem failingParts_exec {site : EvaluationSite} {value : Value} (single : Bool) :
    ∀ (parts : List Constraint) {ks : List Constraint},
    Constraint.failingParts (c.verdict site value) single parts = .ok ks → ∀ p : Progress,
    ∃ q, (Constraint.failingParts (c.judge site value) single parts).exec p = (.ok ks, q)
  | [], ks, h, p => by
    cases h
    exact ⟨p, rfl⟩
  | part :: rest, ks, h, p => by
    unfold Constraint.failingParts at h ⊢
    obtain ⟨nested, hnested, h⟩ := bind_eq_ok.1 h
    obtain ⟨r, hr⟩ := failing_exec part hnested p
    simp only [exec_bind_ok, hr]
    split at h
    · next hsingle =>
      cases h
      exact ⟨r, _, _, rfl, by rw [if_pos hsingle]; rfl⟩
    · next hsingle =>
      obtain ⟨others, hothers, h⟩ := bind_eq_ok.1 h
      cases h
      obtain ⟨q, hq⟩ := failingParts_exec single rest hothers r
      refine ⟨q, _, _, rfl, ?_⟩
      rw [if_neg hsingle]
      exact exec_bind_ok.2 ⟨others, q, hq, rfl⟩

end

theorem reportAll_exec {site : EvaluationSite} {value : Value} : ∀ (ks : List Constraint)
    (p : Progress), (ks.forM fun f => report (c.violation site value f)).exec p =
      (.ok (), p.after [] (ks.map (c.violation site value)))
  | [], p => by simp [exec_pure]
  | k :: ks, p => by
    change (report (c.violation site value k) >>= fun _ =>
      ks.forM fun f => report (c.violation site value f)).exec p = _
    have h : (report (c.violation site value k)).exec p =
        (.ok (), p.after [] [c.violation site value k]) := by
      simp only [report, exec_modify, Progress.after, Violation.addAll, List.foldl_cons,
        List.foldl_nil, Violation.add, List.append_nil]
      split <;> rfl
    rw [exec_bind, h]
    simp only
    rw [reportAll_exec, Progress.after_after]
    rfl

theorem evaluate_ok {s : Subject} {k : Constraint} {value : Value} {path : Path} {p q : Progress}
    {holds : Bool} (h : (c.evaluate s k value path).exec p = (.ok holds, q)) :
    ∃ (es : List Event) (vs : List Violation), (∀ e ∈ es, e.isConsulted) ∧ q = p.after es vs ∧
      c.failuresOf s.object k (path, value) = .ok vs ∧ holds = vs.isEmpty := by
  unfold Call.evaluate at h
  obtain ⟨ks, r, hk, h⟩ := exec_bind_ok.1 h
  obtain ⟨hks, es, hes, rfl⟩ := failing_ok k hk
  obtain ⟨_, r', hr, h⟩ := exec_bind_ok.1 h
  rw [reportAll_exec] at hr
  cases hr
  cases h
  refine ⟨es, ks.map (c.violation (c.siteAt s.object path) value), hes, ?_, ?_, ?_⟩
  · rw [Progress.after_after, List.append_nil, List.nil_append]
    rfl
  · change (k.failing (c.verdict (c.siteAt s.object path) value) >>= _) = _
    have hks : k.failing (c.verdict (c.siteAt s.object path) value) = .ok ks := hks
    rw [hks]
    rfl
  · simp

theorem evaluateAll_ok {s : Subject} {k : Constraint} : ∀ (ts : List (Path × Value))
    {p q : Progress} {holds : Bool},
    (c.allHold ts fun t => c.evaluate s k t.2 t.1).exec p = (.ok holds, q) →
    ∃ (es : List Event) (vs : List Violation), (∀ e ∈ es, e.isConsulted) ∧ q = p.after es vs ∧
      (c.stops q = false → holds = vs.isEmpty ∧
        ∃ vss, ts.mapM (c.failuresOf s.object k) = .ok vss ∧ vss.flatten = vs)
  | [], p, q, holds, h => by
    cases h
    exact ⟨[], [], by simp, by simp, fun _ => ⟨rfl, [], rfl, rfl⟩⟩
  | t :: ts, p, q, holds, h => by
    rw [exec_allHold_cons] at h
    split at h
    · next hs =>
      rw [exec_allHold_of_stops hs] at h
      cases h
      exact ⟨[], [], by simp, by simp, fun hq => by simp [hq] at hs⟩
    · obtain ⟨a, r, ha, h⟩ := exec_bind_ok.1 h
      obtain ⟨others, r', ho, h⟩ := exec_bind_ok.1 h
      cases h
      obtain ⟨es, vs, hes, rfl, hvs, rfl⟩ := evaluate_ok ha
      obtain ⟨fs, ws, hfs, rfl, hws⟩ := evaluateAll_ok ts ho
      refine ⟨es ++ fs, vs ++ ws, fun e he => (List.mem_append.1 he).elim (hes e) (hfs e),
        by rw [Progress.after_after], ?_⟩
      intro hq
      obtain ⟨rfl, vss, hvss, rfl⟩ := hws hq
      refine ⟨by cases vs <;> simp, vs :: vss, ?_, by simp⟩
      rw [List.mapM_cons, hvs, hvss]
      rfl

/-- A constraint on the values that a value contains is evaluated on each of them in turn. -/
theorem evaluateBound_eq_allHold {b : BoundConstraint} {kind : ContainerKind}
    (hb : b.container = some kind) (s : Subject) (value : Value) (path : Path) :
    c.evaluateBound s value path b =
      c.allHold (b.targets path value) fun t => c.evaluate s b.constraint t.2 t.1 := by
  simp only [Call.evaluateBound, BoundConstraint.targets, hb, allHold, List.foldlM_map]

theorem evaluateBound_ok {s : Subject} {value : Value} {path : Path} {b : BoundConstraint}
    {p q : Progress} {holds : Bool}
    (h : (c.evaluateBound s value path b).exec p = (.ok holds, q)) :
    ∃ (es : List Event) (vs : List Violation), (∀ e ∈ es, e.isConsulted) ∧ q = p.after es vs ∧
      (c.stops q = false → c.failures s.object path value b = .ok vs ∧ holds = vs.isEmpty) := by
  cases hb : b.container with
  | none =>
    simp only [Call.evaluateBound, hb] at h
    obtain ⟨es, vs, hes, hq, hvs, hh⟩ := evaluate_ok h
    refine ⟨es, vs, hes, hq, fun _ => ⟨?_, hh⟩⟩
    simp [failures, BoundConstraint.targets, hb, hvs, bind, Except.bind, pure, Except.pure]
  | some kind =>
    rw [evaluateBound_eq_allHold hb] at h
    obtain ⟨es, vs, hes, hq, hvs⟩ := evaluateAll_ok _ h
    refine ⟨es, vs, hes, hq, ?_⟩
    intro hs
    obtain ⟨hh, vss, hvss, rfl⟩ := hvs hs
    exact ⟨by simp [failures, hvss, bind, Except.bind, pure, Except.pure], hh⟩

/-- A constraint that is of other groups or is done is not checked. -/
theorem exec_checkConstraint_of_done {s : Subject} {group : TypeName} {value : Value} {path : Path}
    {b : BoundConstraint} {p : Progress} (h : b.appliesTo group = false ∨
      (1 < b.groups.length ∧ (s.object, path, b.key) ∈ p.processedConstraints)) :
    (c.checkConstraint s group value path b).exec p = (.ok true, p) := by
  unfold Call.checkConstraint
  rcases h with h | ⟨hgroups, hmark⟩
  · simp [h]
  · split
    · rfl
    · simp [exec_bind, hgroups, hmark]

/-- A constraint that is due is recorded as checked and evaluated. It is done if that gives an answer. -/
theorem exec_checkConstraint_of_due {s : Subject} {group : TypeName} {value : Value} {path : Path}
    {b : BoundConstraint} {p : Progress} (h : ¬ (b.appliesTo group = false ∨
      (1 < b.groups.length ∧ (s.object, path, b.key) ∈ p.processedConstraints))) :
    (c.checkConstraint s group value path b).exec p =
      match (c.evaluateBound s value path b).exec
          { p with journal := p.journal ++ [.checked s.object path b group value] } with
      | (.ok holds, q) => (.ok holds, q.noting s.object path b)
      | (.error halt, q) => (.error halt, q) := by
  obtain ⟨ha, hmark⟩ := not_or.1 h
  have hmark : (decide (1 < b.groups.length) &&
      p.processedConstraints.contains (s.object, path, b.key)) = false := by simpa using hmark
  have ha : (!b.appliesTo group) = false := by simpa using ha
  simp only [Call.checkConstraint, ha, Bool.false_eq_true, if_false, exec_bind, exec_get, hmark,
    exec_record]
  cases (c.evaluateBound s value path b).exec
      { p with journal := p.journal ++ [.checked s.object path b group value] } with
  | mk a q =>
    cases a with
    | error halt => rfl
    | ok holds =>
      by_cases htracked : 1 < b.groups.length
      · simp only [htracked, if_true, exec_bind, exec_modify, exec_pure, Progress.noting]
      · simp only [htracked, if_false, exec_pure, Progress.noting]

theorem exec_checkConstraint_ok_of_due {s : Subject} {group : TypeName} {value : Value} {path : Path}
    {b : BoundConstraint} {p q : Progress} {holds : Bool} (hdue : ¬ (b.appliesTo group = false ∨
      (1 < b.groups.length ∧ (s.object, path, b.key) ∈ p.processedConstraints)))
    (h : (c.checkConstraint s group value path b).exec p = (.ok holds, q)) :
    ∃ r, (c.evaluateBound s value path b).exec
        { p with journal := p.journal ++ [.checked s.object path b group value] } = (.ok holds, r) ∧
      q = r.noting s.object path b := by
  rw [exec_checkConstraint_of_due hdue] at h
  split at h
  · next hr =>
    cases h
    exact ⟨_, hr, rfl⟩
  · cases h

/-- What a check does that runs to its end: nothing, if the constraint does not belong to the group
or is done, and else it evaluates the constraint. -/
theorem checkConstraint_ok {s : Subject} {group : TypeName} {value : Value} {path : Path}
    {b : BoundConstraint} {p q : Progress} {holds : Bool}
    (h : (c.checkConstraint s group value path b).exec p = (.ok holds, q)) :
    (q = p ∧ holds = true ∧ (b.appliesTo group = false ∨
      (1 < b.groups.length ∧ (s.object, path, b.key) ∈ p.processedConstraints))) ∨
    ∃ (es : List Event) (vs : List Violation), (∀ e ∈ es, e.isConsulted) ∧
      q = (p.after (.checked s.object path b group value :: es) vs).noting s.object path b ∧
      (c.stops q = false → c.failures s.object path value b = .ok vs ∧ holds = vs.isEmpty) := by
  by_cases hdone : b.appliesTo group = false ∨
      (1 < b.groups.length ∧ (s.object, path, b.key) ∈ p.processedConstraints)
  · rw [exec_checkConstraint_of_done hdone] at h
    cases h
    exact .inl ⟨rfl, rfl, hdone⟩
  · obtain ⟨r, hr, rfl⟩ := exec_checkConstraint_ok_of_due hdone h
    obtain ⟨es, vs, hes, rfl, hvs⟩ := evaluateBound_ok hr
    exact .inr ⟨es, vs, hes, by simp [Progress.after], hvs⟩

end Call

end ObjectValidation
