import ObjectValidation.Proofs.Truncation
/-!
# What a call ends with that is to end with the first violation

Such a call ends with what one constraint finds wrong with one value (`Call.Caught`), for nothing is
checked behind that. It may be more than one violation: the parts of a composed constraint are
evaluated together, and each one that fails is reported, unless the constraint reports as a single one
(`perform_of_failFast`).
-/

namespace ObjectValidation

open Run

namespace Violation

/-- Violations found together are reported as one just if they have one key. -/
theorem length_addAll_nil_le_one_iff {ws : List Violation} :
    (addAll [] ws).length ≤ 1 ↔ ∀ w ∈ ws, ∀ w' ∈ ws, w.key = w'.key := by
  cases ws with
  | nil => simp [addAll]
  | cons w ws =>
    have hfirst : addAll [] (w :: ws) = addAll [w] ws := rfl
    have hlength := (prefix_addAll ws [w]).length_le
    have hsame : (addAll [w] ws).length = [w].length ↔ ∀ w' ∈ ws, w.key = w'.key := by
      rw [length_addAll_eq_iff]
      simp
    rw [List.length_singleton] at hlength hsame
    rw [hfirst]
    constructor
    · intro hle
      have hkeys := hsame.1 (by omega)
      have hw : ∀ u ∈ w :: ws, w.key = u.key := List.forall_mem_cons.2 ⟨rfl, hkeys⟩
      exact fun u hu u' hu' => (hw u hu).symm.trans (hw u' hu')
    · intro hkeys
      exact Nat.le_of_eq (hsame.2 fun w' hw' => hkeys w (by simp) w' (by simp [hw']))

end Violation

/-- A constraint without parts, or one that reports as a single one, reports at most itself. -/
theorem Constraint.length_failing_le_one {judge : Constraint → Except Error (Option Bool)} :
    ∀ {k : Constraint} {ks : List Constraint}, k.failing judge = .ok ks →
    k.composing = [] ∨ k.reportAsSingle → ks.length ≤ 1
  | ⟨_, _, _, _, composing, single, _, _, _⟩, ks, h, hk => by
    unfold Constraint.failing at h
    obtain ⟨verdict, -, h⟩ := bind_eq_ok.1 h
    obtain ⟨parts, hparts, h⟩ := bind_eq_ok.1 h
    split at h
    · cases h
      simp
    · next hs =>
      have hnil : parts = [] := by
        rcases hk with rfl | rfl
        · unfold Constraint.failingParts at hparts
          cases hparts
          rfl
        · simpa using hs
      cases h
      rw [hnil, List.append_nil]
      split <;> simp

namespace Call

variable {c : Call}

theorem length_failuresOf_le_one {leaf : Option ObjectId} {k : Constraint} {target : Path × Value}
    {ws : List Violation} (h : c.failuresOf leaf k target = .ok ws)
    (hk : k.composing = [] ∨ k.reportAsSingle) : ws.length ≤ 1 := by
  obtain ⟨ks, hks, h⟩ := bind_eq_ok.1 h
  cases h
  simpa using Constraint.length_failing_le_one hks hk

/-- The check that a journal ends with, one of the values that its constraint applies to, and what the
constraint finds wrong with that value. -/
structure LastCheck (c : Call) (j : List Event) where
  before : List Event
  object : Option ObjectId
  path : Path
  bound : BoundConstraint
  group : TypeName
  value : Value
  after : List Event
  target : Path × Value
  findings : List Violation
  journal_eq : j = before ++ .checked object path bound group value :: after
  consulted : ∀ e ∈ after, e.isConsulted
  applies : target ∈ bound.targets path value
  finds : c.failuresOf object bound.constraint target = .ok findings

/-- Whether violations are what the last check of a journal finds wrong with a value. -/
def Caught (c : Call) (j : List Event) (vs : List Violation) : Prop :=
  ∃ l : c.LastCheck j, vs = Violation.addAll [] l.findings

/-- Where nothing has been found before, evaluations in turn end with the first one that fails. -/
theorem evaluateAll_caught (hc : c.config.failFast) {s : Subject} {k : Constraint} :
    ∀ (ts : List (Path × Value)) {p q : Progress} {holds : Bool},
    (c.allHold ts fun t => c.evaluate s k t.2 t.1).exec p = (.ok holds, q) → p.violations = [] →
    q.violations ≠ [] → ∃ (es : List Event) (t : Path × Value) (ws : List Violation),
      (∀ e ∈ es, e.isConsulted) ∧ q.journal = p.journal ++ es ∧ t ∈ ts ∧
      c.failuresOf s.object k t = .ok ws ∧ q.violations = Violation.addAll [] ws
  | [], p, q, holds, h, hp, hq => by
    cases h
    exact absurd hp hq
  | t :: ts, p, q, holds, h, hp, hq => by
    rw [exec_allHold_cons, if_neg (by simp [stops_eq_false_of_nil hp])] at h
    obtain ⟨a, r, ha, h⟩ := exec_bind_ok.1 h
    obtain ⟨others, r', ho, h⟩ := exec_bind_ok.1 h
    cases h
    obtain ⟨es, vs, hes, rfl, hvs, -⟩ := evaluate_ok ha
    have hviolations : (p.after es vs).violations = Violation.addAll [] vs := by
      simp [Progress.after, hp]
    cases vs with
    | nil =>
      obtain ⟨fs, u, ws, hfs, hj, hu, hws, hv⟩ := evaluateAll_caught hc ts ho hviolations hq
      refine ⟨es ++ fs, u, ws, fun e he => (List.mem_append.1 he).elim (hes e) (hfs e), ?_,
        List.mem_cons_of_mem t hu, hws, hv⟩
      rw [hj, ← List.append_assoc]
      rfl
    | cons w ws =>
      have hstops : c.stops (p.after es (w :: ws)) := by
        have hne : Violation.addAll [] (w :: ws) ≠ [] := by simp [Violation.addAll_eq_nil_iff]
        simpa [stops, hc, hviolations] using hne
      rw [exec_allHold_of_stops hstops] at ho
      cases ho
      exact ⟨es, t, w :: ws, hes, rfl, List.mem_cons_self, hvs, hviolations⟩

theorem evaluateBound_caught (hc : c.config.failFast) {s : Subject} {value : Value} {path : Path}
    {b : BoundConstraint} {p q : Progress} {holds : Bool}
    (h : (c.evaluateBound s value path b).exec p = (.ok holds, q)) (hp : p.violations = [])
    (hq : q.violations ≠ []) : ∃ (es : List Event) (t : Path × Value) (ws : List Violation),
      (∀ e ∈ es, e.isConsulted) ∧ q.journal = p.journal ++ es ∧ t ∈ b.targets path value ∧
      c.failuresOf s.object b.constraint t = .ok ws ∧ q.violations = Violation.addAll [] ws := by
  cases hb : b.container with
  | none =>
    simp only [Call.evaluateBound, hb] at h
    obtain ⟨es, vs, hes, rfl, hvs, -⟩ := evaluate_ok h
    refine ⟨es, (path, value), vs, hes, rfl, ?_, hvs, ?_⟩
    · simp [BoundConstraint.targets, hb]
    · simp [Progress.after, hp]
  | some kind =>
    rw [evaluateBound_eq_allHold hb] at h
    exact evaluateAll_caught hc _ h hp hq

/-- What a check finds is what it finds wrong with one value. -/
theorem checkConstraint_caught (hc : c.config.failFast) {s : Subject} {group : TypeName}
    {value : Value} {path : Path} {b : BoundConstraint} {p q : Progress} {holds : Bool}
    (h : (c.checkConstraint s group value path b).exec p = (.ok holds, q)) (hp : p.violations = [])
    (hq : q.violations ≠ []) : c.Caught q.journal q.violations := by
  by_cases hdone : b.appliesTo group = false ∨
      (1 < b.groups.length ∧ (s.object, path, b.key) ∈ p.processedConstraints)
  · rw [exec_checkConstraint_of_done hdone] at h
    cases h
    exact absurd hp hq
  · -- That the constraint is noted behind the evaluation changes neither journal nor violations.
    obtain ⟨r, hr, rfl⟩ := exec_checkConstraint_ok_of_due hdone h
    obtain ⟨es, t, ws, hes, hj, ht, hws, hv⟩ := evaluateBound_caught hc hr hp hq
    refine ⟨⟨p.journal, s.object, path, b, group, value, es, t, ws, ?_, hes, ht, hws⟩, hv⟩
    exact hj.trans (by rw [List.append_assoc, List.singleton_append])

end Call

namespace Validator

theorem withFailFast_self {v : Validator} {failFast : Bool} (h : v.config.failFast = failFast) :
    v.withFailFast failFast = v := by
  subst h
  rfl

/-- What an operation answers that is to end with the first violation: nothing, or what the last check
of its call finds wrong with one value, all of it. That is more than one violation just if the
failing declarations of the constraint differ in what they report, for which it needs parts and must
not report as a single one. -/
theorem perform_of_failFast (v : Validator) (hv : v.config.failFast) (op : Operation)
    {vs : List Violation} (h : (v.perform op).answer = .ok vs) :
    vs = [] ∨ ∃ l : (op.call v).LastCheck (v.perform op).journal,
      vs = Violation.addAll [] l.findings ∧
      (vs.length ≤ 1 ↔ ∀ w ∈ l.findings, ∀ w' ∈ l.findings, w.key = w'.key) ∧
      (l.bound.constraint.composing = [] ∨ l.bound.constraint.reportAsSingle → vs.length ≤ 1) := by
  have hself := withFailFast_self hv
  have hcut := v.perform_cut op (P := (op.call v).Caught) fun s group value path b => by
    refine (Call.truncates_checkConstraint (by cases op <;> rfl) s group value path b).knowing ?_
    intro p a q hp hexec hq
    have hbrief : (op.call (v.withFailFast false)).brief = op.call v := by
      rw [← hself]
      cases op <;> rfl
    rw [hbrief] at hexec
    exact Call.checkConstraint_caught (by cases op <;> exact hv) hexec hp hq
  rw [hself] at hcut
  rcases hcut with ⟨-, hnil⟩ | ⟨ws, -, hws, ⟨l, hl⟩, -⟩
  · exact .inl (hnil vs h)
  · obtain rfl : vs = ws := by
      rw [h] at hws
      exact Except.ok.inj hws
    refine .inr ⟨l, hl, hl ▸ Violation.length_addAll_nil_le_one_iff, fun hk => ?_⟩
    rw [hl, Violation.length_addAll_nil_le_one_iff]
    have hlength := Call.length_failuresOf_le_one l.finds hk
    match hf : l.findings with
    | [] => simp
    | [w] => simp
    | _ :: _ :: _ => simp [hf] at hlength

/-- A text that a composed constraint finds wrong in two ways. -/
def coded : Validator where
  registry := [
    { name := ⟨"T"⟩, kind := .concrete, fields := [
      ⟨"code", { own := { constraints := [{ kind := "Code", composing := [
        { kind := "NotBlank" }, { kind := "Size", attributes := [("min", .int 4)] }] }] } }⟩] :
        TypeDefinition }
    ].foldl Registry.register .initial
  evaluators := Standard.evaluators
  config := .quick
  store := ⟨[(⟨"t"⟩, ⟨⟨"T"⟩, [("code", .str "")]⟩)]⟩
  memory := {}

/-- Both parts are reported, since the constraint does not report as a single one. -/
theorem perform_of_failFast_coded :
    coded.config.failFast ∧
    ∃ vs, (coded.perform (.object ⟨"t"⟩ [])).answer = .ok vs ∧ vs.length = 2 ∧
      ∃ l : ((Operation.object ⟨"t"⟩ []).call coded).LastCheck
          (coded.perform (.object ⟨"t"⟩ [])).journal,
        vs = Violation.addAll [] l.findings ∧ l.bound.constraint.composing ≠ [] ∧
          l.bound.constraint.reportAsSingle = false := by
  have hfound : (coded.perform (.object ⟨"t"⟩ [])).answer.toOption.map (·.length) = some 2 := by
    decide +kernel
  obtain ⟨vs, hvs, hlength⟩ := Option.map_eq_some_iff.1 hfound
  have hvs := toOption_eq_some hvs
  rcases perform_of_failFast coded rfl (.object ⟨"t"⟩ []) hvs with rfl | ⟨l, hl, -, hone⟩
  · cases hlength
  · have hparts : ¬(l.bound.constraint.composing = [] ∨ l.bound.constraint.reportAsSingle) := by
      intro h
      have := hone h
      omega
    rw [not_or, Bool.not_eq_true] at hparts
    exact ⟨rfl, vs, hvs, hlength, l, hl, hparts.1, hparts.2⟩

/-- A call that is to end with the first violation answers two. -/
theorem composed_constraint_reports_twice :
    coded.config.failFast ∧
    ∃ vs, (coded.perform (.object ⟨"t"⟩ [])).answer = .ok vs ∧ 1 < vs.length := by
  have hfound : (coded.perform (.object ⟨"t"⟩ [])).answer.toOption.any (1 < ·.length) = true := by
    decide +kernel
  obtain ⟨vs, hvs, hlength⟩ := (Option.any_eq_true _ _).1 hfound
  exact ⟨rfl, vs, toOption_eq_some hvs, by simpa using hlength⟩

end Validator

end ObjectValidation
