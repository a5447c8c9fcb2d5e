import ObjectValidation.Proofs.Truncation
/-!
# What is reported of what is found

A call may find several violations of one key: path, message, text of the declaration and object. The
answer of an operation has the first one of each key and no other (`mem_addAll_iff`). The text of a
declaration shows neither its groups nor its payload nor what it is composed of, so of two declarations
that these alone tell apart one is reported (`twins_reported_once`). Whatever else is found is reported
for itself (`perform_reports`).

What is found comes from evaluations, one behind each check in the journal (`perform_evaluates`).
-/

namespace ObjectValidation

open Run

namespace Violation

variable {u w : Violation} {vs : List Violation}

theorem add_of_repeated (h : ∃ v ∈ vs, v.key = w.key) : add vs w = vs := if_pos (repeated_iff.2 h)

theorem add_of_new (h : ¬∃ v ∈ vs, v.key = w.key) : add vs w = vs ++ [w] :=
  if_neg fun hrep => h (repeated_iff.1 hrep)

theorem find?_cons_repeat {ws : List Violation} (h : w.key = u.key) :
    (w :: ws).find? (·.isRepeatOf u) = some w := List.find?_cons_of_pos (isRepeatOf_iff.2 h)

theorem find?_cons_other {ws : List Violation} (h : w.key ≠ u.key) :
    (w :: ws).find? (·.isRepeatOf u) = ws.find? (·.isRepeatOf u) :=
  List.find?_cons_of_neg fun hrep => h (isRepeatOf_iff.1 hrep)

/-- Of what is added, the first one of each key is kept, unless one of that key is there already. -/
theorem mem_addAll_iff : ∀ {ws vs : List Violation}, u ∈ addAll vs ws ↔
    u ∈ vs ∨ (∀ v ∈ vs, v.key ≠ u.key) ∧ ws.find? (·.isRepeatOf u) = some u
  | [], vs => by simp [addAll]
  | w :: ws, vs => by
    have hcons : addAll vs (w :: ws) = addAll (add vs w) ws := rfl
    rw [hcons, mem_addAll_iff]
    by_cases hrep : ∃ v ∈ vs, v.key = w.key
    · rw [add_of_repeated hrep]
      by_cases hkey : w.key = u.key
      · have hthere : ¬∀ v ∈ vs, v.key ≠ u.key := by
          obtain ⟨v, hv, hvw⟩ := hrep
          exact fun h => h v hv (hvw.trans hkey)
        simp [hthere]
      · rw [find?_cons_other hkey]
    · rw [add_of_new hrep]
      by_cases hkey : w.key = u.key
      · have hnew : ∀ v ∈ vs, v.key ≠ u.key := fun v hv hvu => hrep ⟨v, hv, hvu.trans hkey.symm⟩
        rw [find?_cons_repeat hkey]
        simp only [List.mem_append, List.mem_singleton, Option.some.injEq]
        constructor
        · rintro ((hu | rfl) | ⟨hall, -⟩)
          · exact .inl hu
          · exact .inr ⟨hnew, rfl⟩
          · exact absurd hkey (hall w (.inr rfl))
        · rintro (hu | ⟨-, rfl⟩)
          · exact .inl (.inl hu)
          · exact .inl (.inr rfl)
      · have hne : u ≠ w := fun h => hkey (congrArg key h.symm)
        rw [find?_cons_other hkey]
        simp [hne, hkey, or_imp, forall_and]

/-- What is found of a declaration, when nothing of another declaration is found with its key. -/
def StandsAlone (w : Violation) (found : List Violation) : Prop :=
  ∀ x ∈ found, x.key = w.key → x.constraint.same w.constraint

instance (w : Violation) (found : List Violation) : Decidable (w.StandsAlone found) :=
  inferInstanceAs (Decidable (∀ x ∈ found, x.key = w.key → x.constraint.same w.constraint = true))

end Violation

namespace Call

variable {c : Call}

/-- What an operation does follows what it starts from. -/
theorem follows_operation (op : Operation) (p : Progress) :
    KeptByOperation c op (c.Follows p) AnyHalt where
  toKeptByCascades := follows_cascades p
  start s group _ := follows_runGroup s group p
  executable _ _ _ _ _ _ _ _ _ _ := follows_checkConstraint

end Call

namespace Validator

variable {v : Validator} {op : Operation} {vs : List Violation}

/-- All that the checks of an operation find, in the order of the checks, repetitions included. -/
def detected (v : Validator) (op : Operation) : List Violation :=
  (v.perform op).journal.flatMap (op.call v).found

/-- An operation that goes through has come to a progress with what it answers and with its journal. -/
theorem exists_follows_of_perform (hv : v.Coherent) (h : (v.perform op).answer = .ok vs) :
    ∃ q, (op.call v).Follows ((op.call v).start v.memory) q ∧
      q.since ((op.call v).start v.memory) = (v.perform op).journal ∧ q.violations = vs := by
  let c := op.call v
  let p := c.start v.memory
  have hremembers : c.Remembers p := by
    refine ⟨?_, by simp [p, Call.start]⟩
    unfold Call.Coherent
    cases op <;> exact hv
  have hperform : v.perform op = _ := (v.perform_eq op).trans (run_eq v c (op.body c))
  have hexec : (op.body c).exec p = (.ok vs, ((op.body c).exec p).2) := by
    rw [hperform] at h
    exact Prod.ext h rfl
  refine ⟨_, (Call.follows_operation op p).body.kept hexec (.refl hremembers), ?_, ?_⟩
  · rw [hperform]
    simp [p, Call.start, Progress.since]
  · exact (answer_eq_violations v op h).symm

/-- A call is not cut short that looks for all violations, or finds none. -/
theorem stops_eq_false_of_answer (hall : v.config.failFast = false ∨ vs = []) {q : Progress}
    (hq : q.violations = vs) : (op.call v).stops q = false := by
  rcases hall with hfast | rfl
  · have hc : (op.call v).config.failFast = false := by cases op <;> exact hfast
    simp [Call.stops, hc]
  · exact Call.stops_eq_false_of_nil hq

/-- An operation that goes through answers what its checks find, without what repeats an earlier
key. -/
theorem answer_eq_addAll (hv : v.Coherent) (hall : v.config.failFast = false ∨ vs = [])
    (h : (v.perform op).answer = .ok vs) : vs = Violation.addAll [] (v.detected op) := by
  obtain ⟨q, hfollows, hjournal, hviolations⟩ := exists_follows_of_perform hv h
  have hfound := hfollows.accounts.found (stops_eq_false_of_answer hall hviolations)
  rwa [hviolations, hjournal] at hfound

/-- A check in the journal of an operation that is not cut short is more than a note: right behind it the
evaluators are consulted by which the constraint was evaluated on each value that it applies to, and
something of the key of whatever that found is in the answer. -/
theorem perform_evaluates (hv : v.Coherent) (hall : v.config.failFast = false ∨ vs = [])
    (h : (v.perform op).answer = .ok vs) {before after : List Event} {object : Option ObjectId}
    {path : Path} {b : BoundConstraint} {group : TypeName} {value : Value}
    (hjournal : (v.perform op).journal = before ++ .checked object path b group value :: after) :
    (∃ es, es <+: after ∧ (∀ e ∈ es, e.isConsulted) ∧
      ∀ t ∈ b.targets path value, (op.call v).Evaluated object b.constraint t es) ∧
    ∃ ws, (op.call v).failures object path value b = .ok ws ∧ ∀ w ∈ ws, ∃ u ∈ vs, u.key = w.key := by
  obtain ⟨q, hfollows, hsince, hviolations⟩ := exists_follows_of_perform hv h
  have hconsulted := hfollows.accounts.consulted (stops_eq_false_of_answer hall hviolations)
  rw [hsince] at hconsulted
  have hmem : .checked object path b group value ∈ (v.perform op).journal := by simp [hjournal]
  obtain ⟨ws, hws⟩ := hconsulted.exists_failures hmem
  refine ⟨hconsulted before object path b group value after hjournal, ws, hws, fun w hw => ?_⟩
  rw [answer_eq_addAll hv hall h]
  exact Violation.exists_mem_addAll
    (List.mem_flatMap.2 ⟨_, hmem, by rwa [Call.found_checked hws]⟩)

/-- The answer of an operation that goes through has, of all that is found with one key, what is found
first. So it has something of the key of whatever is found, and where two declarations fail, it has a
violation for each of them, unless another declaration is found to fail with the same path, message and
text at the same object. -/
theorem perform_reports (hv : v.Coherent) (hfast : v.config.failFast = false)
    (h : (v.perform op).answer = .ok vs) :
    (∀ u, u ∈ vs ↔ (v.detected op).find? (·.isRepeatOf u) = some u) ∧
    (∀ w ∈ v.detected op, ∃ u ∈ vs, u.key = w.key) ∧
    ∀ w ∈ v.detected op, ∀ w' ∈ v.detected op, w.StandsAlone (v.detected op) →
      w'.StandsAlone (v.detected op) → ¬w.constraint.same w'.constraint →
      ∃ u ∈ vs, ∃ u' ∈ vs, u ≠ u' ∧ u.constraint.same w.constraint ∧
        u'.constraint.same w'.constraint ∧ u.key = w.key ∧ u'.key = w'.key := by
  have hvs := answer_eq_addAll hv (.inl hfast) h
  have hmem : ∀ u, u ∈ vs ↔ (v.detected op).find? (·.isRepeatOf u) = some u := by
    intro u
    rw [hvs, Violation.mem_addAll_iff]
    simp
  have hkey : ∀ w ∈ v.detected op, ∃ u ∈ vs, u.key = w.key := by
    intro w hw
    rw [hvs]
    exact Violation.exists_mem_addAll hw
  refine ⟨hmem, hkey, ?_⟩
  intro w hw w' hw' halone halone' hdiffer
  have hcarried {x : Violation} (hx : x ∈ v.detected op) (hx' : x.StandsAlone (v.detected op)) :
      ∃ u ∈ vs, u.constraint.same x.constraint ∧ u.key = x.key := by
    obtain ⟨u, hu, hux⟩ := hkey x hx
    exact ⟨u, hu, hx' u (List.mem_of_find?_eq_some ((hmem u).1 hu)) hux, hux⟩
  obtain ⟨u, hu, husame, hukey⟩ := hcarried hw halone
  obtain ⟨u', hu', husame', hukey'⟩ := hcarried hw' halone'
  refine ⟨u, hu, u', hu', ?_, husame, husame', hukey, hukey'⟩
  rintro rfl
  exact hdiffer (halone' w hw (hukey.symm.trans hukey'))

/-- A form whose code is demanded twice, with different payloads, and whose name is blank and short. -/
def twinned : Validator where
  registry := [
    { name := ⟨"Form"⟩, kind := .concrete, fields := [
      ⟨"code", { own := { constraints := [
        { kind := "NotNull", payload := ["a"] }, { kind := "NotNull", payload := ["b"] }] } }⟩,
      ⟨"name", { own := { constraints := [
        { kind := "NotBlank" }, { kind := "Size", attributes := [("min", .int 4)] }] } }⟩]
      : TypeDefinition }
    ].foldl Registry.register .initial
  evaluators := Standard.evaluators
  config := {}
  store := ⟨[(⟨"f"⟩, ⟨⟨"Form"⟩, [("name", .str " ")]⟩)]⟩
  memory := {}

/-- What is wrong with the name is reported in two violations. -/
theorem perform_reports_twinned :
    ∃ vs, (twinned.perform (.object ⟨"f"⟩ [])).answer = .ok vs ∧ ∃ u ∈ vs, ∃ u' ∈ vs,
      u.constraint.text = "@NotBlank" ∧ u'.constraint.text = "@Size(min=4)" := by
  let found := twinned.detected (.object ⟨"f"⟩ [])
  have hanswer : (twinned.perform (.object ⟨"f"⟩ [])).answer.toOption.isSome := by decide +kernel
  obtain ⟨vs, hvs⟩ := Option.isSome_iff_exists.1 hanswer
  have hvs := toOption_eq_some hvs
  obtain ⟨w, hw, w', hw', htext, htext', halone, halone', hdiffer⟩ :
      ∃ w ∈ found, ∃ w' ∈ found, w.constraint.text = "@NotBlank" ∧
        w'.constraint.text = "@Size(min=4)" ∧ w.StandsAlone found ∧ w'.StandsAlone found ∧
        ¬w.constraint.same w'.constraint := by decide +kernel
  obtain ⟨u, hu, u', hu', -, -, -, hkey, hkey'⟩ :=
    (perform_reports (v := twinned) (MetadataCache.coherent_nil _ _) rfl hvs).2.2 w hw w' hw' halone
      halone' hdiffer
  exact ⟨vs, hvs, u, hu, u', hu', (congrArg (·.2.2.1) hkey).trans htext,
    (congrArg (·.2.2.1) hkey').trans htext'⟩

/-- Both demands on the code fail, and only one is reported. -/
theorem twins_reported_once :
    ∃ vs, (twinned.perform (.object ⟨"f"⟩ [])).answer = .ok vs ∧
      ∃ w ∈ twinned.detected (.object ⟨"f"⟩ []), ∃ w' ∈ twinned.detected (.object ⟨"f"⟩ []),
        w.path = w'.path ∧ w.leaf = w'.leaf ∧ w.value.same w'.value ∧
        ¬w.constraint.same w'.constraint ∧ ¬∃ u ∈ vs, u.constraint.same w'.constraint := by
  have h : ∃ vs ∈ (twinned.perform (.object ⟨"f"⟩ [])).answer.toOption,
      ∃ w ∈ twinned.detected (.object ⟨"f"⟩ []), ∃ w' ∈ twinned.detected (.object ⟨"f"⟩ []),
        w.path = w'.path ∧ w.leaf = w'.leaf ∧ w.value.same w'.value ∧
        ¬w.constraint.same w'.constraint ∧ ¬∃ u ∈ vs, u.constraint.same w'.constraint := by
    decide +kernel
  obtain ⟨vs, hvs, h⟩ := h
  exact ⟨vs, toOption_eq_some hvs, h⟩

end Validator

end ObjectValidation
