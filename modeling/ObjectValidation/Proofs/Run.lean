import ObjectValidation.Validation.Operations
/-!
# Running computations of calls

`exec` gives the outcome of a computation and the progress it leaves. A composed computation is taken
apart by what its parts do (`exec_bind_ok`, `exec_bind_error`), a loop by the rounds it makes
(`exec_each_ok`, `exec_each_error`).

`Meets` is the judgement that a computation keeps a property of the progress.
-/

namespace ObjectValidation

namespace Run

variable {α β : Type}

/-- The outcome of a computation and the progress after it. -/
def exec (x : Run α) (p : Progress) : Except Halt α × Progress := (ExceptT.run x).run p

@[simp] theorem exec_pure (a : α) (p : Progress) : exec (pure a) p = (.ok a, p) := rfl

@[simp] theorem exec_get (p : Progress) : exec get p = (.ok p, p) := rfl

@[simp] theorem exec_set (q p : Progress) : exec (set q) p = (.ok (), q) := rfl

@[simp] theorem exec_modify (f : Progress → Progress) (p : Progress) :
    exec (modify f) p = (.ok (), f p) := rfl

@[simp] theorem exec_throw (h : Halt) (p : Progress) :
    exec (throw h : Run α) p = (.error h, p) := rfl

@[simp] theorem exec_fail (e : Error) (p : Progress) :
    exec (fail e : Run α) p = (.error (.failed e), p) := rfl

@[simp] theorem exec_record (e : Event) (p : Progress) :
    exec (record e) p = (.ok (), { p with journal := p.journal ++ [e] }) := rfl

@[simp] theorem exec_ofExcept_ok (a : α) (p : Progress) :
    exec (ofExcept (.ok a)) p = (.ok a, p) := rfl

@[simp] theorem exec_ofExcept_error (e : Error) (p : Progress) :
    exec (ofExcept (.error e) : Run α) p = (.error (.failed e), p) := rfl

theorem exec_bind (x : Run α) (f : α → Run β) (p : Progress) :
    exec (x >>= f) p =
      match exec x p with
      | (.ok a, q) => exec (f a) q
      | (.error h, q) => (.error h, q) := by
  simp only [exec, ExceptT.run_bind, StateT.run_bind]
  cases StateT.run (ExceptT.run x) p with
  | mk a q => cases a <;> rfl

theorem exec_tryCatch (x : Run α) (f : Halt → Run α) (p : Progress) :
    exec (tryCatch x f) p =
      match exec x p with
      | (.ok a, q) => (.ok a, q)
      | (.error h, q) => exec (f h) q := by
  simp only [exec, tryCatch, tryCatchThe, MonadExceptOf.tryCatch, ExceptT.tryCatch, ExceptT.run,
    ExceptT.mk, StateT.run_bind]
  cases StateT.run (m := Id) x p with
  | mk a q => cases a <;> rfl

theorem exec_bind_ok {x : Run α} {f : α → Run β} {p q : Progress} {b : β} :
    exec (x >>= f) p = (.ok b, q) ↔
      ∃ a r, exec x p = (.ok a, r) ∧ exec (f a) r = (.ok b, q) := by
  rw [exec_bind]
  cases exec x p with
  | mk a r => cases a <;> simp [and_assoc]

theorem exec_bind_error {x : Run α} {f : α → Run β} {p q : Progress} {h : Halt} :
    exec (x >>= f) p = (.error h, q) ↔
      exec x p = (.error h, q) ∨ ∃ a r, exec x p = (.ok a, r) ∧ exec (f a) r = (.error h, q) := by
  rw [exec_bind]
  cases exec x p with
  | mk a r => cases a <;> simp [and_assoc]

theorem exec_ofExcept_eq_ok {x : Except Error α} {a : α} {p q : Progress} :
    exec (ofExcept x) p = (.ok a, q) ↔ x = .ok a ∧ q = p := by
  cases x <;> simp [eq_comm]

/-! ### What a computation keeps -/

/-- From a progress with `I` the computation leads to one with `I` and to an answer with `Q`, or it
ends the call before its time with `E`. -/
def Meets (x : Run α) (I : Progress → Prop) (Q : α → Prop) (E : Halt → Progress → Prop) : Prop :=
  ∀ p, I p →
    match x.exec p with
    | (.ok a, q) => I q ∧ Q a
    | (.error h, q) => E h q

/-- Whatever the answer is. -/
abbrev Any {α : Type} : α → Prop := fun _ => True

/-- Whatever ends the call. -/
abbrev AnyHalt : Halt → Progress → Prop := fun _ _ => True

/-- Nothing ends the call. -/
abbrev NoHalt : Halt → Progress → Prop := fun _ _ => False

variable {I : Progress → Prop} {Q : α → Prop} {R : β → Prop} {E : Halt → Progress → Prop}

/-- A property is kept if each way that the computation may end keeps it. -/
theorem Meets.of_exec {x : Run α} (hok : ∀ p a q, I p → exec x p = (.ok a, q) → I q ∧ Q a)
    (herror : ∀ p halt q, I p → exec x p = (.error halt, q) → E halt q) : Meets x I Q E := by
  intro p hp
  cases h : exec x p with
  | mk a q =>
    cases a with
    | ok a => exact hok p a q hp h
    | error halt => exact herror p halt q hp h

/-- Where the call may end in any way, what comes with an answer is all that counts. -/
theorem Meets.of_ok {x : Run α} (h : ∀ p a q, I p → exec x p = (.ok a, q) → I q ∧ Q a) :
    Meets x I Q AnyHalt := .of_exec h fun _ _ _ _ _ => trivial

/-- A property of the progress that a computation keeps holds after it. -/
theorem Meets.kept {x : Run α} {p q : Progress} {a : α} (hx : Meets x I Q E)
    (h : exec x p = (.ok a, q)) (hp : I p) : I q := by
  have := hx p hp
  rw [h] at this
  exact this.1

theorem Meets.answer {x : Run α} {p q : Progress} {a : α} (hx : Meets x I Q E)
    (h : exec x p = (.ok a, q)) (hp : I p) : Q a := by
  have := hx p hp
  rw [h] at this
  exact this.2

theorem Meets.halt {x : Run α} {p q : Progress} {e : Halt} (hx : Meets x I Q E)
    (h : exec x p = (.error e, q)) (hp : I p) : E e q := by
  have := hx p hp
  rwa [h] at this

theorem Meets.pure {a : α} (h : Q a) : Meets (Pure.pure a) I Q E := fun _ hp => ⟨hp, h⟩

theorem Meets.unit : Meets (Pure.pure ()) I Any E := fun _ hp => ⟨hp, trivial⟩

theorem Meets.get : Meets (MonadState.get : Run Progress) I I E := fun _ hp => ⟨hp, hp⟩

theorem Meets.update {f : Progress → Progress} (h : ∀ p, I p → I (f p)) :
    Meets (modify f) I Any E := fun p hp => ⟨h p hp, trivial⟩

theorem Meets.record {e : Event} (h : ∀ p, I p → I { p with journal := p.journal ++ [e] }) :
    Meets (Run.record e) I Any E := .update h

theorem Meets.bind {x : Run α} {f : α → Run β} (hx : Meets x I Q E)
    (hf : ∀ a, Q a → Meets (f a) I R E) : Meets (x >>= f) I R E := by
  intro p hp
  have h := hx p hp
  rw [exec_bind]
  cases hxp : exec x p with
  | mk a q =>
    rw [hxp] at h
    cases a with
    | error e => exact h
    | ok a => exact hf a h.2 q h.1

/-- A computation whose answer does not matter, and then another one. -/
theorem Meets.next {x : Run α} {f : α → Run β} (hx : Meets x I Any E)
    (hf : ∀ a, Meets (f a) I R E) : Meets (x >>= f) I R E := hx.bind fun a _ => hf a

theorem Meets.mono {x : Run α} {Q' : α → Prop} (hx : Meets x I Q E) (h : ∀ a, Q a → Q' a) :
    Meets x I Q' E :=
  .of_exec (fun _ a _ hp hexec => ⟨hx.kept hexec hp, h a (hx.answer hexec hp)⟩)
    fun _ _ _ hp hexec => hx.halt hexec hp

theorem Meets.haltsBy {x : Run α} {E' : Halt → Progress → Prop} (hx : Meets x I Q E)
    (h : ∀ halt p, E halt p → E' halt p) : Meets x I Q E' :=
  .of_exec (fun _ _ _ hp hexec => ⟨hx.kept hexec hp, hx.answer hexec hp⟩)
    fun _ halt q hp hexec => h halt q (hx.halt hexec hp)

theorem Meets.any {x : Run α} (hx : Meets x I Q E) : Meets x I Any E := hx.mono fun _ _ => trivial

/-- Two properties that are kept are kept together. -/
theorem Meets.both {x : Run α} {J : Progress → Prop} {Q' : α → Prop} (hx : Meets x I Q E)
    (hx' : Meets x J Q' AnyHalt) : Meets x (fun p => I p ∧ J p) (fun a => Q a ∧ Q' a) E :=
  .of_exec (fun _ _ _ hp hexec => ⟨⟨hx.kept hexec hp.1, hx'.kept hexec hp.2⟩,
    hx.answer hexec hp.1, hx'.answer hexec hp.2⟩) fun _ _ _ hp hexec => hx.halt hexec hp.1

theorem Meets.ite {b : Prop} [Decidable b] {x y : Run α} (hx : Meets x I Q E)
    (hy : Meets y I Q E) : Meets (if b then x else y) I Q E := by
  split
  · exact hx
  · exact hy

theorem Meets.fail {e : Error} (h : ∀ p, I p → E (.failed e) p) :
    Meets (Run.fail e : Run α) I Q E := fun p hp => h p hp

theorem Meets.ofExcept {x : Except Error α} (h : ∀ e p, I p → E (.failed e) p)
    (hQ : ∀ a, x = .ok a → Q a) : Meets (Run.ofExcept x) I Q E := by
  cases x with
  | error e => exact .fail (h e)
  | ok a => exact .pure (hQ a rfl)

theorem Meets.forM {step : α → Run Unit} : ∀ {xs : List α}, (∀ x ∈ xs, Meets (step x) I Any E) →
    Meets (xs.forM step) I Any E
  | [], _ => .unit
  | x :: xs, h => by
    change Meets (step x >>= fun _ => xs.forM step) I Any E
    exact (h x (by simp)).next fun _ => Meets.forM fun y hy => h y (by simp [hy])

theorem Meets.foldlM {step : β → α → Run β} : ∀ {xs : List α} {b : β},
    (∀ b, ∀ x ∈ xs, Meets (step b x) I Any E) → Meets (xs.foldlM step b) I Any E
  | [], _, _ => .pure trivial
  | x :: xs, b, h => by
    rw [List.foldlM_cons]
    exact (h b x (by simp)).next fun _ => Meets.foldlM fun b y hy => h b y (by simp [hy])

/-- A computation that nothing ends before its time comes to an answer. -/
theorem Meets.succeeds {x : Run α} {p : Progress} (hx : Meets x I Q NoHalt) (hp : I p) :
    ∃ a q, x.exec p = (.ok a, q) := by
  have := hx p hp
  revert this
  cases exec x p with
  | mk a q =>
    cases a with
    | error e => exact False.elim
    | ok a => exact fun _ => ⟨a, q, rfl⟩

/-- A computation keeps a property, whichever way it ends. -/
abbrev Keeps (x : Run α) (I : Progress → Prop) : Prop := Meets x I Any fun _ => I

theorem Meets.ends {x : Run α} {p : Progress} (h : Meets x I Q fun _ => I) (hp : I p) :
    I (x.exec p).2 := by
  have hx := h p hp
  revert hx
  cases x.exec p with
  | mk a q =>
    cases a with
    | error e => exact id
    | ok a => exact And.left

theorem keeps_of_ends {x : Run α} (h : ∀ p, I p → I (x.exec p).2) : Keeps x I := by
  intro p hp
  have hx := h p hp
  revert hx
  cases x.exec p with
  | mk a q =>
    cases a with
    | error e => exact id
    | ok a => exact fun hq => ⟨hq, trivial⟩

end Run

/-! ### Loops that stop early -/

namespace Call

open Run

variable {c : Call} {α : Type}

/-- Whether the call has found all it looks for. -/
def stops (c : Call) (p : Progress) : Bool := c.config.failFast && !p.violations.isEmpty

@[simp] theorem exec_isStopped (p : Progress) : c.isStopped.exec p = (.ok (c.stops p), p) := rfl

theorem stops_eq_false_of_nil {p : Progress} (h : p.violations = []) : c.stops p = false := by
  simp [stops, h]

/-- A call that looks for all violations is never stopped. -/
theorem stops_eq_false_of_full (h : c.config.failFast = false) (p : Progress) : c.stops p = false := by
  simp [stops, h]

/-- What is left undone only when the call is stopped is done if it is not stopped afterwards. -/
theorem exec_unless_isStopped {x : Run Unit} {p q : Progress}
    (h : (c.isStopped >>= fun stopped => if stopped then pure () else x).exec p = (.ok (), q))
    (hq : c.stops q = false) : c.stops p = false ∧ x.exec p = (.ok (), q) := by
  rw [exec_bind, exec_isStopped] at h
  simp only at h
  split at h
  · next hstop =>
    cases h
    simp [hstop] at hq
  · next hstop => exact ⟨by simpa using hstop, h⟩

theorem exec_each_nil (step : α → Run Unit) (p : Progress) :
    (c.each [] step).exec p = (.ok (), p) := rfl

theorem exec_each_cons (x : α) (xs : List α) (step : α → Run Unit) (p : Progress) :
    (c.each (x :: xs) step).exec p =
      if c.stops p then (c.each xs step).exec p
      else (step x >>= fun _ => c.each xs step).exec p := by
  have h : c.each (x :: xs) step =
      (c.isStopped >>= fun stopped => if stopped then pure () else step x) >>= fun _ =>
        c.each xs step := rfl
  rw [h, exec_bind, exec_bind, exec_isStopped]
  cases hs : c.stops p <;> simp [exec_bind]

theorem exec_each_of_stops {xs : List α} {step : α → Run Unit} {p : Progress} (h : c.stops p) :
    (c.each xs step).exec p = (.ok (), p) := by
  induction xs with
  | nil => rfl
  | cons x xs ih => rw [exec_each_cons, if_pos h, ih]

/-- A loop that is done without having been stopped has made all its rounds. -/
theorem exec_each_cons_ok {x : α} {xs : List α} {step : α → Run Unit} {p q : Progress}
    (h : (c.each (x :: xs) step).exec p = (.ok (), q)) (hq : c.stops q = false) :
    c.stops p = false ∧
      ∃ r, (step x).exec p = (.ok (), r) ∧ (c.each xs step).exec r = (.ok (), q) := by
  rw [exec_each_cons] at h
  split at h
  · next hs =>
    rw [exec_each_of_stops hs] at h
    cases h
    simp_all
  · next hs =>
    obtain ⟨_, r, hr, h⟩ := exec_bind_ok.1 h
    exact ⟨by simpa using hs, r, hr, h⟩

/-- A call that ends before its time within a loop does so in the first round or behind it. -/
theorem exec_each_cons_error {x : α} {xs : List α} {step : α → Run Unit} {p q : Progress} {h : Halt}
    (hx : (c.each (x :: xs) step).exec p = (.error h, q)) :
    c.stops p = false ∧ ((step x).exec p = (.error h, q) ∨
      ∃ r, (step x).exec p = (.ok (), r) ∧ c.stops r = false ∧
        (c.each xs step).exec r = (.error h, q)) := by
  rw [exec_each_cons] at hx
  split at hx
  · next hs => simp [exec_each_of_stops hs] at hx
  · next hs =>
    refine ⟨by simpa using hs, (exec_bind_error.1 hx).imp_right fun ⟨_, r, hr, hx⟩ => ⟨r, hr, ?_, hx⟩⟩
    refine Bool.eq_false_iff.2 ?_
    intro hstop
    simp [exec_each_of_stops hstop] at hx

/-- What ends a call before its time within a loop does so in one of its rounds. -/
theorem exec_each_error {xs : List α} {step : α → Run Unit} {p q : Progress} {h : Halt}
    (hx : (c.each xs step).exec p = (.error h, q)) :
    ∃ ys x zs r, xs = ys ++ x :: zs ∧ (c.each ys step).exec p = (.ok (), r) ∧
      c.stops r = false ∧ (step x).exec r = (.error h, q) := by
  induction xs generalizing p with
  | nil => simp [exec_each_nil] at hx
  | cons x xs ih =>
    obtain ⟨hs, hx | ⟨r, hr, -, hx⟩⟩ := exec_each_cons_error hx
    · exact ⟨[], x, xs, p, rfl, rfl, hs, hx⟩
    · obtain ⟨ys, y, zs, r', rfl, hys, hs', hy⟩ := ih hx
      refine ⟨x :: ys, y, zs, r', rfl, ?_, hs', hy⟩
      rw [exec_each_cons, if_neg (by simp [hs])]
      exact exec_bind_ok.2 ⟨(), r, hr, hys⟩

theorem exec_allHold_from (check : α → Run Bool) : ∀ (xs : List α) (ok : Bool) (p : Progress),
    exec (xs.foldlM (fun ok x => do
      if ← c.isStopped then return ok
      let holds ← check x
      return ok && holds) ok) p = (c.allHold xs check >>= fun holds => pure (ok && holds)).exec p
  | [], ok, p => by simp [allHold]
  | x :: xs, ok, p => by
    unfold allHold
    simp only [List.foldlM_cons, exec_bind, exec_isStopped]
    cases hs : c.stops p with
    | true =>
      simp only [if_true, exec_pure]
      rw [exec_allHold_from check xs ok, exec_bind]
      rfl
    | false =>
      simp only [Bool.false_eq_true, if_false, exec_bind]
      cases (check x).exec p with
      | mk a q =>
        cases a with
        | error h => rfl
        | ok holds =>
          simp only [exec_pure, exec_allHold_from check xs, exec_bind]
          cases (c.allHold xs check).exec q with
          | mk a' q' => cases a' <;> simp [Bool.and_assoc]

theorem exec_allHold_cons (x : α) (xs : List α) (check : α → Run Bool) (p : Progress) :
    (c.allHold (x :: xs) check).exec p =
      if c.stops p then (c.allHold xs check).exec p
      else (check x >>= fun holds => c.allHold xs check >>= fun others =>
        pure (holds && others)).exec p := by
  rw [allHold, List.foldlM_cons, exec_bind, exec_bind, exec_isStopped]
  cases hs : c.stops p with
  | true => rfl
  | false =>
    simp only [Bool.false_eq_true, if_false, exec_bind]
    cases (check x).exec p with
    | mk a q =>
      cases a with
      | error h => rfl
      | ok holds => simp only [exec_pure, exec_allHold_from check xs, exec_bind, Bool.true_and]

theorem exec_allHold_of_stops {xs : List α} {check : α → Run Bool} {p : Progress}
    (h : c.stops p) : (c.allHold xs check).exec p = (.ok true, p) := by
  induction xs with
  | nil => rfl
  | cons x xs ih => rw [exec_allHold_cons, if_pos h, ih]

variable {I : Progress → Prop} {E : Halt → Progress → Prop}

theorem meets_isStopped : Meets c.isStopped I Any E := fun _ hp => ⟨hp, trivial⟩

theorem meets_each {xs : List α} {step : α → Run Unit} (h : ∀ x ∈ xs, Meets (step x) I Any E) :
    Meets (c.each xs step) I Any E :=
  .forM fun x hx => meets_isStopped.next fun _ => .ite .unit (h x hx)

theorem meets_allHold {xs : List α} {check : α → Run Bool}
    (h : ∀ x ∈ xs, Meets (check x) I Any E) : Meets (c.allHold xs check) I Any E :=
  .foldlM fun _ x hx => meets_isStopped.next fun _ =>
    .ite (.pure trivial) ((h x hx).next fun _ => .pure trivial)

end Call

end ObjectValidation
