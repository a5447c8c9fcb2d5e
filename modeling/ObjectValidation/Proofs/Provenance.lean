import ObjectValidation.Proofs.Coverage
/-!
# Where the entries of a journal come from

A journal tells of no more than what the walks of a call do: each check in it is for a constraint that
its walk demands, on the value that the constraint applies to, and the walk has begun before
(`Traced`).

The number of a constraint tells it from all others of its type (`Owns.eq_of_key_eq`), so the mark that
a constraint of several groups is done stands for that constraint alone.
-/

namespace ObjectValidation

open Run

namespace Call

variable {c : Call}

/-! ### Constraints and their types -/

/-- Whether the constraint is one of its type. -/
def Owns (c : Call) (b : BoundConstraint) : Prop :=
  ∃ m, c.Assembles b.type m ∧ b ∈ m.allConstraints

theorem Owns.eq_of_key_eq {b b' : BoundConstraint} (h : c.Owns b) (h' : c.Owns b')
    (hk : b.key = b'.key) : b = b' := by
  obtain ⟨m, hm, hb⟩ := h
  obtain ⟨m', hm', hb'⟩ := h'
  have htype : b.type = b'.type := congrArg Prod.fst hk
  rw [← htype] at hm'
  obtain rfl := hm.unique hm'
  exact Metadata.eq_of_key_eq hm hb hb' hk

theorem owns_of_mem {type : TypeName} {m : Metadata} (hm : c.Assembles type m)
    {b : BoundConstraint} (hb : b ∈ m.allConstraints) : c.Owns b :=
  ⟨m, (Metadata.numbered hm).1 b hb ▸ hm, hb⟩

theorem mem_of_mem_uncovered {covered : List TypeName} {bs : List BoundConstraint}
    {b : BoundConstraint} (h : b ∈ uncovered covered bs) : b ∈ bs := (List.mem_filter.1 h).1

/-- What is demanded along a hierarchy are constraints of its types. -/
theorem mem_of_mem_demandedFrom {b : BoundConstraint} : ∀ {types covered : List TypeName},
    b ∈ c.demandedFrom covered types → ∃ type ∈ types, ∃ m, c.Assembles type m ∧ b ∈ m.constraints
  | [], _, h => by simp [demandedFrom] at h
  | type :: above, covered, h => by
    cases ha : Metadata.assemble c.registry c.config.methodRules type with
    | error e => simp [demandedFrom, ha] at h
    | ok m =>
      cases hr : m.redefinesDefault with
      | true =>
        rw [demandedFrom_redefined ha hr] at h
        exact ⟨type, by simp, m, ha, mem_of_mem_uncovered h⟩
      | false =>
        rw [demandedFrom_ordinary ha hr] at h
        rcases List.mem_append.1 h with h | h
        · exact ⟨type, by simp, m, ha, (List.mem_filter.1 (mem_of_mem_uncovered h)).1⟩
        · obtain ⟨type', ht, hm⟩ := mem_of_mem_demandedFrom h
          exact ⟨type', List.mem_cons_of_mem _ ht, hm⟩

theorem exists_mem_of_mem_demanded {s : Subject} {type : TypeName}
    (hs : c.Assembles type s.metadata) {group : TypeName} {b : BoundConstraint}
    (hb : b ∈ c.demanded s group) : ∃ type m, c.Assembles type m ∧ b ∈ m.constraints := by
  unfold demanded at hb
  split at hb
  · obtain ⟨type', -, hm⟩ := mem_of_mem_demandedFrom hb
    exact ⟨type', hm⟩
  · exact ⟨type, s.metadata, hs, hb⟩

theorem owns_of_mem_demanded {s : Subject} {type : TypeName} (hs : c.Assembles type s.metadata)
    {group : TypeName} {b : BoundConstraint} (hb : b ∈ c.demanded s group) : c.Owns b := by
  obtain ⟨_, m, hm, hb⟩ := exists_mem_of_mem_demanded hs hb
  exact owns_of_mem hm (m.constraints_subset hb)

/-! ### What a journal tells of -/

/-- What is said of the events of a journal, given the whole journal: it stays true as the journal
grows, and says nothing of traces. -/
structure Lasting (Φ : List Event → Event → Prop) : Prop where
  mono : ∀ j added e, Φ j e → Φ (j ++ added) e
  trace : ∀ j e, e.isTrace → Φ j e

/-- Whether the second progress may follow the first one, and something is so for all events that the
journal has got since then. -/
def Logs (c : Call) (Φ : List Event → Event → Prop) (p q : Progress) : Prop :=
  c.Follows p q ∧ ∀ e ∈ q.since p, Φ q.journal e

variable {Φ : List Event → Event → Prop} {p : Progress}

theorem Logs.refl (h : c.Remembers p) : c.Logs Φ p p := ⟨.refl h, by simp⟩

theorem Logs.append {q r : Progress} (h : c.Logs Φ p q) (hΦ : Lasting Φ) {es : List Event}
    (hqr : c.Follows q r) (hj : r.journal = q.journal ++ es)
    (hes : ∀ e ∈ es, Φ (q.journal ++ es) e) : c.Logs Φ p r := by
  have hsince : r.since q = es := by simp [Progress.since, hj]
  refine ⟨h.1.trans hqr, ?_⟩
  intro e he
  rw [h.1.extends.since_append hqr.extends, hsince] at he
  rw [hj]
  rcases List.mem_append.1 he with he | he
  · exact hΦ.mono _ _ _ (h.2 e he)
  · exact hes e he

/-- What leaves the journal alone adds nothing to tell of. -/
theorem Logs.congr {q r : Progress} (h : c.Logs Φ p q) (hpr : c.Follows p r)
    (hj : r.journal = q.journal) : c.Logs Φ p r :=
  ⟨hpr, by rw [hj, Progress.since_eq_of_journal hj]; exact h.2⟩

theorem logs_checkConstraint (hΦ : Lasting Φ) {s : Subject} {group : TypeName} {value : Value}
    {path : Path} {b : BoundConstraint} {I : Progress → Prop}
    (hI : ∀ q r, I q → q.Extends r → I r)
    (h : ∀ q added, I q → b.appliesTo group →
      Φ (q.journal ++ added) (.checked s.object path b group value)) :
    Meets (c.checkConstraint s group value path b) (fun q => c.Logs Φ p q ∧ I q) Any AnyHalt := by
  refine .of_ok fun q holds r ⟨hq, hIq⟩ hexec => ?_
  have hqr := follows_checkConstraint.kept hexec (.refl hq.1.remembers)
  obtain ⟨es, hj, hes⟩ := checkConstraint_journal hexec
  refine ⟨⟨hq.append hΦ hqr hj ?_, hI q r hIq hqr.extends⟩, trivial⟩
  intro e he
  rcases hes e he with he | ⟨ha, rfl⟩
  · exact hΦ.trace _ e he
  · exact h q es hIq ha

/-- A computation that keeps what may follow keeps what is told if the journal gets traces alone. -/
theorem logs_of_traces {α : Type} {x : Run α} (hΦ : Lasting Φ) {Q : α → Prop}
    (hx : ∀ p, Meets x (c.Follows p) Q AnyHalt)
    (htraces : ∀ q : Progress, Meets x (fun r => ∃ es : List Event, r.journal = q.journal ++ es ∧
      ∀ e ∈ es, e.isTrace) Any AnyHalt) : Meets x (c.Logs Φ p) Q AnyHalt := by
  refine .of_ok fun q a r hq hexec => ?_
  have hqr := (hx q).kept hexec (.refl hq.1.remembers)
  obtain ⟨es, hj, hes⟩ := (htraces q).kept hexec ⟨[], by simp, by simp⟩
  exact ⟨hq.append hΦ hqr hj fun e he => hΦ.trace _ e (hes e he),
    (hx q).answer hexec (.refl hq.1.remembers)⟩

/-- Whether the walk of a subject for a group can be told of. -/
structure Tells (c : Call) (Φ : List Event → Event → Prop) (s : Subject) (group : TypeName) :
    Prop where
  began : ∀ j, Φ j (.began s.object s.path group)
  checked : ∀ j g b path value, .began s.object s.path group ∈ j →
    c.Serves s.metadata.hierarchy group g → b ∈ c.demanded s group → b.appliesTo g →
    s.place c.store b = some (path, value) → Φ j (.checked s.object path b g value)

theorem logs_markProcessed (s : Subject) (group : TypeName) :
    Meets (c.markProcessed s group) (c.Logs Φ p) Any AnyHalt :=
  meets_markProcessed fun _ _ hq hm => hq.congr (hq.1.mark hm) hm.journal

section

variable (hΦ : Lasting Φ)

include hΦ

theorem logs_metadataOf (type : TypeName) :
    Meets (c.metadataOf type) (c.Logs Φ p) (c.Assembles type) AnyHalt :=
  logs_of_traces hΦ (fun p => (follows_cascades p).metadata type) fun _ =>
    meets_metadataOf_any (fun _ _ _ => trivial) (fun _ _ => id) type

theorem logs_defaultMeaning {type : TypeName} {m : Metadata} (hm : c.Assembles type m)
    (object : Option ObjectId) : Meets (c.defaultMeaning object m) (c.Logs Φ p) Any AnyHalt :=
  logs_of_traces hΦ (fun p => (follows_cascades p).meaning object type m hm) fun _ =>
    meets_defaultMeaning (fun _ _ _ => trivial)
      (fun _ type object ⟨es, hj, hes⟩ => ⟨es ++ [.asked type object], by simp [hj], fun e he =>
        (List.mem_append.1 he).elim (hes e) fun he => List.mem_singleton.1 he ▸ rfl⟩)
      (fun _ _ => id) object m

theorem logs_runGroup {s : Subject} {group : TypeName} (h : c.Tells Φ s group) :
    Meets (c.runGroup s group) (c.Logs Φ p) Any AnyHalt := by
  -- The walk keeps in mind that it has begun.
  have hbegan : ∀ {α : Type} {x : Run α} {Q : α → Prop}, Meets x (c.Logs Φ p) Q AnyHalt →
      Meets x (fun q => .began s.object s.path group ∈ q.journal) Any AnyHalt →
      Meets x (fun q => c.Logs Φ p q ∧ .began s.object s.path group ∈ q.journal) Q AnyHalt :=
    fun hx hx' => (hx.both hx').mono fun _ ha => ha.1
  have hwalk : KeptByWalk c s (fun q => c.Logs Φ p q ∧ .began s.object s.path group ∈ q.journal)
      AnyHalt (c.Serves s.metadata.hierarchy group) (· ∈ c.demanded s group) := by
    refine ⟨⟨fun type m hm => hbegan (logs_defaultMeaning hΦ hm s.object) ?_,
      fun g b hg hb => ?_, fun g _ => hbegan (logs_markProcessed s g) ?_⟩,
      fun type => hbegan (logs_metadataOf hΦ type) ?_⟩
    · exact meets_defaultMeaning (fun _ _ _ => trivial)
        (fun _ _ _ => List.mem_append_left _) (fun _ _ => id) s.object m
    · refine meets_checkBound_of fun path value hplace => ?_
      exact logs_checkConstraint hΦ (fun _ _ hq hqr => hqr.journal.subset hq)
        fun q added hq ha => h.checked _ g b path value (List.mem_append_left _ hq) hg hb ha hplace
    · exact meets_markProcessed fun _ _ hq hm => hm.journal ▸ hq
    · exact meets_metadataOf_any (fun _ _ _ => trivial) (fun _ _ => id) type
  refine hwalk.runGroup (fun _ => id) (fun _ => id) (fun q hq => ⟨?_, by simp⟩) fun _ hq => hq.1
  refine hq.append hΦ ((Follows.refl hq.1.remembers).began s.object s.path group) rfl ?_
  intro e he
  rw [List.mem_singleton.1 he]
  exact h.began _

theorem logs_cascades (h : ∀ s, c.Knows s → ∀ group, c.Tells Φ s group) :
    KeptByCascades c (c.Logs Φ p) AnyHalt where
  failed _ _ _ := trivial
  exhausted _ _ := trivial
  metadata := logs_metadataOf hΦ
  meaning object _ _ hm := logs_defaultMeaning hΦ hm object
  expand x := logs_of_traces hΦ (fun p => (follows_cascades p).expand x) fun _ =>
    meets_expanding (fun _ _ _ => trivial) (fun _ _ => id) x
  chain _ chain hq := hq.congr ((follows_cascades p).chain _ chain hq.1) rfl
  halted _ _ _ _ := trivial
  group s group hs := logs_runGroup hΦ (h s hs group)

end

/-! ### Checks and their walks -/

/-- What is so of the checks in a journal: a walk that has begun demands them. -/
def Traced (c : Call) (j : List Event) : Event → Prop
  | .checked object path b g value => ∃ s group, c.Knows s ∧ s.object = object ∧
      .began object s.path group ∈ j ∧ c.Serves s.metadata.hierarchy group g ∧
      b ∈ c.demanded s group ∧ b.appliesTo g ∧ s.place c.store b = some (path, value)
  | _ => True

theorem traced_lasting : Lasting c.Traced where
  mono j added e h := by
    cases e with
    | checked object path b g value =>
      obtain ⟨s, group, hs, ho, hbegan, h⟩ := h
      exact ⟨s, group, hs, ho, List.mem_append_left _ hbegan, h⟩
    | _ => trivial
  trace j e h := by
    cases e with
    | checked => cases h
    | _ => trivial

theorem Knows.tells_traced {s : Subject} (hs : c.Knows s) (group : TypeName) :
    c.Tells c.Traced s group :=
  ⟨fun _ => trivial, fun _ _ _ _ _ hbegan hg hb ha hplace =>
    ⟨s, group, hs, rfl, hbegan, hg, hb, ha, hplace⟩⟩

/-- The value that a constraint at a location of an object applies to. -/
def valueAt (c : Call) (object : ObjectId) : Location → Value
  | .property name => c.store.property object name
  | _ => .object object

theorem value_eq_of_place {s : Subject} {x : ObjectId} (hx : s.object = some x)
    (hread : ∀ name value, s.only ≠ some (name, some value)) {b : BoundConstraint} {path : Path}
    {value : Value} (h : s.place c.store b = some (path, value)) : value = c.valueAt x b.location := by
  have hproperty (name : String) : s.property c.store name = c.store.property x name := by
    unfold Subject.property
    split
    · next fixed v honly => exact absurd honly (hread fixed v)
    · simp [Subject.property.read, hx]
  unfold Subject.place at h
  split at h
  · split at h <;> simp_all [valueAt, Subject.value]
  · cases h

theorem Knows.value_eq {s : Subject} (hs : c.Knows s) {x : ObjectId} (hx : s.object = some x)
    {b : BoundConstraint} {path : Path} {value : Value}
    (h : s.place c.store b = some (path, value)) : value = c.valueAt x b.location :=
  value_eq_of_place hx (by simp [hs.whole]) h

/-- A constraint that is settled by a walk has been checked in the call, for whatever group. -/
theorem checked_of_settled {o p₁ p₂ q : Progress} {s : Subject} {group : TypeName}
    (ho : o.processedConstraints = []) (hlogs : c.Logs c.Traced o q) (hp₁ : c.Follows o p₁)
    (hp₁₂ : c.Follows p₁ p₂) (hp₂ : c.Follows p₂ q) (hs : c.Knows s) {b : BoundConstraint}
    (hb : b ∈ c.demanded s group) (hsettled : c.Settled s b p₁ p₂) {path : Path} {value : Value}
    (hplace : s.place c.store b = some (path, value)) :
    ∃ g, .checked s.object path b g value ∈ q.since o := by
  obtain ⟨x, hx, hm⟩ := hs.object
  -- A check of a constraint with the same number was one of this constraint, on the same value.
  have hsame : ∀ {b' : BoundConstraint} {g : TypeName} {value' : Value},
      .checked s.object path b' g value' ∈ q.since o → b'.key = b.key →
      ∃ g, .checked s.object path b g value ∈ q.since o := by
    intro b' g value' he hk
    obtain ⟨s', group', hs', hobject, -, -, hb', -, hplace'⟩ := hlogs.2 _ he
    obtain ⟨x', -, hm'⟩ := hs'.object
    obtain rfl := (owns_of_mem_demanded hm' hb').eq_of_key_eq (owns_of_mem_demanded hm hb) hk
    rw [hs'.value_eq (hobject.trans hx) hplace', ← hs.value_eq hx hplace] at he
    exact ⟨g, he⟩
  have hsince : p₂.since p₁ ⊆ q.since o := fun e he =>
    hp₁.extends.since_subset (hp₁₂.extends.trans hp₂.extends)
      (hp₁₂.extends.subset_since hp₂.extends he)
  rcases hsettled path value hplace with ⟨g, he⟩ | ⟨-, hmark | ⟨b', g, value', he, hk⟩⟩
  · exact hsame (hsince he) rfl
  · rcases hp₁.accounts.done _ hmark with hmark | ⟨b', g, value', he, hk⟩
    · simp [ho] at hmark
    · exact hsame (hp₁.extends.subset_since (hp₁₂.extends.trans hp₂.extends) he) hk
  · exact hsame (hsince he) hk

/-- What is so of the checks in a journal: they are for constraints of the types they name. -/
def OwnsChecked (c : Call) (_ : List Event) : Event → Prop
  | .checked _ _ b _ _ => c.Owns b
  | _ => True

theorem ownsChecked_lasting : Lasting c.OwnsChecked where
  mono _ _ _ := id
  trace j e h := by
    cases e with
    | checked => cases h
    | _ => trivial

theorem tells_ownsChecked {s : Subject} {type : TypeName} (hs : c.Assembles type s.metadata)
    (group : TypeName) : c.Tells c.OwnsChecked s group :=
  ⟨fun _ => trivial, fun _ _ _ _ _ _ _ hb _ _ => owns_of_mem_demanded hs hb⟩

end Call

end ObjectValidation
