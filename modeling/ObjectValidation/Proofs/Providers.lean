import ObjectValidation.Proofs.Operations
import ObjectValidation.Proofs.Outcome
/-!
# Asking providers

What the default group of an object stands for is needed at several places of a call: to see whether it
fits into the sequences that are asked for, to run it, and to run that of an executable. All of them find
it out the same way, and what has been found out is kept until the call ends (`Call.Proceeds.knows`). So a
provider is asked about an object once at most, and everything that needs its answer has the same one
(`Validator.asks_once`). A provider without a valid answer ends the call and is not asked again either.
-/

namespace ObjectValidation

open Run

/-- The object that a provider was asked about, and the type whose provider it is. -/
def Event.question? : Event → Option (Option ObjectId × TypeName)
  | .asked type object => some (object, type)
  | _ => none

/-- The questions that providers were asked, in order. -/
def questions (journal : List Event) : List (Option ObjectId × TypeName) :=
  journal.filterMap (·.question?)

theorem Event.question?_of_isConsulted {e : Event} (h : e.isConsulted) : e.question? = none := by
  cases e <;> first | rfl | cases h

theorem questions_append (journal added : List Event) :
    questions (journal ++ added) = questions journal ++ questions added := List.filterMap_append

theorem questions_concat {e : Event} (h : e.question? = none) (journal : List Event) :
    questions (journal ++ [e]) = questions journal := by
  simp [questions, h]

namespace Call

variable (c : Call)

/-- The smallest steps of a call, as long as what they find out is not in vain. -/
inductive Proceeds : Progress → Progress → Prop
  | metadata (p : Progress) (type : TypeName) : Proceeds p ((c.metadataOf type).exec p).2
  | expand (p : Progress) {α : Type} (x : Expanding α) : Proceeds p ((Run.expanding x).exec p).2
  | meaning {p q : Progress} {object : Option ObjectId} {m : Metadata} {d : DefaultMeaning} :
    (c.defaultMeaning object m).exec p = (.ok d, q) → Proceeds p q
  | chain (p : Progress) (chain : List ObjectId) : Proceeds p { p with chain }
  | begin (p : Progress) (object : Option ObjectId) (path : Path) (group : TypeName) :
    Proceeds p { p with journal := p.journal ++ [.began object path group] }
  | check (p : Progress) (s : Subject) (group : TypeName) (value : Value) (path : Path)
    (b : BoundConstraint) : Proceeds p ((c.checkConstraint s group value path b).exec p).2
  | mark (p : Progress) (s : Subject) (group : TypeName) :
    Proceeds p ((c.markProcessed s group).exec p).2

/-- Whether a call can get from one state to another one. -/
abbrev GetsTo : Progress → Progress → Prop := Relation.ReflTransGen c.Proceeds

/-- Whether a call can end in a state, be it that a default group turned out to have no meaning. -/
inductive Ends (start : Progress) : Progress → Prop
  | reached {p : Progress} : c.GetsTo start p → Ends start p
  | refused {p q : Progress} {object : Option ObjectId} {m : Metadata} {halt : Halt} :
    c.GetsTo start p → (c.defaultMeaning object m).exec p = (.error halt, q) → Ends start q
  | chain {p : Progress} (chain : List ObjectId) : Ends start p → Ends start { p with chain }

/-- Whether no question was asked twice and all questions asked so far are answered. -/
structure Answered (p : Progress) : Prop where
  once : (questions p.journal).Nodup
  known : ∀ key ∈ questions p.journal, ∃ d, p.defaults.lookup key = some d

/-- Whether what the default group of an object of a type stands for is known. -/
def KnowsDefault (p : Progress) (object : Option ObjectId) (type : TypeName) (d : DefaultMeaning) : Prop :=
  p.defaults.lookup (object, type) = some d

variable {c} {p q : Progress} {object : Option ObjectId} {m : Metadata}

/-! ### What the default group stands for -/

/-- What is known is not found out again, whatever the metadata says by now. -/
theorem exec_defaultMeaning_known {d : DefaultMeaning} (h : KnowsDefault p object m.type d) :
    (c.defaultMeaning object m).exec p = (.ok d, p) := by
  unfold KnowsDefault at h
  unfold Call.defaultMeaning
  rw [exec_bind, exec_get]
  simp [h]

/-- The question that is asked where the default group is not known. -/
def asking (object : Option ObjectId) (m : Metadata) : List Event :=
  match m.default with
  | .provided _ => [.asked m.type object]
  | _ => []

theorem questions_asking (object : Option ObjectId) (m : Metadata) :
    questions (asking object m) = [] ∨ questions (asking object m) = [(object, m.type)] := by
  unfold asking
  split
  · exact .inr rfl
  · exact .inl rfl

theorem exec_defaultGroups (object : Option ObjectId) (m : Metadata) (p : Progress) :
    ∃ answer : Except Halt (List TypeName), (c.defaultGroups object m).exec p =
      (answer, { p with journal := p.journal ++ asking object m }) := by
  unfold Call.defaultGroups asking
  cases m.default with
  | ordinary => exact ⟨_, Prod.ext rfl (by simp)⟩
  | listed groups order => exact ⟨_, Prod.ext rfl (by simp)⟩
  | provided provider =>
    simp only [exec_bind, exec_record]
    cases redefinition m.type (provider.groups c.store m.type object) <;> exact ⟨_, rfl⟩

/-- What is found out is kept. -/
theorem exec_defaultMeaning_new (h : p.defaults.lookup (object, m.type) = none) :
    (∃ d, (c.defaultMeaning object m).exec p = (.ok d, { p with
        journal := p.journal ++ asking object m
        defaults := p.defaults ++ [((object, m.type), d)] })) ∨
      ∃ halt, (c.defaultMeaning object m).exec p =
        (.error halt, { p with journal := p.journal ++ asking object m }) := by
  obtain ⟨answer, hanswer⟩ := exec_defaultGroups (c := c) object m p
  unfold Call.defaultMeaning
  simp only [exec_bind, exec_get, h, hanswer]
  cases answer with
  | error halt => exact .inr ⟨halt, rfl⟩
  | ok groups =>
    cases horder : m.defaultOrder c.registry groups with
    | error e => exact .inr ⟨.failed e, by simp [horder]⟩
    | ok order => exact .inl ⟨{ groups, order }, by simp [horder]⟩

/-- Nothing is found out but that what the default group stands for is known from then on. -/
theorem knowsDefault_of_exec {d : DefaultMeaning} (h : (c.defaultMeaning object m).exec p = (.ok d, q)) :
    KnowsDefault q object m.type d ∧ ∀ object' type d',
      KnowsDefault p object' type d' → KnowsDefault q object' type d' := by
  cases hlookup : p.defaults.lookup (object, m.type) with
  | some d' =>
    rw [exec_defaultMeaning_known hlookup] at h
    cases h
    exact ⟨hlookup, fun _ _ _ => id⟩
  | none =>
    rcases exec_defaultMeaning_new (c := c) hlookup with ⟨d', hd⟩ | ⟨halt, hhalt⟩
    · rw [hd] at h
      cases h
      refine ⟨by simp [KnowsDefault, List.lookup_append, hlookup], fun object' type d' hd' => ?_⟩
      unfold KnowsDefault at hd' ⊢
      simp [List.lookup_append, hd']
    · rw [hhalt] at h
      cases h

/-- A question is asked only where its answer is not known, so it has not been asked before. -/
theorem Answered.nodup_asking (h : Answered p) (hnew : p.defaults.lookup (object, m.type) = none) :
    (questions (p.journal ++ asking object m)).Nodup := by
  rw [questions_append]
  rcases questions_asking object m with hnone | hone
  · rw [hnone, List.append_nil]
    exact h.once
  · rw [hone]
    refine List.nodup_append.2 ⟨h.once, by simp, ?_⟩
    rintro key hkey _ hkey' rfl
    obtain rfl := List.mem_singleton.1 hkey'
    obtain ⟨d, hd⟩ := h.known _ hkey
    rw [hnew] at hd
    cases hd

theorem Answered.defaultMeaning (h : Answered p) {d : DefaultMeaning}
    (hd : (c.defaultMeaning object m).exec p = (.ok d, q)) : Answered q := by
  have hknows := knowsDefault_of_exec hd
  cases hlookup : p.defaults.lookup (object, m.type) with
  | some d' =>
    rw [exec_defaultMeaning_known hlookup] at hd
    cases hd
    exact h
  | none =>
    rcases exec_defaultMeaning_new (c := c) hlookup with ⟨d', hd'⟩ | ⟨halt, hhalt⟩
    · rw [hd'] at hd
      cases hd
      refine ⟨h.nodup_asking hlookup, fun key hkey => ?_⟩
      rw [questions_append] at hkey
      rcases List.mem_append.1 hkey with hkey | hkey
      · obtain ⟨d', hd'⟩ := h.known key hkey
        exact ⟨d', hknows.2 _ _ _ hd'⟩
      · rcases questions_asking object m with hnone | hone
        · simp [hnone] at hkey
        · obtain rfl := List.mem_singleton.1 (hone ▸ hkey)
          exact ⟨d, hknows.1⟩
    · rw [hhalt] at hd
      cases hd

/-! ### What calls do about default groups -/

/-- Whether no provider was asked from one state to another one, and no more is known of default groups. -/
def LeavesAlone (p q : Progress) : Prop :=
  q.defaults = p.defaults ∧ questions q.journal = questions p.journal

theorem LeavesAlone.append {r : Progress} (h : LeavesAlone p r) {e : Event} (he : e.question? = none) :
    LeavesAlone p { r with journal := r.journal ++ [e] } :=
  ⟨h.1, (questions_concat he _).trans h.2⟩

theorem LeavesAlone.answered (h : LeavesAlone p q) (hp : Answered p) : Answered q where
  once := h.2 ▸ hp.once
  known key hkey := by
    rw [h.2] at hkey
    rw [h.1]
    exact hp.known key hkey

/-- All but one of the steps of a call leave providers alone. -/
theorem Proceeds.meaning_or_leavesAlone (h : c.Proceeds p q) :
    (∃ object m d, (c.defaultMeaning object m).exec p = (.ok d, q)) ∨ LeavesAlone p q := by
  have hp : LeavesAlone p p := ⟨rfl, rfl⟩
  cases h with
  | metadata type => exact .inr ((meets_metadataOf_any (fun _ _ => id) (fun _ _ => id) type).ends hp)
  | expand x => exact .inr ((meets_expanding (fun _ _ => id) (fun _ _ => id) x).ends hp)
  | meaning h => exact .inl ⟨_, _, _, h⟩
  | chain chain => exact .inr hp
  | begin object path group => exact .inr (hp.append rfl)
  | check s group value path b =>
    refine .inr (Meets.ends (Q := Any) (meets_checkConstraint (fun _ _ => id) ?_ ?_
      (fun _ _ => id) fun _ hr _ => hr) hp)
    · exact fun _ _ hr => hr.append rfl
    · exact fun _ _ he hr => hr.append (Event.question?_of_isConsulted he)
  | mark s group =>
    obtain ⟨q, hq, hm⟩ := exec_markProcessed (c := c) s group p
    rw [hq]
    exact .inr ⟨hm.defaults, congrArg questions hm.journal⟩

theorem Proceeds.answered (h : c.Proceeds p q) (hp : Answered p) : Answered q := by
  rcases h.meaning_or_leavesAlone with ⟨object, m, d, hd⟩ | hsame
  · exact hp.defaultMeaning hd
  · exact hsame.answered hp

/-- What a default group stands for is known as long as the call goes on. -/
theorem Proceeds.knows (h : c.Proceeds p q) {type : TypeName} {d : DefaultMeaning}
    (hd : KnowsDefault p object type d) : KnowsDefault q object type d := by
  rcases h.meaning_or_leavesAlone with ⟨object', m, d', hd'⟩ | hsame
  · exact (knowsDefault_of_exec hd').2 _ _ _ hd
  · unfold KnowsDefault at hd ⊢
    rwa [hsame.1]

theorem GetsTo.answered (h : c.GetsTo p q) (hp : Answered p) : Answered q := by
  induction h with
  | refl => exact hp
  | tail _ hstep ih => exact hstep.answered ih

theorem GetsTo.knows (h : c.GetsTo p q) {type : TypeName} {d : DefaultMeaning}
    (hd : KnowsDefault p object type d) : KnowsDefault q object type d := by
  induction h with
  | refl => exact hd
  | tail _ hstep ih => exact hstep.knows ih

theorem Ends.nodup_questions (h : c.Ends p q) (hp : Answered p) : (questions q.journal).Nodup := by
  induction h with
  | reached h => exact (h.answered hp).once
  | chain _ _ ih => exact ih
  | @refused r q object m halt h hrefused =>
    have hr := h.answered hp
    cases hlookup : r.defaults.lookup (object, m.type) with
    | some d =>
      rw [exec_defaultMeaning_known hlookup] at hrefused
      cases hrefused
    | none =>
      rcases exec_defaultMeaning_new (c := c) hlookup with ⟨d, hd⟩ | ⟨halt', hhalt⟩
      · rw [hd] at hrefused
        cases hrefused
      · rw [hhalt] at hrefused
        cases hrefused
        exact hr.nodup_asking hlookup

/-! ### Calls go on by these steps -/

section

variable {start : Progress}

/-- Whether a call can come from a state to another one, of which what it remembers is right. -/
def Within (c : Call) (start p : Progress) : Prop := c.Coherent p ∧ c.GetsTo start p

theorem within_of_steps {α : Type} {x : Run α} {Q : α → Prop} (hsteps : ∀ p, c.Proceeds p (x.exec p).2)
    (hcoherent : Meets x c.Coherent Q AnyHalt) :
    Meets x (c.Within start) Q fun _ => c.Ends start := by
  have hlead : Keeps x (c.GetsTo start) := keeps_of_ends fun p hp => hp.tail (hsteps p)
  exact .of_exec (fun p a q hp hexec => ⟨⟨hcoherent.kept hexec hp.1, hlead.kept hexec hp.2⟩,
    hcoherent.answer hexec hp.1⟩) fun p halt q hp hexec => .reached (hlead.halt hexec hp.2)

theorem within_metadataOf (type : TypeName) :
    Meets (c.metadataOf type) (c.Within start) (c.Assembles type) fun _ => c.Ends start :=
  within_of_steps (.metadata · type)
    (meets_metadataOf (fun _ => id) (fun _ _ _ => trivial) (fun _ _ hcache _ => hcache) type)

theorem within_expanding {α : Type} (x : Expanding α) :
    Meets (Run.expanding x) (c.Within start) Any fun _ => c.Ends start :=
  within_of_steps (.expand · x) (meets_expanding (fun _ _ _ => trivial) (fun _ _ hp => hp) x)

theorem within_checkConstraint (s : Subject) (group : TypeName) (value : Value) (path : Path)
    (b : BoundConstraint) : Meets (c.checkConstraint s group value path b) (c.Within start) Any
      fun _ => c.Ends start :=
  within_of_steps (.check · s group value path b) (meets_checkConstraint (fun _ _ _ => trivial)
    (fun _ _ hp => hp) (fun _ _ _ hp => hp) (fun _ _ hp => hp) fun _ hp _ => hp)

theorem within_markProcessed (s : Subject) (group : TypeName) :
    Meets (c.markProcessed s group) (c.Within start) Any fun _ => c.Ends start := by
  refine within_of_steps (.mark · s group) (meets_markProcessed fun p q hp hm => ?_)
  unfold Coherent
  rwa [hm.memory]

/-- A default group has a meaning, or the call ends. -/
theorem within_defaultMeaning (object : Option ObjectId) (m : Metadata) :
    Meets (c.defaultMeaning object m) (c.Within start) Any fun _ => c.Ends start := by
  have hcoherent : Meets (c.defaultMeaning object m) c.Coherent Any AnyHalt :=
    meets_defaultMeaning (fun _ _ _ => trivial) (fun _ _ _ hp => hp) (fun _ _ hp => hp) object m
  exact .of_exec (fun p d q hp hexec =>
    ⟨⟨hcoherent.kept hexec hp.1, hp.2.tail (.meaning hexec)⟩, trivial⟩)
    fun p halt q hp hexec => .refused hp.2 hexec

theorem within_runGroup (s : Subject) (group : TypeName) :
    Meets (c.runGroup s group) (c.Within start) Any fun _ => c.Ends start := by
  have hwalk : KeptByWalk c s (c.Within start) (fun _ => c.Ends start) (fun _ => True) fun _ => True := by
    refine ⟨⟨fun _ m _ => within_defaultMeaning s.object m, fun g b _ _ => ?_,
      fun g _ => within_markProcessed s g⟩, within_metadataOf⟩
    exact meets_checkBound_of fun path value _ => within_checkConstraint s g value path b
  exact hwalk.runGroup (fun _ _ => trivial) (fun _ _ => trivial)
    (fun p hp => ⟨hp.1, hp.2.tail (.begin p s.object s.path group)⟩) fun _ => id

/-- Operations go on by these steps, and end with the last of them. -/
theorem within_operation (op : Operation) :
    KeptByOperation c op (c.Within start) fun _ => c.Ends start where
  failed _ _ hp := .reached hp.2
  exhausted _ hp := .reached hp.2
  metadata := within_metadataOf
  meaning object _ m _ := within_defaultMeaning object m
  expand := within_expanding
  chain p chain hp := ⟨hp.1, hp.2.tail (.chain p chain)⟩
  halted _ _ chain hp := hp.chain chain
  group s group _ := within_runGroup s group
  start s group _ := within_runGroup s group
  executable s _ _ _ _ b _ group value path := within_checkConstraint s group value path b

end

end Call

namespace Validator

open Call

/-- An operation asks no provider twice about an object, or about the lack of one. It goes on by the steps
of `Call.Proceeds`. Between any two of these, what the default group of an object stands for, once it has
been found out, is found again as it is, without a question and whatever the provider would answer. -/
theorem asks_once (v : Validator) (hv : v.Coherent) (op : Operation) :
    let c := op.call v
    let start := c.start v.memory
    (questions (v.perform op).journal).Nodup ∧ c.Ends start ((op.body c).exec start).2 ∧
      ∀ p q r object m d, (c.defaultMeaning object m).exec p = (.ok d, q) → c.GetsTo q r →
        ∀ m' : Metadata, m'.type = m.type → (c.defaultMeaning object m').exec r = (.ok d, r) := by
  intro c start
  have hcoherent : c.Coherent start := by cases op <;> exact hv
  have hanswered : Answered start := by constructor <;> simp [start, Call.start, questions]
  have hends : c.Ends start ((op.body c).exec start).2 := by
    have hkept : KeptByOperation c op (c.Within start) fun _ => c.Ends start := within_operation op
    have hbody := hkept.body start ⟨hcoherent, .refl⟩
    revert hbody
    cases (op.body c).exec start with
    | mk a q =>
      cases a with
      | ok a => exact fun hq => .reached hq.1.2
      | error halt => exact id
  refine ⟨?_, hends, fun p q r object m d hmeaning hr m' htype => ?_⟩
  · rw [v.perform_eq op, v.run_eq]
    exact hends.nodup_questions hanswered
  · have hknows := hr.knows (knowsDefault_of_exec hmeaning).1
    exact exec_defaultMeaning_known (htype ▸ hknows)

/-- Two workers that lead to each other, the one of a class whose provider is asked for its default
group, the other one of a class below it. -/
def roster : Validator where
  registry := [
    { name := ⟨"Early"⟩, kind := .interface },
    { name := ⟨"Worker"⟩, kind := .concrete, fields := [⟨"next", { own := { cascading := true } }⟩],
      provider := some { bound := none, groups := fun _ type _ => some [⟨"Early"⟩, type] } },
    { name := ⟨"Guard"⟩, kind := .concrete, superclass := some ⟨"Worker"⟩ : TypeDefinition }
    ].foldl Registry.register .initial
  evaluators := Standard.evaluators
  config := {}
  store := ⟨[(⟨"a"⟩, ⟨⟨"Worker"⟩, [("next", .object ⟨"b"⟩)]⟩), (⟨"b"⟩, ⟨⟨"Guard"⟩, [("next", .object ⟨"a"⟩)]⟩)]⟩
  memory := {}

/-- The provider is asked about each of the workers, although the default group of the first one is
needed twice. -/
theorem asks_once_roster :
    let op := Operation.object ⟨"a"⟩ []
    let c := op.call roster
    roster.Coherent ∧ (questions (roster.perform op).journal).Nodup ∧
      questions (roster.perform op).journal =
        [(some ⟨"a"⟩, ⟨"Worker"⟩), (some ⟨"b"⟩, ⟨"Worker"⟩)] ∧
      ∃ m d q, c.Assembles ⟨"Worker"⟩ m ∧
        (c.defaultMeaning (some ⟨"a"⟩) m).exec (c.start roster.memory) = (.ok d, q) ∧
        d.groups = [⟨"Early"⟩, TypeName.defaultGroup] ∧
        (c.defaultMeaning (some ⟨"a"⟩) m).exec q = (.ok d, q) := by
  intro op c
  have hcoherent : roster.Coherent := MetadataCache.coherent_nil _ _
  obtain ⟨honce, -, hsame⟩ := roster.asks_once hcoherent op
  have hmeaning : ((Metadata.assemble c.registry c.config.methodRules ⟨"Worker"⟩).toOption.any fun m =>
      ((c.defaultMeaning (some ⟨"a"⟩) m).exec (c.start roster.memory)).1.toOption.any fun d =>
        d.groups = [⟨"Early"⟩, TypeName.defaultGroup]) := by decide +kernel
  obtain ⟨m, hm, hmeaning⟩ := (Option.any_eq_true _ _).1 hmeaning
  obtain ⟨d, hd, hgroups⟩ := (Option.any_eq_true _ _).1 hmeaning
  have hd : (c.defaultMeaning (some ⟨"a"⟩) m).exec (c.start roster.memory) =
      (.ok d, ((c.defaultMeaning (some ⟨"a"⟩) m).exec (c.start roster.memory)).2) :=
    Prod.ext (toOption_eq_some hd) rfl
  exact ⟨hcoherent, honce, by decide +kernel, m, d, _, toOption_eq_some hm, hd, by simpa using hgroups,
    hsame _ _ _ _ m d hd .refl m rfl⟩

end Validator

end ObjectValidation
