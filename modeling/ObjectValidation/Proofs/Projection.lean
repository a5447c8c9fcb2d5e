import ObjectValidation.Proofs.Findings
import ObjectValidation.Proofs.Rendering
/-!
# One property in place of all

The validation of one property makes the walk that the validation of its object makes, and checks on it
what is demanded of the property alone. `Narrowed` is the judgement that two computations run side by side
like that: what the second one has found and noted in the end is what the first one has on the property.

What is found on other properties makes no difference to what is reported on this one, for the text of a
path tells the property it starts with (`Path.TellsFirst`). So if nothing cascades, the validation of a
property finds just what that of the object finds on it (`validateProperty_eq_filter`).
-/

namespace ObjectValidation

open Run

/-! ### Where paths start -/

namespace Path

/-- The name of the first node. -/
def firstName? (p : Path) : Option String := p.nodes.head?.bind (·.name)

/-- Whether the path starts with the property. -/
def startsAt (p : Path) (name : String) : Bool := p.firstName? = some name

/-- The text of a path up to where a name has to end. -/
def stem (p : Path) : List Char := p.text.toList.takeWhile fun c => c != '.' && c != '['

/-- Whether the text of a path tells the name of its first node. -/
def TellsFirst (p : Path) : Prop := p.stem = (p.firstName?.getD "").toList

/-- Of two paths of one text, both start with the property or neither does. -/
theorem TellsFirst.startsAt_of_text_eq {p q : Path} (hp : p.TellsFirst) (hq : q.TellsFirst)
    (h : p.text = q.text) {name : String} (hname : name ≠ "") (hstart : q.startsAt name) :
    p.startsAt name := by
  have hq' : q.firstName? = some name := by simpa [startsAt] using hstart
  have hsame : p.firstName?.getD "" = name := by
    refine String.toList_inj.1 ?_
    rw [← hp, stem, h, ← stem, hq, hq']
    rfl
  cases hfirst : p.firstName? with
  | none =>
    rw [hfirst] at hsame
    exact absurd hsame.symm hname
  | some first =>
    rw [hfirst] at hsame
    simpa [startsAt, hfirst] using hsame

theorem IsName.takeWhile_eq {name : String} (h : IsName name) {rest : List Char}
    (hrest : ∀ c ∈ rest.head?, c = '.' ∨ c = '[') :
    (name.toList ++ rest).takeWhile (fun c => c != '.' && c != '[') = name.toList := by
  rw [List.takeWhile_append_of_pos fun c hc => by simpa using ⟨(h.2 c hc).1, (h.2 c hc).2.1⟩]
  cases rest with
  | nil => simp
  | cons c rest =>
    have hc : c = '.' ∨ c = '[' := hrest c rfl
    rcases hc with rfl | rfl <;> simp

theorem tellsFirst_root : root.TellsFirst := rfl

variable {name : String}

theorem tellsFirst_property (h : IsName name) : (root.property name).TellsFirst := by
  have htext : (root.property name).text.toList = name.toList ++ [] := by
    simp [root, property, nameLast, text, nodeText, String.join]
  rw [TellsFirst, stem, htext, h.takeWhile_eq (by simp)]
  rfl

/-- The path of an element goes on behind the name of the property with a bracket or a point. -/
theorem tellsFirst_element (h : IsName name) (position : Option Position) (label : String) :
    (((root.property name).element position).property label).TellsFirst := by
  have htext : (((root.property name).element position).property label).text.toList =
      name.toList ++ ((position.map Position.text).getD "" ++ ("." ++ label)).toList := by
    simp [root, property, element, nameLast, text, nodeText, String.join]
  rw [TellsFirst, stem, htext, h.takeWhile_eq]
  · rfl
  · cases position with
    | none => simp
    | some position => simp [position.text_eq]

end Path

/-! ### Violations of one kind -/

namespace Violation

variable {P : Violation → Bool} {vs : List Violation}

/-- What repeats nothing of its own kind repeats nothing at all, if no violation of another kind has its
key. -/
theorem filter_addAll : ∀ {ws vs : List Violation}, (∀ w ∈ ws, P w) →
    (∀ v ∈ vs, ∀ w ∈ ws, v.key = w.key → P v) →
    (addAll vs ws).filter P = addAll (vs.filter P) ws
  | [], _, _, _ => rfl
  | w :: ws, vs, hP, hkey => by
    obtain ⟨hw, hP⟩ := List.forall_mem_cons.1 hP
    have hrepeat : (vs.filter P).any (·.isRepeatOf w) = vs.any (·.isRepeatOf w) := by
      rw [Bool.eq_iff_iff, repeated_iff, repeated_iff]
      constructor
      · rintro ⟨v, hv, hk⟩
        exact ⟨v, (List.mem_filter.1 hv).1, hk⟩
      · rintro ⟨v, hv, hk⟩
        exact ⟨v, List.mem_filter.2 ⟨hv, hkey v hv w (by simp) hk⟩, hk⟩
    have hadd : (add vs w).filter P = add (vs.filter P) w := by
      unfold add
      rw [hrepeat]
      split
      · rfl
      · simp [List.filter_append, hw]
    change (addAll (add vs w) ws).filter P = addAll (add (vs.filter P) w) ws
    rw [filter_addAll hP, hadd]
    intro v hv w' hw' hk
    rcases @mem_addAll v [w] vs hv with hv | hv
    · exact hkey v hv w' (List.mem_cons_of_mem _ hw') hk
    · exact List.mem_singleton.1 hv ▸ hw

theorem filter_addAll_of_not : ∀ {ws vs : List Violation}, (∀ w ∈ ws, P w = false) →
    (addAll vs ws).filter P = vs.filter P
  | [], _, _ => rfl
  | w :: ws, vs, hP => by
    obtain ⟨hw, hP⟩ := List.forall_mem_cons.1 hP
    change (addAll (add vs w) ws).filter P = vs.filter P
    rw [filter_addAll_of_not hP]
    unfold add
    split
    · rfl
    · simp [List.filter_append, hw]

end Violation

/-! ### Two runs side by side -/

namespace Call

variable {c : Call} {name : String}

/-- Whether the second progress is the first one as far as a property goes. -/
structure Narrows (c : Call) (name : String) (p p' : Progress) : Prop where
  coherent : c.Coherent p
  memory : p'.memory = p.memory
  violations : p'.violations = p.violations.filter (·.path.startsAt name)
  marks : p'.processedConstraints = p.processedConstraints.filter (·.2.1.startsAt name)
  tellsFirst : ∀ w ∈ p.violations, w.path.TellsFirst

/-- Whether the second computation comes to an answer wherever the first one does, and then has done what
that has done on the property. -/
def Narrowed {α β : Type} (c : Call) (name : String) (x : Run α) (y : Run β) (Q : α → β → Prop) :
    Prop :=
  ∀ p p' a q, c.Narrows name p p' → x.exec p = (.ok a, q) →
    ∃ b q', y.exec p' = (.ok b, q') ∧ Q a b ∧ c.Narrows name q q'

/-- Whatever the answers are. -/
abbrev AnyAnswers {α β : Type} : α → β → Prop := fun _ _ => True

namespace Narrowed

variable {α β γ δ : Type} {Q : α → β → Prop} {R : γ → δ → Prop}

theorem pure {a : α} {b : β} (h : Q a b) : c.Narrowed name (Pure.pure a) (Pure.pure b) Q := by
  intro p p' a' q hp hexec
  cases hexec
  exact ⟨b, p', rfl, h, hp⟩

theorem bind {x : Run α} {y : Run β} {f : α → Run γ} {g : β → Run δ} (hx : c.Narrowed name x y Q)
    (hf : ∀ a b, Q a b → c.Narrowed name (f a) (g b) R) :
    c.Narrowed name (x >>= f) (y >>= g) R := by
  intro p p' a q hp hexec
  obtain ⟨a₁, q₁, h₁, h₂⟩ := exec_bind_ok.1 hexec
  obtain ⟨b₁, q₁', h₁', hQ, hq₁⟩ := hx p p' a₁ q₁ hp h₁
  obtain ⟨b, q', h₂', hR, hq⟩ := hf a₁ b₁ hQ q₁ q₁' a q hq₁ h₂
  exact ⟨b, q', exec_bind_ok.2 ⟨b₁, q₁', h₁', h₂'⟩, hR, hq⟩

theorem update {f : Progress → Progress}
    (h : ∀ p p', c.Narrows name p p' → c.Narrows name (f p) (f p')) :
    c.Narrowed name (modify f) (modify f) AnyAnswers := by
  intro p p' a q hp hexec
  cases hexec
  exact ⟨(), f p', rfl, trivial, h p p' hp⟩

theorem ite {b : Prop} [Decidable b] {x x' : Run α} {y y' : Run β} (hx : c.Narrowed name x y Q)
    (hx' : c.Narrowed name x' y' Q) :
    c.Narrowed name (if b then x else x') (if b then y else y') Q := by
  split
  · exact hx
  · exact hx'

theorem each (hfast : c.config.failFast = false) {x y : α → Run Unit} : ∀ {as : List α},
    (∀ a ∈ as, c.Narrowed name (x a) (y a) AnyAnswers) →
    c.Narrowed name (c.each as x) (c.each as y) AnyAnswers
  | [], _ => .pure trivial
  | a :: as, h => by
    have hcons : ∀ step : α → Run Unit, ∀ p, (c.each (a :: as) step).exec p =
        (step a >>= fun _ => c.each as step).exec p := by
      intro step p
      rw [exec_each_cons, if_neg (by simp [stops_eq_false_of_full hfast])]
    have hnext := (h a (by simp)).bind fun _ _ _ =>
      Narrowed.each hfast fun b hb => h b (List.mem_cons_of_mem _ hb)
    intro p p' u q hp hexec
    obtain ⟨u', q', hexec', hrest⟩ := hnext p p' u q hp ((hcons x p).symm.trans hexec)
    exact ⟨u', q', (hcons y p').trans hexec', hrest⟩

end Narrowed

end Call

/-! ### Checks -/

/-- The subject as far as a property goes. -/
def Subject.narrowed (s : Subject) (name : String) : Subject := { s with only := some (name, none) }

/-- Whether a constraint is one of an object itself, not of what it contains, or of a property that has a
proper name. -/
def BoundConstraint.IsPlaced (b : BoundConstraint) : Prop :=
  (b.location = .self ∧ b.container = none) ∨ ∃ name, b.location = .property name ∧ Path.IsName name

/-- The paths on which a constraint of a property is evaluated start with the property. -/
theorem BoundConstraint.path_of_mem_targets {b : BoundConstraint} {name : String}
    (h : Path.IsName name) {value : Value} {t : Path × Value}
    (ht : t ∈ b.targets (Path.root.property name) value) :
    t.1.firstName? = some name ∧ t.1.TellsFirst := by
  unfold targets at ht
  split at ht
  · rw [List.mem_singleton.1 ht]
    exact ⟨rfl, Path.tellsFirst_property h⟩
  · obtain ⟨⟨position, item⟩, -, rfl⟩ := List.mem_map.1 ht
    exact ⟨rfl, Path.tellsFirst_element h position _⟩

namespace Call

variable {c : Call} {name : String}

section

variable {p p' : Progress} {object : Option ObjectId} {path : Path} {b : BoundConstraint}
  {es es' : List Event} {vs : List Violation}

/-- What is found and noted elsewhere does not show on the property. -/
theorem Narrows.alone (hp : c.Narrows name p p') (hpath : path.startsAt name = false)
    (hvs : ∀ w ∈ vs, w.path.startsAt name = false ∧ w.path.TellsFirst) :
    c.Narrows name ((p.after es vs).noting object path b) p' where
  coherent := hp.coherent
  memory := hp.memory
  violations := hp.violations.trans (Violation.filter_addAll_of_not fun w hw => (hvs w hw).1).symm
  marks := by
    rw [hp.marks]
    unfold Progress.noting
    split
    · simp [Progress.after, hpath]
    · rfl
  tellsFirst w hw := (Violation.mem_addAll hw).elim (hp.tellsFirst w) fun hw => (hvs w hw).2

/-- What is found and noted on the property by both runs keeps them side by side. -/
theorem Narrows.together (hp : c.Narrows name p p') (hname : name ≠ "")
    (hpath : path.startsAt name) (hvs : ∀ w ∈ vs, w.path.startsAt name ∧ w.path.TellsFirst) :
    c.Narrows name ((p.after es vs).noting object path b) ((p'.after es' vs).noting object path b)
    where
  coherent := hp.coherent
  memory := hp.memory
  violations := by
    refine Eq.trans ?_ (Violation.filter_addAll (fun w hw => (hvs w hw).1) ?_).symm
    · exact congrArg (Violation.addAll · vs) hp.violations
    · intro v hv w hw hk
      exact (hp.tellsFirst v hv).startsAt_of_text_eq (hvs w hw).2 (congrArg Prod.fst hk) hname
        (hvs w hw).1
  marks := by
    unfold Progress.noting
    split
    · simp [Progress.after, hpath, hp.marks]
    · exact hp.marks
  tellsFirst w hw := (Violation.mem_addAll hw).elim (hp.tellsFirst w) fun hw => (hvs w hw).2

end

section

variable (hfast : c.config.failFast = false)

include hfast

/-- A check that succeeds finds what the constraint finds wrong, on its own paths. -/
theorem exists_failures {s : Subject} {group : TypeName} {value : Value} {path : Path}
    {b : BoundConstraint} {p q : Progress} {holds : Bool}
    (h : (c.checkConstraint s group value path b).exec p = (.ok holds, q))
    (hdone : ¬ (b.appliesTo group = false ∨
      (1 < b.groups.length ∧ (s.object, path, b.key) ∈ p.processedConstraints))) :
    ∃ es vs, c.failures s.object path value b = .ok vs ∧
      q = (p.after es vs).noting s.object path b := by
  rcases checkConstraint_ok h with ⟨-, -, hskip⟩ | ⟨es, vs, -, rfl, hvs⟩
  · exact absurd hskip hdone
  · exact ⟨_, vs, (hvs (stops_eq_false_of_full hfast _)).1, rfl⟩

/-- A check on the property does in both runs what it does in one. -/
theorem narrowed_checkConstraint (hname : Path.IsName name) {s s' : Subject}
    (hs : s'.object = s.object) {group : TypeName} {value : Value} {b : BoundConstraint}
    (hsucceeds : ∀ vs, c.failures s.object (Path.root.property name) value b = .ok vs →
      c.Succeeds (c.checkConstraint s' group value (Path.root.property name) b)) :
    c.Narrowed name (c.checkConstraint s group value (Path.root.property name) b)
      (c.checkConstraint s' group value (Path.root.property name) b) AnyAnswers := by
  intro p p' a q hp hexec
  have hstart : (Path.root.property name).startsAt name = true := by
    simp [Path.startsAt, Path.firstName?, Path.root, Path.property, Path.nameLast]
  have hmark : (s'.object, Path.root.property name, b.key) ∈ p'.processedConstraints ↔
      (s.object, Path.root.property name, b.key) ∈ p.processedConstraints := by
    simp [hs, hp.marks, hstart]
  by_cases hdone : b.appliesTo group = false ∨ (1 < b.groups.length ∧
      (s.object, Path.root.property name, b.key) ∈ p.processedConstraints)
  · rw [exec_checkConstraint_of_done hdone] at hexec
    cases hexec
    exact ⟨true, p', exec_checkConstraint_of_done (hdone.imp_right (.imp_right hmark.2)), trivial, hp⟩
  · obtain ⟨es, vs, hvs, rfl⟩ := exists_failures hfast hexec hdone
    have hp' : c.Coherent p' := by
      unfold Coherent
      rw [hp.memory]
      exact hp.coherent
    obtain ⟨a', q', hexec'⟩ := (hsucceeds vs hvs).succeeds hp'
    obtain ⟨es', vs', hvs', rfl⟩ := exists_failures hfast hexec' fun h =>
      hdone (h.imp_right (.imp_right hmark.1))
    rw [hs, hvs] at hvs'
    cases hvs'
    refine ⟨a', _, hexec', trivial, hs ▸ hp.together hname.1 hstart fun w hw => ?_⟩
    obtain ⟨t, ht, ws, hws, hw⟩ := exists_target_of_mem_failures hvs hw
    obtain ⟨hfirst, htells⟩ := BoundConstraint.path_of_mem_targets hname ht
    rw [(of_mem_failuresOf hws hw).2]
    exact ⟨by simp [Path.startsAt, hfirst], htells⟩

/-- A check of another property, or of the object itself, is made in the first run alone. -/
theorem narrows_checkConstraint {s : Subject} {group : TypeName} {value : Value} {path : Path}
    {b : BoundConstraint} {p p' q : Progress} {holds : Bool} (hp : c.Narrows name p p')
    (hpath : path.startsAt name = false) (htargets : ∀ t ∈ b.targets path value,
      t.1.startsAt name = false ∧ t.1.TellsFirst)
    (hexec : (c.checkConstraint s group value path b).exec p = (.ok holds, q)) :
    c.Narrows name q p' := by
  by_cases hdone : b.appliesTo group = false ∨ (1 < b.groups.length ∧
      (s.object, path, b.key) ∈ p.processedConstraints)
  · rw [exec_checkConstraint_of_done hdone] at hexec
    cases hexec
    exact hp
  · obtain ⟨es, vs, hvs, rfl⟩ := exists_failures hfast hexec hdone
    refine hp.alone hpath fun w hw => ?_
    obtain ⟨t, ht, ws, hws, hw⟩ := exists_target_of_mem_failures hvs hw
    rw [(of_mem_failuresOf hws hw).2]
    exact htargets t ht

theorem narrowed_checkBound (hname : Path.IsName name) {s : Subject} (hpath : s.path = .root)
    (hwhole : s.only = none) (group : TypeName) {b : BoundConstraint} (hb : b.IsPlaced) :
    c.Narrowed name (c.checkBound s group b) (c.checkBound (s.narrowed name) group b) AnyAnswers := by
  have hself (h : b.location = .self) : s.place c.store b = some (.root, s.value) := by
    simp [Subject.place, Subject.includes, hwhole, hpath, h]
  have hproperty {n : String} (h : b.location = .property n) :
      s.place c.store b = some (Path.root.property n, s.property c.store n) := by
    simp [Subject.place, Subject.includes, hwhole, hpath, h]
  rw [checkBound_eq, checkBound_eq]
  by_cases hlocation : b.location = .property name
  · have hboth : (s.narrowed name).place c.store b =
        some (Path.root.property name, s.property c.store name) := by
      simp [Subject.place, Subject.includes, Subject.narrowed, hlocation, hpath, Subject.property,
        Subject.property.read, hwhole]
    rw [hproperty hlocation, hboth]
    refine narrowed_checkConstraint hfast hname rfl fun vs hvs => ?_
    have hsucceeds : c.Succeeds (c.checkBound (s.narrowed name) group b) := by
      refine succeeds_checkBound fun _ path value hat => ?_
      rw [hboth] at hat
      cases hat
      exact ⟨vs, hvs⟩
    rwa [checkBound_eq, hboth] at hsucceeds
  · have hnone : (s.narrowed name).place c.store b = none := by
      simp [Subject.place, Subject.includes, Subject.narrowed, hlocation]
    rw [hnone]
    intro p p' a q hp hexec
    refine ⟨true, p', rfl, trivial, ?_⟩
    rcases hb with ⟨hobject, hcontainer⟩ | ⟨n, hn, hproper⟩
    · rw [hself hobject] at hexec
      refine narrows_checkConstraint hfast hp rfl (fun t ht => ?_) hexec
      simp only [BoundConstraint.targets, hcontainer, List.mem_singleton] at ht
      exact ht ▸ ⟨rfl, Path.tellsFirst_root⟩
    · rw [hproperty hn] at hexec
      have hne : n ≠ name := fun heq => hlocation (heq ▸ hn)
      refine narrows_checkConstraint hfast hp ?_ (fun t ht => ?_) hexec
      · simpa [Path.startsAt, Path.firstName?, Path.root, Path.property, Path.nameLast] using hne
      · obtain ⟨hfirst, htells⟩ := BoundConstraint.path_of_mem_targets hproper ht
        exact ⟨by simpa [Path.startsAt, hfirst] using hne, htells⟩

theorem narrowed_checkAll (hname : Path.IsName name) {s : Subject} (hpath : s.path = .root)
    (hwhole : s.only = none) (group : TypeName) : ∀ {bs : List BoundConstraint},
    (∀ b ∈ bs, b.IsPlaced) →
    c.Narrowed name (c.checkAll s bs group) (c.checkAll (s.narrowed name) bs group) AnyAnswers
  | [], _ => .pure trivial
  | b :: bs, hbs => by
    obtain ⟨hb, hbs⟩ := List.forall_mem_cons.1 hbs
    have hcons : ∀ (s : Subject) p, (c.checkAll s (b :: bs) group).exec p =
        (c.checkBound s group b >>= fun holds => c.checkAll s bs group >>= fun others =>
          pure (holds && others)).exec p := by
      intro s p
      rw [checkAll, exec_allHold_cons, if_neg (by simp [stops_eq_false_of_full hfast])]
      rfl
    have hnext := (narrowed_checkBound hfast hname hpath hwhole group hb).bind (R := AnyAnswers)
      (f := fun holds => c.checkAll s bs group >>= fun others => pure (holds && others))
      (g := fun holds => c.checkAll (s.narrowed name) bs group >>= fun others =>
        pure (holds && others)) fun _ _ _ =>
      (narrowed_checkAll hname hpath hwhole group hbs).bind fun _ _ _ => .pure trivial
    intro p p' a q hp hexec
    obtain ⟨a', q', hexec', hrest⟩ := hnext p p' a q hp ((hcons s p).symm.trans hexec)
    exact ⟨a', q', (hcons _ p').trans hexec', hrest⟩

end

/-! ### Walks -/

/-- Whether the constraints of all types are placed properly. -/
def PlacesAll (c : Call) (types : List TypeName) : Prop :=
  ∀ type ∈ types, ∀ m, c.Assembles type m → ∀ b ∈ m.constraints, b.IsPlaced

theorem narrowed_metadataOf (type : TypeName) :
    c.Narrowed name (c.metadataOf type) (c.metadataOf type)
      fun m m' => m' = m ∧ c.Assembles type m := by
  intro p p' m q hp hexec
  have hassembles : c.Assembles type m :=
    (meets_metadataOf (I := c.Coherent) (E := AnyHalt) (fun _ => id) (fun _ _ _ => trivial)
      (fun _ _ hcache _ => hcache) type).answer hexec hp.coherent
  have hcoherent : c.Coherent q :=
    (meets_metadataOf (I := c.Coherent) (E := AnyHalt) (fun _ => id) (fun _ _ _ => trivial)
      (fun _ _ hcache _ => hcache) type).kept hexec hp.coherent
  unfold Call.metadataOf at hexec ⊢
  simp only [exec_bind, exec_get, exec_set, hp.memory] at hexec ⊢
  obtain ⟨hanswer, rfl⟩ := exec_ofExcept_eq_ok.1 hexec
  rw [hanswer]
  exact ⟨m, _, rfl, ⟨rfl, hassembles⟩, hcoherent, rfl, hp.violations, hp.marks, hp.tellsFirst⟩

theorem narrowed_expanding {α : Type} (x : Expanding α) :
    c.Narrowed name (Run.expanding x) (Run.expanding x) fun a b => b = a := by
  intro p p' a q hp hexec
  unfold Run.expanding at hexec ⊢
  simp only [exec_bind, exec_get, exec_set, hp.memory] at hexec ⊢
  obtain ⟨hanswer, rfl⟩ := exec_ofExcept_eq_ok.1 hexec
  rw [hanswer]
  exact ⟨a, _, rfl, rfl, hp.coherent, rfl, hp.violations, hp.marks, hp.tellsFirst⟩

theorem narrowed_record (e e' : Event) :
    c.Narrowed name (Run.record e) (Run.record e') AnyAnswers := by
  intro p p' a q hp hexec
  cases hexec
  exact ⟨(), _, rfl, trivial, hp.coherent, hp.memory, hp.violations, hp.marks, hp.tellsFirst⟩

theorem narrowed_markProcessed (s s' : Subject) (group : TypeName) :
    c.Narrowed name (c.markProcessed s group) (c.markProcessed s' group) AnyAnswers := by
  intro p p' a q hp hexec
  obtain ⟨q₁, hq₁, hmarks⟩ := exec_markProcessed (c := c) s group p
  obtain ⟨q₁', hq₁', hmarks'⟩ := exec_markProcessed (c := c) s' group p'
  rw [hq₁] at hexec
  cases hexec
  refine ⟨(), q₁', hq₁', trivial, ?_, ?_, ?_, ?_, ?_⟩
  · unfold Coherent
    rw [hmarks.memory]
    exact hp.coherent
  · rw [hmarks.memory, hmarks'.memory, hp.memory]
  · rw [hmarks.violations, hmarks'.violations, hp.violations]
  · rw [hmarks.constraints, hmarks'.constraints, hp.marks]
  · rw [hmarks.violations]
    exact hp.tellsFirst

theorem narrowed_orderOf {groups : List TypeName} (h : ∀ g ∈ groups, Order.IsPlain c.registry g) :
    c.Narrowed name (c.orderOf groups) (c.orderOf groups)
      fun o o' => o' = o ∧ o.sequences = [] := by
  intro p p' o q hp hexec
  obtain ⟨o', q', hexec', ho', hq⟩ := narrowed_expanding _ p p' o q hp hexec
  exact ⟨o', q', hexec', ⟨ho', (exec_orderOf_ok h hexec).1⟩, hq⟩

section

variable (hfast : c.config.failFast = false)

include hfast

theorem narrowed_isStopped :
    c.Narrowed name c.isStopped c.isStopped fun a b => a = false ∧ b = false := by
  intro p p' a q hp hexec
  rw [exec_isStopped] at hexec
  cases hexec
  exact ⟨_, p', exec_isStopped p',
    ⟨stops_eq_false_of_full hfast p, stops_eq_false_of_full hfast p'⟩, hp⟩

/-- What is done unless the call is stopped is done in both runs. -/
theorem Narrowed.unlessStopped {x y : Run Unit} (h : c.Narrowed name x y AnyAnswers) :
    c.Narrowed name (do unless ← c.isStopped do x) (do unless ← c.isStopped do y) AnyAnswers := by
  refine (narrowed_isStopped hfast).bind ?_
  rintro _ _ ⟨rfl, rfl⟩
  exact h

variable (hname : Path.IsName name) {s : Subject} (hpath : s.path = .root) (hwhole : s.only = none)

include hname hpath hwhole

theorem narrowed_runHierarchy : ∀ {types covered : List TypeName}, c.Ordinary types →
    c.PlacesAll types → c.Narrowed name (c.runHierarchy s covered types)
      (c.runHierarchy (s.narrowed name) covered types) AnyAnswers
  | [], _, _, _ => .pure trivial
  | type :: above, covered, hordinary, hplaced => by
    unfold Call.runHierarchy
    refine (narrowed_metadataOf type).bind ?_
    rintro _ m ⟨rfl, hm⟩
    have hm' : m.redefinesDefault = false := hordinary type (by simp) m hm
    rw [if_neg (by simp [hm']), if_neg (by simp [hm'])]
    refine (narrowed_checkAll hfast hname hpath hwhole _ fun b hb => ?_).bind fun _ _ _ =>
      Narrowed.unlessStopped hfast ((narrowed_markProcessed s _ _).bind fun _ _ _ => ?_)
    · exact hplaced type (by simp) m hm b (List.mem_filter.1 (mem_of_mem_uncovered hb)).1
    · exact narrowed_runHierarchy hordinary.above fun t ht => hplaced t (List.mem_cons_of_mem _ ht)

theorem narrowed_runGroup (hordinary : c.Ordinary s.metadata.hierarchy)
    (hplaced : c.PlacesAll s.metadata.hierarchy) {type : TypeName}
    (hm : c.Assembles type s.metadata) (hself : type ∈ s.metadata.hierarchy) (group : TypeName) :
    c.Narrowed name (c.runGroup s group) (c.runGroup (s.narrowed name) group) AnyAnswers := by
  refine (narrowed_record _ _).bind fun _ _ _ => .ite ?_ ?_
  · exact narrowed_runHierarchy hfast hname hpath hwhole hordinary hplaced
  · exact (narrowed_checkAll hfast hname hpath hwhole group (hplaced type hself s.metadata hm)).bind
      fun _ _ _ => Narrowed.unlessStopped hfast (narrowed_markProcessed s _ _)

end

end Call

/-! ### Objects whose properties stand for themselves -/

/-- Whether no property of a type cascades, and each property of each type of the hierarchy has a proper
name, and none of these types redefines its default group. -/
structure Metadata.IsFlat (r : Registry) (rules : List MethodRule) (m : Metadata) : Prop where
  uncascaded : m.cascaded = []
  ordinary : ∀ type ∈ m.hierarchy, ∀ m', assemble r rules type = .ok m' → m'.redefinesDefault = false
  named : ∀ type ∈ m.hierarchy, ∀ m', assemble r rules type = .ok m' →
    ∀ p ∈ m'.properties, Path.IsName p.name

/-- Constraints of properties with proper names are placed. -/
theorem Metadata.isPlaced_of_mem {r : Registry} {rules : List MethodRule} {type : TypeName}
    {m : Metadata} (h : assemble r rules type = .ok m) (hnamed : ∀ p ∈ m.properties, Path.IsName p.name)
    {b : BoundConstraint} (hb : b ∈ m.constraints) : b.IsPlaced := by
  obtain ⟨-, d, -, ho⟩ := occurrence_of_mem h hb
  obtain ⟨rfl, own, definitions, elements, hs⟩ := sources h
  rcases List.mem_append.1 hb with hclass | hproperty
  · rw [hs.class_eq] at hclass
    have hself : b.location = .self := by simpa using (List.mem_filter.1 hclass).2
    refine .inl ⟨hself, ?_⟩
    rcases List.mem_append.1 ho with ho | ho
    · obtain ⟨k, -, ho⟩ := List.mem_map.1 ho
      exact (congrArg Occurrence.container ho).symm
    · obtain ⟨p, -, ho⟩ := List.mem_flatMap.1 ho
      exact Location.noConfusion (hself.symm.trans (Element.of_mem_occurrences ho).1)
  · obtain ⟨p, hp, hb⟩ := List.mem_flatMap.1 hproperty
    have hp' := hp
    obtain ⟨name, element, -, rfl⟩ := (hs.properties_iff p).1 hp
    exact .inr ⟨name, by simpa using (List.mem_filter.1 hb).2, hnamed _ hp'⟩

namespace Call

variable {c : Call} {name : String}

theorem narrowed_runSubject (hfast : c.config.failFast = false) (hname : Path.IsName name)
    {s : Subject} (hpath : s.path = .root) (hwhole : s.only = none) {type : TypeName}
    (hm : c.Assembles type s.metadata)
    (hflat : s.metadata.IsFlat c.registry c.config.methodRules) {order : Order}
    (horder : order.sequences = []) (visit : CascadeStep → Run Unit) :
    c.Narrowed name (c.runSubject visit s order) (c.runSubject visit (s.narrowed name) order)
      AnyAnswers := by
  have hself : type ∈ s.metadata.hierarchy := Metadata.type_mem_hierarchy hm
  have hordinary : s.metadata.redefinesDefault = false := hflat.ordinary type hself _ hm
  have hplaced : c.PlacesAll s.metadata.hierarchy := fun t ht m' hm' b hb =>
    Metadata.isPlaced_of_mem hm' (hflat.named t ht m' hm') hb
  have hfit : c.requireFit s order = pure () := by
    unfold Call.requireFit
    rw [if_neg (by simp [hordinary])]
  have hfit' : c.requireFit (s.narrowed name) order = pure () := hfit
  have hcascades : ∀ group, c.runCascades visit s group = pure () := by
    intro group
    have hsteps : s.cascade c.store group = [] := by simp [Subject.cascade, hflat.uncascaded]
    unfold Call.runCascades
    rw [hsteps]
    split <;> rfl
  have hcascades' : ∀ group, c.runCascades visit (s.narrowed name) group = pure () :=
    fun _ => rfl
  unfold Call.runSubject Call.runOrder
  rw [hfit, hfit', horder]
  refine Narrowed.bind (Q := AnyAnswers) (.pure trivial) fun _ _ _ => ?_
  refine (Narrowed.each hfast fun g _ => narrowed_runGroup hfast hname hpath hwhole hflat.ordinary
    hplaced hm hself g.name).bind fun _ _ _ => ?_
  refine (Narrowed.each hfast fun g _ => ?_).bind fun _ _ _ => .pure trivial
  rw [hcascades, hcascades']
  exact .pure trivial

/-- The validation of a property runs beside that of its object. -/
theorem narrowed_validateProperty (hfast : c.config.failFast = false) {object : ObjectId}
    {groups : List TypeName} (hplain : ∀ g ∈ groups, Order.IsPlain c.registry g) {m : Metadata}
    (hm : c.Assembles (c.store.typeOf object) m)
    (hflat : m.IsFlat c.registry c.config.methodRules) (hname : m.hasProperty name) :
    c.Narrowed name (c.validate object groups) (c.validateProperty object name groups)
      fun vs ws => ws = vs.filter (·.path.startsAt name) := by
  have hproper : Path.IsName name := by
    obtain ⟨p, hp⟩ := Option.isSome_iff_exists.1 hname
    have hpname : p.name = name := by simpa using List.find?_some hp
    exact hpname ▸ hflat.named _ (Metadata.type_mem_hierarchy hm) m hm p (List.mem_of_find?_eq_some hp)
  have hread : Path.read name = .ok ⟨[⟨some name, none⟩]⟩ := Path.read_name hproper
  have hlast : ([⟨some name, none⟩] : List PathNode).getLast?.bind (·.name) = some name := rfl
  have hreached : c.navigate name object .root (stepsOf [⟨some name, none⟩]) =
      Pure.pure (some (object, .root)) := rfl
  simp only [Call.validateProperty, hread, hlast, hreached, pure_bind]
  unfold Call.validate
  refine (narrowed_metadataOf _).bind ?_
  rintro m' _ ⟨rfl, hm'⟩
  obtain rfl := hm.unique hm'
  have hrequired : requireProperty m (c.store.typeOf object) name = pure () := by
    unfold requireProperty
    rw [if_pos hname]
  rw [hrequired, pure_bind]
  refine (narrowed_orderOf hplain).bind ?_
  rintro order _ ⟨rfl, horder⟩
  unfold Call.findings
  refine (narrowed_runSubject hfast hproper rfl rfl hm hflat horder c.visit).bind fun _ _ _ => ?_
  intro p p' vs q hp hexec
  cases hexec
  exact ⟨_, p', rfl, hp.violations, hp⟩

end Call

namespace Validator

variable {v : Validator}

/-- If an object is validated for plain groups, and its properties stand for themselves, the validation
of one property finds just what was found on it, in the same order. -/
theorem validateProperty_eq_filter (hv : v.Coherent) (hfast : v.config.failFast = false)
    {object : ObjectId} {m : Metadata}
    (hm : Metadata.assemble v.registry v.config.methodRules (v.store.typeOf object) = .ok m)
    (hflat : m.IsFlat v.registry v.config.methodRules) {name : String} (hname : m.hasProperty name)
    {groups : List TypeName} (hplain : ∀ g ∈ groups, Order.IsPlain v.registry g)
    {vs : List Violation} (h : (v.validate object groups).answer = .ok vs) :
    (v.validateProperty object name groups).answer =
      .ok (vs.filter fun w => w.path.nodes.head?.bind (·.name) = some name) := by
  have hnarrowed := Call.narrowed_validateProperty (c := v.callOn object) hfast hplain hm hflat hname
  have hstart : (v.callOn object).Narrows name (Call.startOf v.memory object)
      (Call.startOf v.memory object) := ⟨hv, rfl, rfl, rfl, by simp [Call.startOf]⟩
  obtain ⟨q, hexec, -⟩ := v.exec_validate object groups
  rw [h] at hexec
  obtain ⟨ws, q', hexec', rfl, -⟩ := hnarrowed _ _ _ _ hstart hexec
  exact congrArg Prod.fst hexec'

/-- A product without a name that has blank tags and a code that its interface wants to be longer. -/
def shelved : Validator where
  registry := [
    { name := ⟨"Coded"⟩, kind := .interface, methods := [
      { kind := .getter, name := "getCode", declaredBy := ⟨"Coded"⟩, parameters := [],
        returnType := some ⟨"string"⟩, crossParameter := [], isPrivate := false, isStatic := false,
        returnValue := { own := {
          constraints := [{ kind := "Size", attributes := [("min", .int 2)] }] } } }] },
    { name := ⟨"Item"⟩, kind := .concrete,
      fields := [⟨"name", { own := { constraints := [{ kind := "NotNull" }] } }⟩] },
    { name := ⟨"Product"⟩, kind := .concrete, superclass := some ⟨"Item"⟩, interfaces := [⟨"Coded"⟩],
      fields := [⟨"tags", { containers :=
        [(.listElement, { constraints := [{ kind := "NotBlank" }] })] }⟩] : TypeDefinition }
    ].foldl Registry.register .initial
  evaluators := Standard.evaluators
  config := {}
  store := ⟨[(⟨"p"⟩, ⟨⟨"Product"⟩, [("code", .str "x"), ("tags", .list [.str "", .str "new", .str ""])]⟩)]⟩
  memory := {}

/-- Of what is wrong with the product, the validation of its tags finds what is wrong with these. -/
theorem validateProperty_eq_filter_shelved : ∃ vs : List Violation,
    (shelved.validate ⟨"p"⟩ []).answer = .ok vs ∧
    vs.map (·.path.text) = ["code", "tags[0].<list element>", "tags[2].<list element>", "name"] ∧
    (shelved.validateProperty ⟨"p"⟩ "tags" []).answer =
      .ok (vs.filter fun w => w.path.nodes.head?.bind (·.name) = some "tags") := by
  let rules := shelved.config.methodRules
  let m := (Metadata.assemble shelved.registry rules ⟨"Product"⟩).toOption.get (by decide +kernel)
  have hm : Metadata.assemble shelved.registry rules ⟨"Product"⟩ = .ok m :=
    toOption_eq_some (Option.some_get _).symm
  have hall : ∀ type ∈ m.hierarchy, ∀ m' ∈ (Metadata.assemble shelved.registry rules type).toOption,
      m'.redefinesDefault = false ∧ ∀ p ∈ m'.properties, Path.IsName p.name := by
    have hchecked : m.hierarchy.all (fun type =>
        (Metadata.assemble shelved.registry rules type).toOption.all fun m' =>
          !m'.redefinesDefault && m'.properties.all fun p => Path.IsName p.name) := by
      decide +kernel
    simpa [List.all_eq_true, Option.all_eq_true] using hchecked
  have hmem : ∀ {type m'}, Metadata.assemble shelved.registry rules type = .ok m' →
      m' ∈ (Metadata.assemble shelved.registry rules type).toOption := by
    intro type m' h
    rw [h]
    rfl
  have hflat : m.IsFlat shelved.registry rules :=
    ⟨by decide +kernel, fun type ht m' h => (hall type ht m' (hmem h)).1,
      fun type ht m' h => (hall type ht m' (hmem h)).2⟩
  have hpaths : (shelved.validate ⟨"p"⟩ []).answer.toOption.map (·.map (·.path.text)) =
      some ["code", "tags[0].<list element>", "tags[2].<list element>", "name"] := by
    decide +kernel
  obtain ⟨vs, hvs, hpaths⟩ := Option.map_eq_some_iff.1 hpaths
  cases hanswer : (shelved.validate ⟨"p"⟩ []).answer with
  | error halt => simp [hanswer, Except.toOption] at hvs
  | ok found =>
    obtain rfl : found = vs := by simpa [hanswer, Except.toOption] using hvs
    exact ⟨found, rfl, hpaths, @validateProperty_eq_filter shelved (MetadataCache.coherent_nil _ _)
      rfl ⟨"p"⟩ m hm hflat "tags" (by decide +kernel) [] (by simp) found hanswer⟩

end Validator

end ObjectValidation
