import ObjectValidation.Proofs.Repetition
import ObjectValidation.Proofs.Reporting
/-!
# Each constraint of the default group once

Each type of a hierarchy brings the constraints that it and its direct interfaces declare, and an
interface may be reached from many types, by many ways. If no type of the hierarchy redefines the
default group, the walk checks what the object's type demands, and each declaration once
(`validate_checks_each_once`).

That no declaration is checked twice is seen from the list of what is demanded: the checks of a walk are
made in the order of that list (`ChecksWithin`), and no declaration comes twice in it
(`nodup_declarations`). That none is left out is seen declaration by declaration. What each check in the
journal stands for is the evaluation of its constraint (`validate_evaluates_checked`).
-/

namespace ObjectValidation

open Run

/-- Whether the event is a check. -/
def Event.isCheck : Event → Bool
  | .checked .. => true
  | _ => false

theorem Event.filter_isCheck_of_isTrace {es : List Event} (h : ∀ e ∈ es, e.isTrace) :
    es.filter (·.isCheck) = [] := by
  refine List.filter_eq_nil_iff.2 fun e he => ?_
  have htrace := h e he
  cases e <;> simp_all [isTrace, isCheck]

/-- The checks that a call has made. -/
def Progress.checks (p : Progress) : List Event := p.journal.filter (·.isCheck)

/-- If no item comes twice among those that some items stand for, one item alone stands for it. -/
theorem filter_eq_singleton {α β : Type} [DecidableEq β] {f : α → Option β} {x : α} {y : β} :
    ∀ {xs : List α}, (xs.filterMap f).Nodup → x ∈ xs → f x = some y →
      xs.filter (fun z => f z = some y) = [x]
  | z :: xs, hnodup, hx, hy => by
    by_cases hz : f z = some y
    · rw [List.filterMap_cons_some hz, List.nodup_cons] at hnodup
      have hrest : ∀ z' ∈ xs, f z' ≠ some y := fun z' hz' h =>
        hnodup.1 (List.mem_filterMap.2 ⟨z', hz', h⟩)
      have hxz : x = z := (List.mem_cons.1 hx).resolve_right fun h => hrest x h hy
      rw [List.filter_cons_of_pos (by simpa using hz), hxz,
        List.filter_eq_nil_iff.2 (by simpa using hrest)]
    · have hx : x ∈ xs := (List.mem_cons.1 hx).resolve_left fun h => hz (h ▸ hy)
      rw [List.filter_cons_of_neg (by simpa using hz)]
      refine filter_eq_singleton (hnodup.sublist ?_) hx hy
      exact (List.sublist_cons_self z xs).filterMap f

namespace Call

variable (c : Call)

/-- The check of a constraint of a subject for a group, if there is one to make. -/
def checkOf (s : Subject) (group : TypeName) (b : BoundConstraint) : Option Event :=
  if b.appliesTo group then
    (s.place c.store b).map fun (path, value) => .checked s.object path b group value
  else none

/-- The declaration that an event is a check of. -/
def checkedDeclaration : Event → Option Declaration
  | .checked _ _ b _ _ => c.registry.declaration? b
  | _ => none

/-- Whether the checks made between two progresses are among those of some constraints of a subject, each
at most once and in their order. -/
def ChecksWithin (s : Subject) (group : TypeName) (bs : List BoundConstraint) (p q : Progress) : Prop :=
  ∃ es, q.checks = p.checks ++ es ∧ es.Sublist (bs.filterMap (c.checkOf s group))

variable {c} {s : Subject} {group : TypeName} {bs bs' : List BoundConstraint} {p q r : Progress}

theorem ChecksWithin.of_checks (h : q.checks = p.checks) : c.ChecksWithin s group bs p q :=
  ⟨[], by simp [h], List.nil_sublist _⟩

theorem ChecksWithin.append (h : c.ChecksWithin s group bs p q)
    (h' : c.ChecksWithin s group bs' q r) : c.ChecksWithin s group (bs ++ bs') p r := by
  obtain ⟨es, hq, hes⟩ := h
  obtain ⟨es', hr, hes'⟩ := h'
  refine ⟨es ++ es', by rw [hr, hq, List.append_assoc], ?_⟩
  rw [List.filterMap_append]
  exact hes.append hes'

theorem ChecksWithin.congr (h : c.ChecksWithin s group bs p q) (hr : r.journal = q.journal) :
    c.ChecksWithin s group bs p r := by
  unfold ChecksWithin Progress.checks
  rw [hr]
  exact h

/-! ### What a walk checks at most -/

theorem checkBound_within {b : BoundConstraint} {holds : Bool}
    (h : (c.checkBound s group b).exec p = (.ok holds, q)) : c.ChecksWithin s group [b] p q := by
  rcases checkBound_ok h with ⟨-, -, rfl⟩ | ⟨path, value, hplace, h⟩
  · exact .of_checks rfl
  · cases ha : b.appliesTo group with
    | false =>
      obtain ⟨es, hj, hes⟩ := checkConstraint_journal h
      have hnone := Event.filter_isCheck_of_isTrace fun e he =>
        (hes e he).resolve_right (by simp [ha])
      exact .of_checks (by rw [Progress.checks, hj, List.filter_append, hnone, List.append_nil]; rfl)
    | true =>
      rcases checkConstraint_ok h with ⟨rfl, -, -⟩ | ⟨es, vs, hes, rfl, -⟩
      · exact .of_checks rfl
      · have hnone := Event.filter_isCheck_of_isTrace fun e he =>
          Event.isTrace_of_isConsulted (hes e he)
        let check : Event := .checked s.object path b group value
        refine ⟨[check], ?_, by simp [check, checkOf, ha, hplace]⟩
        change (p.journal ++ check :: es).filter (·.isCheck) = p.checks ++ [check]
        rw [List.filter_append, List.filter_cons_of_pos rfl, hnone, Progress.checks]

theorem checkAll_within : ∀ {bs : List BoundConstraint} {p q : Progress} {holds : Bool},
    (c.checkAll s bs group).exec p = (.ok holds, q) → c.ChecksWithin s group bs p q
  | [], p, q, holds, h => by
    cases h
    exact .of_checks rfl
  | b :: bs, p, q, holds, h => by
    unfold Call.checkAll at h
    rw [exec_allHold_cons] at h
    split at h
    · next hstop =>
      rw [exec_allHold_of_stops hstop] at h
      cases h
      exact .of_checks rfl
    · obtain ⟨first, r, hfirst, h⟩ := exec_bind_ok.1 h
      obtain ⟨others, r', hothers, h⟩ := exec_bind_ok.1 h
      cases h
      exact (checkBound_within hfirst).append (checkAll_within hothers)

/-- A walk of the default group that is not redefined checks what is demanded along the hierarchy. -/
theorem runHierarchy_within : ∀ {types covered : List TypeName} {p q : Progress},
    (c.runHierarchy s covered types).exec p = (.ok (), q) → c.Ordinary types → c.Remembers p →
    c.ChecksWithin s TypeName.defaultGroup (c.demandedFrom covered types) p q
  | [], covered, p, q, h, _, _ => by
    cases h
    exact .of_checks rfl
  | type :: above, covered, p, q, h, hord, hp => by
    obtain ⟨m, p₁, hmeta, h⟩ := exec_bind_ok.1 h
    have hfollows := follows_walk (c := c) s p
    have hm := (hfollows.metadata type).answer hmeta (.refl hp)
    have hp₁ := (hfollows.metadata type).kept hmeta (.refl hp)
    have hordinary : m.redefinesDefault = false := hord type (by simp) m hm
    have hj₁ : p₁.journal = p.journal := (meets_metadataOf_any (I := fun q => q.journal = p.journal)
      (E := AnyHalt) (fun _ _ _ => trivial) (fun _ _ => id) type).kept hmeta rfl
    have hquiet : c.ChecksWithin s TypeName.defaultGroup [] p p₁ :=
      .of_checks (by rw [Progress.checks, hj₁, Progress.checks])
    rw [if_neg (by simp [hordinary])] at h
    rw [demandedFrom_ordinary hm hordinary]
    obtain ⟨holds, p₂, hall, h⟩ := exec_bind_ok.1 h
    have hp₂ := (hfollows.checkAll (fun _ _ => trivial) trivial).kept hall hp₁
    have hdirect := hquiet.append (checkAll_within hall)
    rw [exec_bind, exec_isStopped] at h
    simp only at h
    split at h
    · cases h
      exact hdirect.append (.of_checks rfl)
    · obtain ⟨_, p₃, hmark, h⟩ := exec_bind_ok.1 h
      obtain ⟨p₃', hexec, hmarks⟩ := exec_markProcessed (c := c) s TypeName.defaultGroup p₂
      rw [hexec] at hmark
      cases hmark
      exact (hdirect.congr hmarks.journal).append
        (runHierarchy_within h hord.above (hp₂.mark hmarks).remembers)

/-- So does the walk of a subject. -/
theorem runGroup_within (hord : c.Ordinary s.metadata.hierarchy) (hp : c.Remembers p)
    (h : (c.runGroup s TypeName.defaultGroup).exec p = (.ok (), q)) :
    c.ChecksWithin s TypeName.defaultGroup (c.demandedFrom [] s.metadata.hierarchy) p q := by
  obtain ⟨_, r, hbegan, h⟩ := exec_bind_ok.1 h
  cases hbegan
  have hr := (Follows.refl hp).began s.object s.path TypeName.defaultGroup
  have hquiet : c.ChecksWithin s TypeName.defaultGroup [] p
      { p with journal := p.journal ++ [.began s.object s.path TypeName.defaultGroup] } :=
    .of_checks (by simp [Progress.checks, Event.isCheck])
  exact hquiet.append (runHierarchy_within h hord hr.remembers)

/-! ### What is demanded -/

theorem nodup_demandedFrom : ∀ {types covered : List TypeName}, types.Nodup →
    ((c.demandedFrom covered types).map (·.key)).Nodup
  | [], _, _ => by simp [demandedFrom]
  | type :: above, covered, hnodup => by
    cases ha : Metadata.assemble c.registry c.config.methodRules type with
    | error e => simp [demandedFrom, ha]
    | ok m =>
      have huncovered {bs : List BoundConstraint} (hbs : bs.Sublist m.constraints) :
          ((uncovered covered bs).map (·.key)).Nodup :=
        (Metadata.nodup_constraints ha).sublist ((List.filter_sublist.trans hbs).map _)
      cases hr : m.redefinesDefault with
      | true =>
        rw [demandedFrom_redefined ha hr]
        exact huncovered (.refl _)
      | false =>
        rw [demandedFrom_ordinary ha hr, List.map_append]
        refine List.nodup_append.2 ⟨huncovered List.filter_sublist,
          nodup_demandedFrom (List.nodup_cons.1 hnodup).2, ?_⟩
        -- The number of a constraint tells the type whose metadata has it.
        intro k hk k' hk'
        obtain ⟨b, hb, rfl⟩ := List.mem_map.1 hk
        obtain ⟨b', hb', rfl⟩ := List.mem_map.1 hk'
        obtain ⟨type', htype', m', hm', hb'⟩ := mem_of_mem_demandedFrom hb'
        have hb := (Metadata.declared_of_mem ha (List.mem_filter.1 (mem_of_mem_uncovered hb)).1).1
        have hb' := (Metadata.declared_of_mem hm' hb').1
        intro heq
        have htypes : type = type' := hb.symm.trans ((congrArg Prod.fst heq).trans hb')
        exact (List.nodup_cons.1 hnodup).1 (htypes ▸ htype')

section

variable {type : TypeName} {m : Metadata} (hm : c.Assembles type m)

include hm

/-- No declaration is demanded twice along a hierarchy. -/
theorem nodup_declarations (hlists : c.registry.ListsInterfaces) :
    ((c.demandedFrom [] m.hierarchy).filterMap c.registry.declaration?).Nodup := by
  obtain ⟨-, own, definitions, elements, hs⟩ := Metadata.sources hm
  have hkeys : ((c.demandedFrom [] m.hierarchy).map (·.key)).Nodup :=
    nodup_demandedFrom (Registry.nodup_hierarchy hs.hierarchy_eq)
  refine List.pairwise_filterMap.2 ((List.pairwise_map.1 hkeys).imp_of_mem ?_)
  rintro b b' hb hb' hne d hd _ hd' rfl
  obtain ⟨_, -, m₁, hm₁, hmem⟩ := mem_of_mem_demandedFrom hb
  obtain ⟨_, -, m₂, hm₂, hmem'⟩ := mem_of_mem_demandedFrom hb'
  exact hne (Metadata.key_eq_of_declaration hm₁ hmem hm₂ hmem' hd hd'
    (type_eq_of_declaration hlists hm hb hb' hd hd'))

/-- Whatever is declared for the instances of a type is demanded along its hierarchy. -/
theorem exists_mem_of_declaration (hwalkable : c.Walkable m.hierarchy) {b : BoundConstraint}
    (hb : b ∈ m.constraints) {d : Declaration} (hd : c.registry.declaration? b = some d) :
    ∃ b' ∈ c.demandedFrom [] m.hierarchy,
      c.registry.declaration? b' = some d ∧ b'.toOccurrence = b.toOccurrence := by
  obtain ⟨hin, isPrivate, hplace, hown⟩ :=
    (Metadata.exists_mem_iff_declares hm).1 ⟨b, hb, hd, rfl⟩
  have hdeclares := (Metadata.declaration_of_mem hm hb hd).1
  have hsame : ∀ b' : BoundConstraint,
      c.registry.declaration? b' = some d ∧ b'.toOccurrence = b.toOccurrence →
      b'.declaredBy = d.declaredBy := fun b' hb' =>
    (congrArg Occurrence.declaredBy hb'.2).trans hdeclares.symm
  refine exists_mem_demandedFrom_of hsame hm hwalkable hin ?_
  intro t m' hm' hin' ht
  refine (Metadata.exists_mem_iff_declares hm').2 ⟨hin', isPrivate, hplace, fun hprivate => ?_⟩
  rcases ht with rfl | hne
  · exact hown hprivate
  · exact absurd (hown hprivate) hne

end

/-- The checks of constraints are for their declarations. -/
theorem sublist_declarations : ∀ (bs : List BoundConstraint),
    ((bs.filterMap (c.checkOf s group)).filterMap c.checkedDeclaration).Sublist
      (bs.filterMap c.registry.declaration?)
  | [] => List.nil_sublist _
  | b :: bs => by
    have hrest := sublist_declarations bs
    have hdeclared : (bs.filterMap c.registry.declaration?).Sublist
        ((b :: bs).filterMap c.registry.declaration?) :=
      (List.sublist_cons_self b bs).filterMap _
    cases hcheck : c.checkOf s group b with
    | none =>
      rw [List.filterMap_cons_none hcheck]
      exact hrest.trans hdeclared
    | some e =>
      have he : c.checkedDeclaration e = c.registry.declaration? b := by
        unfold checkOf at hcheck
        split at hcheck
        · obtain ⟨target, -, rfl⟩ := Option.map_eq_some_iff.1 hcheck
          rfl
        · cases hcheck
      rw [List.filterMap_cons_some hcheck]
      cases hd : c.registry.declaration? b with
      | none =>
        rw [List.filterMap_cons_none (he.trans hd)]
        exact hrest.trans hdeclared
      | some d =>
        rw [List.filterMap_cons_some (he.trans hd), List.filterMap_cons_some hd]
        exact hrest.cons_cons d

/-! ### A validation for the default group -/

/-- Without cascades, an order of the default group alone makes one walk. -/
theorem runSubject_default {visit : CascadeStep → Run Unit}
    (hord : s.metadata.redefinesDefault = false)
    (hcascade : s.cascade c.store TypeName.defaultGroup = []) (hq : c.stops q = false)
    (h : (c.runSubject visit s .default).exec p = (.ok (), q)) :
    (c.runGroup s TypeName.defaultGroup).exec p = (.ok (), q) := by
  have hfit : c.requireFit s .default = pure () := by simp [Call.requireFit, hord]
  unfold Call.runSubject at h
  rw [hfit, exec_bind, exec_pure] at h
  obtain ⟨_, p₁, hconstraints, h⟩ := exec_bind_ok.1 h
  obtain ⟨_, p₂, hcascades, h⟩ := exec_bind_ok.1 h
  cases h
  have hnone : c.runCascades visit s TypeName.defaultGroup = pure () := by
    simp [Call.runCascades, hcascade, Call.each]
  obtain ⟨hp₁, _, hstep, hrest⟩ := exec_each_cons_ok hcascades hq
  cases hrest
  rw [Group.plain, hnone] at hstep
  cases hstep
  obtain ⟨-, _, hwalk, hrest⟩ := exec_each_cons_ok hconstraints hq
  cases hrest
  exact hwalk

/-- Without cascades, a validation for the default group makes one walk and nothing else. -/
theorem validate_default {memory : Memory} {root : ObjectId} {m : Metadata} {vs : List Violation}
    (hmemory : memory.metadata.Coherent c.registry c.config.methodRules)
    (hm : c.Assembles (c.store.typeOf root) m) (hord : c.Ordinary m.hierarchy)
    (hs : s = { object := some root, metadata := m, path := .root })
    (hcascade : s.cascade c.store TypeName.defaultGroup = []) (hq : c.stops q = false)
    (h : (c.validate root []).exec (startOf memory root) = (.ok vs, q)) :
    c.Knows s ∧ ∃ p, c.Follows (startOf memory root) p ∧ p.journal = [] ∧
      (c.runGroup s TypeName.defaultGroup).exec p = (.ok (), q) := by
  obtain ⟨m', p₁, order, p₂, hmeta, horder, hrun, -⟩ := validate_ok h
  obtain ⟨hknows, hp₂, -⟩ := knows_of_start hmemory hmeta horder
  obtain ⟨_, hroot, hm'⟩ := hknows.object
  cases hroot
  obtain rfl := hm.unique hm'
  obtain rfl : order = .default := by
    cases horder
    rfl
  have hj₁ := (meets_metadataOf_any (I := fun p : Progress => p.journal = []) (E := AnyHalt)
    (fun _ _ _ => trivial) (fun _ _ => id) _).kept hmeta rfl
  have hj₂ := (meets_expanding (I := fun p : Progress => p.journal = []) (E := AnyHalt)
    (fun _ _ _ => trivial) (fun _ _ => id) _).kept horder hj₁
  subst hs
  exact ⟨hknows, p₂, hp₂, hj₂,
    runSubject_default (hord _ (Metadata.type_mem_hierarchy hm) m hm) hcascade hq hrun⟩

/-- The checks of constraints that are not demanded twice are for as many declarations. -/
theorem nodup_checked (hlists : c.registry.ListsInterfaces) {type : TypeName} {m : Metadata}
    (hm : c.Assembles type m) (hp : p.journal = [])
    (h : c.ChecksWithin s group (c.demandedFrom [] m.hierarchy) p q) :
    (q.journal.filterMap c.checkedDeclaration).Nodup := by
  obtain ⟨es, hq, hes⟩ := h
  have hchecks : q.checks.filterMap c.checkedDeclaration =
      q.journal.filterMap c.checkedDeclaration := by
    rw [Progress.checks, List.filterMap_filter]
    congr
    funext e
    cases e <;> rfl
  have hnone : p.checks = [] := by simp [Progress.checks, hp]
  rw [← hchecks, hq, hnone, List.nil_append]
  exact (nodup_declarations hm hlists).sublist ((hes.filterMap _).trans (sublist_declarations _))

/-- What is checked is checked for the group. -/
theorem ChecksWithin.group_eq (h : c.ChecksWithin s group bs p q) (hp : p.journal = [])
    {object : Option ObjectId} {path : Path} {b : BoundConstraint} {g : TypeName} {value : Value}
    (he : .checked object path b g value ∈ q.journal) : g = group := by
  obtain ⟨es, hq, hes⟩ := h
  have hmem : Event.checked object path b g value ∈ q.checks := List.mem_filter.2 ⟨he, rfl⟩
  rw [hq] at hmem
  obtain ⟨b', -, hcheck⟩ := List.mem_filterMap.1
    (hes.subset ((List.mem_append.1 hmem).resolve_left (by simp [Progress.checks, hp])))
  unfold checkOf at hcheck
  split at hcheck
  · obtain ⟨target, -, htarget⟩ := Option.map_eq_some_iff.1 hcheck
    cases htarget
    rfl
  · cases hcheck

theorem place_congr {store : Store} {b b' : BoundConstraint}
    (ho : b'.toOccurrence = b.toOccurrence) : s.place store b' = s.place store b := by
  have hlocation : b'.location = b.location := congrArg Occurrence.location ho
  simp only [Subject.place, hlocation]

end Call

namespace Validator

open Call

variable {v : Validator}

/-- Whatever a validation has checked, it has evaluated: on each value that the constraint applies to it has
asked the evaluators of the declarations that report for themselves, and all that this found wrong is
reported, at least as something of the same key. -/
theorem validate_evaluates_checked (hv : v.Coherent) (hfast : v.config.failFast = false)
    {root : ObjectId} {gs : List TypeName} {vs : List Violation}
    (h : (v.validate root gs).answer = .ok vs) {object : Option ObjectId} {path : Path}
    {b : BoundConstraint} {group : TypeName} {value : Value}
    (he : .checked object path b group value ∈ (v.validate root gs).journal) :
    (∀ t ∈ b.targets path value, ∀ a part e, b.constraint.at? a = some part →
      b.constraint.reporter a = a → v.evaluators.find? part.kind t.2 = some e →
      .consulted part.kind ((v.callOn root).siteAt object t.1) t.2.effective e.isStandard ∈
        (v.validate root gs).journal) ∧
    ∃ ws, (v.callOn root).failures object path value b = .ok ws ∧
      ∀ w ∈ ws, ∃ u ∈ vs, u.key = w.key := by
  obtain ⟨before, after, hjournal⟩ := List.append_of_mem he
  have hperform : (v.perform (.object root gs)).answer = .ok vs := h
  obtain ⟨⟨es, hes, -, hevaluated⟩, hreported⟩ :=
    perform_evaluates hv (.inl hfast) hperform hjournal
  refine ⟨fun t ht a part e hpart hreports hfind => ?_, hreported⟩
  obtain ⟨ks, -, hasks⟩ := hevaluated t ht
  have hconsulted : .consulted part.kind ((v.callOn root).siteAt object t.1) t.2.effective
      e.isStandard ∈ es := by
    refine hasks a part hpart (.inl hreports) (List.mem_map.2 ⟨e, ?_, rfl⟩)
    exact Option.mem_toList.2 hfind
  rw [hjournal]
  exact List.mem_append_right _ (List.mem_cons_of_mem _ (hes.subset hconsulted))

/-- Where no type of the hierarchy redefines the default group and nothing cascades, each constraint of
the type of an object that belongs to the default group is checked once, where it applies: of all checks
of a validation for the default group, one is for its declaration. -/
theorem validate_checks_each_once (hv : v.Coherent) (hfast : v.config.failFast = false)
    (hlists : v.registry.ListsInterfaces) {root : ObjectId} {m : Metadata}
    (hm : (v.callOn root).Assembles (v.store.typeOf root) m)
    (hord : (v.callOn root).Ordinary m.hierarchy)
    (hcascade : Subject.cascade { object := some root, metadata := m, path := .root } v.store
      TypeName.defaultGroup = [])
    {vs : List Violation} (h : (v.validate root []).answer = .ok vs) {b : BoundConstraint}
    (hb : b ∈ m.constraints) (ha : b.appliesTo TypeName.defaultGroup) :
    ∃ (d : Declaration) (b' : BoundConstraint) (path : Path) (value : Value),
      v.registry.declaration? b = some d ∧ b'.toOccurrence = b.toOccurrence ∧
      Subject.place { object := some root, metadata := m, path := .root } v.store b =
        some (path, value) ∧
      (v.validate root []).journal.filter
          (fun e => (v.callOn root).checkedDeclaration e = some d) =
        [.checked (some root) path b' TypeName.defaultGroup value] := by
  let c := v.callOn root
  let s : Subject := { object := some root, metadata := m, path := .root }
  obtain ⟨q, hexec, hjournal⟩ := v.exec_validate root []
  rw [h] at hexec
  have hq : c.stops q = false := by simp [Call.stops, hfast, c, callWithin, Validator.call]
  have hlogs := logs_validate (c := c) hv hexec
  obtain ⟨hs, p, hp, hstart, hwalk⟩ := validate_default (c := c) (s := s) hv hm hord rfl hcascade hq hexec
  have hwithin := runGroup_within hord hp.remembers hwalk
  have hpq := (follows_runGroup s TypeName.defaultGroup p).kept hwalk (.refl hp.remembers)
  -- One of the checks is for the declaration of the constraint.
  obtain ⟨d, hd⟩ := Metadata.exists_declaration hm hb
  obtain ⟨b', hb', hd', ho⟩ := exists_mem_of_declaration hm
    (walkable_of_runGroup hwalk hq hp.remembers) hb hd
  have hsettled := runGroup_settles hwalk hq hp.remembers (fun _ => .inr hord) b' hb'
    ((BoundConstraint.appliesTo_congr ho _).trans ha)
  obtain ⟨path, value, hplace⟩ := hs.exists_place (Metadata.location_of_mem hm hb)
  have hdemanded : b' ∈ c.demanded s TypeName.defaultGroup := hb'
  obtain ⟨g, he⟩ := checked_of_settled rfl hlogs hp hpq (.refl hpq.remembers) hs hdemanded hsettled
    ((place_congr ho).trans hplace)
  have he : .checked (some root) path b' g value ∈ q.journal := List.mem_of_mem_drop he
  obtain rfl := hwithin.group_eq hstart he
  refine ⟨d, b', path, value, hd, ho, hplace, ?_⟩
  rw [← hjournal]
  exact filter_eq_singleton (nodup_checked hlists hm hstart hwithin) he hd'

/-- An object of a class that comes to an interface by four ways: it lists the interface and one that
extends it, and so does its superclass with another one. -/
def manyWays : Validator where
  registry := [
    { name := ⟨"Top"⟩, kind := .interface, methods := [
      demandingGetter ⟨"Top"⟩ "getName" [TypeName.defaultGroup]] },
    { name := ⟨"Left"⟩, kind := .interface, interfaces := [⟨"Top"⟩] },
    { name := ⟨"Right"⟩, kind := .interface, interfaces := [⟨"Top"⟩] },
    { name := ⟨"Super"⟩, kind := .concrete, interfaces := [⟨"Left"⟩, ⟨"Top"⟩] },
    { name := ⟨"Sub"⟩, kind := .concrete, superclass := some ⟨"Super"⟩,
      interfaces := [⟨"Right"⟩, ⟨"Top"⟩] : TypeDefinition }
    ].foldl Registry.register .initial
  evaluators := Standard.evaluators
  config := {}
  store := ⟨[(⟨"s"⟩, ⟨⟨"Sub"⟩, []⟩)]⟩
  memory := {}

/-- What the interface demands is checked once. -/
theorem validate_checks_each_once_manyWays :
    ∃ (d : Declaration) (b : BoundConstraint) (path : Path) (value : Value),
      b.declaredBy = ⟨"Top"⟩ ∧ (manyWays.validate ⟨"s"⟩ []).journal.filter
          (fun e => (manyWays.callOn ⟨"s"⟩).checkedDeclaration e = some d) =
        [.checked (some ⟨"s"⟩) path b TypeName.defaultGroup value] := by
  let assemble := Metadata.assemble manyWays.registry manyWays.config.methodRules
  obtain ⟨m, hm, hhierarchy, hcascade, b, hb, hdeclares, ha⟩ :
      ∃ m ∈ (assemble ⟨"Sub"⟩).toOption,
        (∀ t ∈ m.hierarchy, ∀ m' ∈ (assemble t).toOption, m'.redefinesDefault = false) ∧
        Subject.cascade { object := some ⟨"s"⟩, metadata := m, path := .root } manyWays.store
          TypeName.defaultGroup = [] ∧
        ∃ b ∈ m.constraints, b.declaredBy = ⟨"Top"⟩ ∧ b.appliesTo TypeName.defaultGroup := by
    decide +kernel
  have hm : (manyWays.callOn ⟨"s"⟩).Assembles (manyWays.store.typeOf ⟨"s"⟩) m := toOption_eq_some hm
  have hord : (manyWays.callOn ⟨"s"⟩).Ordinary m.hierarchy :=
    fun t ht m' hm' => hhierarchy t ht m' (congrArg Except.toOption hm')
  have hanswer : (manyWays.validate ⟨"s"⟩ []).answer.toOption.isSome := by decide +kernel
  obtain ⟨vs, hvs⟩ := Option.isSome_iff_exists.1 hanswer
  obtain ⟨d, b', path, value, -, ho, -, hchecks⟩ :=
    validate_checks_each_once (v := manyWays) (MetadataCache.coherent_nil _ _) rfl (by decide +kernel)
      hm hord hcascade (toOption_eq_some hvs) hb ha
  exact ⟨d, b', path, value, (congrArg Occurrence.declaredBy ho).trans hdeclares, hchecks⟩

end Validator

end ObjectValidation
