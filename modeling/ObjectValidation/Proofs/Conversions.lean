import ObjectValidation.Proofs.Operations
import ObjectValidation.Proofs.Outcome
import ObjectValidation.Proofs.ShortCircuit
/-!
# What is remembered of a cascade that converts its group

A step of a cascade is passed over if its target is marked for the group that the step goes on for.
Marks are made for the groups that are run. A plain group runs itself, and so does a group that is not
converted; a sequence that a group is converted to runs its members, and the target is marked for
these alone (`cascade_passes_over`).
-/

namespace ObjectValidation

open Run

/-- The names of the groups that the sequences of an order run. -/
def Order.members (o : Order) : List TypeName :=
  o.sequences.flatMap fun s => s.positions.flatMap (·.map (·.name))

namespace Call

variable {c : Call} {p q r : Progress} {step : CascadeStep}

/-- The order that a step of a cascade runs, given what is remembered of sequences. -/
def stepOrder (c : Call) (p : Progress) (step : CascadeStep) : Except Error Order :=
  ((Order.ofGroup c.registry step.group (step.group ≠ step.source)).run.run p.memory.sequences).run.1

/-- Whether a step counts as taken, and is passed over from now on, wherever its group comes from. -/
def PassesOver (c : Call) (p : Progress) (step : CascadeStep) : Prop :=
  c.isProcessed p step ∧ ∀ q depth source, p.Extends q →
    (c.cascade (depth + 1) { step with source }).exec q = (.ok (), q)

/-! ### Steps that are passed over -/

theorem isProcessed_iff : c.isProcessed p step ↔ c.config.trackProcessed ∧
    (some step.target, step.group) ∈ p.processedGroups ∧
    ∃ path, (some step.target, path) ∈ p.processedPaths ∧ step.path.isRelatedTo path := by
  simp only [Call.isProcessed, Bool.and_eq_true, List.contains_iff_mem, List.any_eq_true,
    decide_eq_true_eq, Prod.exists, and_assoc]
  grind

theorem isProcessed_mono (h : c.isProcessed p step) (hpq : p.Extends q) : c.isProcessed q step := by
  rw [isProcessed_iff] at h ⊢
  obtain ⟨htrack, hgroup, path, hpath, hrelated⟩ := h
  exact ⟨htrack, hpq.groups hgroup, path, hpq.paths hpath, hrelated⟩

theorem exec_cascade_of_isProcessed (h : c.isProcessed p step) (depth : Nat) :
    (c.cascade (depth + 1) step).exec p = (.ok (), p) := by
  unfold Call.cascade
  simp [exec_bind, h]

theorem passesOver_of_isProcessed (h : c.isProcessed p step) : c.PassesOver p step := by
  refine ⟨h, fun q depth source hpq => ?_⟩
  have hp : c.isProcessed p { step with source } := h
  exact exec_cascade_of_isProcessed (isProcessed_mono hp hpq) depth

theorem Marked.isProcessed (htrack : c.config.trackProcessed)
    (h : Marked p (some step.target) step.path step.group) : c.isProcessed p step :=
  isProcessed_iff.2 ⟨htrack, h.1, step.path, h.2, Path.isRelatedTo_self _⟩

/-! ### Marks of orders -/

theorem eq_of_extends (hpr : p.Extends r) (hrq : r.Extends q) (h : q.violations = p.violations) :
    r.violations = p.violations ∧ q.violations = r.violations := by
  have hle := hpr.violations.length_le
  have hle' := hrq.violations.length_le
  rw [h] at hle'
  have heq : p.violations = r.violations := hpr.violations.eq_of_length (by omega)
  exact ⟨heq.symm, h.trans heq⟩

section

variable (htrack : c.config.trackProcessed) (hfast : c.config.failFast = false) {s : Subject}
  (hs : c.Knows s) {cascades : TypeName → Run Unit}
  (hcascades : ∀ g p, Meets (cascades g) (c.Follows p) Any AnyHalt)

include hs hcascades in
theorem follows_runPosition (position : List Group) (p : Progress) :
    Meets (c.runPosition (c.runGroup s) cascades position) (c.Follows p) Any AnyHalt :=
  meets_runPosition (fun g => (follows_cascades p).group s g hs) (hcascades · p) position

include hs hcascades in
theorem follows_runPositions (positions : List (List Group)) (p : Progress) :
    Meets (c.runPositions (c.runGroup s) cascades positions) (c.Follows p) Any AnyHalt :=
  meets_runPositions (fun g => (follows_cascades p).group s g hs) (hcascades · p) positions

include htrack hfast hs hcascades

/-- A position marks its subject for each of its groups. -/
theorem marked_of_runPosition : ∀ {position : List Group} {p q : Progress},
    (c.runPosition (c.runGroup s) cascades position).exec p = (.ok (), q) → c.Remembers p →
    ∀ g ∈ position, Marked q s.object s.path g.name
  | [], _, _, _, _ => by simp
  | g :: rest, p, q, h, hp => by
    obtain ⟨-, r, hr, h⟩ := exec_each_cons_ok h (stops_eq_false_of_full hfast q)
    obtain ⟨_, r', hg, hr⟩ := exec_bind_ok.1 hr
    have hmarked := marked_of_runGroup htrack hs hg (stops_eq_false_of_full hfast r') hp
    have hr' := ((follows_cascades p).group s g.name hs).kept hg (.refl hp)
    have hrest := (exec_unless_isStopped hr (stops_eq_false_of_full hfast r)).2
    have hfollows := (hcascades g.name r').kept hrest (.refl hr'.remembers)
    have hq := (follows_runPosition hs hcascades rest r).kept h (.refl hfollows.remembers)
    refine List.forall_mem_cons.2 ⟨(hmarked.mono hfollows.extends).mono hq.extends, ?_⟩
    exact marked_of_runPosition h hfollows.remembers

/-- A sequence that finds nothing marks its subject for the groups of all its positions. -/
theorem marked_of_runPositions : ∀ {positions : List (List Group)} {p q : Progress},
    (c.runPositions (c.runGroup s) cascades positions).exec p = (.ok (), q) → c.Remembers p →
    q.violations = p.violations →
    ∀ position ∈ positions, ∀ g ∈ position, Marked q s.object s.path g.name
  | [], _, _, _, _, _ => by simp
  | position :: rest, p, q, h, hp, hnone => by
    obtain ⟨r, hr, hrest⟩ := exec_runPositions_cons_ok h
    have hpr := (follows_runPosition hs hcascades position p).kept hr (.refl hp)
    split at hrest
    · have hrq := (follows_runPositions hs hcascades rest r).kept hrest (.refl hpr.remembers)
      obtain ⟨-, hnone⟩ := eq_of_extends hpr.extends hrq.extends hnone
      refine List.forall_mem_cons.2 ⟨fun g hg => ?_, ?_⟩
      · exact (marked_of_runPosition htrack hfast hs hcascades hr hp g hg).mono hrq.extends
      · exact marked_of_runPositions hrest hpr.remembers hnone
    · next hlength =>
      cases hrest
      exact absurd (congrArg List.length hnone) hlength

theorem marked_of_sequences : ∀ {sequences : List Sequence} {p q : Progress},
    (c.each sequences fun o => c.runPositions (c.runGroup s) cascades o.positions).exec p =
      (.ok (), q) → c.Remembers p → q.violations = p.violations →
    ∀ o ∈ sequences, ∀ position ∈ o.positions, ∀ g ∈ position, Marked q s.object s.path g.name
  | [], _, _, _, _, _ => by simp
  | o :: rest, p, q, h, hp, hnone => by
    obtain ⟨-, r, hr, h⟩ := exec_each_cons_ok h (stops_eq_false_of_full hfast q)
    have hpr := (follows_runPositions hs hcascades o.positions p).kept hr (.refl hp)
    have hrq := (meets_each fun o _ => follows_runPositions hs hcascades o.positions r).kept h
      (.refl hpr.remembers)
    obtain ⟨hfirst, hrest⟩ := eq_of_extends hpr.extends hrq.extends hnone
    refine List.forall_mem_cons.2 ⟨fun position hposition g hg => ?_, ?_⟩
    · exact (marked_of_runPositions htrack hfast hs hcascades hr hp hfirst position hposition g
        hg).mono hrq.extends
    · exact marked_of_sequences h hpr.remembers hrest

end

/-- The validation of a subject marks it for the groups of its order, and for those of the sequences
if it finds nothing. -/
theorem marked_of_runSubject (htrack : c.config.trackProcessed) (hfast : c.config.failFast = false)
    {s : Subject} (hs : c.Knows s) {visit : CascadeStep → Run Unit}
    (hvisit : ∀ step p, Meets (visit step) (c.Follows p) Any AnyHalt) {order : Order}
    (h : (c.runSubject visit s order).exec p = (.ok (), q)) (hp : c.Remembers p) :
    (∀ name ∈ order.names, Marked q s.object s.path name) ∧
    (q.violations = p.violations → ∀ name ∈ order.members, Marked q s.object s.path name) := by
  obtain ⟨x, -, hm⟩ := hs.object
  have hcascades (g : TypeName) (p : Progress) :
      Meets (c.runCascades visit s g) (c.Follows p) Any AnyHalt :=
    meets_runCascades (fun step => hvisit step p) g
  have hsequences (p : Progress) :
      Meets (c.each order.sequences fun o =>
        c.runPositions (c.runGroup s) (c.runCascades visit s) o.positions) (c.Follows p) Any AnyHalt :=
    meets_each fun o _ => follows_runPositions hs hcascades o.positions p
  obtain ⟨_, p₁, hfit, h⟩ := exec_bind_ok.1 h
  obtain ⟨_, p₂, hwalks, h⟩ := exec_bind_ok.1 h
  obtain ⟨_, p₃, hsteps, h⟩ := exec_bind_ok.1 h
  have hp₁ := ((follows_cascades p).requireFit hm order).kept hfit (.refl hp)
  have hp₂ := (meets_each fun g _ => (follows_cascades p₁).group s g.name hs).kept hwalks
    (.refl hp₁.remembers)
  have hp₃ := (meets_each fun g _ => hcascades g.name p₂).kept hsteps (.refl hp₂.remembers)
  have hq := (hsequences p₃).kept h (.refl hp₃.remembers)
  refine ⟨fun name hname => ?_, fun hnone name hname => ?_⟩
  · obtain ⟨g, hg, rfl⟩ := List.mem_map.1 hname
    have hmarked := marked_of_walks htrack hs hwalks (stops_eq_false_of_full hfast p₂) hp₁.remembers
    exact ((hmarked g hg).mono hp₃.extends).mono hq.extends
  · simp only [Order.members, List.mem_flatMap, List.mem_map] at hname
    obtain ⟨o, ho, position, hposition, g, hg, rfl⟩ := hname
    obtain ⟨-, hrest⟩ := eq_of_extends (hp₁.extends.trans (hp₂.extends.trans hp₃.extends))
      hq.extends hnone
    exact marked_of_sequences htrack hfast hs hcascades h hp₃.remembers hrest o ho position hposition
      g hg

/-! ### Marks come from walks -/

/-- Whether a walk has begun on an object that may mark it for a group. -/
def Served (c : Call) (j : List Event) (x : ObjectId) (g : TypeName) : Prop :=
  ∃ path group m, .began (some x) path group ∈ j ∧ c.Assembles (c.store.typeOf x) m ∧
    c.Serves m.hierarchy group g

/-- Whether objects that have been marked since a progress have been walked. -/
def MarksServed (c : Call) (p q : Progress) : Prop :=
  ∀ x g, (some x, g) ∈ q.processedGroups →
    (some x, g) ∈ p.processedGroups ∨ c.Served q.journal x g

theorem MarksServed.mono (h : c.MarksServed p q) (hg : r.processedGroups = q.processedGroups)
    (hj : q.journal ⊆ r.journal) : c.MarksServed p r := by
  intro x g hmem
  refine (h x g (hg ▸ hmem)).imp_right ?_
  rintro ⟨path, group, m, hbegan, hm, hserves⟩
  exact ⟨path, group, m, hj hbegan, hm, hserves⟩

theorem marksServed_runGroup {s : Subject} (hs : c.Knows s) (group : TypeName) (p : Progress) :
    Meets (c.runGroup s group) (fun q => c.Follows p q ∧ c.MarksServed p q) Any AnyHalt := by
  refine .of_ok fun q _ r ⟨hpq, hserved⟩ hexec => ?_
  have hqr := (follows_runGroup s group q).kept hexec (.refl hpq.remembers)
  have henters := enters_runGroup hpq.remembers hexec
  refine ⟨⟨hpq.trans hqr, fun x g hmem => ?_⟩, trivial⟩
  rcases henters.groups _ hmem with hmem | ⟨g', hserves, heq⟩
  · have hsame : c.MarksServed p { r with processedGroups := q.processedGroups } :=
      hserved.mono rfl hqr.extends.journal.subset
    exact hsame x g hmem
  · obtain ⟨hx, rfl⟩ := Prod.mk.inj heq
    obtain ⟨y, hy, hm⟩ := hs.object
    obtain rfl := Option.some.inj (hx.trans hy)
    exact .inr ⟨s.path, group, s.metadata, hy ▸ henters.begun, hm, hserves⟩

theorem marksServed_cascades (p : Progress) :
    KeptByCascades c (fun q => c.Follows p q ∧ c.MarksServed p q) AnyHalt := by
  have hfollows := follows_cascades (c := c) p
  have hquiet : ∀ {α : Type} {x : Run α} {Q Q' : α → Prop}, Meets x (c.Follows p) Q AnyHalt →
      (∀ p, Meets x (Quiet p) Q' AnyHalt) →
      Meets x (fun q => c.Follows p q ∧ c.MarksServed p q) Q AnyHalt := fun hx hx' =>
    (hx.both (meets_of_quiet hx' fun _ _ hq h => hq.mono h.groups h.journal)).mono fun _ h => h.1
  exact {
    failed := fun _ _ _ => trivial
    exhausted := fun _ _ => trivial
    metadata := fun type => hquiet (hfollows.metadata type) fun _ => quiet_metadataOf type
    meaning := fun object type m hm => hquiet (hfollows.meaning object type m hm) fun _ =>
      quiet_defaultMeaning object m
    expand := fun x => hquiet (hfollows.expand x) fun _ => quiet_expanding x
    chain := fun q chain hq => ⟨hfollows.chain q chain hq.1, hq.2⟩
    halted := fun _ _ _ _ => trivial
    group := fun s group hs => marksServed_runGroup hs group p }

/-! ### Orders of steps -/

/-- The order of a plain group, and that of a group that is not converted, runs the group. -/
theorem group_mem_names {order : Order} (h : c.stepOrder p step = .ok order)
    (hstep : Order.IsPlain c.registry step.group ∨ step.group = step.source) :
    step.group ∈ order.names := by
  unfold stepOrder at h
  cases hdefault : step.group.isDefault with
  | true =>
    rw [Order.ofGroup, if_pos hdefault] at h
    cases h
    simpa [Order.names, Order.default, Group.plain, TypeName.isDefault] using hdefault
  | false =>
    rw [Order.ofGroup, if_neg (by simp [hdefault])] at h
    by_cases hsame : step.group = step.source
    · rw [if_neg (by simpa using hsame)] at h
      cases h
      simp [Order.names, Group.plain]
    · rw [if_pos (by simpa using hsame)] at h
      have hplain := hstep.resolve_right hsame
      exact (Order.ofGroups_isPlain (by simpa using hplain) (Prod.ext h rfl)).2.2 _ (by simp)

/-- What a step that enters its target runs. -/
theorem entered_of_exec {depth : Nat} (htrack : c.config.trackProcessed)
    (hfast : c.config.failFast = false) (hp : c.Remembers p)
    (h : (c.cascade depth step).exec p = (.ok (), q)) :
    (q = p ∧ c.isProcessed p step) ∨ ∃ order, c.stepOrder p step = .ok order ∧
      (∀ name ∈ order.names, Marked q (some step.target) step.path name) ∧
      (q.violations = p.violations →
        ∀ name ∈ order.members, Marked q (some step.target) step.path name) := by
  obtain _ | depth := depth
  · cases h
  rcases exec_cascade_ok h with ⟨rfl, hskip⟩ | ⟨-, -, m, p₁, order, p₂, hmeta, horder, h⟩
  · exact .inl ⟨rfl, hskip.resolve_left (by simp [stops_eq_false_of_full hfast])⟩
  have hm := ((follows_cascades p).metadata _).answer hmeta (.refl hp)
  have hp₁ := ((follows_cascades p).metadata _).kept hmeta (.refl hp)
  have hp₂ := ((follows_cascades p₁).expand _).kept horder (.refl hp₁.remembers)
  rcases h with ⟨-, hchain⟩ | ⟨r, hrun, rfl⟩
  · simp [Call.isOnChain, htrack] at hchain
  have hs : c.Knows { object := some step.target, metadata := m, path := step.path } :=
    ⟨⟨step.target, rfl, hm⟩, rfl⟩
  have hp₂' := (follows_cascades p₂).chain p₂ (step.target :: p₂.chain) (.refl hp₂.remembers)
  have hvisit (step : CascadeStep) (p : Progress) :
      Meets (c.cascade depth step) (c.Follows p) Any AnyHalt := (follows_cascades p).cascade depth step
  have hr := ((follows_cascades _).runSubject hs (hvisit · _) order).kept hrun (.refl hp₂'.remembers)
  obtain ⟨hgroups, hsequences⟩ := marked_of_runSubject htrack hfast hs hvisit hrun hp₂'.remembers
  refine .inr ⟨order, ?_, hgroups, fun hnone => hsequences ?_⟩
  · obtain ⟨cache, -, hexec⟩ := exec_metadataOf hp.coherent (c.store.typeOf step.target)
    obtain rfl : p₁ = _ := congrArg Prod.snd (hmeta.symm.trans hexec)
    obtain ⟨cache', hrun⟩ := exec_expanding_ok horder
    exact congrArg Prod.fst hrun
  · exact (eq_of_extends (hp₁.extends.trans (hp₂.extends.trans hp₂'.extends)) hr.extends hnone).2

/-- A step that has come to its end is passed over from now on if it keeps to its group, or goes on for
a plain group. If it has found nothing, so is each step into the target, at the same path, for a group
that has been run, as those of all positions of a sequence are. For another group, such as the sequence
itself, the target comes to be marked only where a walk for that group, or one for a redefined default
group, has begun on it. -/
theorem cascade_passes_over {depth : Nat} (htrack : c.config.trackProcessed)
    (hfast : c.config.failFast = false) (hp : c.Remembers p)
    (h : (c.cascade depth step).exec p = (.ok (), q)) :
    (Order.IsPlain c.registry step.group ∨ step.group = step.source → c.PassesOver q step) ∧
    (c.isProcessed p step = false → q.violations = p.violations →
      ∃ order, c.stepOrder p step = .ok order ∧
        ∀ name ∈ order.names ++ order.members, c.PassesOver q { step with group := name }) ∧
    ((some step.target, step.group) ∉ p.processedGroups → c.isProcessed q step →
      c.Served q.journal step.target step.group) := by
  have hserved := ((marksServed_cascades p).cascade depth step).kept h ⟨.refl hp, fun _ _ => .inl⟩
  rw [← and_assoc]
  refine ⟨?_, fun hnew hq => (hserved.2 _ _ (isProcessed_iff.1 hq).2.1).resolve_left hnew⟩
  rcases entered_of_exec htrack hfast hp h with ⟨rfl, hskip⟩ | ⟨order, horder, hgroups, hmembers⟩
  · refine ⟨fun _ => passesOver_of_isProcessed hskip, fun hnew => ?_⟩
    rw [hnew] at hskip
    cases hskip
  · refine ⟨fun hstep => ?_, fun _ hnone => ⟨order, horder, fun name hname => ?_⟩⟩
    · have hmarked := hgroups _ (group_mem_names horder hstep)
      exact passesOver_of_isProcessed (hmarked.isProcessed htrack)
    · have hmarked : Marked q (some step.target) step.path name :=
        (List.mem_append.1 hname).elim (hgroups name) (hmembers hnone name)
      exact passesOver_of_isProcessed (Marked.isProcessed htrack hmarked)

/-- A box whose items are validated for a sequence when it is validated for the default group. -/
def boxed : Validator where
  registry := [
    { name := ⟨"A"⟩, kind := .interface },
    { name := ⟨"S"⟩, kind := .interface, sequence := some [⟨"A"⟩, TypeName.defaultGroup] },
    { name := ⟨"Item"⟩, kind := .concrete, fields := [
      ⟨"name", { own := { constraints := [{ kind := "NotNull", groups := [⟨"A"⟩] }] } }⟩] },
    { name := ⟨"Box"⟩, kind := .concrete, fields := [
      ⟨"items", { containers := [(.listElement,
        { cascading := true, conversions := [⟨TypeName.defaultGroup, ⟨"S"⟩⟩] })] }⟩] :
        TypeDefinition }
    ].foldl Registry.register .initial
  evaluators := Standard.evaluators
  config := {}
  store := ⟨[(⟨"b"⟩, ⟨⟨"Box"⟩, [("items", .list [.object ⟨"i"⟩])]⟩),
    (⟨"i"⟩, ⟨⟨"Item"⟩, [("name", .str "")]⟩)]⟩
  memory := {}

/-- The step from the box to its item. -/
def boxedStep : CascadeStep :=
  ⟨⟨"i"⟩, (Path.root.property "items").element (some (.index 0)), TypeName.defaultGroup, ⟨"S"⟩⟩

/-- The item is remembered for both members of the sequence. -/
theorem cascade_passes_over_members :
    let c := boxed.call (some ⟨"b"⟩) ⟨"Box"⟩
    let p := c.start boxed.memory
    let q := ((c.visit boxedStep).exec p).2
    c.config.trackProcessed ∧ c.config.failFast = false ∧ c.Remembers p ∧
      (c.visit boxedStep).exec p = (.ok (), q) ∧ q.violations = p.violations ∧
      c.PassesOver q { boxedStep with group := ⟨"A"⟩ } ∧
      c.PassesOver q { boxedStep with group := TypeName.defaultGroup } := by
  intro c p q
  have hp : c.Remembers p := ⟨MetadataCache.coherent_nil _ _, by simp [p, Call.start]⟩
  have hok : ((c.visit boxedStep).exec p).1.toOption = some () := by decide +kernel
  have hq : (c.visit boxedStep).exec p = (.ok (), q) := Prod.ext (toOption_eq_some hok) rfl
  have hnone : q.violations = p.violations := by
    have hlength : q.violations.length = 0 := by decide +kernel
    exact List.length_eq_zero_iff.1 hlength
  obtain ⟨-, hmembers, -⟩ := cascade_passes_over rfl rfl hp hq
  obtain ⟨order, horder, hall⟩ := hmembers (by decide +kernel) hnone
  have hgroups : (c.stepOrder p boxedStep).toOption.map (fun o => o.names ++ o.members) =
      some [⟨"A"⟩, TypeName.defaultGroup] := by decide +kernel
  rw [horder] at hgroups
  have hgroups : order.names ++ order.members = [⟨"A"⟩, TypeName.defaultGroup] :=
    Option.some.inj hgroups
  rw [hgroups] at hall
  exact ⟨rfl, rfl, hp, hq, hnone, hall _ (by simp), hall _ (by simp)⟩

/-- A node that refers to itself, where validation goes over from the default group to a sequence of
just that group. -/
def circled : Validator where
  registry := [
    { name := ⟨"S"⟩, kind := .interface, sequence := some [TypeName.defaultGroup] },
    { name := ⟨"Node"⟩, kind := .concrete, fields := [
      ⟨"next", { own := { cascading := true, conversions := [⟨TypeName.defaultGroup, ⟨"S"⟩⟩] } }⟩] :
        TypeDefinition }
    ].foldl Registry.register .initial
  evaluators := Standard.evaluators
  config := {}
  store := ⟨[(⟨"n"⟩, ⟨⟨"Node"⟩, [("next", .object ⟨"n"⟩)]⟩)]⟩
  memory := {}

/-- The item is not remembered for the sequence itself: to take the same step again is to validate the
item again. So nothing breaks a circle of such steps. -/
theorem converted_sequence_is_forgotten :
    let c := boxed.call (some ⟨"b"⟩) ⟨"Box"⟩
    let p := c.start boxed.memory
    let q := ((c.visit boxedStep).exec p).2
    let r := ((c.visit boxedStep).exec q).2
    c.config.trackProcessed ∧ c.config.failFast = false ∧ c.Remembers p ∧
      (c.visit boxedStep).exec p = (.ok (), q) ∧ q.violations = p.violations ∧
      c.isProcessed q boxedStep = false ∧
      ((r.since q).filter fun e => e.isBeginAt ⟨"i"⟩ boxedStep.path ⟨"A"⟩).length = 1 ∧
      (circled.validate ⟨"n"⟩ []).answer matches .error .exhausted := by
  intro c p q r
  have hp : c.Remembers p := ⟨MetadataCache.coherent_nil _ _, by simp [p, Call.start]⟩
  have hok : ((c.visit boxedStep).exec p).1.toOption = some () := by decide +kernel
  have hq : (c.visit boxedStep).exec p = (.ok (), q) := Prod.ext (toOption_eq_some hok) rfl
  have hlength : q.violations.length = 0 := by decide +kernel
  have hnone : q.violations = p.violations := List.length_eq_zero_iff.1 hlength
  exact ⟨rfl, rfl, hp, hq, hnone, by decide +kernel, by decide +kernel, by decide +kernel⟩

end Call

end ObjectValidation
