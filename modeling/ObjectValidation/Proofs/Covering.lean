import ObjectValidation.Proofs.Conversions
import ObjectValidation.Proofs.GroupKinds
import ObjectValidation.Proofs.History
import ObjectValidation.Proofs.OnceEach
import ObjectValidation.Proofs.Registries
/-!
# What a conversion covers

A group that a cascade is converted to is expanded: the groups that it extends run with it. A group that
a cascade keeps runs alone, for the object that the cascade comes from has had its groups expanded. Both
leave the same mark, so a target that a cascade has come to with the group alone is passed over where
another one converts to the group.

Whatever has begun for a group has either begun with all that the group extends or comes from an object
that had begun for the group and referred to it without conversion (`Comes`), and what has begun is
closed under references (`Through`). So a conversion covers what its group extends unless an element on
the way keeps the group and converts one that it extends (`validate_covers`).
-/

namespace ObjectValidation

open Run

/-! ### Groups that run together -/

namespace Order

variable {r : Registry}

/-- The groups of an order that run together: those on their own, and those at each position of a
sequence. -/
def blocks (o : Order) : List (List Group) := o.groups :: o.sequences.flatMap (·.positions)

/-- Whether groups that run together have with each of them what it extends. The default group is on its
own. -/
def Whole (r : Registry) (block : List Group) : Prop :=
  ∀ g ∈ block, g.name.isDefault = false → ∀ i, r.LeadsTo g.name i → ∃ g' ∈ block, g'.name = i

theorem whole_of_isPosition {group : TypeName} {position : List Group}
    (h : Sequence.IsPosition r group position) : Whole r position := by
  intro g hg hdefault i hi
  refine h.mem_iff.2 (.inr ?_)
  rcases h.mem_iff.1 ⟨g, hg, rfl⟩ with hname | ⟨hgroup, hleads⟩
  · exact ⟨hname ▸ hdefault, hname ▸ hi⟩
  · exact ⟨hgroup, hleads.trans hi⟩

theorem isPosition_of_build {name : TypeName} {members : List TypeName} {s : Sequence}
    (h : Sequence.build r name members = .ok s) :
    ∀ position ∈ s.positions, ∃ leaf, Sequence.IsPosition r leaf position := by
  obtain ⟨groups, -, h⟩ := bind_eq_ok.1 h
  obtain ⟨positions, hpositions, h⟩ := bind_eq_ok.1 h
  cases h
  intro position hposition
  obtain ⟨leaf, -, hleaf⟩ := (mapM_eq_ok hpositions).1 position hposition
  exact ⟨leaf, Sequence.isPosition_of_positionOf hleaf⟩

theorem whole_writtenOut {group : TypeName}
    (h : IsPlain r group → Sequence.IsPosition r group (writtenOut r group)) :
    Whole r (writtenOut r group) := by
  by_cases hplain : IsPlain r group
  · exact whole_of_isPosition (h hplain)
  · obtain ⟨hdefault, -⟩ := not_or.1 hplain
    simp [Whole, writtenOut, hdefault, hplain]

theorem Whole.firstOfEachName {gs : List Group} (h : Whole r gs) :
    Whole r (Order.firstOfEachName gs) := by
  intro g hg hdefault i hi
  obtain ⟨g₁, hg₁, hname⟩ := mem_map_firstOfEachName.1 (List.mem_map_of_mem hg)
  have hi : ∃ g' ∈ gs, g'.name = i := h g₁ hg₁ (hname ▸ hdefault) i (hname ▸ hi)
  exact List.mem_map.1 (mem_map_firstOfEachName.2 hi)

theorem KeepsFirst.whole {requested : List TypeName} {o : Order} (h : KeepsFirst r requested o) :
    ∀ block ∈ o.blocks, Whole r block := by
  refine List.forall_mem_cons.2 ⟨?_, ?_⟩
  · rw [h.groups]
    refine Whole.firstOfEachName fun g hg hdefault i hi => ?_
    obtain ⟨group, hgroup, hg⟩ := List.mem_flatMap.1 hg
    obtain ⟨g', hg', hname⟩ := whole_writtenOut (h.written group hgroup) g hg hdefault i hi
    exact ⟨g', List.mem_flatMap.2 ⟨group, hgroup, hg'⟩, hname⟩
  · intro position hposition
    obtain ⟨s, hs, hposition⟩ := List.mem_flatMap.1 hposition
    obtain ⟨members, -, hbuild⟩ := h.expanded s hs
    obtain ⟨leaf, hleaf⟩ := isPosition_of_build hbuild position hposition
    exact whole_of_isPosition hleaf

theorem whole_default : ∀ block ∈ default.blocks, Whole r block := by
  have hblocks : default.blocks = [[Group.plain TypeName.defaultGroup]] := rfl
  simp [hblocks, Whole, Group.plain, TypeName.isDefault]

/-- What a request comes to has with each group what it extends. -/
theorem whole_of_answer {requested : List TypeName} {o : Order}
    (h : Expanding.answer (ofGroups r requested) = .ok o) : ∀ block ∈ o.blocks, Whole r block := by
  by_cases hother : requested.any (!·.isDefault)
  · exact (keepsFirst_of_answer h hother).whole
  · cases requested with
    | nil => cases h
    | cons g rest =>
      rw [answer_ofGroups_of_all (by simp) (by simpa using hother)] at h
      cases h
      exact whole_default

end Order

namespace Call

variable {c : Call} {o p q r fin : Progress}

/-! ### Where a call has got to -/

/-- What holds throughout a call. -/
structure Regular (c : Call) (o p : Progress) : Prop where
  follows : c.Follows o p
  served : c.MarksServed o p
  coherent : p.memory.Coherent c.registry c.config.methodRules

theorem Regular.start (h : o.memory.Coherent c.registry c.config.methodRules) (ho : c.Remembers o) :
    c.Regular o o := ⟨.refl ho, fun _ _ => .inl, h⟩

theorem Regular.chained (h : c.Regular o p) (chain : List ObjectId) : c.Regular o { p with chain } :=
  ⟨(follows_cascades o).chain p chain h.follows, h.served, h.coherent⟩

/-- What comes to the same end whatever is remembered leaves coherent what is. -/
theorem regular_of_unswayed {α : Type} {x : Run α} {Q : α → Prop} (hx : c.Unswayed x)
    (h : Meets x (fun p => c.Follows o p ∧ c.MarksServed o p) Q AnyHalt) :
    Meets x (c.Regular o) Q AnyHalt := by
  refine .of_ok fun p a q hp hexec => ?_
  have hkept := h.kept hexec ⟨hp.follows, hp.served⟩
  have hcoherent := (hx p p ⟨hp.coherent, hp.coherent, rfl⟩).2.left
  rw [hexec] at hcoherent
  exact ⟨⟨hkept.1, hkept.2, hcoherent⟩, h.answer hexec ⟨hp.follows, hp.served⟩⟩

theorem regular_metadataOf (type : TypeName) : Meets (c.metadataOf type) (c.Regular o) Any AnyHalt :=
  regular_of_unswayed (unswayed_metadataOf type) ((marksServed_cascades o).metadata type).any

theorem regular_runGroup {s : Subject} (hs : c.Knows s) (group : TypeName) :
    Meets (c.runGroup s group) (c.Regular o) Any AnyHalt :=
  regular_of_unswayed (unswayed_runGroup s group) ((marksServed_cascades o).group s group hs)

theorem regular_cascade (depth : Nat) (step : CascadeStep) :
    Meets (c.cascade depth step) (c.Regular o) Any AnyHalt :=
  regular_of_unswayed (unswayed_cascade depth step) ((marksServed_cascades o).cascade depth step)

theorem regular_runCascades (depth : Nat) (s : Subject) (group : TypeName) :
    Meets (c.runCascades (c.cascade depth) s group) (c.Regular o) Any AnyHalt :=
  meets_runCascades (fun step => regular_cascade depth step) group

theorem regular_requireFit {s : Subject} (hs : c.Knows s) (order : Order) :
    Meets (c.requireFit s order) (c.Regular o) Any AnyHalt := by
  obtain ⟨_, -, hm⟩ := hs.object
  exact regular_of_unswayed (unswayed_requireFit s order) ((marksServed_cascades o).requireFit hm order)

theorem regular_expanding {α : Type} {x : Expanding α} (hx : Expanding.Steady c.registry x) :
    Meets (Run.expanding x) (c.Regular o) (fun a => Expanding.answer x = .ok a) AnyHalt := by
  have hkept : Meets (Run.expanding x) (c.Regular o) Any AnyHalt :=
    regular_of_unswayed (unswayed_expanding hx) ((marksServed_cascades o).expand x)
  refine .of_ok fun p a q hp hexec => ⟨hkept.kept hexec hp, ?_⟩
  obtain ⟨cache, hrun⟩ := exec_expanding_ok hexec
  rw [← hx.run_eq hp.coherent.sequences, hrun]

/-- The order of a request has with each group what it extends. -/
theorem regular_orderOf (gs : List TypeName) : Meets (c.orderOf gs) (c.Regular o)
    (fun order => ∀ block ∈ order.blocks, Order.Whole c.registry block) AnyHalt :=
  (regular_expanding (Order.steady_ofGroups _ _)).mono fun _ => Order.whole_of_answer

/-- What the order of a step has: all that its groups extend if the step converts its group, else the
group alone. -/
theorem whole_of_step {step : CascadeStep} {order : Order} (hp : c.Regular o p)
    (h : (Run.expanding (Order.ofGroup c.registry step.group (step.group ≠ step.source))).exec p =
      (.ok order, q)) : (∀ block ∈ order.blocks, Order.Whole c.registry block) ∨
      (step.group = step.source ∧ order = { groups := [Group.plain step.group] }) := by
  by_cases hkept : step.group = step.source
  · have hsame : decide (step.group ≠ step.source) = false := by simp [hkept]
    rw [hsame] at h
    exact .inr ⟨hkept, expanding_ofGroup_ok h⟩
  · have hanswer := (regular_expanding (Order.steady_ofGroup _ _ _)).answer h hp
    unfold Order.ofGroup at hanswer
    split at hanswer
    · cases hanswer
      exact .inl Order.whole_default
    · rw [if_pos (by simpa using hkept)] at hanswer
      exact .inl (Order.whole_of_answer hanswer)

/-- Whether validation of an object has begun for a group. -/
def Begun (q : Progress) (x : ObjectId) (group : TypeName) : Prop :=
  ∃ path, .began (some x) path group ∈ q.journal

theorem Begun.mono {x : ObjectId} {group : TypeName} (h : Begun p x group) (hpq : c.Follows p q) :
    Begun q x group := h.imp fun _ hmem => hpq.extends.journal.subset hmem

theorem Walked.begun {s : Subject} {x : ObjectId} (hx : s.object = some x) {group : TypeName}
    (h : c.Walked o q s group) : Begun q x group := by
  obtain ⟨p₁, p₂, hp₁, hwalk, -, hp₂⟩ := h
  have hbegun := (advances_runGroup hp₁.remembers hwalk).2
  exact ⟨s.path, hx ▸ hp₂.extends.journal.subset hbegun⟩

/-- The second progress follows the first one, and `N` holds of all that has begun in between. -/
structure Begins (c : Call) (N : ObjectId → TypeName → Prop) (p q : Progress) : Prop where
  follows : c.Follows p q
  began : ∀ x path group, .began (some x) path group ∈ q.journal →
    .began (some x) path group ∈ p.journal ∨ N x group

variable {N : ObjectId → TypeName → Prop}

theorem Begins.refl (h : c.Remembers p) : c.Begins N p p := ⟨.refl h, fun _ _ _ => .inl⟩

theorem Begins.trans (h : c.Begins N p q) (h' : c.Begins N q r) : c.Begins N p r where
  follows := h.follows.trans h'.follows
  began x path group hmem := (h'.began x path group hmem).elim (h.began x path group) .inr

theorem Begins.mono {N' : ObjectId → TypeName → Prop} (h : c.Begins N p q)
    (hN : ∀ x group, N x group → N' x group) : c.Begins N' p q :=
  ⟨h.follows, fun x path group hmem => (h.began x path group hmem).imp_right (hN x group)⟩

theorem Begins.of_quiet (h : Quiet p q) (hpq : c.Follows p q) : c.Begins N p q :=
  ⟨hpq, fun _ _ _ hmem => .inl (h.began _ _ _ hmem)⟩

theorem Begins.chained (h : c.Begins N p q) (chain : List ObjectId) :
    c.Begins N p { q with chain } :=
  ⟨(follows_cascades p).chain q chain h.follows, h.began⟩

/-! ### Loops that come to an end -/

section

variable (hfast : c.config.failFast = false)

include hfast

/-- Where a loop comes to `fin` at the end, what its rounds begin is all that it begins. -/
theorem begins_each {α : Type} {step : α → Run Unit} {V : α → Prop} : ∀ {xs : List α}
    {p q : Progress}, (∀ x ∈ xs, Meets (step x) (c.Regular o) Any AnyHalt) →
    (∀ x ∈ xs, ∀ p q, c.Regular o p → (step x).exec p = (.ok (), q) → c.Follows q fin →
      c.Begins N p q ∧ V x) →
    (c.each xs step).exec p = (.ok (), q) → c.Regular o p → c.Follows q fin →
    c.Begins N p q ∧ ∀ x ∈ xs, V x
  | [], p, q, _, _, h, hp, _ => by
    cases h
    exact ⟨.refl hp.follows.remembers, by simp⟩
  | x :: xs, p, q, hregular, hstep, h, hp, hq => by
    obtain ⟨-, r, hx, h⟩ := exec_each_cons_ok h (stops_eq_false_of_full hfast q)
    obtain ⟨hrq, hvs⟩ := begins_each (fun y hy => hregular y (by simp [hy]))
      (fun y hy => hstep y (by simp [hy])) h ((hregular x (by simp)).kept hx hp) hq
    obtain ⟨hpr, hv⟩ := hstep x (by simp) p r hp hx (hrq.follows.trans hq)
    exact ⟨hpr.trans hrq, List.forall_mem_cons.2 ⟨hv, hvs⟩⟩

variable {s : Subject} (hs : c.Knows s) {x : ObjectId} (hx : s.object = some x)
  {cascades : TypeName → Run Unit} (hcascades : ∀ g, Meets (cascades g) (c.Regular o) Any AnyHalt)

/-- Whether `N` holds, or the object is `x` and the group is one of those that run together. -/
def OrHere (N : ObjectId → TypeName → Prop) (x : ObjectId) (block : List Group) (y : ObjectId)
    (group : TypeName) : Prop := N y group ∨ (y = x ∧ ∃ g ∈ block, g.name = group)

omit hfast hs in
include hx in
theorem begins_walk {block : List Group} {g : Group} (hg : g ∈ block)
    (hp : c.Regular o p) (h : (c.runGroup s g.name).exec p = (.ok (), q)) (hq : c.Follows q fin) :
    c.Begins (OrHere N x block) p q ∧ c.Walked o fin s g.name := by
  have hadv := (advances_runGroup hp.follows.remembers h).1
  refine ⟨⟨hadv.follows, fun y path group hmem => ?_⟩, p, q, hp.follows, h, hadv.follows, hq⟩
  refine (hadv.began _ path group hmem).imp_right ?_
  rintro ⟨hy, -, rfl⟩
  exact .inr ⟨Option.some.inj (hy.trans hx), g, hg, rfl⟩

include hs hx hcascades

/-- Groups that run together one after another: each is walked and then followed by its cascades. -/
theorem begins_runPosition {block : List Group} {V : Group → Prop}
    (hsteps : ∀ g ∈ block, ∀ p q, c.Regular o p → (cascades g.name).exec p = (.ok (), q) →
      c.Follows q fin → c.Begins N p q ∧ V g)
    (h : (c.runPosition (c.runGroup s) cascades block).exec p = (.ok (), q)) (hp : c.Regular o p)
    (hq : c.Follows q fin) :
    c.Begins (OrHere N x block) p q ∧ ∀ g ∈ block, c.Walked o fin s g.name ∧ V g := by
  refine begins_each hfast (fun g _ => ?_) (fun g hg p q hp h hq => ?_) h hp hq
  · exact (regular_runGroup hs g.name).next fun _ => meets_isStopped.next fun _ =>
      .ite .unit (hcascades g.name)
  · obtain ⟨_, r, hwalk, h⟩ := exec_bind_ok.1 h
    have h := (exec_unless_isStopped h (stops_eq_false_of_full hfast q)).2
    obtain ⟨hrq, hv⟩ := hsteps g hg r q ((regular_runGroup hs g.name).kept hwalk hp) h hq
    obtain ⟨hpr, hwalked⟩ := begins_walk (N := N) hx hg hp hwalk (hrq.follows.trans hq)
    exact ⟨hpr.trans (hrq.mono fun _ _ => .inl), hwalked, hv⟩

/-- Groups that run together on their own: all are walked, and then all are followed by cascades. -/
theorem begins_groups {block : List Group} {V : Group → Prop}
    (hsteps : ∀ g ∈ block, ∀ p q, c.Regular o p → (cascades g.name).exec p = (.ok (), q) →
      c.Follows q fin → c.Begins N p q ∧ V g)
    (hwalks : (c.each block fun g => c.runGroup s g.name).exec p = (.ok (), r))
    (h : (c.each block fun g => cascades g.name).exec r = (.ok (), q)) (hp : c.Regular o p)
    (hq : c.Follows q fin) :
    c.Begins (OrHere N x block) p q ∧ ∀ g ∈ block, c.Walked o fin s g.name ∧ V g := by
  have hr := (meets_each fun g _ => regular_runGroup hs g.name).kept hwalks hp
  obtain ⟨hrq, hvs⟩ := begins_each hfast (fun g _ => hcascades g.name) hsteps h hr hq
  obtain ⟨hpr, hwalked⟩ := begins_each hfast (fun g _ => regular_runGroup hs g.name)
    (fun g hg p q hp h hq => begins_walk (N := N) hx hg hp h hq) hwalks hp
    (hrq.follows.trans hq)
  exact ⟨hpr.trans (hrq.mono fun _ _ => .inl), fun g hg => ⟨hwalked g hg, hvs g hg⟩⟩

end

/-! ### Ways into an object -/

/-- How an object comes to be validated for a group: with all that the group extends, or from an object
that is validated for the group and refers to it without converting the group. -/
inductive Comes (c : Call) (fin : Progress) (group : TypeName) : ObjectId → Prop
  | whole {x : ObjectId} :
    (group.isDefault = false → ∀ i, c.registry.LeadsTo group i → Begun fin x i) → Comes c fin group x
  | kept {x : ObjectId} {r : Reference} : Comes c fin group x → Begun fin x group →
    r ∈ c.references x → r.facet.converted group = group → Comes c fin group r.target

/-- Whether all has begun that an object refers to, for the group that a reference goes on for, if that
is a plain one or the same. -/
def LeadsOn (c : Call) (fin : Progress) (x : ObjectId) (group : TypeName) : Prop :=
  ∀ r ∈ c.references x,
    Order.IsPlain c.registry (r.facet.converted group) ∨ r.facet.converted group = group →
      Begun fin r.target (r.facet.converted group)

/-- What is so at the end of an object that has been validated for a group. -/
structure Through (c : Call) (o fin : Progress) (x : ObjectId) (group : TypeName) : Prop where
  walked : ∃ s, c.Knows s ∧ s.object = some x ∧ c.Walked o fin s group
  comes : c.Comes fin group x
  followed : c.LeadsOn fin x group

section

variable (htrack : c.config.trackProcessed) (hfast : c.config.failFast = false)
  (hord : ∀ types, c.Ordinary types) (ho : o.processedGroups = [])

include htrack hfast hord ho

/-- A step that comes to its end has begun its target for its group, then or before. -/
theorem begun_of_cascade {depth : Nat} {step : CascadeStep} (hp : c.Regular o p)
    (h : (c.cascade depth step).exec p = (.ok (), q))
    (hstep : Order.IsPlain c.registry step.group ∨ step.group = step.source) :
    Begun q step.target step.group := by
  have hmarked : (some step.target, step.group) ∈ q.processedGroups := by
    rcases entered_of_exec htrack hfast hp.follows.remembers h with
      ⟨rfl, hskip⟩ | ⟨order, horder, hgroups, -⟩
    · exact (isProcessed_iff.1 hskip).2.1
    · exact (hgroups _ (group_mem_names horder hstep)).1
  have hq := (regular_cascade depth step).kept h hp
  obtain ⟨path, group, m, hbegan, -, hserves⟩ :=
    (hq.served _ _ hmarked).resolve_left (by simp [ho])
  obtain hgroup | ⟨-, hredefined⟩ := hserves
  · exact ⟨path, hgroup ▸ hbegan⟩
  · exact absurd (hord _) hredefined

section

variable {depth : Nat}
  (hcascade : ∀ step p q, c.Regular o p →
    (step.group = step.source → c.Comes fin step.group step.target) →
    (c.cascade depth step).exec p = (.ok (), q) → c.Follows q fin → c.Begins (c.Through o fin) p q)
  {s : Subject} (hs : c.Knows s) {x : ObjectId} (hx : s.object = some x)

include hcascade hs hx

theorem runCascades_through {group : TypeName} (hcomes : c.Comes fin group x)
    (hbegun : Begun fin x group) (hp : c.Regular o p)
    (h : (c.runCascades (c.cascade depth) s group).exec p = (.ok (), q)) (hq : c.Follows q fin) :
    c.Begins (c.Through o fin) p q ∧ c.LeadsOn fin x group := by
  rw [runCascades_eq hs hx] at h
  let Goes (step : CascadeStep) : Prop :=
    Order.IsPlain c.registry step.group ∨ step.group = step.source → Begun fin step.target step.group
  have hround : ∀ step ∈ (c.references x).map (·.step s.path group), ∀ p q, c.Regular o p →
      (c.cascade depth step).exec p = (.ok (), q) → c.Follows q fin →
      c.Begins (c.Through o fin) p q ∧ Goes step := by
    intro step hstep p q hp h hq
    obtain ⟨r, hr, rfl⟩ := List.mem_map.1 hstep
    refine ⟨hcascade _ p q hp (fun hkept => ?_) h hq, fun hplain =>
      (begun_of_cascade htrack hfast hord ho hp h hplain).mono hq⟩
    exact hkept ▸ hcomes.kept hbegun hr hkept
  obtain ⟨hbegins, hsteps⟩ :=
    begins_each hfast (fun step _ => regular_cascade depth step) hround h hp hq
  exact ⟨hbegins, fun r hr => hsteps (r.step s.path group) (List.mem_map_of_mem hr)⟩

/-- Groups that run together leave all through that they begin, if they have with each of them what it
extends or the object comes to the only one of them. -/
theorem block_through {block : List Group}
    (hblock : Order.Whole c.registry block ∨ ∃ g, block = [Group.plain g] ∧ c.Comes fin g x)
    (hrun : ∀ {N : ObjectId → TypeName → Prop} {V : Group → Prop},
      (∀ g ∈ block, ∀ p q, c.Regular o p →
        (c.runCascades (c.cascade depth) s g.name).exec p = (.ok (), q) → c.Follows q fin →
        c.Begins N p q ∧ V g) →
      c.Begins (OrHere N x block) p q ∧ ∀ g ∈ block, c.Walked o fin s g.name ∧ V g) :
    c.Begins (c.Through o fin) p q := by
  -- A cascade may come before later walks of the block, so that all are made is seen first.
  have hbegun : ∀ g ∈ block, Begun fin x g.name := by
    obtain ⟨-, hwalked⟩ := hrun (N := fun _ _ => True) (V := fun _ => True) fun g _ p q hp h _ => by
      have hfollows := (meets_runCascades (fun step => (follows_cascades p).cascade depth step)
        g.name).kept h (.refl hp.follows.remembers)
      exact ⟨⟨hfollows, fun _ _ _ _ => .inr trivial⟩, trivial⟩
    exact fun g hg => (hwalked g hg).1.begun hx
  have hcomes : ∀ g ∈ block, c.Comes fin g.name x := by
    rcases hblock with hwhole | ⟨g, rfl, hcomes⟩
    · refine fun g hg => .whole fun hdefault i hi => ?_
      obtain ⟨g', hg', rfl⟩ := hwhole g hg hdefault i hi
      exact hbegun g' hg'
    · intro g' hg'
      rw [List.mem_singleton.1 hg']
      exact hcomes
  obtain ⟨hbegins, hdone⟩ := hrun fun g hg p q hp h hq =>
    runCascades_through htrack hfast hord ho hcascade hs hx (hcomes g hg) (hbegun g hg) hp h hq
  refine ⟨hbegins.follows, fun y path group hmem => (hbegins.began y path group hmem).imp_right ?_⟩
  rintro (hthrough | ⟨rfl, g, hg, rfl⟩)
  · exact hthrough
  · exact ⟨⟨s, hs, hx, (hdone g hg).1⟩, hcomes g hg, (hdone g hg).2⟩

theorem runPositions_through : ∀ {positions : List (List Group)} {p q : Progress},
    (∀ position ∈ positions, Order.Whole c.registry position) →
    (c.runPositions (c.runGroup s) (c.runCascades (c.cascade depth) s) positions).exec p =
      (.ok (), q) → c.Regular o p → c.Follows q fin → c.Begins (c.Through o fin) p q
  | [], p, q, _, h, hp, _ => by
    cases h
    exact .refl hp.follows.remembers
  | position :: rest, p, q, hwhole, h, hp, hq => by
    have hcascades (g : TypeName) := regular_runCascades (c := c) (o := o) depth s g
    obtain ⟨r, hr, h⟩ := exec_runPositions_cons_ok h
    have hregular := (meets_runPosition (fun g => regular_runGroup hs g) hcascades position).kept hr hp
    have hrq : c.Begins (c.Through o fin) r q := by
      split at h
      · exact runPositions_through (fun position hmem => hwhole position (by simp [hmem])) h hregular hq
      · cases h
        exact .refl hregular.follows.remembers
    have hpr := block_through htrack hfast hord ho hcascade hs hx (.inl (hwhole position (by simp)))
      fun hsteps => begins_runPosition hfast hs hx hcascades hsteps hr hp (hrq.follows.trans hq)
    exact hpr.trans hrq

/-- The validation of a subject leaves all through that it begins, if its cascades do: the groups of its
order that run together have with each of them what it extends, or the object comes to the one group that
there is. -/
theorem runSubject_through {order : Order}
    (horder : (∀ block ∈ order.blocks, Order.Whole c.registry block) ∨
      ∃ g, order = { groups := [Group.plain g] } ∧ c.Comes fin g x)
    (h : (c.runSubject (c.cascade depth) s order).exec p = (.ok (), q)) (hp : c.Regular o p)
    (hq : c.Follows q fin) : c.Begins (c.Through o fin) p q := by
  obtain ⟨_, -, hm⟩ := hs.object
  have hcascades (g : TypeName) := regular_runCascades (c := c) (o := o) depth s g
  have hgroups : Order.Whole c.registry order.groups ∨
      ∃ g, order.groups = [Group.plain g] ∧ c.Comes fin g x := by
    rcases horder with hwhole | ⟨g, rfl, hcomes⟩
    · exact .inl (hwhole _ (by simp [Order.blocks]))
    · exact .inr ⟨g, rfl, hcomes⟩
  have hpositions : ∀ sequence ∈ order.sequences, ∀ position ∈ sequence.positions,
      Order.Whole c.registry position := by
    rcases horder with hwhole | ⟨g, rfl, -⟩
    · intro sequence hsequence position hposition
      exact hwhole _ (List.mem_cons_of_mem _ (List.mem_flatMap.2 ⟨sequence, hsequence, hposition⟩))
    · simp
  obtain ⟨_, p₁, hfit, h⟩ := exec_bind_ok.1 h
  obtain ⟨_, p₂, hwalks, h⟩ := exec_bind_ok.1 h
  obtain ⟨_, p₃, hsteps, h⟩ := exec_bind_ok.1 h
  have hp₁ := (regular_requireFit hs order).kept hfit hp
  have hp₂ := (meets_each fun g _ => regular_runGroup hs g.name).kept hwalks hp₁
  have hp₃ := (meets_each fun g _ => hcascades g.name).kept hsteps hp₂
  have hfits : c.Begins (c.Through o fin) p p₁ := by
    refine .of_quiet ((quiet_requireFit s order).kept hfit (.refl p)) ?_
    exact ((follows_cascades p).requireFit hm order).kept hfit (.refl hp.follows.remembers)
  obtain ⟨hsequences, -⟩ := begins_each (V := fun _ => True) hfast
    (fun sequence _ => meets_runPositions (fun g => regular_runGroup hs g) hcascades sequence.positions)
    (fun sequence hmem p q hp h hq => ⟨runPositions_through htrack hfast hord ho hcascade hs hx
      (hpositions sequence hmem) h hp hq, trivial⟩) h hp₃ hq
  have hblock := block_through htrack hfast hord ho hcascade hs hx hgroups fun hround =>
    begins_groups hfast hs hx hcascades hround hwalks hsteps hp₁ (hsequences.follows.trans hq)
  exact hfits.trans (hblock.trans hsequences)

end

/-- A cascade leaves all through that it begins, if its target comes to a group that it keeps. -/
theorem cascade_through : ∀ depth step p q, c.Regular o p →
    (step.group = step.source → c.Comes fin step.group step.target) →
    (c.cascade depth step).exec p = (.ok (), q) → c.Follows q fin → c.Begins (c.Through o fin) p q
  | 0, _, _, _, _, _, h, _ => by cases h
  | depth + 1, step, p, q, hp, hcomes, h, hq => by
    rcases exec_cascade_ok h with ⟨rfl, -⟩ | ⟨-, -, m, p₁, order, p₂, hmeta, horder, h⟩
    · exact .refl hp.follows.remembers
    obtain ⟨hknows, hpp₂, hquiet⟩ :=
      knows_of_metadata (.refl hp.follows.remembers) hmeta horder step.path
    have hp₁ := (regular_metadataOf _).kept hmeta hp
    have hp₂ := (regular_expanding (Order.steady_ofGroup _ _ _)).kept horder hp₁
    rcases h with ⟨-, honchain⟩ | ⟨r, hrun, rfl⟩
    · simp [Call.isOnChain, htrack] at honchain
    have hwhole : (∀ block ∈ order.blocks, Order.Whole c.registry block) ∨
        ∃ g, order = { groups := [Group.plain g] } ∧ c.Comes fin g step.target :=
      (whole_of_step hp₁ horder).imp_right fun h => ⟨step.group, h.2, hcomes h.1⟩
    have hr := ((marksServed_cascades o).runSubject hknows
      (fun step => (marksServed_cascades o).cascade depth step) order).kept hrun
      ⟨(hp₂.chained _).follows, (hp₂.chained _).served⟩
    have hrq := (follows_cascades r).chain r r.chain.tail (.refl hr.1.remembers)
    have hsubject := runSubject_through htrack hfast hord ho (cascade_through depth) hknows rfl hwhole
      hrun (hp₂.chained _) (hrq.trans hq)
    have hentered := (follows_cascades p₂).chain p₂ (step.target :: p₂.chain) (.refl hpp₂.remembers)
    have hstart : c.Begins (c.Through o fin) p { p₂ with chain := step.target :: p₂.chain } :=
      (Begins.of_quiet hquiet hpp₂).chained _
    exact (hstart.trans hsubject).chained _

end

/-- At the end of a validation all is through that has begun. -/
theorem validate_through {memory : Memory} {root : ObjectId} {gs : List TypeName} {vs : List Violation}
    (hmemory : memory.Coherent c.registry c.config.methodRules) (htrack : c.config.trackProcessed)
    (hfast : c.config.failFast = false) (hord : ∀ types, c.Ordinary types)
    (h : (c.validate root gs).exec (startOf memory root) = (.ok vs, q)) {x : ObjectId} {path : Path}
    {group : TypeName} (hbegan : .began (some x) path group ∈ q.journal) :
    c.Through (startOf memory root) q x group := by
  have hstart : c.Regular (startOf memory root) (startOf memory root) :=
    .start hmemory (remembers_startOf hmemory.metadata root)
  obtain ⟨m, p₁, order, p₂, hmeta, horder, hrun, -⟩ := validate_ok h
  obtain ⟨hknows, -, hquiet⟩ := knows_of_start hmemory.metadata hmeta horder
  have hp₁ := (regular_metadataOf _).kept hmeta hstart
  have hp₂ := (regular_orderOf gs).kept horder hp₁
  have hq := ((follows_cascades p₂).runSubject hknows
    (fun step => (follows_cascades p₂).cascade c.depth step) order).kept hrun
    (.refl hp₂.follows.remembers)
  have hbegins := runSubject_through (o := startOf memory root) htrack hfast hord rfl
    (cascade_through htrack hfast hord rfl c.depth) hknows rfl
    (.inl ((regular_orderOf gs).answer horder hp₁)) hrun hp₂ (.refl hq.remembers)
  refine (hbegins.began x path group hbegan).resolve_left fun hmem => ?_
  simpa [startOf] using hquiet.began _ _ _ hmem

/-- Where all is through that has begun, and no object that is validated for a group has an element that
keeps the group and converts one that it extends, what has begun for the group has begun for all that it
extends. -/
theorem begun_of_leadsTo (hthrough : ∀ x path g, .began (some x) path g ∈ q.journal →
      c.Through o q x g) {group : TypeName}
    (hdefault : group.isDefault → ∀ i, c.registry.LeadsTo group i → i = group)
    (hkeeps : ∀ x, Begun q x group → ∀ r ∈ c.references x, r.facet.converted group = group →
      ∀ i, c.registry.LeadsTo group i → r.facet.converted i = i)
    {x : ObjectId} (hx : Begun q x group) : ∀ i, c.registry.LeadsTo group i → Begun q x i := by
  have hcomes : c.Comes q group x := hx.elim fun path hbegan => (hthrough x path group hbegan).comes
  -- The induction is on the way that the group has been kept along, back to where it was expanded.
  induction hcomes with
  | whole hwhole =>
    intro i hi
    by_cases hgroup : group.isDefault
    · exact hdefault hgroup i hi ▸ hx
    · exact hwhole (by simpa using hgroup) i hi
  | kept _ hbegun hr hkept ih =>
    intro i hi
    obtain ⟨path', hbegan⟩ := ih hbegun i hi
    have hconverted := hkeeps _ hbegun _ hr hkept i hi
    exact hconverted ▸ (hthrough _ path' i hbegan).followed _ hr (.inr hconverted)

/-- A walk for a group leaves each constraint checked that belongs to the group, or another one of its
declaration. -/
theorem checked_where_walked (hfast : c.config.failFast = false) (hord : ∀ types, c.Ordinary types)
    (ho : o.processedConstraints = []) (hlogs : c.Logs c.Traced o q) {s : Subject} (hs : c.Knows s)
    {x : ObjectId} (hx : s.object = some x) {group : TypeName} (h : c.Walked o q s group)
    {b : BoundConstraint} (hb : b ∈ s.metadata.constraints) (ha : b.appliesTo group) :
    ∃ b' path g, b'.toOccurrence = b.toOccurrence ∧
      .checked (some x) path b' g (c.valueAt x b.location) ∈ q.journal := by
  obtain ⟨p₁, p₂, hp₁, hwalk, hp₁₂, hp₂⟩ := h
  obtain ⟨y, -, hm⟩ := hs.object
  have hstops := stops_eq_false_of_full hfast p₂
  obtain ⟨b', hb', hsame⟩ : ∃ b' ∈ c.demanded s group, b'.toOccurrence = b.toOccurrence := by
    unfold demanded
    split
    · next hdefault =>
      obtain rfl : group = TypeName.defaultGroup := by simpa [TypeName.isDefault] using hdefault
      obtain ⟨d, hd⟩ := Metadata.exists_declaration hm hb
      obtain ⟨b', hb', -, hsame⟩ := exists_mem_of_declaration hm
        (walkable_of_runGroup hwalk hstops hp₁.remembers) hb hd
      exact ⟨b', hb', hsame⟩
    · exact ⟨b, hb, rfl⟩
  have hsettled := runGroup_settles hwalk hstops hp₁.remembers (fun _ => .inr (hord _)) b' hb'
    ((BoundConstraint.appliesTo_congr hsame _).trans ha)
  obtain ⟨path, value, hplace⟩ := hs.exists_place (Metadata.location_of_mem hm hb)
  obtain ⟨g, he⟩ := checked_of_settled ho hlogs hp₁ hp₁₂ hp₂ hs hb' hsettled
    ((place_congr hsame).trans hplace)
  refine ⟨b', path, g, hsame, ?_⟩
  rw [hx, hs.value_eq hx hplace] at he
  exact List.mem_of_mem_drop he

end Call

namespace Validator

open Call

variable {v : Validator}

/-- Where a cascade of an object that is validated for a group goes on for a plain group, each constraint of
its target that belongs to the plain group or to one that this extends has been checked on the target by
the end of the call, if no object that is validated for the plain group has an element that keeps it and
converts one that it extends. -/
theorem validate_covers (hv : v.memory.Coherent v.registry v.config.methodRules)
    (htrack : v.config.trackProcessed) (hfast : v.config.failFast = false)
    (hredefinitions : v.registry.WithoutRedefinitions) {root : ObjectId} {gs : List TypeName}
    {vs : List Violation} (h : (v.validate root gs).answer = .ok vs) {x : ObjectId} {path : Path}
    {g group : TypeName} (hbegan : .began (some x) path g ∈ (v.validate root gs).journal)
    {r : Reference} (hr : r ∈ (v.callOn root).references x) (hconverts : r.facet.converted g = group)
    (hplain : Order.IsPlain v.registry group)
    (hdefault : group.isDefault → ∀ i, v.registry.LeadsTo group i → i = group)
    (hkeeps : ∀ y path, .began (some y) path group ∈ (v.validate root gs).journal →
      ∀ r ∈ (v.callOn root).references y, r.facet.converted group = group →
        ∀ i, v.registry.LeadsTo group i → r.facet.converted i = i) :
    ∃ m, (v.callOn root).Assembles (v.store.typeOf r.target) m ∧
      ∀ i, v.registry.LeadsTo group i → ∀ b ∈ m.constraints, b.appliesTo i →
        ∃ b' path g', b'.toOccurrence = b.toOccurrence ∧
          .checked (some r.target) path b' g' ((v.callOn root).valueAt r.target b.location) ∈
            (v.validate root gs).journal := by
  have hord := ordinary_of_withoutRedefinitions (c := v.callOn root) hredefinitions
  obtain ⟨q, hexec, hjournal⟩ := v.exec_validate root gs
  rw [h] at hexec
  rw [← hjournal] at hbegan hkeeps ⊢
  have hthrough : ∀ x path g, .began (some x) path g ∈ q.journal →
      (v.callOn root).Through (startOf v.memory root) q x g := fun _ _ _ hbegan =>
    validate_through (c := v.callOn root) hv htrack hfast hord hexec hbegan
  have htarget : Begun q r.target group := by
    subst hconverts
    exact (hthrough x path g hbegan).followed r hr (.inl hplain)
  have hbegun := begun_of_leadsTo hthrough hdefault
    (fun y hy => hy.elim fun path hbegan => hkeeps y path hbegan) htarget
  have hwalked : ∀ i, v.registry.LeadsTo group i → ∃ s, (v.callOn root).Knows s ∧
      s.object = some r.target ∧ (v.callOn root).Walked (startOf v.memory root) q s i := by
    intro i hi
    obtain ⟨path, hbegan⟩ := hbegun i hi
    exact (hthrough _ path i hbegan).walked
  obtain ⟨s, hs, hx, -⟩ := hwalked group .refl
  obtain ⟨y, hy, hm⟩ := hs.object
  obtain rfl : r.target = y := Option.some.inj (hx.symm.trans hy)
  refine ⟨s.metadata, hm, fun i hi b hb ha => ?_⟩
  obtain ⟨s', hs', hx', hwalk⟩ := hwalked i hi
  obtain ⟨y', hy', hm'⟩ := hs'.object
  obtain rfl : r.target = y' := Option.some.inj (hx'.symm.trans hy')
  have hsame : s'.metadata = s.metadata := hm'.unique hm
  exact checked_where_walked hfast hord rfl (logs_validate (c := v.callOn root) hv.metadata hexec) hs' hx'
    hwalk (hsame ▸ hb) ha

/-- A crate with a label that lacks its text, which a group demands that another one extends. -/
def crated (conversions : List Conversion) : Validator where
  registry := [
    { name := ⟨"Early"⟩, kind := .interface },
    { name := ⟨"Late"⟩, kind := .interface, interfaces := [⟨"Early"⟩] },
    { name := ⟨"First"⟩, kind := .interface },
    { name := ⟨"Other"⟩, kind := .interface },
    { name := ⟨"Label"⟩, kind := .concrete, fields := [
      ⟨"text", { own := { constraints := [{ kind := "NotNull", groups := [⟨"Early"⟩] }] } }⟩] },
    { name := ⟨"Crate"⟩, kind := .concrete,
      fields := [⟨"label", { own := { cascading := true, conversions } }⟩] : TypeDefinition }
    ].foldl Registry.register .initial
  evaluators := Standard.evaluators
  config := {}
  store := ⟨[(⟨"crate"⟩, ⟨⟨"Crate"⟩, [("label", .object ⟨"label"⟩)]⟩), (⟨"label"⟩, ⟨⟨"Label"⟩, []⟩)]⟩
  memory := {}

namespace crated

/-- The first group is converted to the late one. -/
def onlyFirst : List Conversion := [⟨⟨"First"⟩, ⟨"Late"⟩⟩]

/-- So is the group that the late one extends, to another one. -/
def alsoEarly : List Conversion := [⟨⟨"First"⟩, ⟨"Late"⟩⟩, ⟨⟨"Early"⟩, ⟨"Other"⟩⟩]

/-- The call that validates a crate. -/
abbrev call (conversions : List Conversion) : Call := (crated conversions).callOn ⟨"crate"⟩

/-- The validation of a crate for the late group and for the first one. -/
def report (conversions : List Conversion) : Report (List Violation) :=
  (crated conversions).validate ⟨"crate"⟩ [⟨"Late"⟩, ⟨"First"⟩]

/-- Whether an event begins no object that refers to another one by converting the groups. -/
def keeps (conversions : List Conversion) (groups : List TypeName) : Event → Bool
  | .began (some y) _ _ => ((call conversions).references y).all fun r =>
      groups.all fun i => r.facet.converted i = i
  | _ => true

/-- Whether an event is a check of the label. -/
def checksLabel : Event → Bool
  | .checked (some y) _ _ _ _ => y = ⟨"label"⟩
  | _ => false

theorem leadsTo_iff {conversions : List Conversion}
    (h : ((crated conversions).registry.superInterfaces ⟨"Late"⟩).toOption = some [⟨"Early"⟩])
    (i : TypeName) :
    (crated conversions).registry.LeadsTo ⟨"Late"⟩ i ↔ i ∈ [(⟨"Late"⟩ : TypeName), ⟨"Early"⟩] :=
  (Registry.mem_superInterfaces (toOption_eq_some h) i).symm

theorem began_first {conversions : List Conversion}
    (h : (report conversions).journal.any (·.isBeginAt ⟨"crate"⟩ .root ⟨"First"⟩)) :
    .began (some ⟨"crate"⟩) .root ⟨"First"⟩ ∈ (report conversions).journal := by
  obtain ⟨e, he, hbegan⟩ := List.any_eq_true.1 h
  exact Event.isBeginAt_iff.1 hbegan ▸ he

end crated

/-- If nothing else is converted, what the early group demands is checked on the label, although the
label has been validated for the late group by itself before. -/
theorem validate_covers_crated :
    ∃ m, (crated.call crated.onlyFirst).Assembles ⟨"Label"⟩ m ∧
      (∃ b ∈ m.constraints, b.appliesTo ⟨"Early"⟩) ∧
      ∀ b ∈ m.constraints, b.appliesTo ⟨"Early"⟩ →
        ∃ b' path g, b'.toOccurrence = b.toOccurrence ∧
          .checked (some ⟨"label"⟩) path b' g
            ((crated.call crated.onlyFirst).valueAt ⟨"label"⟩ b.location) ∈
              (crated.report crated.onlyFirst).journal := by
  have hleads := @crated.leadsTo_iff crated.onlyFirst (by decide +kernel)
  have hanswer : (crated.report crated.onlyFirst).answer.toOption.isSome := by decide +kernel
  obtain ⟨vs, hvs⟩ := Option.isSome_iff_exists.1 hanswer
  have hkept : (crated.report crated.onlyFirst).journal.all
      (crated.keeps crated.onlyFirst [⟨"Late"⟩, ⟨"Early"⟩]) := by
    decide +kernel
  have hdemands : ∃ m ∈ (Metadata.assemble (crated crated.onlyFirst).registry
      (crated crated.onlyFirst).config.methodRules ⟨"Label"⟩).toOption,
      ∃ b ∈ m.constraints, b.appliesTo ⟨"Early"⟩ := by
    decide +kernel
  obtain ⟨r, hr, htarget, hconverts⟩ : ∃ r ∈ (crated.call crated.onlyFirst).references ⟨"crate"⟩,
      r.target = ⟨"label"⟩ ∧ r.facet.converted ⟨"First"⟩ = ⟨"Late"⟩ := by
    decide +kernel
  obtain ⟨m, hm, hcovers⟩ := validate_covers (v := crated crated.onlyFirst) (Memory.coherent_empty _ _)
    rfl rfl (by decide +kernel) (toOption_eq_some hvs) (crated.began_first (by decide +kernel)) hr
    hconverts (by decide +kernel) (fun hdefault => absurd hdefault (by decide))
    fun y path hy r hr _ i hi => by
      have hkeeps : ∀ r ∈ (crated.call crated.onlyFirst).references y,
          ∀ i ∈ [(⟨"Late"⟩ : TypeName), ⟨"Early"⟩], r.facet.converted i = i := by
        simpa [crated.keeps] using List.all_eq_true.1 hkept _ hy
      exact hkeeps r hr i ((hleads i).1 hi)
  rw [htarget] at hm hcovers
  obtain ⟨m', hm', hb⟩ := hdemands
  obtain rfl := hm.unique (toOption_eq_some hm')
  exact ⟨m, hm, hb, hcovers _ ((hleads _).2 (by decide))⟩

/-- If the early group is converted too, the label comes to be validated for the late group by itself,
and nothing checks what the early group demands, although the first group is converted to one that
extends it. -/
theorem inherited_group_left_out :
    (crated crated.alsoEarly).registry.WithoutRedefinitions ∧
    (∀ g ∈ [(⟨"Late"⟩ : TypeName), ⟨"First"⟩], Order.IsPlain (crated crated.alsoEarly).registry g) ∧
    (crated.report crated.alsoEarly).answer = .ok [] ∧
    .began (some ⟨"crate"⟩) .root ⟨"First"⟩ ∈ (crated.report crated.alsoEarly).journal ∧
    (∃ r ∈ (crated.call crated.alsoEarly).references ⟨"crate"⟩,
      r.target = ⟨"label"⟩ ∧ r.facet.converted ⟨"First"⟩ = ⟨"Late"⟩) ∧
    (crated crated.alsoEarly).registry.LeadsTo ⟨"Late"⟩ ⟨"Early"⟩ ∧
    (∃ m, (crated.call crated.alsoEarly).Assembles ⟨"Label"⟩ m ∧
      ∃ b ∈ m.constraints, b.appliesTo ⟨"Early"⟩) ∧
    ∀ path b g value, .checked (some ⟨"label"⟩) path b g value ∉
      (crated.report crated.alsoEarly).journal := by
  obtain ⟨vs, hvs, hempty⟩ : ∃ vs ∈ (crated.report crated.alsoEarly).answer.toOption, vs.length = 0 := by
    decide +kernel
  obtain rfl := List.length_eq_zero_iff.1 hempty
  have hdemands : ∃ m ∈ (Metadata.assemble (crated crated.alsoEarly).registry
      (crated crated.alsoEarly).config.methodRules ⟨"Label"⟩).toOption,
      ∃ b ∈ m.constraints, b.appliesTo ⟨"Early"⟩ := by
    decide +kernel
  have hnone : (crated.report crated.alsoEarly).journal.all fun e => !crated.checksLabel e := by
    decide +kernel
  obtain ⟨m, hm, hb⟩ := hdemands
  refine ⟨by decide +kernel, by decide +kernel, toOption_eq_some hvs,
    crated.began_first (by decide +kernel), by decide +kernel,
    (crated.leadsTo_iff (by decide +kernel) _).2 (by decide),
    ⟨m, toOption_eq_some hm, hb⟩, fun path b g value hchecked => ?_⟩
  have hlabel := List.all_eq_true.1 hnone _ hchecked
  simp [crated.checksLabel] at hlabel

end Validator

end ObjectValidation
