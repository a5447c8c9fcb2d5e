import ObjectValidation.Proofs.Operations
import ObjectValidation.Proofs.Outcome
/-!
# What a mark stands for

An object that is marked as validated for a group is passed over by cascades for that group. `Sound` is
the invariant of calls that says what the mark stands for: all constraints of the group that the type
of the object has have been checked, or those that a superclass brings whose redefined default group
runs for the object (`Earned`). It holds in every state that a call can come to (`ComesTo`), between
any two of its checks.

In the second case the mark claims too much, for the superclass knows nothing of the constraints that
the type of the object adds.
-/

namespace ObjectValidation

open Run

/-- Whether constraints at a location are of instances, and not of executables. -/
def Location.OfInstances (l : Location) : Prop := l = .self ∨ ∃ name, l = .property name

namespace Call

variable (c : Call)

/-- Whether a value is the one that a constraint at a location of an object applies to. -/
def Reads (object : Option ObjectId) (l : Location) (value : Value) : Prop :=
  ∀ x, object = some x → l.OfInstances → value = c.valueAt x l

/-- Whether a journal tells that a constraint was checked on the value that it applies to of an
object. -/
def CheckedOn (x : ObjectId) (j : List Event) (b : BoundConstraint) : Prop :=
  ∃ path group, .checked (some x) path b group (c.valueAt x b.location) ∈ j

/-- The first type of a walk that redefines its default group, and the constraints it brings. -/
def governing (covered : List TypeName) : List TypeName → Option (TypeName × List BoundConstraint)
  | [] => none
  | type :: above =>
    match Metadata.assemble c.registry c.config.methodRules type with
    | .error _ => none
    | .ok m =>
      if m.redefinesDefault then some (type, uncovered covered m.constraints)
      else governing (covered ++ interfacesOf m.directConstraints) above

/-- Whether an object is marked for groups once constraints have been checked on it: all constraints
of its type, or those that a type above brings which redefines its default group. -/
inductive Brings (m : Metadata) : List BoundConstraint → Prop
  | own : Brings m m.constraints
  | above {host : TypeName} {bs : List BoundConstraint} :
    c.governing [] m.hierarchy = some (host, bs) → host ≠ m.type → Brings m bs

variable (L : Location → Prop)

/-- Whether all constraints of a list that belong to a group, and count, have been checked on an
object. -/
def AllChecked (bs : List BoundConstraint) (g : TypeName) (x : ObjectId) (j : List Event) : Prop :=
  ∀ b ∈ bs, b.appliesTo g → L b.location → c.CheckedOn x j b

/-- What it takes to be marked for a group. -/
def Earned (g : TypeName) (x : ObjectId) (j : List Event) : Prop :=
  ∀ m, c.Assembles (c.store.typeOf x) m → ∃ bs, c.Brings m bs ∧ c.AllChecked L bs g x j

/-- The invariant of calls. -/
structure Sound (p : Progress) : Prop where
  coherent : c.Coherent p
  /-- What is done has been checked. -/
  done : ∀ mark ∈ p.processedConstraints,
    ∃ b g value, .checked mark.1 mark.2.1 b g value ∈ p.journal ∧ b.key = mark.2.2
  checks : ∀ object path b g value, .checked object path b g value ∈ p.journal →
    c.Owns b ∧ c.Reads object b.location value
  marks : ∀ x g, (some x, g) ∈ p.processedGroups → g.isDefault = false → c.Earned L g x p.journal

/-- Whether a subject is one that a call looks at where locations of `L` count. -/
structure LooksAt (s : Subject) : Prop where
  assembled : ∃ type, c.Assembles type s.metadata ∧ ∀ x, s.object = some x → type = c.store.typeOf x
  included : ∀ l, L l → s.includes l
  reads : ∀ b path value, s.place c.store b = some (path, value) → c.Reads s.object b.location value

/-- The states that a call can come to, by the smallest steps that it is made of. -/
inductive ComesTo (memory : Memory) : Progress → Prop
  | start : ComesTo memory (c.start memory)
  | metadata {p : Progress} (type : TypeName) :
    ComesTo memory p → ComesTo memory ((c.metadataOf type).exec p).2
  | expand {p : Progress} {α : Type} (x : Expanding α) :
    ComesTo memory p → ComesTo memory ((Run.expanding x).exec p).2
  | meaning {p : Progress} (object : Option ObjectId) (m : Metadata) :
    ComesTo memory p → ComesTo memory ((c.defaultMeaning object m).exec p).2
  | chain {p : Progress} (chain : List ObjectId) : ComesTo memory p → ComesTo memory { p with chain }
  | begin {p : Progress} {s : Subject} (group : TypeName) : c.LooksAt L s → ComesTo memory p →
    ComesTo memory { p with journal := p.journal ++ [.began s.object s.path group] }
  | check {p : Progress} {s : Subject} {b : BoundConstraint} {value : Value} (group : TypeName)
    (path : Path) : c.Owns b → c.Reads s.object b.location value → ComesTo memory p →
    ComesTo memory ((c.checkConstraint s group value path b).exec p).2
  /-- Checks that are followed by a mark, unless the call is to end. -/
  | settle {p : Progress} {s : Subject} {bs : List BoundConstraint} (group : TypeName) :
    c.LooksAt L s → c.Brings s.metadata bs → ComesTo memory p →
    ComesTo memory ((c.checkGroup s bs group).exec p).2
  | default {p : Progress} {s : Subject} : c.LooksAt L s → ComesTo memory p →
    ComesTo memory ((c.markProcessed s TypeName.defaultGroup).exec p).2

variable {c L}

theorem CheckedOn.mono {x : ObjectId} {j j' : List Event} {b : BoundConstraint}
    (h : c.CheckedOn x j b) (hj : j <+: j') : c.CheckedOn x j' b :=
  h.imp fun _ h => h.imp fun _ h => hj.subset h

theorem Earned.mono {g : TypeName} {x : ObjectId} {j j' : List Event} (h : c.Earned L g x j)
    (hj : j <+: j') : c.Earned L g x j' := by
  intro m hm
  obtain ⟨bs, hbs, hall⟩ := h m hm
  exact ⟨bs, hbs, fun b hb ha hl => (hall b hb ha hl).mono hj⟩

theorem Knows.looksAt {s : Subject} (hs : c.Knows s) : c.LooksAt L s where
  assembled := by
    obtain ⟨x, hx, hm⟩ := hs.object
    refine ⟨_, hm, fun y hy => ?_⟩
    rw [hx] at hy
    cases hy
    rfl
  included := by simp [Subject.includes, hs.whole]
  reads _ _ _ hplace _ hx _ := hs.value_eq hx hplace

theorem LooksAt.exists_place {s : Subject} (hs : c.LooksAt L s) {b : BoundConstraint}
    (hl : L b.location) (hb : b.location.OfInstances) :
    ∃ path value, s.place c.store b = some (path, value) := by
  unfold Subject.place
  rw [if_pos (hs.included _ hl)]
  rcases hb with hb | ⟨name, hb⟩ <;> simp [hb]

/-! ### The constraints of a subject -/

theorem governing_redefined {type : TypeName} {above covered : List TypeName} {m : Metadata}
    (hm : c.Assembles type m) (hr : m.redefinesDefault) :
    c.governing covered (type :: above) = some (type, uncovered covered m.constraints) := by
  unfold Assembles at hm
  simp [governing, hm, hr]

theorem governing_ordinary {type : TypeName} {above covered : List TypeName} {m : Metadata}
    (hm : c.Assembles type m) (hr : m.redefinesDefault = false) :
    c.governing covered (type :: above) =
      c.governing (covered ++ interfacesOf m.directConstraints) above := by
  unfold Assembles at hm
  simp [governing, hm, hr]

/-- The constraints that a type of a walk brings are those of some metadata. -/
theorem exists_of_governing {host : TypeName} {bs : List BoundConstraint} :
    ∀ {types covered : List TypeName}, c.governing covered types = some (host, bs) →
    ∃ m, c.Assembles host m ∧ bs ⊆ m.constraints
  | [], _, h => by simp [governing] at h
  | type :: above, covered, h => by
    cases ha : Metadata.assemble c.registry c.config.methodRules type with
    | error e => simp [governing, ha] at h
    | ok m =>
      cases hr : m.redefinesDefault with
      | true =>
        rw [governing_redefined ha hr] at h
        cases h
        exact ⟨m, ha, fun _ => mem_of_mem_uncovered⟩
      | false =>
        rw [governing_ordinary ha hr] at h
        exact exists_of_governing h

theorem Brings.exists_subset {m : Metadata} {bs : List BoundConstraint} (h : c.Brings m bs)
    {type : TypeName} (hm : c.Assembles type m) :
    ∃ type' m', c.Assembles type' m' ∧ bs ⊆ m'.constraints := by
  cases h with
  | own => exact ⟨type, m, hm, List.Subset.refl _⟩
  | above hhost _ => exact ⟨_, exists_of_governing hhost⟩

/-- What is brought for a subject are constraints on instances that are known to the call. -/
theorem LooksAt.brings {s : Subject} (hs : c.LooksAt L s) {bs : List BoundConstraint}
    (h : c.Brings s.metadata bs) {b : BoundConstraint} (hb : b ∈ bs) :
    c.Owns b ∧ b.location.OfInstances := by
  obtain ⟨type, hm, -⟩ := hs.assembled
  obtain ⟨type', m, hm', hsub⟩ := h.exists_subset hm
  exact ⟨owns_of_mem hm' (m.constraints_subset (hsub hb)), Metadata.location_of_mem hm' (hsub hb)⟩

theorem LooksAt.earned {s : Subject} (hs : c.LooksAt L s) {bs : List BoundConstraint}
    (h : c.Brings s.metadata bs) {x : ObjectId} (hx : s.object = some x) {g : TypeName}
    {j : List Event} (hall : c.AllChecked L bs g x j) : c.Earned L g x j := by
  intro m hm
  obtain ⟨type, hs, htype⟩ := hs.assembled
  obtain rfl := hs.unique (htype x hx ▸ hm)
  exact ⟨bs, h, hall⟩

/-! ### What the steps of a call keep -/

theorem Sound.append {p : Progress} (h : c.Sound L p) {e : Event}
    (he : ∀ object path b g value, e = .checked object path b g value →
      c.Owns b ∧ c.Reads object b.location value) :
    c.Sound L { p with journal := p.journal ++ [e] } where
  coherent := h.coherent
  done mark hmark := by
    obtain ⟨b, g, value, hmem, hk⟩ := h.done mark hmark
    exact ⟨b, g, value, List.mem_append_left _ hmem, hk⟩
  checks object path b g value hmem := by
    rcases List.mem_append.1 hmem with hmem | hmem
    · exact h.checks object path b g value hmem
    · exact he object path b g value (List.mem_singleton.1 hmem).symm
  marks x g hmem hg := (h.marks x g hmem hg).mono (List.prefix_append _ _)

theorem sound_checkConstraint {s : Subject} {group : TypeName} {value : Value} {path : Path}
    {b : BoundConstraint} (hb : c.Owns b) (hv : c.Reads s.object b.location value) :
    Keeps (c.checkConstraint s group value path b) (c.Sound L) := by
  refine meets_checkConstraint (fun _ _ => id) ?_ ?_
    (fun p _ hp => ⟨hp.coherent, hp.done, hp.checks, hp.marks⟩) ?_
  · intro _ p hp
    refine hp.append ?_
    rintro _ _ _ _ _ ⟨⟩
    exact ⟨hb, hv⟩
  · intro p e he hp
    refine hp.append ?_
    rintro _ _ _ _ _ rfl
    cases he
  · intro p hp hmem
    refine ⟨hp.coherent, fun mark hmark => ?_, hp.checks, hp.marks⟩
    rcases List.mem_cons.1 hmark with rfl | hmark
    · exact ⟨b, group, value, hmem, rfl⟩
    · exact hp.done mark hmark

theorem sound_metadataOf (type : TypeName) :
    Meets (c.metadataOf type) (c.Sound L) (c.Assembles type) fun _ => c.Sound L :=
  meets_metadataOf (fun _ hp => hp.coherent) (fun _ _ => id)
    (fun _ _ hcache hp => ⟨hcache, hp.done, hp.checks, hp.marks⟩) type

theorem sound_expanding {α : Type} (x : Expanding α) : Keeps (Run.expanding x) (c.Sound L) :=
  meets_expanding (fun _ _ => id) (fun _ _ hp => ⟨hp.coherent, hp.done, hp.checks, hp.marks⟩) x

theorem sound_defaultMeaning (object : Option ObjectId) (m : Metadata) :
    Keeps (c.defaultMeaning object m) (c.Sound L) :=
  meets_defaultMeaning (fun _ _ => id) (fun _ _ _ hp => hp.append (by simp))
    (fun _ _ hp => ⟨hp.coherent, hp.done, hp.checks, hp.marks⟩) object m

theorem Sound.mark {s : Subject} {g : TypeName} {p q : Progress} (h : c.Sound L p)
    (hm : c.Marks s g p q)
    (hg : ∀ x, s.object = some x → g.isDefault = false → c.Earned L g x p.journal) :
    c.Sound L q where
  coherent := by
    have hcoherent := h.coherent
    unfold Coherent at hcoherent ⊢
    rwa [hm.memory]
  done := hm.constraints ▸ hm.journal ▸ h.done
  checks := hm.journal ▸ h.checks
  marks x g' hmem hg' := by
    rw [hm.journal]
    rcases hm.groups _ hmem with hmem | heq
    · exact h.marks x g' hmem hg'
    · obtain ⟨hx, rfl⟩ := Prod.mk.inj heq
      exact hg x hx.symm hg'

section

variable {s : Subject} {bs : List BoundConstraint} (hs : c.LooksAt L s)
  (hbs : c.Brings s.metadata bs)

include hs hbs

theorem sound_checkAll (g : TypeName) : Keeps (c.checkAll s bs g) (c.Sound L) := by
  refine meets_allHold fun b hb => meets_checkBound_of fun path value hplace => ?_
  exact sound_checkConstraint (hs.brings hbs hb).1 (hs.reads b path value hplace)

/-- Behind checks that have come to their end each constraint has been checked, now or before. -/
theorem Sound.allChecked {g : TypeName} {p q : Progress} {holds : Bool} (hp : c.Sound L p)
    (h : (c.checkAll s bs g).exec p = (.ok holds, q)) (hq : c.stops q = false) {x : ObjectId}
    (hx : s.object = some x) : c.AllChecked L bs g x q.journal := by
  have hsq := (sound_checkAll hs hbs g).kept h hp
  have hcovers := checkAll_covers h hq
  -- A check of a constraint with the same number was one of this constraint.
  have hsame : ∀ {b b' : BoundConstraint} {path g' value}, b ∈ bs →
      .checked (some x) path b' g' value ∈ q.journal → b'.key = b.key → c.CheckedOn x q.journal b := by
    intro b b' path g' value hb hmem hk
    obtain ⟨howns, hreads⟩ := hsq.checks _ _ _ _ _ hmem
    obtain rfl := howns.eq_of_key_eq (hs.brings hbs hb).1 hk
    obtain rfl := hreads x rfl (hs.brings hbs hb).2
    exact ⟨path, g', hmem⟩
  intro b hb ha hl
  obtain ⟨path, value, hplace⟩ := hs.exists_place hl (hs.brings hbs hb).2
  rcases hx ▸ hcovers.settled g (List.mem_singleton.2 rfl) b hb ha path value hplace with
    ⟨g', hmem⟩ | ⟨-, hmark | ⟨b', g', value', hmem, hk⟩⟩
  · exact hsame hb (List.mem_of_mem_drop hmem) rfl
  · obtain ⟨b', g', value', hmem, hk⟩ := hp.done _ hmark
    exact hsame hb (hcovers.journal.subset hmem) hk
  · exact hsame hb (List.mem_of_mem_drop hmem) hk

/-- Checks that are followed by a mark earn it. -/
theorem sound_checkGroup (g : TypeName) : Keeps (c.checkGroup s bs g) (c.Sound L) := by
  intro p hp
  have hall := sound_checkAll hs hbs g p hp
  unfold Call.checkGroup
  simp only [exec_bind, exec_isStopped]
  cases c.stops p with
  | true => exact ⟨hp, trivial⟩
  | false =>
    simp only [Bool.false_eq_true, if_false, exec_bind]
    cases hexec : (c.checkAll s bs g).exec p with
    | mk a q =>
      rw [hexec] at hall
      cases a with
      | error e => exact hall
      | ok holds =>
        simp only [exec_isStopped]
        cases hq : c.stops q with
        | true => exact ⟨hall.1, trivial⟩
        | false =>
          obtain ⟨r, hr, hm⟩ := exec_markProcessed (c := c) s g q
          simp only [Bool.false_eq_true, if_false, exec_bind, hr]
          refine ⟨hall.1.mark hm fun x hx _ => hs.earned hbs hx ?_, trivial⟩
          exact hp.allChecked hs hbs hexec hq hx

end

/-! ### Calls stay within the states they can come to -/

section

variable {memory : Memory}

theorem comesTo_checkAll {s : Subject} (hs : c.LooksAt L s) {bs : List BoundConstraint}
    (hbs : ∀ b ∈ bs, c.Owns b) (g : TypeName) :
    Keeps (c.checkAll s bs g) (c.ComesTo L memory) := by
  refine meets_allHold fun b hb => meets_checkBound_of fun path value hplace => ?_
  exact keeps_of_ends fun p => .check g path (hbs b hb) (hs.reads b path value hplace)

theorem comesTo_checkPosition {s : Subject} (hs : c.LooksAt L s) {bs : List BoundConstraint}
    (hbs : c.Brings s.metadata bs) : ∀ position,
    Keeps (c.checkPosition s bs position) (c.ComesTo L memory)
  | [] => .pure trivial
  | g :: rest => (keeps_of_ends fun _ => .settle g.name hs hbs).next fun _ =>
    (comesTo_checkPosition hs hbs rest).next fun _ => .pure trivial

theorem comesTo_checkPositions {s : Subject} (hs : c.LooksAt L s) {bs : List BoundConstraint}
    (hbs : c.Brings s.metadata bs) : ∀ positions,
    Keeps (c.checkPositions s bs positions) (c.ComesTo L memory)
  | [] => .unit
  | position :: rest => (comesTo_checkPosition hs hbs position).next fun _ =>
    .ite (comesTo_checkPositions hs hbs rest) .unit

theorem comesTo_runRedefined {s : Subject} (hs : c.LooksAt L s) {bs : List BoundConstraint}
    (hbs : c.Brings s.metadata bs) (m : Metadata) :
    Keeps (c.runRedefined s m bs) (c.ComesTo L memory) :=
  (keeps_of_ends fun _ => .meaning s.object m).next fun _ =>
    (meets_each fun q _ => comesTo_checkPositions hs hbs q.positions).next fun _ =>
      meets_isStopped.next fun _ => .ite .unit (keeps_of_ends fun _ => .default hs)

/-- Checks with a mark behind them end alike, whether or not it is told that they hold. -/
theorem exec_checkAll_mark (s : Subject) (bs : List BoundConstraint) (g : TypeName) (p : Progress) :
    ((do
      let _ ← c.checkAll s bs g
      unless ← c.isStopped do c.markProcessed s g : Run Unit).exec p).2 =
      ((c.checkGroup s bs g).exec p).2 := by
  unfold Call.checkGroup
  simp only [exec_bind, exec_isStopped]
  cases hp : c.stops p with
  | true =>
    rw [checkAll, exec_allHold_of_stops hp]
    simp [hp]
  | false =>
    simp only [Bool.false_eq_true, if_false, exec_bind]
    cases (c.checkAll s bs g).exec p with
    | mk a q =>
      cases a with
      | error e => rfl
      | ok holds =>
        obtain ⟨r, hr, -⟩ := exec_markProcessed (c := c) s g q
        simp only [exec_isStopped]
        cases c.stops q with
        | true => rfl
        | false => simp only [Bool.false_eq_true, if_false, exec_bind, hr, exec_pure]

end

section

variable {memory : Memory} (hmemory : memory.metadata.Coherent c.registry c.config.methodRules)

include hmemory

/-- The invariant holds in all states that a call can come to. -/
theorem ComesTo.sound {p : Progress} (h : c.ComesTo L memory p) : c.Sound L p := by
  induction h with
  | start => exact ⟨hmemory, by simp [Call.start], by simp [Call.start], by simp [Call.start]⟩
  | metadata type _ ih => exact (sound_metadataOf type).ends ih
  | expand x _ ih => exact (sound_expanding x).ends ih
  | meaning object m _ ih => exact (sound_defaultMeaning object m).ends ih
  | chain chain _ ih => exact ⟨ih.coherent, ih.done, ih.checks, ih.marks⟩
  | begin group _ _ ih => exact ih.append (by simp)
  | check group path hb hv _ ih => exact (sound_checkConstraint hb hv).ends ih
  | settle group hs hbs _ ih => exact (sound_checkGroup hs hbs group).ends ih
  | @default p s _ _ ih =>
    obtain ⟨q, hq, hm⟩ := exec_markProcessed (c := c) s TypeName.defaultGroup p
    rw [hq]
    exact ih.mark hm fun _ _ hg => (by cases hg)

theorem comesTo_metadataOf (type : TypeName) :
    Meets (c.metadataOf type) (c.ComesTo L memory) (c.Assembles type) fun _ =>
      c.ComesTo L memory := by
  have hkept : Keeps (c.metadataOf type) (c.ComesTo L memory) :=
    keeps_of_ends fun p hp => hp.metadata type
  exact .of_exec (fun p m q hp hexec =>
    ⟨hkept.kept hexec hp, (sound_metadataOf type).answer hexec (hp.sound hmemory)⟩)
    fun p halt q hp hexec => hkept.halt hexec hp

/-- Along a hierarchy, marks for other groups than the default group are made by the type that governs
the hierarchy, be it the type of the object or one above it. -/
theorem comesTo_runHierarchy {s : Subject} (hs : c.LooksAt L s) : ∀ (types covered : List TypeName),
    c.governing covered types = c.governing [] s.metadata.hierarchy →
    (s.metadata.redefinesDefault = false ∨ (covered = [] ∧ types.head? = some s.metadata.type)) →
    Keeps (c.runHierarchy s covered types) (c.ComesTo L memory)
  | [], _, _, _ => .unit
  | type :: above, covered, hgoverning, hown => by
    obtain ⟨own, hassembled, -⟩ := hs.assembled
    obtain rfl := (Metadata.sources hassembled).1
    unfold Call.runHierarchy
    refine (comesTo_metadataOf hmemory type).bind fun m hm => ?_
    split
    · next hr =>
      refine comesTo_runRedefined hs ?_ m
      rw [governing_redefined hm hr] at hgoverning
      by_cases htype : type = s.metadata.type
      · subst htype
        obtain rfl := hassembled.unique hm
        obtain ⟨rfl, -⟩ := hown.resolve_left (by simp [hr])
        rw [uncovered_nil]
        exact .own
      · exact .above hgoverning.symm htype
    · next hr =>
      have hr : m.redefinesDefault = false := by simpa using hr
      rw [governing_ordinary hm hr] at hgoverning
      have hordinary : s.metadata.redefinesDefault = false := by
        rcases hown with hown | ⟨-, htype⟩
        · exact hown
        · obtain rfl : type = s.metadata.type := Option.some.inj htype
          exact hassembled.unique hm ▸ hr
      have howns : ∀ b ∈ uncovered covered m.directConstraints, c.Owns b := fun b hb =>
        owns_of_mem hm (m.constraints_subset (List.mem_filter.1 (mem_of_mem_uncovered hb)).1)
      refine (comesTo_checkAll hs howns _).next fun _ => meets_isStopped.next fun _ => .ite .unit ?_
      exact (keeps_of_ends fun _ => .default hs).next fun _ =>
        comesTo_runHierarchy hs above _ hgoverning (.inl hordinary)

theorem comesTo_runGroup {s : Subject} (hs : c.LooksAt L s) (group : TypeName) :
    Keeps (c.runGroup s group) (c.ComesTo L memory) := by
  obtain ⟨type, hm, -⟩ := hs.assembled
  refine Meets.behind (fun p hp => hp.begin group hs) ?_ fun _ => id
  refine .ite (comesTo_runHierarchy hmemory hs _ [] rfl (.inr ⟨rfl, ?_⟩)) ?_
  · obtain ⟨rfl, own, definitions, elements, hsources⟩ := Metadata.sources hm
    obtain ⟨d, classes, rest, -, -, hnames, -⟩ := Registry.hierarchy_ok hsources.hierarchy_eq
    rw [hnames]
    rfl
  · refine keeps_of_ends fun p hp => ?_
    rw [exec_checkAll_mark]
    exact hp.settle group hs .own

theorem comesTo_cascades : KeptByCascades c (c.ComesTo L memory) fun _ => c.ComesTo L memory where
  failed _ _ := id
  exhausted _ := id
  metadata := comesTo_metadataOf hmemory
  meaning object _ m _ := keeps_of_ends fun _ => .meaning object m
  expand x := keeps_of_ends fun _ => .expand x
  chain _ chain hp := hp.chain chain
  halted _ _ chain hp := hp.chain chain
  group _ g hs := comesTo_runGroup hmemory hs.looksAt g

end

end Call

/-- The locations at which an operation looks. -/
def Operation.looksAt : Operation → Location → Prop
  | .property _ text _, l => ∃ path name, Path.read text = .ok path ∧
    path.nodes.getLast?.bind (·.name) = some name ∧ l = .property name
  | .value _ name _ _, l => l = .property name
  | _, _ => True

namespace Call

variable {c : Call}

theorem looksAt_of_startsAt {op : Operation} {s : Subject} (hs : op.StartsAt c s) :
    c.LooksAt op.looksAt s := by
  cases hs with
  | object hm => exact Knows.looksAt ⟨⟨_, rfl, hm⟩, rfl⟩
  | property hread hname hm =>
    refine ⟨⟨_, hm, fun x hx => Option.some.inj hx ▸ rfl⟩, ?_, ?_⟩
    · rintro l ⟨read', name', hread', hname', rfl⟩
      obtain rfl := Except.ok.inj (hread.symm.trans hread')
      obtain rfl := Option.some.inj (hname.symm.trans hname')
      simp [Subject.includes]
    · exact fun b path value hplace x hx _ => value_eq_of_place hx (by simp) hplace
  | value hm =>
    refine ⟨⟨_, hm, fun x hx => by cases hx⟩, ?_, fun _ _ _ _ x hx => by cases hx⟩
    rintro l rfl
    simp [Subject.includes]

/-- An operation stays within the states that its call can come to. -/
theorem comesTo_operation {memory : Memory}
    (hmemory : memory.metadata.Coherent c.registry c.config.methodRules) (op : Operation) :
    KeptByOperation c op (c.ComesTo op.looksAt memory) fun _ => c.ComesTo op.looksAt memory where
  toKeptByCascades := comesTo_cascades hmemory
  start _ g hs := comesTo_runGroup hmemory (looksAt_of_startsAt hs) g
  -- What an executable demands it demands of no instance.
  executable _ _ hm e he _ hb g _ path := keeps_of_ends fun _ => .check g path
    (owns_of_mem hm (List.mem_append_right _ (List.mem_flatMap.2 ⟨e, he, hb⟩)))
    fun _ _ hl => absurd hl (Metadata.location_of_mem_executable hm he hb)

end Call

/-- Whether the event is that a constraint at a location of an object was checked. -/
def Event.isCheckOf (object : ObjectId) (l : Location) : Event → Bool
  | .checked o _ b _ _ => o = some object && b.location = l
  | _ => false

theorem Call.CheckedOn.any_isCheckOf {c : Call} {x : ObjectId} {j : List Event}
    {b : BoundConstraint} (h : c.CheckedOn x j b) : j.any (Event.isCheckOf x b.location) := by
  obtain ⟨path, group, hmem⟩ := h
  exact List.any_eq_true.2 ⟨_, hmem, by simp [Event.isCheckOf]⟩

namespace Validator

open Call

/-- An operation leaves its call in one of the states that the call can come to. In each of them, an
object is marked for a group other than the default group only if all constraints of the group that
its type has, at the locations that the operation looks at, have been checked on it, or a type above
its own redefines the default group in place of it, and those have been checked that the type above
brings. -/
theorem earned_of_marked (v : Validator) (hv : v.Coherent) (op : Operation) :
    let c := op.call v
    c.ComesTo op.looksAt v.memory ((op.body c).exec (c.start v.memory)).2 ∧
    ∀ p, c.ComesTo op.looksAt v.memory p → ∀ x g, (some x, g) ∈ p.processedGroups →
      g.isDefault = false → ∀ m, c.Assembles (v.store.typeOf x) m →
      c.AllChecked op.looksAt m.constraints g x p.journal ∨
      ∃ host bs, c.governing [] m.hierarchy = some (host, bs) ∧ host ≠ m.type ∧
        c.AllChecked op.looksAt bs g x p.journal := by
  intro c
  have hmemory : v.memory.metadata.Coherent c.registry c.config.methodRules := by
    cases op <;> exact hv
  refine ⟨(comesTo_operation hmemory op).body.ends .start, fun p hp x g hmark hg m hm => ?_⟩
  have htype : c.Assembles (c.store.typeOf x) m := by cases op <;> exact hm
  obtain ⟨bs, hbs, hall⟩ := (hp.sound hmemory).marks x g hmark hg m htype
  cases hbs with
  | own => exact .inl hall
  | above hhost hne => exact .inr ⟨_, bs, hhost, hne, hall⟩

/-- Objects of a class that redefines its default group, and of a class below it. -/
def inherited : Validator where
  registry := [
    { name := ⟨"A"⟩, kind := .interface },
    { name := ⟨"Super"⟩, kind := .concrete, sequence := some [⟨"A"⟩, ⟨"Super"⟩], fields := [
      ⟨"x", { own := { constraints := [{ kind := "NotNull", groups := [⟨"A"⟩] }] } }⟩] },
    { name := ⟨"Sub"⟩, kind := .concrete, superclass := some ⟨"Super"⟩, fields := [
      ⟨"y", { own := { constraints := [{ kind := "NotNull", groups := [⟨"A"⟩] }] } }⟩] },
    { name := ⟨"P"⟩, kind := .concrete, fields := [
      ⟨"child", { own := { cascading := true } }⟩] : TypeDefinition }
    ].foldl Registry.register .initial
  evaluators := Standard.evaluators
  config := {}
  store := ⟨[(⟨"p"⟩, ⟨⟨"P"⟩, [("child", .object ⟨"s"⟩)]⟩), (⟨"s"⟩, ⟨⟨"Sub"⟩, [("x", .str "")]⟩),
    (⟨"t"⟩, ⟨⟨"Super"⟩, [("x", .str "")]⟩)]⟩
  memory := {}

/-- The metadata of the classes. -/
def inheritedMetadata : Metadata × Metadata :=
  let assemble name := Metadata.assemble inherited.registry inherited.config.methodRules ⟨name⟩
  ((assemble "Super").toOption.get (by decide +kernel),
    (assemble "Sub").toOption.get (by decide +kernel))

/-- The default group of an object that is redefined by its own type marks it for the groups of the
sequence once their constraints have been checked. -/
theorem earned_of_marked_own :
    let op := Operation.object ⟨"t"⟩ []
    let c := op.call inherited
    let q := ((op.body c).exec (c.start inherited.memory)).2
    inherited.Coherent ∧ c.ComesTo op.looksAt inherited.memory q ∧
      (some ⟨"t"⟩, ⟨"A"⟩) ∈ q.processedGroups ∧
      ∃ b ∈ inheritedMetadata.1.constraints, b.appliesTo ⟨"A"⟩ ∧ c.CheckedOn ⟨"t"⟩ q.journal b := by
  intro op c q
  have hcoherent : inherited.Coherent := MetadataCache.coherent_nil _ _
  obtain ⟨hq, hearned⟩ := inherited.earned_of_marked hcoherent op
  have hmark : (some ⟨"t"⟩, ⟨"A"⟩) ∈ q.processedGroups := by decide +kernel
  have hm : c.Assembles ⟨"Super"⟩ inheritedMetadata.1 := toOption_eq_some (Option.some_get _).symm
  have hdemand : inheritedMetadata.1.constraints.any (·.appliesTo ⟨"A"⟩) = true := by decide +kernel
  obtain ⟨b, hb, ha⟩ := List.any_eq_true.1 hdemand
  have hgoverning : (c.governing [] inheritedMetadata.1.hierarchy).map (·.1) =
      some inheritedMetadata.1.type := by decide +kernel
  refine ⟨hcoherent, hq, hmark, b, hb, ha, ?_⟩
  rcases hearned q hq ⟨"t"⟩ ⟨"A"⟩ hmark rfl _ hm with hall | ⟨host, bs, hhost, hne, -⟩
  · exact hall b hb ha trivial
  · rw [hhost] at hgoverning
    exact absurd (Option.some.inj hgoverning) hne

/-- The default group of an object that is redefined by a type above its own marks it for a group of
the sequence, of which a constraint that its own type adds is never checked on it. -/
theorem inherited_sequence_overlooks :
    let op := Operation.object ⟨"p"⟩ [TypeName.defaultGroup, ⟨"A"⟩]
    let c := op.call inherited
    let q := ((op.body c).exec (c.start inherited.memory)).2
    inherited.config.trackProcessed ∧ c.Assembles (inherited.store.typeOf ⟨"s"⟩) inheritedMetadata.2 ∧
      (some ⟨"s"⟩, ⟨"A"⟩) ∈ q.processedGroups ∧ (inherited.perform op).answer.toOption = some [] ∧
      (∃ b ∈ inheritedMetadata.2.constraints, b.appliesTo ⟨"A"⟩ ∧ ¬ c.CheckedOn ⟨"s"⟩ q.journal b) ∧
      ∃ vs, (inherited.perform (.object ⟨"p"⟩ [⟨"A"⟩])).answer = .ok vs ∧
        vs.map (·.key) = [("child.y", "must not be null", "@NotNull", some ⟨"s"⟩)] := by
  intro op c q
  have hm : c.Assembles ⟨"Sub"⟩ inheritedMetadata.2 := toOption_eq_some (Option.some_get _).symm
  have hdemand : inheritedMetadata.2.constraints.any
      (fun b => b.appliesTo ⟨"A"⟩ && b.location = .property "y") = true := by decide +kernel
  obtain ⟨b, hb, ha⟩ := List.any_eq_true.1 hdemand
  rw [Bool.and_eq_true, decide_eq_true_eq] at ha
  have hjournal : q.journal.any (Event.isCheckOf ⟨"s"⟩ (.property "y")) = false := by decide +kernel
  have halone : ((inherited.perform (.object ⟨"p"⟩ [⟨"A"⟩])).answer.toOption.map (·.map (·.key))) =
      some [("child.y", "must not be null", "@NotNull", some ⟨"s"⟩)] := by decide +kernel
  obtain ⟨vs, hvs, hkeys⟩ := Option.map_eq_some_iff.1 halone
  refine ⟨rfl, hm, by decide +kernel, ?_, ⟨b, hb, ha.1, fun h => ?_⟩, vs, toOption_eq_some hvs, hkeys⟩
  · have hnone : (inherited.perform op).answer.toOption.map (·.length) = some 0 := by decide +kernel
    obtain ⟨vs, hvs, hlength⟩ := Option.map_eq_some_iff.1 hnone
    rw [hvs, List.length_eq_zero_iff.1 hlength]
  · have hany := h.any_isCheckOf
    rw [ha.2, hjournal] at hany
    cases hany

end Validator

end ObjectValidation
