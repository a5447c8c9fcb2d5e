import ObjectValidation.Proofs.Growth
import ObjectValidation.Proofs.Metadata
/-!
# What the computations of a call keep

A property of the progress that the parts of a computation keep is kept by the whole. There are two
layers: the walk of one subject for a group, which is made of its checks (`KeptByChecks`) and looks up
the types of its hierarchy (`KeptByWalk`), and cascades, which are made of walks (`KeptByCascades`).

The checks of a walk are for constraints of `demanded`, a list that is known before the walk begins.
-/

namespace ObjectValidation

open Run

/-- Whether an order runs a group, on its own or at a position of a sequence. -/
inductive Order.Runs (o : Order) : TypeName → Prop
  | group {g : Group} : g ∈ o.groups → Runs o g.name
  | position {q : Sequence} {position : List Group} {g : Group} : q ∈ o.sequences →
    position ∈ q.positions → g ∈ position → Runs o g.name

namespace Call

variable (c : Call)

/-- Whether the metadata is that of the type. -/
def Assembles (type : TypeName) (m : Metadata) : Prop :=
  Metadata.assemble c.registry c.config.methodRules type = .ok m

/-- Whether the metadata remembered is what would be put together again. -/
def Coherent (p : Progress) : Prop :=
  p.memory.metadata.Coherent c.registry c.config.methodRules

/-- The constraints to check along a hierarchy for the default group. -/
def demandedFrom (covered : List TypeName) : List TypeName → List BoundConstraint
  | [] => []
  | type :: above =>
    match Metadata.assemble c.registry c.config.methodRules type with
    | .error _ => []
    | .ok m =>
      if m.redefinesDefault then uncovered covered m.constraints
      else uncovered covered m.directConstraints ++
        demandedFrom (covered ++ interfacesOf m.directConstraints) above

/-- The constraints to check on a subject for a group. -/
def demanded (s : Subject) (group : TypeName) : List BoundConstraint :=
  if group.isDefault then c.demandedFrom [] s.metadata.hierarchy else s.metadata.constraints

/-- Whether a cascade could have led to the subject. -/
structure Knows (s : Subject) : Prop where
  object : ∃ id, s.object = some id ∧ c.Assembles (c.store.typeOf id) s.metadata
  whole : s.only = none

variable {c} {I : Progress → Prop} {E : Halt → Progress → Prop}

theorem Assembles.unique {type : TypeName} {m m' : Metadata} (h : c.Assembles type m)
    (h' : c.Assembles type m') : m = m' := Except.ok.inj (Eq.trans (Eq.symm h) h')

theorem demandedFrom_redefined {covered above : List TypeName} {type : TypeName} {m : Metadata}
    (h : c.Assembles type m) (hm : m.redefinesDefault) :
    c.demandedFrom covered (type :: above) = uncovered covered m.constraints := by
  unfold Assembles at h
  simp [demandedFrom, h, hm]

theorem demandedFrom_ordinary {covered above : List TypeName} {type : TypeName} {m : Metadata}
    (h : c.Assembles type m) (hm : m.redefinesDefault = false) :
    c.demandedFrom covered (type :: above) = uncovered covered m.directConstraints ++
      c.demandedFrom (covered ++ interfacesOf m.directConstraints) above := by
  unfold Assembles at h
  simp [demandedFrom, h, hm]

/-! ### Memory -/

theorem exec_metadataOf {p : Progress} (hp : c.Coherent p) (type : TypeName) :
    ∃ cache : MetadataCache, cache.Coherent c.registry c.config.methodRules ∧
      (c.metadataOf type).exec p =
        (match Metadata.assemble c.registry c.config.methodRules type with
          | .ok m => .ok m
          | .error e => .error (.failed e),
        { p with memory := { p.memory with metadata := cache } }) := by
  obtain ⟨cache, hcache, hobtain⟩ := Metadata.obtain_coherent hp type
  refine ⟨cache, hcache, ?_⟩
  unfold Call.metadataOf
  rw [exec_bind, exec_get]
  simp only [hobtain, exec_bind, exec_set]
  cases Metadata.assemble c.registry c.config.methodRules type <;> rfl

theorem meets_metadataOf (hI : ∀ p, I p → c.Coherent p) (hfail : ∀ e p, I p → E (.failed e) p)
    (hcache : ∀ p (cache : MetadataCache), cache.Coherent c.registry c.config.methodRules → I p →
      I { p with memory := { p.memory with metadata := cache } }) (type : TypeName) :
    Meets (c.metadataOf type) I (c.Assembles type) E := by
  intro p hp
  obtain ⟨cache, hc, hexec⟩ := exec_metadataOf (hI p hp) type
  have hq := hcache p cache hc hp
  rw [hexec]
  unfold Assembles
  cases Metadata.assemble c.registry c.config.methodRules type with
  | ok m => exact ⟨hq, rfl⟩
  | error e => exact hfail e _ hq

/-- Whatever is remembered, metadata changes no more than that. -/
theorem meets_metadataOf_any (hfail : ∀ e p, I p → E (.failed e) p)
    (hcache : ∀ p metadata, I p → I { p with memory := { p.memory with metadata } })
    (type : TypeName) : Meets (c.metadataOf type) I Any E := by
  intro p hp
  unfold Call.metadataOf
  simp only [exec_bind, exec_get, exec_set]
  cases ((Metadata.obtain c.registry c.config.methodRules type).run.run p.memory.metadata).run with
  | mk a metadata =>
    have hq := hcache p metadata hp
    cases a with
    | ok a => exact ⟨hq, trivial⟩
    | error e => exact hfail e _ hq

theorem meets_expanding {α : Type} (hfail : ∀ e p, I p → E (.failed e) p)
    (hcache : ∀ p sequences, I p → I { p with memory := { p.memory with sequences } })
    (x : Expanding α) : Meets (Run.expanding x) I Any E := by
  intro p hp
  unfold Run.expanding
  simp only [exec_bind, exec_get, exec_set]
  cases (x.run.run p.memory.sequences).run with
  | mk a sequences =>
    have hq := hcache p sequences hp
    cases a with
    | ok a => exact ⟨hq, trivial⟩
    | error e => exact hfail e _ hq

theorem meets_defaultMeaning (hfail : ∀ e p, I p → E (.failed e) p)
    (hasked : ∀ p type object, I p → I { p with journal := p.journal ++ [.asked type object] })
    (hadd : ∀ p d, I p → I { p with defaults := p.defaults ++ [d] }) (object : Option ObjectId)
    (m : Metadata) : Meets (c.defaultMeaning object m) I Any E := by
  have hgroups : Meets (c.defaultGroups object m) I Any E := by
    unfold Call.defaultGroups
    split
    · exact .pure trivial
    · exact .pure trivial
    · exact (Meets.record fun p hp => hasked p _ _ hp).next fun _ =>
        .ofExcept hfail fun _ _ => trivial
  refine Meets.get.any.next ?_
  intro p
  split
  · exact .pure trivial
  · exact hgroups.next fun groups => (Meets.ofExcept hfail fun _ _ => trivial).next fun order =>
      (Meets.update fun p hp => hadd p _ hp).next fun _ => .pure trivial

/-! ### Walks -/

/-- Whether no type of a list redefines the default group. -/
def Ordinary (c : Call) (types : List TypeName) : Prop :=
  ∀ type ∈ types, ∀ m, c.Assembles type m → m.redefinesDefault = false

theorem Ordinary.above {type : TypeName} {types : List TypeName} (h : c.Ordinary (type :: types)) :
    c.Ordinary types := fun t ht => h t (List.mem_cons_of_mem _ ht)

/-- Whether a walk for the first group may check constraints for the second one: only a redefined
default group brings other groups with it. -/
def Serves (c : Call) (types : List TypeName) (group served : TypeName) : Prop :=
  served = group ∨ (group.isDefault ∧ ¬ c.Ordinary types)

/-- `I` is kept by what a walk of a subject does for one type. The groups it checks and marks have `G`,
the constraints it checks have `B`. -/
structure KeptByChecks (c : Call) (s : Subject) (I : Progress → Prop) (E : Halt → Progress → Prop)
    (G : TypeName → Prop) (B : BoundConstraint → Prop) : Prop where
  meaning : ∀ type m, c.Assembles type m → Meets (c.defaultMeaning s.object m) I Any E
  check : ∀ g b, G g → B b → Meets (c.checkBound s g b) I Any E
  mark : ∀ g, G g → Meets (c.markProcessed s g) I Any E

/-- `I` is kept by the parts of a walk of a subject. -/
structure KeptByWalk (c : Call) (s : Subject) (I : Progress → Prop) (E : Halt → Progress → Prop)
    (G : TypeName → Prop) (B : BoundConstraint → Prop) : Prop extends KeptByChecks c s I E G B where
  metadata : ∀ type, Meets (c.metadataOf type) I (c.Assembles type) E

namespace KeptByChecks

variable {s : Subject} {G : TypeName → Prop} {B : BoundConstraint → Prop}

theorem checkAll (h : KeptByChecks c s I E G B) {bs : List BoundConstraint} {group : TypeName}
    (hB : ∀ b ∈ bs, B b) (hG : G group) : Meets (c.checkAll s bs group) I Any E :=
  meets_allHold fun b hb => h.check group b hG (hB b hb)

theorem checkGroup (h : KeptByChecks c s I E G B) {bs : List BoundConstraint} {group : TypeName}
    (hB : ∀ b ∈ bs, B b) (hG : G group) : Meets (c.checkGroup s bs group) I Any E :=
  meets_isStopped.next fun _ => .ite (.pure trivial) <|
    (h.checkAll hB hG).next fun _ => meets_isStopped.next fun _ => .ite (.pure trivial) <|
      (h.mark group hG).next fun _ => .pure trivial

theorem checkPosition (h : KeptByChecks c s I E G B) {bs : List BoundConstraint}
    (hB : ∀ b ∈ bs, B b) (hG : ∀ g, G g) :
    ∀ position, Meets (c.checkPosition s bs position) I Any E
  | [] => .pure trivial
  | g :: rest => (h.checkGroup hB (hG g.name)).next fun _ =>
    (h.checkPosition hB hG rest).next fun _ => .pure trivial

theorem checkPositions (h : KeptByChecks c s I E G B) {bs : List BoundConstraint}
    (hB : ∀ b ∈ bs, B b) (hG : ∀ g, G g) :
    ∀ positions, Meets (c.checkPositions s bs positions) I Any E
  | [] => .unit
  | position :: rest =>
    (h.checkPosition hB hG position).next fun _ => .ite (h.checkPositions hB hG rest) .unit

theorem runRedefined (h : KeptByChecks c s I E G B) {bs : List BoundConstraint}
    (hB : ∀ b ∈ bs, B b) (hG : ∀ g, G g) {type : TypeName} {m : Metadata}
    (hm : c.Assembles type m) : Meets (c.runRedefined s m bs) I Any E :=
  (h.meaning type m hm).next fun _ =>
    (meets_each fun q _ => h.checkPositions hB hG q.positions).next fun _ =>
      meets_isStopped.next fun _ => .ite .unit (h.mark _ (hG _))

/-- A walk along types whose metadata can be looked up keeps what the checks keep. -/
theorem runHierarchy (h : KeptByChecks c s I E G B) : ∀ (types covered : List TypeName),
    (∀ type ∈ types, Meets (c.metadataOf type) I (c.Assembles type) E) →
    (∀ b ∈ c.demandedFrom covered types, B b) →
    (∀ g, c.Serves types TypeName.defaultGroup g → G g) →
    Meets (c.runHierarchy s covered types) I Any E
  | [], _, _, _, _ => .unit
  | type :: above, covered, hmeta, hB, hG => by
    unfold Call.runHierarchy
    refine (hmeta type (by simp)).bind ?_
    intro m hm
    split
    · next hr =>
      rw [demandedFrom_redefined hm hr] at hB
      refine h.runRedefined hB (fun g => hG g (.inr ⟨rfl, fun ho => ?_⟩)) hm
      simp [ho type (by simp) m hm] at hr
    · next hr =>
      rw [demandedFrom_ordinary hm (by simpa using hr)] at hB
      have hrest := h.runHierarchy above _ (fun t ht => hmeta t (List.mem_cons_of_mem _ ht))
        (fun b hb => hB b (List.mem_append_right _ hb))
        fun g hg => hG g <| hg.imp id fun hg =>
          ⟨hg.1, fun ho => hg.2 ho.above⟩
      have hdefault := hG TypeName.defaultGroup (.inl rfl)
      refine (h.checkAll (fun b hb => hB b (List.mem_append_left _ hb)) hdefault).next ?_
      intro _
      exact meets_isStopped.next fun _ => .ite .unit ((h.mark _ hdefault).next fun _ => hrest)

/-- A walk for a group keeps what the checks keep, from behind its beginning. -/
theorem walk (h : KeptByChecks c s I E G B) {group : TypeName}
    (hmeta : group.isDefault → ∀ type ∈ s.metadata.hierarchy,
      Meets (c.metadataOf type) I (c.Assembles type) E)
    (hB : ∀ b ∈ c.demanded s group, B b) (hG : ∀ g, c.Serves s.metadata.hierarchy group g → G g) :
    Meets (if group.isDefault then c.runHierarchy s [] s.metadata.hierarchy
      else do
        let _ ← c.checkAll s s.metadata.constraints group
        unless ← c.isStopped do c.markProcessed s group) I Any E := by
  unfold demanded at hB
  split
  · next hg =>
    obtain rfl : group = TypeName.defaultGroup := by simpa [TypeName.isDefault] using hg
    exact h.runHierarchy _ _ (hmeta hg) (by simpa [hg] using hB) hG
  · next hg =>
    simp only [hg, Bool.false_eq_true, if_false] at hB
    refine (h.checkAll hB (hG group (.inl rfl))).next ?_
    intro _
    exact meets_isStopped.next fun _ => .ite .unit (h.mark group (hG group (.inl rfl)))

end KeptByChecks

namespace KeptByWalk

variable {s : Subject} {G : TypeName → Prop} {B : BoundConstraint → Prop}

theorem runHierarchy (h : KeptByWalk c s I E G B) (types covered : List TypeName)
    (hB : ∀ b ∈ c.demandedFrom covered types, B b)
    (hG : ∀ g, c.Serves types TypeName.defaultGroup g → G g) :
    Meets (c.runHierarchy s covered types) I Any E :=
  h.toKeptByChecks.runHierarchy types covered (fun type _ => h.metadata type) hB hG

/-- A walk keeps what its parts keep, from where it has begun. -/
theorem afterBegan (group : TypeName) (h : KeptByWalk c s I E G B)
    (hB : ∀ b ∈ c.demanded s group, B b) (hG : ∀ g, c.Serves s.metadata.hierarchy group g → G g)
    {p : Progress} (hp : I { p with journal := p.journal ++ [.began s.object s.path group] }) :
    match (c.runGroup s group).exec p with
    | (.ok _, q) => I q
    | (.error halt, q) => E halt q := by
  have hwalk := h.walk (fun _ type _ => h.metadata type) hB hG _ hp
  unfold Call.runGroup
  rw [exec_bind, exec_record]
  revert hwalk
  simp only
  generalize exec _ _ = outcome
  obtain ⟨a, q⟩ := outcome
  cases a with
  | error e => exact id
  | ok a => exact fun hq => hq.1

/-- A walk keeps what its parts keep once the walk has begun. -/
theorem runGroup {J : Progress → Prop} {group : TypeName} (h : KeptByWalk c s I E G B)
    (hB : ∀ b ∈ c.demanded s group, B b) (hG : ∀ g, c.Serves s.metadata.hierarchy group g → G g)
    (hbegan : ∀ p, J p → I { p with journal := p.journal ++ [.began s.object s.path group] })
    (hend : ∀ p, I p → J p) : Meets (c.runGroup s group) J Any E := by
  refine .of_exec (fun p _ q hp hexec => ?_) fun p halt q hp hexec => ?_
  all_goals
    have hafter := h.afterBegan group hB hG (hbegan p hp)
    rw [hexec] at hafter
  · exact ⟨hend q hafter, trivial⟩
  · exact hafter

end KeptByWalk

/-! ### Orders and cascades -/

section

variable {constraints cascades : TypeName → Run Unit}

theorem meets_runPosition_of {position : List Group}
    (h : ∀ g ∈ position, Meets (constraints g.name) I Any E)
    (h' : ∀ g ∈ position, Meets (cascades g.name) I Any E) :
    Meets (c.runPosition constraints cascades position) I Any E :=
  meets_each fun g hg => (h g hg).next fun _ => meets_isStopped.next fun _ => .ite .unit (h' g hg)

theorem meets_runPositions_of : ∀ {positions : List (List Group)},
    (∀ position ∈ positions, ∀ g ∈ position, Meets (constraints g.name) I Any E) →
    (∀ position ∈ positions, ∀ g ∈ position, Meets (cascades g.name) I Any E) →
    Meets (c.runPositions constraints cascades positions) I Any E
  | [], _, _ => .unit
  | position :: rest, h, h' => by
    unfold Call.runPositions
    refine Meets.get.any.next fun _ =>
      (meets_runPosition_of (h position (by simp)) (h' position (by simp))).next fun _ => ?_
    have hrest := meets_runPositions_of (fun q hq => h q (List.mem_cons_of_mem _ hq))
      fun q hq => h' q (List.mem_cons_of_mem _ hq)
    exact Meets.get.any.next fun _ => .ite hrest .unit

/-- What the groups that an order runs keep is kept by the order. -/
theorem meets_runOrder_of {o : Order} (h : ∀ g, o.Runs g → Meets (constraints g) I Any E)
    (h' : ∀ g, o.Runs g → Meets (cascades g) I Any E) :
    Meets (c.runOrder o constraints cascades) I Any E := by
  refine (meets_each fun g hg => h _ (.group hg)).next fun _ => ?_
  refine (meets_each fun g hg => h' _ (.group hg)).next fun _ => meets_each fun q hq => ?_
  exact meets_runPositions_of (fun _ hposition _ hg => h _ (.position hq hposition hg))
    fun _ hposition _ hg => h' _ (.position hq hposition hg)

variable (h : ∀ g, Meets (constraints g) I Any E) (h' : ∀ g, Meets (cascades g) I Any E)

include h h'

theorem meets_runPosition (position : List Group) :
    Meets (c.runPosition constraints cascades position) I Any E :=
  meets_runPosition_of (fun g _ => h g.name) fun g _ => h' g.name

theorem meets_runPositions (positions : List (List Group)) :
    Meets (c.runPositions constraints cascades positions) I Any E :=
  meets_runPositions_of (fun _ _ g _ => h g.name) fun _ _ g _ => h' g.name

theorem meets_runOrder {o : Order} : Meets (c.runOrder o constraints cascades) I Any E :=
  meets_runOrder_of (fun g _ => h g) fun g _ => h' g

end

theorem meets_runCascades {s : Subject} {visit : CascadeStep → Run Unit}
    (hv : ∀ step, Meets (visit step) I Any E) (group : TypeName) :
    Meets (c.runCascades visit s group) I Any E :=
  .ite .unit (meets_each fun step _ => hv step)

/-- `I` is kept by the parts of a cascade. -/
structure KeptByCascades (c : Call) (I : Progress → Prop) (E : Halt → Progress → Prop) :
    Prop where
  failed : ∀ e p, I p → E (.failed e) p
  exhausted : ∀ p, I p → E .exhausted p
  metadata : ∀ type, Meets (c.metadataOf type) I (c.Assembles type) E
  meaning : ∀ object type m, c.Assembles type m → Meets (c.defaultMeaning object m) I Any E
  expand : ∀ {α : Type} (x : Expanding α), Meets (Run.expanding x) I Any E
  chain : ∀ p chain, I p → I { p with chain }
  halted : ∀ h p chain, E h p → E h { p with chain }
  group : ∀ s group, c.Knows s → Meets (c.runGroup s group) I Any E

/-- What asking for the meaning of the default group keeps is kept by asking whether it fits. -/
theorem meets_requireFit {s : Subject} {o : Order} (hfailed : ∀ e p, I p → E (.failed e) p)
    (hmeaning : Meets (c.defaultMeaning s.object s.metadata) I Any E) :
    Meets (c.requireFit s o) I Any E :=
  .ite (hmeaning.next fun _ => .ofExcept hfailed fun _ _ => trivial) .unit

theorem meets_runSubject {s : Subject} {visit : CascadeStep → Run Unit} {o : Order}
    (hfit : Meets (c.requireFit s o) I Any E) (hg : ∀ g, Meets (c.runGroup s g) I Any E)
    (hv : ∀ step, Meets (visit step) I Any E) : Meets (c.runSubject visit s o) I Any E :=
  hfit.next fun _ => meets_runOrder hg (meets_runCascades hv)

/-- An object is taken off the chain again, whichever way a computation ends. -/
theorem exec_whileOnChain (id : ObjectId) (x : Run Unit) (p : Progress) :
    (whileOnChain id x).exec p =
      let outcome := x.exec { p with chain := id :: p.chain }
      (outcome.1, { outcome.2 with chain := outcome.2.chain.tail }) := by
  unfold Call.whileOnChain
  simp only [exec_bind, exec_modify, exec_tryCatch]
  cases x.exec { p with chain := id :: p.chain } with
  | mk a q => cases a <;> rfl

theorem meets_whileOnChain (hchain : ∀ p chain, I p → I { p with chain })
    (hhalted : ∀ h p chain, E h p → E h { p with chain }) (id : ObjectId) {x : Run Unit}
    (hx : Meets x I Any E) : Meets (whileOnChain id x) I Any E := by
  intro p hp
  have hx := hx _ (hchain p (id :: p.chain) hp)
  rw [exec_whileOnChain]
  revert hx
  cases exec x { p with chain := id :: p.chain } with
  | mk a q =>
    cases a with
    | ok a => exact fun hx => ⟨hchain q _ hx.1, trivial⟩
    | error e => exact fun hx => hhalted e q _ hx

namespace KeptByCascades

theorem requireFit (h : KeptByCascades c I E) {s : Subject} {type : TypeName}
    (hs : c.Assembles type s.metadata) (o : Order) : Meets (c.requireFit s o) I Any E :=
  meets_requireFit h.failed (h.meaning s.object type s.metadata hs)

theorem runSubject (h : KeptByCascades c I E) {s : Subject} (hs : c.Knows s)
    {visit : CascadeStep → Run Unit} (hv : ∀ step, Meets (visit step) I Any E) (o : Order) :
    Meets (c.runSubject visit s o) I Any E := by
  obtain ⟨id, -, hm⟩ := hs.object
  exact meets_runSubject (h.requireFit hm o) (fun g => h.group s g hs) hv

theorem cascade (h : KeptByCascades c I E) :
    ∀ (depth : Nat) (step : CascadeStep), Meets (c.cascade depth step) I Any E
  | 0, _ => fun p hp => h.exhausted p hp
  | depth + 1, step => by
    unfold Call.cascade
    refine meets_isStopped.next fun _ => Meets.get.any.next fun _ => .ite ?_ .unit
    refine (h.metadata _).bind fun m hm => (h.expand _).next fun order => ?_
    refine Meets.get.any.next fun _ => .ite (meets_whileOnChain h.chain h.halted _ ?_) .unit
    exact h.runSubject ⟨⟨step.target, rfl, hm⟩, rfl⟩ (h.cascade depth) order

end KeptByCascades

end Call

end ObjectValidation
