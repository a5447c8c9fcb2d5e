import ObjectValidation.Proofs.Provenance
import ObjectValidation.Proofs.References
import ObjectValidation.Proofs.Requests
import ObjectValidation.Validation.Operations
/-!
# What a validation has reached when it ends

Where validation of an object has begun, it has also begun for all that the object refers to, once the
call is through: a cascade either enters its target or passes over it because it has been entered
before, at a path on the same way if the call tracks what is processed. So what has begun is closed
under references (`Finished`), and with the root all that it leads to is validated.

This is said of the validation of a subject for groups alone. Each reference is taken for every group
as it is, without conversions.
-/

namespace ObjectValidation

open Run

namespace Call

variable {c : Call}

/-! ### Objects that are visited -/

/-- Whether the walk of a subject for a group has been made between two progresses. -/
def Walked (c : Call) (o q : Progress) (s : Subject) (group : TypeName) : Prop :=
  ∃ p₁ p₂, c.Follows o p₁ ∧ (c.runGroup s group).exec p₁ = (.ok (), p₂) ∧ c.Follows p₁ p₂ ∧
    c.Follows p₂ q

/-- Whether validation of an object has begun, on the way to the path or behind it if the call tracks
what is processed. -/
def Visited (c : Call) (q : Progress) (object : ObjectId) (path : Path) : Prop :=
  ∃ path' group, .began (some object) path' group ∈ q.journal ∧
    (c.config.trackProcessed → path.isRelatedTo path')

variable (R : ObjectId → Path → TypeName → Prop)

/-- Whether what has begun at a path is through: the walk has been made, and all references of the
object have been followed. -/
def Finished (c : Call) (o q : Progress) (object : Option ObjectId) (path : Path)
    (group : TypeName) : Prop :=
  ∃ s x, c.Knows s ∧ s.object = some x ∧ object = some x ∧ s.path = path ∧ R x path group ∧
    c.Walked o q s group ∧ ∀ r ∈ c.references x, c.Visited q r.target (r.place path)

variable {R} {o p q r : Progress}

theorem Walked.mono {s : Subject} {group : TypeName} (h : c.Walked o q s group)
    (hqr : c.Follows q r) : c.Walked o r s group :=
  h.imp fun _ h => h.imp fun _ h => ⟨h.1, h.2.1, h.2.2.1, h.2.2.2.trans hqr⟩

theorem Visited.mono {object : ObjectId} {path : Path} (h : c.Visited q object path)
    (hqr : c.Follows q r) : c.Visited r object path :=
  h.imp fun _ h => h.imp fun _ h => ⟨hqr.extends.journal.subset h.1, h.2⟩

theorem Finished.mono {object : Option ObjectId} {path : Path} {group : TypeName}
    (h : c.Finished R o q object path group) (hqr : c.Follows q r) :
    c.Finished R o r object path group := by
  obtain ⟨s, x, hs, hx, ho, hp, hR, hw, hv⟩ := h
  exact ⟨s, x, hs, hx, ho, hp, hR, hw.mono hqr, fun r hr => (hv r hr).mono hqr⟩

/-! ### Where a computation has begun something -/

/-- What is said of what has begun, and stays true. -/
abbrev Note := Progress → Option ObjectId → Path → TypeName → Prop

/-- Whether a note stays true as the call goes on. -/
def Note.Stays (c : Call) (N : Note) : Prop :=
  ∀ q r object path group, c.Follows q r → N q object path group → N r object path group

/-- The second progress follows the first one with the same objects under way. Paths that have been
marked since then are of objects that have begun there, and `N` says something of what has begun. -/
structure Advances (c : Call) (N : Note) (p q : Progress) : Prop where
  follows : c.Follows p q
  chain : q.chain = p.chain
  paths : ∀ object path, (object, path) ∈ q.processedPaths →
    (object, path) ∈ p.processedPaths ∨ ∃ group, .began object path group ∈ q.journal
  began : ∀ object path group, .began object path group ∈ q.journal →
    .began object path group ∈ p.journal ∨ N q object path group

variable {N N' : Note}

theorem Advances.refl (h : c.Remembers p) : c.Advances N p p :=
  ⟨.refl h, rfl, fun _ _ => .inl, fun _ _ _ => .inl⟩

theorem Advances.trans (hN : N.Stays c) (h : c.Advances N p q) (h' : c.Advances N q r) :
    c.Advances N p r := by
  refine ⟨h.follows.trans h'.follows, h'.chain.trans h.chain, ?_,
    ?_⟩
  · intro object path hmem
    rcases h'.paths object path hmem with hmem | hbegan
    · exact (h.paths object path hmem).imp_right fun hbegan => hbegan.imp fun _ hmem =>
        h'.follows.extends.journal.subset hmem
    · exact .inr hbegan
  · intro object path group hmem
    rcases h'.began object path group hmem with hmem | hn
    · exact (h.began object path group hmem).imp_right (hN q r object path group h'.follows)
    · exact .inr hn

theorem Advances.mono (h : c.Advances N p q)
    (hN : ∀ object path group, N q object path group → N' q object path group) :
    c.Advances N' p q :=
  ⟨h.follows, h.chain, h.paths, fun object path group hmem =>
    (h.began object path group hmem).imp_right (hN object path group)⟩

/-- Whether objects that count as processed or under way have begun. -/
structure Anchored (c : Call) (p : Progress) : Prop where
  paths : ∀ object path, (object, path) ∈ p.processedPaths →
    ∃ group, .began object path group ∈ p.journal
  chain : c.config.trackProcessed = false → ∀ x ∈ p.chain,
    ∃ path group, .began (some x) path group ∈ p.journal

theorem Anchored.advance (h : c.Anchored p) (hpq : c.Advances N p q) : c.Anchored q where
  paths object path hmem := by
    rcases hpq.paths object path hmem with hmem | hbegan
    · exact (h.paths object path hmem).imp fun _ hmem => hpq.follows.extends.journal.subset hmem
    · exact hbegan
  chain htrack x hx := (h.chain htrack x (hpq.chain ▸ hx)).imp fun _ hbegan =>
    hbegan.imp fun _ hmem => hpq.follows.extends.journal.subset hmem

/-! ### Loops -/

theorem not_stops_of_each {α : Type} {xs : List α} {step : α → Run Unit}
    (h : (c.each xs step).exec p = (.ok (), q)) (hq : c.stops q = false) : c.stops p = false := by
  refine Bool.eq_false_iff.2 ?_
  intro hp
  rw [exec_each_of_stops hp] at h
  cases h
  simp [hp] at hq

/-- A loop advances if its rounds do, and what each round achieves is achieved by the loop. -/
theorem advances_each (hN : N.Stays c) {α : Type} {step : α → Run Unit} {P : Progress → Prop}
    {V : α → Progress → Prop} (hP : ∀ p q, P p → c.Advances N p q → P q)
    (hV : ∀ x q r, V x q → c.Follows q r → V x r) (hR : ∀ p, P p → c.Remembers p) :
    ∀ {xs : List α} {p q : Progress},
    (∀ x ∈ xs, ∀ p q, P p → (step x).exec p = (.ok (), q) → c.stops q = false →
      c.Advances N p q ∧ V x q) →
    (c.each xs step).exec p = (.ok (), q) → c.stops q = false → P p →
    c.Advances N p q ∧ ∀ x ∈ xs, V x q
  | [], p, q, _, h, _, hp => by
    cases h
    exact ⟨.refl (hR p hp), by simp⟩
  | x :: xs, p, q, hstep, h, hq, hp => by
    obtain ⟨-, r, hx, h⟩ := exec_each_cons_ok h hq
    obtain ⟨hpr, hv⟩ := hstep x (by simp) p r hp hx (not_stops_of_each h hq)
    obtain ⟨hrq, hvs⟩ := advances_each hN hP hV hR (fun y hy => hstep y (by simp [hy])) h hq
      (hP p r hp hpr)
    refine ⟨hpr.trans hN hrq, ?_⟩
    intro y hy
    rcases List.mem_cons.1 hy with rfl | hy
    · exact hV y r q hv hrq.follows
    · exact hvs y hy

/-! ### Walks -/

/-- What a computation leaves alone that begins nothing. -/
structure Quiet (p q : Progress) : Prop where
  chain : q.chain = p.chain
  groups : q.processedGroups = p.processedGroups
  paths : q.processedPaths = p.processedPaths
  journal : p.journal ⊆ q.journal
  began : ∀ object path group, .began object path group ∈ q.journal →
    .began object path group ∈ p.journal

theorem Quiet.refl (p : Progress) : Quiet p p := ⟨rfl, rfl, rfl, fun _ => id, fun _ _ _ => id⟩

theorem Quiet.advances (h : Quiet p q) (hpq : c.Follows p q) : c.Advances N p q :=
  ⟨hpq, h.chain, fun _ _ hmem => .inl (h.paths ▸ hmem), fun object path group hmem =>
    .inl (h.began object path group hmem)⟩

theorem Quiet.trace (es : List Event) (h : Quiet p q) (hc : r.chain = q.chain)
    (hg : r.processedGroups = q.processedGroups) (hp : r.processedPaths = q.processedPaths)
    (hj : r.journal = q.journal ++ es) (hes : ∀ e ∈ es, ∀ object path group,
      e ≠ .began object path group) : Quiet p r := by
  refine ⟨hc.trans h.chain, hg.trans h.groups, hp.trans h.paths, ?_,
    ?_⟩
  · intro e he
    rw [hj]
    exact List.mem_append_left _ (h.journal he)
  · intro object path group hmem
    rw [hj] at hmem
    rcases List.mem_append.1 hmem with hmem | hmem
    · exact h.began object path group hmem
    · exact absurd rfl (hes _ hmem object path group)

/-- What no quiet step breaks is kept by a quiet computation. -/
theorem meets_of_quiet {α : Type} {x : Run α} {I : Progress → Prop} {Q : α → Prop}
    (hx : ∀ p, Meets x (Quiet p) Q AnyHalt) (hI : ∀ p q, I p → Quiet p q → I q) :
    Meets x I Q AnyHalt :=
  .of_ok fun p _ q hp hexec =>
    ⟨hI p q hp ((hx p).kept hexec (.refl p)), (hx p).answer hexec (.refl p)⟩

theorem quiet_metadataOf (type : TypeName) : Meets (c.metadataOf type) (Quiet p) Any AnyHalt :=
  meets_metadataOf_any (fun _ _ _ => trivial) (fun _ _ h => h.trace [] rfl rfl rfl (by simp)
    (by simp)) type

theorem quiet_expanding {α : Type} (x : Expanding α) :
    Meets (Run.expanding x) (Quiet p) Any AnyHalt :=
  meets_expanding (fun _ _ _ => trivial) (fun _ _ h => h.trace [] rfl rfl rfl (by simp)
    (by simp)) x

theorem quiet_defaultMeaning (object : Option ObjectId) (m : Metadata) :
    Meets (c.defaultMeaning object m) (Quiet p) Any AnyHalt :=
  meets_defaultMeaning (fun _ _ _ => trivial)
    (fun _ type object h => h.trace [.asked type object] rfl rfl rfl rfl (by simp))
    (fun _ _ h => h.trace [] rfl rfl rfl (by simp) (by simp)) object m

theorem quiet_requireFit (s : Subject) (o : Order) :
    Meets (c.requireFit s o) (Quiet p) Any AnyHalt :=
  meets_requireFit (fun _ _ _ => trivial) (quiet_defaultMeaning s.object s.metadata)

theorem quiet_checkConstraint {s : Subject} {group : TypeName} {value : Value} {path : Path}
    {b : BoundConstraint} : Meets (c.checkConstraint s group value path b) (Quiet p) Any AnyHalt := by
  refine .of_ok fun q holds r hq hexec => ?_
  have hframe := checkConstraint_frame hexec
  obtain ⟨es, hj, hes⟩ := checkConstraint_journal hexec
  refine ⟨hq.trace _ hframe.2.2.1 hframe.2.2.2.1 hframe.2.2.2.2 hj ?_, trivial⟩
  intro e he
  rcases hes e he with he | ⟨-, rfl⟩
  · rintro _ _ _ rfl
    simp [Event.isTrace] at he
  · simp

theorem quiet_checkBound {s : Subject} {group : TypeName} {b : BoundConstraint} :
    Meets (c.checkBound s group b) (Quiet p) Any AnyHalt :=
  meets_checkBound_of fun _ _ _ => quiet_checkConstraint

/-- What the walk of a subject for a group changes besides what it finds. -/
structure Enters (c : Call) (p : Progress) (s : Subject) (group : TypeName) (q : Progress) :
    Prop where
  chain : q.chain = p.chain
  groups : ∀ x ∈ q.processedGroups, x ∈ p.processedGroups ∨
    ∃ g, c.Serves s.metadata.hierarchy group g ∧ x = (s.object, g)
  paths : ∀ x ∈ q.processedPaths, x ∈ p.processedPaths ∨ x = (s.object, s.path)
  began : ∀ object path g, .began object path g ∈ q.journal → .began object path g ∈ p.journal ∨
    (object = s.object ∧ path = s.path ∧ g = group)
  begun : .began s.object s.path group ∈ q.journal

theorem Enters.quiet {s : Subject} {group : TypeName} (h : c.Enters p s group q)
    (hqr : Quiet q r) : c.Enters p s group r where
  chain := hqr.chain.trans h.chain
  groups := hqr.groups ▸ h.groups
  paths := hqr.paths ▸ h.paths
  began object path g hmem := h.began object path g (hqr.began object path g hmem)
  begun := hqr.journal h.begun

theorem enters_runGroup {s : Subject} {group : TypeName} (hp : c.Remembers p)
    (h : (c.runGroup s group).exec p = (.ok (), q)) : c.Enters p s group q := by
  have hquiet : ∀ {α : Type} {x : Run α} {Q Q' : α → Prop}, Meets x (c.Follows p) Q AnyHalt →
      (∀ p, Meets x (Quiet p) Q' AnyHalt) →
      Meets x (fun q => c.Follows p q ∧ c.Enters p s group q) Q AnyHalt := fun hx hx' =>
    (hx.both (meets_of_quiet hx' fun _ _ => Enters.quiet)).mono fun _ h => h.1
  have hfollows := follows_walk (c := c) s p
  have hwalk : KeptByWalk c s (fun q => c.Follows p q ∧ c.Enters p s group q) AnyHalt
      (c.Serves s.metadata.hierarchy group) fun _ => True := by
    refine ⟨⟨fun type m hm => hquiet (hfollows.meaning type m hm) fun _ =>
        quiet_defaultMeaning s.object m,
      fun g b _ _ => hquiet (hfollows.check g b trivial trivial) fun _ => quiet_checkBound,
      ?_⟩, fun type => hquiet (hfollows.metadata type) fun _ => quiet_metadataOf type⟩
    intro g hg
    refine (Meets.both (hfollows.mark g trivial) (meets_markProcessed ?_)).any
    intro q r hq hm
    refine ⟨hm.chain.trans hq.chain, ?_, ?_, hm.journal ▸ hq.began,
      hm.journal ▸ hq.begun⟩
    · intro x hx
      rcases hm.groups x hx with hx | rfl
      · exact hq.groups x hx
      · exact .inr ⟨g, hg, rfl⟩
    · intro x hx
      rcases hm.paths x hx with hx | rfl
      · exact hq.paths x hx
      · exact .inr rfl
  have hafter := hwalk.afterBegan group (p := p) (fun _ _ => trivial)
    (fun _ => id) ⟨(Follows.refl hp).began s.object s.path group, rfl, fun _ => .inl, fun _ => .inl,
      fun object path g hmem => ?_, by simp⟩
  · rw [h] at hafter
    exact hafter.2
  · rcases List.mem_append.1 hmem with hmem | hmem
    · exact .inl hmem
    · cases List.mem_singleton.1 hmem
      exact .inr ⟨rfl, rfl, rfl⟩

/-- A walk begins nothing but itself. -/
theorem advances_runGroup {s : Subject} {group : TypeName} (hp : c.Remembers p)
    (h : (c.runGroup s group).exec p = (.ok (), q)) :
    c.Advances (fun _ object path g => object = s.object ∧ path = s.path ∧ g = group) p q ∧
      .began s.object s.path group ∈ q.journal := by
  have henters := enters_runGroup hp h
  refine ⟨⟨(follows_runGroup s group p).kept h (.refl hp), henters.chain, ?_,
    henters.began⟩, henters.begun⟩
  intro object path hx
  rcases henters.paths _ hx with hx | hx
  · exact .inl hx
  · cases hx
    exact .inr ⟨group, henters.begun⟩

/-! ### Cascades -/

/-- Whether references lead on from where `R` holds to where it holds, for the same group. -/
def Closed (c : Call) (R : ObjectId → Path → TypeName → Prop) : Prop :=
  ∀ x path group, R x path group →
    ∀ r ∈ c.references x, r.KeepsGroups ∧ R r.target (r.place path) group

/-- Whether a step to where `R` holds leaves all finished that it begins, its target included. -/
def Closes (c : Call) (R : ObjectId → Path → TypeName → Prop) (o : Progress)
    (visit : CascadeStep → Run Unit) : Prop :=
  ∀ step p q, c.Follows o p → c.Anchored p → step.group = step.source →
    R step.target step.path step.group → (visit step).exec p = (.ok (), q) → c.stops q = false →
    c.Advances (c.Finished R o) p q ∧ c.Visited q step.target step.path

theorem finished_stays : Note.Stays c (c.Finished R o) := fun _ _ _ _ _ hqr h => h.mono hqr

theorem runCascades_eq {s : Subject} (hs : c.Knows s) {x : ObjectId} (hx : s.object = some x)
    (visit : CascadeStep → Run Unit) (group : TypeName) : c.runCascades visit s group =
      c.each ((c.references x).map (·.step s.path group)) visit := by
  simp [Call.runCascades, hs.whole, hs.cascade_eq hx]

/-- The cascades of a subject for a group advance if its steps do, and follow all references. -/
theorem runCascades_advances (hN : N.Stays c) {P : Progress → Prop}
    {V : CascadeStep → Progress → Prop} (hP : ∀ q r, P q → c.Advances N q r → P r)
    (hremembers : ∀ q, P q → c.Remembers q) (hV : ∀ step q r, V step q → c.Follows q r → V step r)
    {visit : CascadeStep → Run Unit} {s : Subject} (hs : c.Knows s) {x : ObjectId}
    (hx : s.object = some x) {group : TypeName}
    (hvisit : ∀ r ∈ c.references x, ∀ q q', P q →
      (visit (r.step s.path group)).exec q = (.ok (), q') → c.stops q' = false →
      c.Advances N q q' ∧ V (r.step s.path group) q')
    (hp : P p) (h : (c.runCascades visit s group).exec p = (.ok (), q)) (hq : c.stops q = false) :
    c.Advances N p q ∧ ∀ r ∈ c.references x, V (r.step s.path group) q := by
  rw [runCascades_eq hs hx] at h
  obtain ⟨hpq, hsteps⟩ := advances_each (P := P) (V := V) hN hP hV hremembers
    (fun step hstep q q' hq h hq' => by
      obtain ⟨r, hr, rfl⟩ := List.mem_map.1 hstep
      exact hvisit r hr q q' hq h hq') h hq hp
  exact ⟨hpq, fun r hr => hsteps _ (List.mem_map_of_mem hr)⟩

/-- The parts of the validation of a subject for groups alone. -/
theorem exec_runSubject_ok {visit : CascadeStep → Run Unit} {s : Subject} {order : Order}
    (hsequences : order.sequences = [])
    (h : (c.runSubject visit s order).exec p = (.ok (), q)) :
    ∃ p₁ p₂, (c.requireFit s order).exec p = (.ok (), p₁) ∧
      (c.each order.groups fun g => c.runGroup s g.name).exec p₁ = (.ok (), p₂) ∧
      (c.each order.groups fun g => c.runCascades visit s g.name).exec p₂ = (.ok (), q) := by
  obtain ⟨_, p₁, hfit, h⟩ := exec_bind_ok.1 h
  obtain ⟨_, p₂, hwalks, h⟩ := exec_bind_ok.1 h
  obtain ⟨_, p₃, hcascades, h⟩ := exec_bind_ok.1 h
  rw [hsequences] at h
  cases h
  exact ⟨p₁, p₂, hfit, hwalks, hcascades⟩

/-- The walks of a subject for groups begin the subject for these, and nothing else. -/
theorem walks_advance {s : Subject} {groups : List Group} (hp : c.Follows o p)
    (h : (c.each groups fun g => c.runGroup s g.name).exec p = (.ok (), q))
    (hq : c.stops q = false) :
    c.Advances (fun _ object path group => object = s.object ∧ path = s.path ∧
      ∃ g ∈ groups, group = g.name) p q ∧
    ∀ g ∈ groups, .began s.object s.path g.name ∈ q.journal ∧ c.Walked o q s g.name :=
  advances_each (α := Group) (P := c.Follows o)
    (V := fun g q => .began s.object s.path g.name ∈ q.journal ∧ c.Walked o q s g.name)
    (fun _ _ _ _ _ _ h => h) (fun _ _ hq hqr => hq.trans hqr.follows)
    (fun _ _ _ hv hqr => ⟨hqr.extends.journal.subset hv.1, hv.2.mono hqr⟩)
    (fun _ hq => hq.remembers)
    (fun g hg q r hq hrun _ => by
      obtain ⟨hadv, hbegan⟩ := advances_runGroup hq.remembers hrun
      refine ⟨hadv.mono fun object path group hn => ⟨hn.1, hn.2.1, g, hg, hn.2.2⟩, hbegan, ?_⟩
      exact ⟨q, r, hq, hrun, hadv.follows, .refl hadv.follows.remembers⟩)
    h hq hp

/-- The validation of a subject for groups advances if its cascades do. Its walks begin the subject and
nothing else; of that, `N` is said once the walk for the group has been made and all references have
been followed for it. -/
theorem runSubject_advances (hN : N.Stays c) {P : Progress → Prop}
    {V : CascadeStep → Progress → Prop} (hP : ∀ q r, P q → c.Advances N q r → P r)
    (hremembers : ∀ q, P q → c.Remembers q) (hV : ∀ step q r, V step q → c.Follows q r → V step r)
    {visit : CascadeStep → Run Unit} {s : Subject} (hs : c.Knows s) {x : ObjectId}
    (hx : s.object = some x) {order : Order} (hsequences : order.sequences = [])
    (hp : c.Follows o p)
    (hstart : ∀ q, c.Follows o q → c.Advances (fun _ _ _ _ => True) p q →
      (∀ g ∈ order.groups, .began (some x) s.path g.name ∈ q.journal) → P q)
    (hvisit : ∀ g ∈ order.groups, ∀ r ∈ c.references x, ∀ q q', P q →
      (visit (r.step s.path g.name)).exec q = (.ok (), q') → c.stops q' = false →
      c.Advances N q q' ∧ V (r.step s.path g.name) q')
    (hfinished : ∀ q, ∀ g ∈ order.groups, c.Walked o q s g.name →
      (∀ r ∈ c.references x, V (r.step s.path g.name) q) → N q (some x) s.path g.name)
    (h : (c.runSubject visit s order).exec p = (.ok (), q)) (hq : c.stops q = false) :
    c.Advances N p q ∧ ∀ g ∈ order.groups, .began (some x) s.path g.name ∈ q.journal := by
  obtain ⟨y, hy, hm⟩ := hs.object
  obtain rfl : x = y := by simpa [hx] using hy
  obtain ⟨p₁, p₂, hfit, hconstraints, hcascades⟩ := exec_runSubject_ok hsequences h
  have hp₁ := ((follows_cascades p).requireFit hm order).kept hfit (.refl hp.remembers)
  have hquiet := (quiet_requireFit s order).kept hfit (.refl p)
  obtain ⟨hadv₁, hwalked⟩ := walks_advance (hp.trans hp₁) hconstraints
    (not_stops_of_each hcascades hq)
  have hbegun : ∀ g ∈ order.groups, .began (some x) s.path g.name ∈ p₂.journal := fun g hg =>
    hx ▸ (hwalked g hg).1
  have hwalks : c.Advances (fun _ _ _ _ => True) p p₂ :=
    (hquiet.advances hp₁).trans (fun _ _ _ _ _ _ => id) (hadv₁.mono fun _ _ _ _ => trivial)
  obtain ⟨hadv₂, hvisited⟩ := advances_each (α := Group) (P := P)
    (V := fun g q => ∀ r ∈ c.references x, V (r.step s.path g.name) q) hN hP
    (fun g q r hv hqr ref href => hV _ q r (hv ref href) hqr) hremembers
    (fun g hg q r hq h hr =>
      runCascades_advances hN hP hremembers hV hs hx (hvisit g hg) hq h hr)
    hcascades hq (hstart p₂ ((hp.trans hp₁).trans hadv₁.follows) hwalks hbegun)
  refine ⟨⟨hwalks.follows.trans hadv₂.follows, hadv₂.chain.trans hwalks.chain, ?_, ?_⟩,
    fun g hg => hadv₂.follows.extends.journal.subset (hbegun g hg)⟩
  · intro object path hmem
    rcases hadv₂.paths object path hmem with hmem | hbegan
    · exact (hwalks.paths object path hmem).imp_right fun ⟨group, hbegan⟩ =>
        ⟨group, hadv₂.follows.extends.journal.subset hbegan⟩
    · exact .inr hbegan
  · intro object path group hmem
    rcases hadv₂.began object path group hmem with hmem | hn
    · rcases hadv₁.began object path group hmem with hmem | ⟨rfl, rfl, g, hg, rfl⟩
      · exact .inl (hquiet.began object path group hmem)
      · rw [hx]
        exact .inr (hfinished q g hg ((hwalked g hg).2.mono hadv₂.follows) (hvisited g hg))
    · exact .inr hn

/-- The validation of a subject for groups leaves all finished that it begins. -/
theorem runSubject_closes (hR : c.Closed R) {visit : CascadeStep → Run Unit}
    (hvisit : c.Closes R o visit) {s : Subject} (hs : c.Knows s) {x : ObjectId}
    (hx : s.object = some x) {order : Order} (hsequences : order.sequences = [])
    (hgroups : order.groups ≠ []) (hRs : ∀ g ∈ order.groups, R x s.path g.name)
    (hp : c.Follows o p)
    (hpaths : ∀ object path, (object, path) ∈ p.processedPaths →
      ∃ group, .began object path group ∈ p.journal)
    (hchain : c.config.trackProcessed = false → ∀ y ∈ p.chain, y = x ∨
      ∃ path group, .began (some y) path group ∈ p.journal)
    (h : (c.runSubject visit s order).exec p = (.ok (), q)) (hq : c.stops q = false) :
    c.Advances (c.Finished R o) p q ∧
      ∀ g ∈ order.groups, .began (some x) s.path g.name ∈ q.journal := by
  refine runSubject_advances (P := fun q => c.Follows o q ∧ c.Anchored q)
    (V := fun step q => c.Visited q step.target step.path) finished_stays
    (fun q r hq hqr => ⟨hq.1.trans hqr.follows, hq.2.advance hqr⟩) (fun _ hq => hq.1.remembers)
    (fun _ _ _ hv hqr => hv.mono hqr) hs hx hsequences hp ?_ ?_ ?_ h hq
  · intro q hoq hpq hbegun
    obtain ⟨g₀, hg₀⟩ := List.exists_mem_of_ne_nil _ hgroups
    have hsub : p.journal ⊆ q.journal := hpq.follows.extends.journal.subset
    refine ⟨hoq, ?_, ?_⟩
    · intro object path hmem
      rcases hpq.paths object path hmem with hmem | hbegan
      · exact (hpaths object path hmem).imp fun _ hbegan => hsub hbegan
      · exact hbegan
    · intro htrack y hy
      rcases hchain htrack y (hpq.chain ▸ hy) with rfl | ⟨path, group, hbegan⟩
      · exact ⟨s.path, g₀.name, hbegun g₀ hg₀⟩
      · exact ⟨path, group, hsub hbegan⟩
  · intro g hg r hr q q' hq h hq'
    obtain ⟨hkeeps, hRr⟩ := hR x s.path g.name (hRs g hg) r hr
    exact hvisit _ q q' hq.1 hq.2 (hkeeps g.name)
      (by simpa [Reference.step, hkeeps g.name] using hRr) h hq'
  · intro q g hg hwalked hvisited
    exact ⟨s, x, hs, hx, rfl, rfl, hRs g hg, hwalked, hvisited⟩

theorem exec_whileOnChain_ok {id : ObjectId} {x : Run Unit}
    (h : (whileOnChain id x).exec p = (.ok (), q)) :
    ∃ r, x.exec { p with chain := id :: p.chain } = (.ok (), r) ∧
      q = { r with chain := r.chain.tail } := by
  rw [exec_whileOnChain] at h
  obtain ⟨hx, rfl⟩ := Prod.mk.inj h
  exact ⟨_, Prod.ext hx rfl, rfl⟩

/-- What a step of a cascade does that comes to its end: nothing if the call has found all it looks
for or the target counts as processed, else it validates the target, unless that is under way. -/
theorem exec_cascade_ok {depth : Nat} {step : CascadeStep}
    (h : (c.cascade (depth + 1) step).exec p = (.ok (), q)) :
    (q = p ∧ (c.stops p ∨ c.isProcessed p step)) ∨
    (c.stops p = false ∧ c.isProcessed p step = false ∧ ∃ m p₁ order p₂,
      (c.metadataOf (c.store.typeOf step.target)).exec p = (.ok m, p₁) ∧
      (Run.expanding (Order.ofGroup c.registry step.group (step.group ≠ step.source))).exec p₁ =
        (.ok order, p₂) ∧
      ((q = p₂ ∧ c.isOnChain p₂ step.target) ∨
        ∃ r, (c.runSubject (c.cascade depth)
            { object := some step.target, metadata := m, path := step.path } order).exec
            { p₂ with chain := step.target :: p₂.chain } = (.ok (), r) ∧
          q = { r with chain := r.chain.tail })) := by
  unfold Call.cascade at h
  rw [exec_bind, exec_isStopped] at h
  obtain ⟨_, _, hget, h⟩ := exec_bind_ok.1 h
  cases hget
  split at h
  · next henter =>
    simp only [Bool.and_eq_true, Bool.not_eq_true'] at henter
    obtain ⟨m, p₁, hmeta, h⟩ := exec_bind_ok.1 h
    obtain ⟨order, p₂, horder, h⟩ := exec_bind_ok.1 h
    obtain ⟨_, _, hget, h⟩ := exec_bind_ok.1 h
    cases hget
    refine .inr ⟨henter.1, henter.2, m, p₁, order, p₂, hmeta, horder, ?_⟩
    split at h
    · exact .inr (exec_whileOnChain_ok h)
    · next hchain =>
      cases h
      exact .inl ⟨rfl, by simpa using hchain⟩
  · next hskip =>
    cases h
    refine .inl ⟨rfl, ?_⟩
    cases hs : c.stops p with
    | true => exact .inl rfl
    | false =>
      rw [hs] at hskip
      exact .inr (by simpa using hskip)

/-- Without conversion a cascade goes on for the group alone. -/
theorem expanding_ofGroup_ok {group : TypeName} {order : Order}
    (h : (Run.expanding (Order.ofGroup c.registry group false)).exec p = (.ok order, q)) :
    order = { groups := [Group.plain group] } := by
  unfold Order.ofGroup at h
  split at h
  · next hg =>
    obtain rfl : group = TypeName.defaultGroup := by simpa [TypeName.isDefault] using hg
    cases h
    rfl
  · cases h
    rfl

/-- Where the metadata of an object has been looked up and an order been expanded. -/
theorem knows_of_metadata {α : Type} {x : ObjectId} {m : Metadata} {e : Expanding α} {a : α}
    (hp : c.Follows o p) (hmeta : (c.metadataOf (c.store.typeOf x)).exec p = (.ok m, q))
    (hexpand : (Run.expanding e).exec q = (.ok a, r)) (path : Path) :
    c.Knows { object := some x, metadata := m, path } ∧ c.Follows o r ∧ Quiet p r := by
  have hfollows := follows_cascades (c := c) o
  have hm := (hfollows.metadata _).answer hmeta hp
  exact ⟨⟨⟨x, rfl, hm⟩, rfl⟩, (hfollows.expand e).kept hexpand ((hfollows.metadata _).kept hmeta hp),
    (quiet_expanding e).kept hexpand ((quiet_metadataOf _).kept hmeta (.refl p))⟩

/-- Where a step of a cascade that keeps to its group enters an object. -/
theorem knows_of_entry {x : ObjectId} {group : TypeName} {m : Metadata} {order : Order}
    (hp : c.Follows o p) (hmeta : (c.metadataOf (c.store.typeOf x)).exec p = (.ok m, q))
    (horder : (Run.expanding (Order.ofGroup c.registry group false)).exec q = (.ok order, r))
    (path : Path) (chain : List ObjectId) :
    c.Knows { object := some x, metadata := m, path } ∧
      order = { groups := [Group.plain group] } ∧ c.Follows o { r with chain } ∧ Quiet p r := by
  obtain ⟨hknows, hr, hquiet⟩ := knows_of_metadata hp hmeta horder path
  exact ⟨hknows, expanding_ofGroup_ok horder, (follows_cascades o).chain r chain hr, hquiet⟩

/-- While an object is under way the rest goes on as if it were not. -/
theorem Advances.offChain (hN : N.Stays c) {x : ObjectId} (hp : c.Remembers p)
    (h : c.Advances N { p with chain := x :: p.chain } q) :
    c.Advances N p { q with chain := q.chain.tail } := by
  have hstart : c.Follows p { p with chain := x :: p.chain } :=
    (follows_cascades p).chain p _ (.refl hp)
  have hend : c.Follows q { q with chain := q.chain.tail } :=
    (follows_cascades q).chain q _ (.refl h.follows.remembers)
  refine ⟨hstart.trans (h.follows.trans hend), ?_, h.paths, ?_⟩
  · simp [h.chain]
  · intro object path group hmem
    exact (h.began object path group hmem).imp_right (hN _ _ object path group hend)

theorem visited_of_isProcessed {step : CascadeStep} (hp : c.Anchored p)
    (h : c.isProcessed p step) : c.Visited p step.target step.path := by
  simp only [Call.isProcessed, Bool.and_eq_true, List.any_eq_true, decide_eq_true_eq,
    Prod.exists] at h
  obtain ⟨-, object, path, hmem, rfl, hrelated⟩ := h
  exact (hp.paths _ path hmem).elim fun group hbegan => ⟨path, group, hbegan, fun _ => hrelated⟩

theorem visited_of_isOnChain {step : CascadeStep} (hp : c.Anchored p)
    (h : c.isOnChain p step.target) : c.Visited p step.target step.path := by
  simp only [Call.isOnChain, Bool.and_eq_true, Bool.not_eq_true', List.contains_iff_mem] at h
  obtain ⟨path, group, hbegan⟩ := hp.chain h.1 _ h.2
  exact ⟨path, group, hbegan, fun htrack => by simp [h.1] at htrack⟩

/-- A cascade leaves all finished that it begins. -/
theorem cascade_closes (hR : c.Closed R) : ∀ depth, c.Closes R o (c.cascade depth)
  | 0 => fun _ _ _ _ _ _ _ h _ => by cases h
  | depth + 1 => by
    intro step p q hp hanchored hgroup hRs h hq
    rcases exec_cascade_ok h with ⟨rfl, hskip⟩ | ⟨-, -, m, p₁, order, p₂, hmeta, horder, h⟩
    · exact ⟨.refl hp.remembers, visited_of_isProcessed hanchored (hskip.resolve_left (by simp [hq]))⟩
    obtain ⟨hknows, hpp₂, hquiet⟩ := knows_of_metadata (.refl hp.remembers) hmeta horder step.path
    have hadv₂ : c.Advances (c.Finished R o) p p₂ := hquiet.advances hpp₂
    have hanchored₂ := hanchored.advance hadv₂
    rcases h with ⟨rfl, honchain⟩ | ⟨r, hrun, rfl⟩
    · exact ⟨hadv₂, visited_of_isOnChain hanchored₂ honchain⟩
    · have hsame : decide (step.group ≠ step.source) = false := by simp [hgroup]
      rw [hsame] at horder
      obtain rfl := expanding_ofGroup_ok horder
      have hp₂ := (follows_cascades o).chain p₂ (step.target :: p₂.chain) (hp.trans hpp₂)
      obtain ⟨hadv, hbegan⟩ := runSubject_closes (x := step.target) hR (cascade_closes hR depth)
        hknows rfl rfl (by simp) (by simpa [Group.plain] using hRs) hp₂ hanchored₂.paths
        (fun htrack y hy => (List.mem_cons.1 hy).imp_right (hanchored₂.chain htrack y)) hrun hq
      exact ⟨hadv₂.trans finished_stays (hadv.offChain finished_stays hpp₂.remembers),
        step.path, _, hbegan (Group.plain step.group) (by simp), fun _ => Path.isRelatedTo_self _⟩

/-! ### The validation of an object -/

/-- The progress from which the validation of an object starts. -/
def startOf (memory : Memory) (root : ObjectId) : Progress := { memory, chain := [root] }

variable {memory : Memory} {root : ObjectId} {gs : List TypeName} {vs : List Violation}

theorem remembers_startOf (h : memory.metadata.Coherent c.registry c.config.methodRules)
    (root : ObjectId) : c.Remembers (startOf memory root) := ⟨h, by simp [startOf]⟩

/-- What a validation does that comes to its end. -/
theorem validate_ok (h : (c.validate root gs).exec p = (.ok vs, q)) :
    ∃ m p₁ order p₂, (c.metadataOf (c.store.typeOf root)).exec p = (.ok m, p₁) ∧
      (c.orderOf gs).exec p₁ = (.ok order, p₂) ∧
      (c.runSubject c.visit { object := some root, metadata := m, path := .root } order).exec p₂ =
        (.ok (), q) ∧ q.violations = vs := by
  obtain ⟨m, p₁, hm, h⟩ := exec_bind_ok.1 h
  obtain ⟨order, p₂, horder, h⟩ := exec_bind_ok.1 h
  obtain ⟨_, q', hsubject, h⟩ := exec_bind_ok.1 h
  cases h
  exact ⟨m, p₁, order, p₂, hm, horder, hsubject, rfl⟩

/-- Where a validation comes to its root. -/
theorem knows_of_start (hmemory : memory.metadata.Coherent c.registry c.config.methodRules)
    {m : Metadata} {order : Order}
    (hmeta : (c.metadataOf (c.store.typeOf root)).exec (startOf memory root) = (.ok m, q))
    (horder : (c.orderOf gs).exec q = (.ok order, r)) :
    c.Knows { object := some root, metadata := m, path := .root } ∧
      c.Follows (startOf memory root) r ∧ Quiet (startOf memory root) r := by
  exact knows_of_metadata (.refl (remembers_startOf hmemory root)) hmeta horder .root

/-- Whether a request comes to groups alone, where `R` holds of the root for each of them. -/
def AsksFor (c : Call) (root : ObjectId) (gs : List TypeName)
    (R : ObjectId → Path → TypeName → Prop) : Prop :=
  ∀ p order q, (c.orderOf gs).exec p = (.ok order, q) →
    order.sequences = [] ∧ order.groups ≠ [] ∧ ∀ g ∈ order.groups, R root .root g.name

theorem exec_expanding_ok {α : Type} {x : Expanding α} {a : α}
    (h : (Run.expanding x).exec p = (.ok a, q)) :
    ∃ cache, (x.run.run p.memory.sequences).run = (.ok a, cache) := by
  unfold Run.expanding at h
  simp only [exec_bind, exec_get, exec_set] at h
  generalize (x.run.run p.memory.sequences).run = outcome at h
  obtain ⟨a', cache⟩ := outcome
  cases a' with
  | ok a' =>
    cases h
    exact ⟨cache, rfl⟩
  | error e => cases h

/-- A request of plain groups comes to groups alone. -/
theorem exec_orderOf_ok (hgs : ∀ g ∈ gs, Order.IsPlain c.registry g) {order : Order}
    (h : (c.orderOf gs).exec p = (.ok order, q)) :
    order.sequences = [] ∧ order.groups ≠ [] ∧ order.names = Order.requested c.registry gs := by
  obtain ⟨cache, h⟩ := exec_expanding_ok h
  exact Order.ofGroups_requested hgs h

theorem asksFor_of_isPlain {R : ObjectId → Path → TypeName → Prop}
    (hgs : ∀ g ∈ gs, Order.IsPlain c.registry g) (hR : ∀ group, R root .root group) :
    c.AsksFor root gs R := by
  intro p order q h
  obtain ⟨hsequences, hgroups, -⟩ := exec_orderOf_ok hgs h
  exact ⟨hsequences, hgroups, fun g _ => hR g.name⟩

/-- The checks of a validation are told of by its walks. -/
theorem logs_validate (hmemory : memory.metadata.Coherent c.registry c.config.methodRules)
    (h : (c.validate root gs).exec (startOf memory root) = (.ok vs, q)) :
    c.Logs c.Traced (startOf memory root) q := by
  obtain ⟨m, p₁, order, p₂, hmeta, horder, hrun, -⟩ := validate_ok h
  have hlogs : KeptByCascades c (c.Logs c.Traced (startOf memory root)) AnyHalt :=
    logs_cascades traced_lasting fun _ hs group => hs.tells_traced group
  have hstart : c.Logs c.Traced (startOf memory root) (startOf memory root) :=
    .refl (remembers_startOf hmemory root)
  have hlogs₂ := (hlogs.expand _).kept horder ((hlogs.metadata _).kept hmeta hstart)
  exact (hlogs.runSubject (knows_of_start hmemory hmeta horder).1 (hlogs.cascade _) order).kept hrun
    hlogs₂

/-- Where a validation has begun, it is through at its end, unless the first violation ended it. -/
theorem validate_closes (hmemory : memory.metadata.Coherent c.registry c.config.methodRules)
    (hR : c.Closed R) (hgs : c.AsksFor root gs R)
    (h : (c.validate root gs).exec (startOf memory root) = (.ok vs, q)) (hq : c.stops q = false) :
    c.Logs c.Traced (startOf memory root) q ∧
      (∀ object path group, .began object path group ∈ q.journal →
        c.Finished R (startOf memory root) q object path group) ∧
      ∃ group, .began (some root) .root group ∈ q.journal := by
  refine ⟨logs_validate hmemory h, ?_⟩
  obtain ⟨m, p₁, order, p₂, hmeta, horder, hrun, -⟩ := validate_ok h
  obtain ⟨hknows, hp₂, hquiet⟩ := knows_of_start hmemory hmeta horder
  obtain ⟨hsequences, hgroups, hRs⟩ := hgs p₁ order p₂ horder
  obtain ⟨hadv, hbegan⟩ := runSubject_closes (x := root) hR (cascade_closes hR _) hknows rfl
    hsequences hgroups hRs hp₂
    (fun object path hmem => by simp [hquiet.paths, startOf] at hmem)
    (fun _ y hy => .inl (by simpa [hquiet.chain, startOf] using hy)) hrun hq
  obtain ⟨g, hg⟩ := List.exists_mem_of_ne_nil _ hgroups
  refine ⟨?_, g.name, hbegan g hg⟩
  intro object path group hmem
  refine (hadv.began object path group hmem).resolve_left ?_
  intro hmem
  simpa [startOf] using hquiet.began object path group hmem

/-- All that the root leads to is validated. -/
theorem begun_of_reaches {o : Progress} (hfinished : ∀ object path group,
      .began object path group ∈ q.journal → c.Finished R o q object path group)
    (hroot : ∃ group, .began (some root) .root group ∈ q.journal) {x : ObjectId}
    (hx : c.Reaches root x) : ∃ path group, .began (some x) path group ∈ q.journal := by
  induction hx with
  | root => exact ⟨_, hroot⟩
  | step _ hr ih =>
    obtain ⟨path, group, hbegan⟩ := ih
    obtain ⟨s, y, -, -, hy, -, -, -, hvisited⟩ := hfinished _ _ _ hbegan
    cases hy
    obtain ⟨path', group', hbegan', -⟩ := hvisited _ hr
    exact ⟨path', group', hbegan'⟩

end Call

namespace Validator

open Call

variable {v : Validator} {root : ObjectId} {depth : Nat} {gs : List TypeName}
  {vs : List Violation}

/-- The call that validates an object, cascading as deep as told. -/
def callWithin (v : Validator) (depth : Nat) (root : ObjectId) : Call :=
  { v.call (some root) (v.store.typeOf root) with depth }

/-- The call that validates an object. -/
abbrev callOn (v : Validator) (root : ObjectId) : Call := v.callWithin v.depth root

/-- The validation of an object that cascades as deep as told. -/
def validateWithin (v : Validator) (depth : Nat) (root : ObjectId) (gs : List TypeName) :
    Report (List Violation) :=
  v.run (v.callWithin depth root) ((v.callWithin depth root).validate root gs)

theorem validate_eq (v : Validator) (root : ObjectId) (gs : List TypeName) :
    v.validate root gs = v.validateWithin v.depth root gs := rfl

/-- Whether the metadata that a validator remembers is what would be put together again. -/
def Coherent (v : Validator) : Prop :=
  v.memory.metadata.Coherent v.registry v.config.methodRules

/-- The progress in which a validation ends. -/
theorem exec_validateWithin (v : Validator) (depth : Nat) (root : ObjectId) (gs : List TypeName) :
    ∃ q, ((v.callWithin depth root).validate root gs).exec (startOf v.memory root) =
        ((v.validateWithin depth root gs).answer, q) ∧
      q.journal = (v.validateWithin depth root gs).journal := ⟨_, rfl, rfl⟩

theorem exec_validate (v : Validator) (root : ObjectId) (gs : List TypeName) :
    ∃ q, ((v.callOn root).validate root gs).exec (startOf v.memory root) =
        ((v.validate root gs).answer, q) ∧
      q.journal = (v.validate root gs).journal := v.exec_validateWithin v.depth root gs

end Validator

end ObjectValidation
