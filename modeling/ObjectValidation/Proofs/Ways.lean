import ObjectValidation.Proofs.Conversions
/-!
# Ways between objects

A cascade leads from object to object along references, and on its way it may go over to other groups.
What it does to one object depends on the ways that lead there alone: elsewhere it may go on for any
group (`KeptAlong`). So where no way from the object back to it converts a group, it is validated for
no group but those it set out with.
-/

namespace ObjectValidation

open Run

namespace Call

variable {c : Call} {x y z : ObjectId}

/-! ### Reachable objects -/

theorem Reaches.trans (h : c.Reaches x y) (h' : c.Reaches y z) : c.Reaches x z := by
  induction h' with
  | root => exact h
  | step _ hr ih => exact ih.step hr

theorem Reaches.head {r : Reference} (hr : r ∈ c.references x) (h : c.Reaches r.target y) :
    c.Reaches x y := (Reaches.root.step hr).trans h

/-- Whether no way from an object back to it converts a group. -/
def ReturnsUnconverted (c : Call) (x : ObjectId) : Prop :=
  ∀ y, c.Reaches x y → ∀ r ∈ c.references y, c.Reaches r.target x → r.KeepsGroups

/-- Whether an object is reached from another one and validated for one of some groups, if it lies on a
way back. -/
def Heads (c : Call) (x : ObjectId) (G : List TypeName) (y : ObjectId) (g : TypeName) : Prop :=
  c.Reaches x y ∧ (c.Reaches y x → g ∈ G)

/-- A reference leads on for the same group on the way back, or to where any group may be. -/
theorem Heads.step (hx : c.ReturnsUnconverted x) {G : List TypeName} {g : TypeName}
    (h : c.Heads x G y g) {r : Reference} (hr : r ∈ c.references y) :
    (r.KeepsGroups ∧ g ∈ G) ∨ (¬ c.Reaches r.target x ∧ ∀ g', c.Heads x G r.target g') := by
  by_cases hback : c.Reaches r.target x
  · exact .inl ⟨hx y h.1 r hr hback, h.2 (hback.head hr)⟩
  · exact .inr ⟨hback, fun _ => ⟨h.1.step hr, fun h => absurd h hback⟩⟩

/-! ### What cascades along references keep -/

/-- Whether a step is passed over where `I` holds, or leads to where `R` holds. -/
def Along (c : Call) (R : ObjectId → Path → TypeName → Prop) (I : Progress → Prop)
    (step : CascadeStep) : Prop :=
  (∀ p, I p → c.isProcessed p step) ∨ (∀ g, R step.target step.path g) ∨
    (step.group = step.source ∧ R step.target step.path step.group)

/-- `I` is kept by the parts of a cascade that starts where `R` holds. -/
structure KeptAlong (c : Call) (R : ObjectId → Path → TypeName → Prop) (I : Progress → Prop) :
    Prop where
  metadata : ∀ type, Meets (c.metadataOf type) I (c.Assembles type) AnyHalt
  meaning : ∀ object type m, c.Assembles type m → Meets (c.defaultMeaning object m) I Any AnyHalt
  expand : ∀ {α : Type} (x : Expanding α), Meets (Run.expanding x) I Any AnyHalt
  chain : ∀ p chain, I p → I { p with chain }
  group : ∀ s y g, c.Knows s → s.object = some y → R y s.path g →
    Meets (c.runGroup s g) I Any AnyHalt
  steps : ∀ y path g, R y path g → ∀ r ∈ c.references y, c.Along R I (r.step path g)

/-- Without conversion a cascade goes on for the group alone. -/
theorem meets_ofGroup {I : Progress → Prop} {E : Halt → Progress → Prop} {g : TypeName}
    (h : Meets (Run.expanding (Order.ofGroup c.registry g false)) I Any E) :
    Meets (Run.expanding (Order.ofGroup c.registry g false)) I (· = { groups := [Group.plain g] })
      E := by
  intro p hp
  have hkept := h p hp
  revert hkept
  cases hexec : (Run.expanding (Order.ofGroup c.registry g false)).exec p with
  | mk a q =>
    cases a with
    | error halt => exact id
    | ok order => exact fun hkept => ⟨hkept.1, expanding_ofGroup_ok hexec⟩

namespace KeptAlong

variable {R : ObjectId → Path → TypeName → Prop} {I : Progress → Prop}

theorem runCascades (h : KeptAlong c R I) {visit : CascadeStep → Run Unit}
    (hvisit : ∀ step, c.Along R I step → Meets (visit step) I Any AnyHalt) {s : Subject}
    (hs : c.Knows s) (hy : s.object = some y) {g : TypeName} (hR : R y s.path g) :
    Meets (c.runCascades visit s g) I Any AnyHalt := by
  rw [runCascades_eq hs hy]
  refine meets_each fun step hstep => ?_
  obtain ⟨r, hr, rfl⟩ := List.mem_map.1 hstep
  exact hvisit _ (h.steps y s.path g hR r hr)

theorem runSubject (h : KeptAlong c R I) {visit : CascadeStep → Run Unit}
    (hvisit : ∀ step, c.Along R I step → Meets (visit step) I Any AnyHalt) {s : Subject}
    (hs : c.Knows s) (hy : s.object = some y) {o : Order}
    (ho : (∀ g, R y s.path g) ∨ ∃ g, o = { groups := [Group.plain g] } ∧ R y s.path g) :
    Meets (c.runSubject visit s o) I Any AnyHalt := by
  obtain ⟨x, -, hm⟩ := hs.object
  have hgroup {g : TypeName} (hR : R y s.path g) := h.group s y g hs hy hR
  have hcascades {g : TypeName} (hR : R y s.path g) := h.runCascades hvisit hs hy hR
  have hfit : Meets (c.requireFit s o) I Any AnyHalt :=
    meets_requireFit (fun _ _ _ => trivial) (h.meaning _ _ _ hm)
  refine hfit.next fun _ => ?_
  rcases ho with hall | ⟨g, rfl, hR⟩
  · exact meets_runOrder (fun g => hgroup (hall g)) fun g => hcascades (hall g)
  · have honly : ∀ g' ∈ [Group.plain g], R y s.path g'.name := fun g' hg' => by
      rwa [List.mem_singleton.1 hg']
    refine (meets_each fun g' hg' => hgroup (honly g' hg')).next fun _ => ?_
    exact (meets_each fun g' hg' => hcascades (honly g' hg')).next fun _ => meets_each (by simp)

theorem cascade (h : KeptAlong c R I) : ∀ (depth : Nat) (step : CascadeStep), c.Along R I step →
    Meets (c.cascade depth step) I Any AnyHalt
  | 0, _, _ => fun _ _ => trivial
  | depth + 1, step, hstep => by
    rcases hstep with hpass | hstep
    · intro p hp
      rw [exec_cascade_of_isProcessed (hpass p hp)]
      exact ⟨hp, trivial⟩
    -- Only a group that was converted is expanded, and then any group may come of it.
    have horder : Meets (Run.expanding
        (Order.ofGroup c.registry step.group (step.group ≠ step.source))) I
        (fun o => (∀ g, R step.target step.path g) ∨
          ∃ g, o = { groups := [Group.plain g] } ∧ R step.target step.path g) AnyHalt := by
      rcases hstep with hall | ⟨hsame, hR⟩
      · exact (h.expand _).mono fun _ _ => .inl hall
      · simp only [ne_eq, hsame, not_true_eq_false, decide_false]
        exact (meets_ofGroup (h.expand _)).mono fun _ ho => .inr ⟨_, ho, hsame ▸ hR⟩
    unfold Call.cascade
    refine meets_isStopped.next fun _ => Meets.get.any.next fun _ => .ite ?_ .unit
    refine (h.metadata _).bind fun m hm => horder.bind fun order ho => ?_
    refine Meets.get.any.next fun _ => .ite ?_ .unit
    refine meets_whileOnChain h.chain (fun _ _ _ _ => trivial) _ ?_
    exact h.runSubject (h.cascade depth) ⟨⟨step.target, rfl, hm⟩, rfl⟩ rfl ho

end KeptAlong

/-! ### Where the validation of one object begins -/

/-- What follows a progress in a call, where an object has begun only as `B` tells. -/
structure BeginsBy (c : Call) (o : Progress) (x : ObjectId) (B : Path → TypeName → Prop)
    (p : Progress) : Prop where
  follows : c.Follows o p
  served : c.MarksServed o p
  began : ∀ path g, .began (some x) path g ∈ p.journal → B path g

variable {o p q : Progress} {B : Path → TypeName → Prop} {R : ObjectId → Path → TypeName → Prop}

theorem BeginsBy.quiet (h : c.BeginsBy o x B p) (hq : c.Follows o q) (hquiet : Quiet p q) :
    c.BeginsBy o x B q where
  follows := hq
  served := h.served.mono hquiet.groups hquiet.journal
  began path g hmem := h.began path g (hquiet.began _ _ _ hmem)

theorem beginsBy_of_quiet {α : Type} {run : Run α} {Q Q' : α → Prop}
    (h : Meets run (c.Follows o) Q AnyHalt) (h' : ∀ p, Meets run (Quiet p) Q' AnyHalt) :
    Meets run (c.BeginsBy o x B) Q AnyHalt :=
  .of_ok fun p _ _ hp hexec =>
    ⟨hp.quiet (h.kept hexec hp.follows) ((h' p).kept hexec (.refl p)), h.answer hexec hp.follows⟩

theorem beginsBy_runGroup {s : Subject} (hs : c.Knows s) (hy : s.object = some y) {g : TypeName}
    (hB : x = y → B s.path g) : Meets (c.runGroup s g) (c.BeginsBy o x B) Any AnyHalt := by
  refine .of_ok fun p _ q hp hexec => ?_
  obtain ⟨hfollows, hserved⟩ := (marksServed_runGroup hs g o).kept hexec ⟨hp.follows, hp.served⟩
  refine ⟨⟨hfollows, hserved, fun path g' hmem => ?_⟩, trivial⟩
  rcases (advances_runGroup hp.follows.remembers hexec).1.began _ _ _ hmem with
    hmem | ⟨hobject, rfl, rfl⟩
  · exact hp.began path g' hmem
  · exact hB (Option.some.inj (hobject.trans hy))

/-- Along references an object begins only where it may be led to. -/
theorem keptAlong_beginsBy (hB : ∀ path g, R x path g → B path g)
    (hsteps : ∀ y path g, R y path g → ∀ r ∈ c.references y,
      c.Along R (c.BeginsBy o x B) (r.step path g)) :
    KeptAlong c R (c.BeginsBy o x B) where
  metadata type := beginsBy_of_quiet ((follows_cascades o).metadata type) fun _ =>
    quiet_metadataOf type
  meaning object type m hm := beginsBy_of_quiet ((follows_cascades o).meaning object type m hm)
    fun _ => quiet_defaultMeaning object m
  expand run := beginsBy_of_quiet ((follows_cascades o).expand run) fun _ => quiet_expanding run
  chain p chain hp := ⟨(follows_cascades o).chain p chain hp.follows, hp.served, hp.began⟩
  group _ _ g hs hy hR := beginsBy_runGroup hs hy fun hxy => hB _ g (hxy ▸ hR)
  steps := hsteps

/-- An object that a step leads to from elsewhere is validated there for no group but those that the
validation of the object set out with, if no way back converts them. -/
theorem keptAlong_heads (hx : c.ReturnsUnconverted x) {G : List TypeName}
    (hB : ∀ path, ∀ g ∈ G, B path g) :
    KeptAlong c (fun y _ => c.Heads x G y) (c.BeginsBy o x B) := by
  refine keptAlong_beginsBy (fun path g hR => hB path g (hR.2 .root)) fun y path g hR r hr => ?_
  rcases hR.step hx hr with ⟨hkeeps, hg⟩ | ⟨-, hall⟩
  · rw [hkeeps.step_eq]
    exact .inr (.inr ⟨rfl, hR.1.step hr, fun _ => hg⟩)
  · exact .inr (.inl hall)

section

variable (htrack : c.config.trackProcessed) (hx : c.ReturnsUnconverted x) {G : List TypeName}
  (hmarked : ∀ g ∈ G, Marked o (some x) .root g)

include htrack hx hmarked

/-- A step on a way back to an object that is marked at the root for all groups of the way either leads
to another object or is passed over. -/
theorem Heads.along {g : TypeName} (h : c.Heads x G y g) (path : Path) {r : Reference}
    (hr : r ∈ c.references y) :
    c.Along (fun y _ g => c.Heads x G y g ∧ y ≠ x) (c.BeginsBy o x B) (r.step path g) := by
  rcases h.step hx hr with ⟨hkeeps, hg⟩ | ⟨hback, hall⟩
  · rw [hkeeps.step_eq]
    by_cases htarget : r.target = x
    · left
      intro p hp
      rw [htarget]
      have hmark := (hmarked g hg).mono hp.follows.extends
      exact isProcessed_iff.2 ⟨htrack, hmark.1, .root, hmark.2, by
        simp [Path.isRelatedTo, Path.isRoot, Path.root]⟩
    · exact .inr (.inr ⟨rfl, ⟨h.1.step hr, fun _ => hg⟩, htarget⟩)
  · refine .inr (.inl fun g' => ⟨hall g', ?_⟩)
    rintro rfl
    exact hback .root

/-- An object that is marked at the root for all groups that its validation set out with does not begin
once more, if no way back converts them. -/
theorem keptAlong_heads_of_marked :
    KeptAlong c (fun y _ g => c.Heads x G y g ∧ y ≠ x) (c.BeginsBy o x B) :=
  keptAlong_beginsBy (fun _ _ hR => absurd rfl hR.2) fun _ path _ hR _ hr =>
    hR.1.along htrack hx hmarked path hr

end

theorem began_of_walks {s : Subject} {gs : List Group} (hp : c.Remembers p)
    (h : (c.each gs fun g => c.runGroup s g.name).exec p = (.ok (), q)) :
    c.Follows p q ∧ ∀ object path g, .began object path g ∈ q.journal →
      .began object path g ∈ p.journal ∨
        (object = s.object ∧ path = s.path ∧ g ∈ gs.map (·.name)) := by
  have hkept : Meets (c.each gs fun g => c.runGroup s g.name) (fun q => c.Follows p q ∧
      ∀ object path g, .began object path g ∈ q.journal → .began object path g ∈ p.journal ∨
        (object = s.object ∧ path = s.path ∧ g ∈ gs.map (·.name))) Any AnyHalt := by
    refine meets_each fun g hg => .of_ok fun q _ r hq hexec => ?_
    have hadv := (advances_runGroup hq.1.remembers hexec).1
    refine ⟨⟨hq.1.trans hadv.follows, fun object path g' hmem => ?_⟩, trivial⟩
    rcases hadv.began object path g' hmem with hmem | ⟨rfl, rfl, rfl⟩
    · exact hq.2 object path g' hmem
    · exact .inr ⟨rfl, rfl, List.mem_map_of_mem hg⟩
  exact hkept.kept h ⟨.refl hp, fun _ _ _ => .inl⟩

/-- The validation of an object begins it at the root alone, for the groups of the request, if no way
back to it converts them. -/
theorem validate_begins_root {memory : Memory} {gs : List TypeName} {vs : List Violation}
    (hmemory : memory.metadata.Coherent c.registry c.config.methodRules)
    (htrack : c.config.trackProcessed) (hx : c.ReturnsUnconverted x)
    (hgs : ∀ g ∈ gs, Order.IsPlain c.registry g)
    (h : (c.validate x gs).exec (startOf memory x) = (.ok vs, q)) (hq : c.stops q = false)
    {path : Path} {g : TypeName} (hbegan : .began (some x) path g ∈ q.journal) :
    path = .root ∧ g ∈ Order.requested c.registry gs := by
  obtain ⟨m, p₁, order, p₂, hmeta, horder, hrun, -⟩ := validate_ok h
  obtain ⟨hknows, hp₂, hquiet⟩ := knows_of_start hmemory hmeta horder
  obtain ⟨hsequences, -, hnames⟩ := exec_orderOf_ok hgs horder
  obtain ⟨p₃, p₄, hfit, hwalks, hcascades⟩ := exec_runSubject_ok hsequences hrun
  obtain ⟨_, -, hm⟩ := hknows.object
  have hp₃ := ((follows_cascades p₂).requireFit hm order).kept hfit (.refl hp₂.remembers)
  have hquiet₃ := (quiet_requireFit _ order).kept hfit (.refl p₂)
  -- The walks at the root mark it for all groups; the cascades behind them start from there.
  obtain ⟨hp₄, hbegan₄⟩ := began_of_walks hp₃.remembers hwalks
  have hmarked := marked_of_walks htrack hknows hwalks (not_stops_of_each hcascades hq) hp₃.remembers
  let B (path : Path) (g : TypeName) : Prop := path = .root ∧ g ∈ order.names
  have hstart : c.BeginsBy p₄ x B p₄ := by
    refine ⟨.refl hp₄.remembers, fun _ _ => .inl, fun path g hmem => ?_⟩
    refine ((hbegan₄ _ path g hmem).resolve_left fun hmem => ?_).2
    simpa [startOf] using hquiet.began _ _ _ (hquiet₃.began _ _ _ hmem)
  have hG : ∀ g ∈ order.names, Marked p₄ (some x) .root g := by
    intro name hname
    obtain ⟨g, hg, rfl⟩ := List.mem_map.1 hname
    exact hmarked g hg
  have hkept : Meets (c.each order.groups fun g => c.runCascades c.visit
      { object := some x, metadata := m, path := .root } g.name) (c.BeginsBy p₄ x B) Any AnyHalt := by
    refine meets_each fun g hg => ?_
    rw [runCascades_eq hknows rfl]
    refine meets_each fun step hstep => ?_
    obtain ⟨r, hr, rfl⟩ := List.mem_map.1 hstep
    have hheads : c.Heads x order.names x g.name := ⟨.root, fun _ => List.mem_map_of_mem hg⟩
    exact (keptAlong_heads_of_marked htrack hx hG).cascade _ _ (hheads.along htrack hx hG _ hr)
  rw [← hnames]
  exact (hkept.kept hcascades hstart).began path g hbegan

end Call

end ObjectValidation
