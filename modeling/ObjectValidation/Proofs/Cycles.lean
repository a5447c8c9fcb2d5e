import ObjectValidation.Proofs.Registries
import ObjectValidation.Proofs.Visits
/-!
# Cascades in circles

A call that tracks what is processed ends its cascades once they come upon an object on the way to
which the object has been validated before. A direct reference leaves a mark that lies on the way to
all that follows, so no object is entered directly twice in cascades within cascades. The mark that a
reference to an element leaves lies on the way to nothing, so the cascades never leave a cycle of such
references, unless something else ends them.

So a validation for plain groups ends if no cycle consists of references to elements
(`cascades_end`), and it does not come to its end if there is one whose objects are referred to as
elements alone (`cascades_go_on`).
-/

namespace ObjectValidation

open Run

namespace Call

variable {c : Call} {root : ObjectId}

/-! ### Circles -/

/-- Objects below the root each of which refers to one of them as an element. -/
def Circles (c : Call) (root : ObjectId) (C : ObjectId → Prop) : Prop :=
  (∃ x, C x) ∧ ∀ x, C x → c.Reaches root x ∧ x ≠ root ∧
    ∃ r ∈ c.references x, r.isElement ∧ C r.target

/-- Whether all references to objects are references to elements. -/
def Elemental (c : Call) (root : ObjectId) (C : ObjectId → Prop) : Prop :=
  ∀ x, c.Reaches root x → ∀ r ∈ c.references x, C r.target → r.isElement

/-- Whether references to elements lead from one object to another one, and not to the root. -/
inductive Winds (c : Call) (root : ObjectId) : ObjectId → ObjectId → Prop
  | refl {x : ObjectId} : Winds c root x x
  | step {x y : ObjectId} {r : Reference} : r ∈ c.references x → r.isElement → r.target ≠ root →
    Winds c root r.target y → Winds c root x y

theorem Winds.trans {x y z : ObjectId} (h : c.Winds root x y) (h' : c.Winds root y z) :
    c.Winds root x z := by
  induction h with
  | refl => exact h'
  | step hr he hne _ ih => exact .step hr he hne (ih h')

theorem Winds.reaches {x y : ObjectId} (h : c.Winds root x y) (hx : c.Reaches root x) :
    c.Reaches root y := by
  induction h with
  | refl => exact hx
  | step hr _ _ _ ih => exact ih (.step hx hr)

theorem Winds.ne_root {x y : ObjectId} (h : c.Winds root x y) (hx : x ≠ root) : y ≠ root := by
  induction h with
  | refl => exact hx
  | step _ _ hne _ ih => exact ih hne

/-- References to elements that lead back to where they start make a circle. -/
theorem circles_of_winds {x y : ObjectId} {r : Reference} (hx : c.Reaches root x)
    (h : c.Winds root x y) (hr : r ∈ c.references y) (he : r.isElement) (ht : r.target = x)
    (hne : x ≠ root) : c.Circles root fun z => c.Winds root x z ∧ c.Winds root z y := by
  refine ⟨⟨x, .refl, h⟩, fun z ⟨hxz, hzy⟩ => ⟨hxz.reaches hx, hxz.ne_root hne, ?_⟩⟩
  cases hzy with
  | refl => exact ⟨r, hr, he, ht ▸ .refl, ht ▸ h⟩
  | step hr' he' hne' hzy => exact ⟨_, hr', he', hxz.trans (.step hr' he' hne' .refl), hzy⟩

/-! ### Where cascades run out of depth -/

variable {p q : Progress}

/-- A subject whose cascades run out of depth has been marked for all groups of its order. -/
theorem marked_of_exhausted (htrack : c.config.trackProcessed)
    {visit : CascadeStep → Run Unit}
    (hvisit : ∀ p step, Meets (visit step) (c.Follows p) Any AnyHalt) {s : Subject} (hs : c.Knows s)
    {order : Order} (hsequences : order.sequences = []) (hp : c.Remembers p)
    (h : (c.runSubject visit s order).exec p = (.error .exhausted, q)) :
    ∃ g ∈ order.groups, ∃ r, c.Follows p r ∧
      (∀ g' ∈ order.groups, Marked r s.object s.path g'.name) ∧
      (c.runCascades visit s g.name).exec r = (.error .exhausted, q) := by
  obtain ⟨object, -, hm⟩ := hs.object
  obtain ⟨p₁, p₂, hfitted, hwalks, h⟩ := exec_runSubject_exhausted hs hsequences hp h
  obtain ⟨before, g, after, r, hgroups, hbefore, hr, h⟩ := exec_each_error h
  have hp₁ := ((follows_cascades p).requireFit hm order).kept hfitted (.refl hp)
  have hp₂ := (meets_each fun g _ => runGroup_errs s g.name p).kept hwalks hp₁
  have hr₂ : c.Follows p₂ r :=
    (meets_each fun g _ => meets_runCascades (hvisit _) g.name).kept hbefore (.refl hp₂.remembers)
  refine ⟨g, by simp [hgroups], r, hp₂.trans hr₂, ?_, h⟩
  intro g' hg'
  exact (marked_of_walks htrack hs hwalks (not_stops_of_each hbefore hr) hp₁.remembers g' hg').mono
    hr₂.extends

/-! ### Objects that are left to enter -/

/-- An object with references is one of the store. -/
theorem mem_store_of_references {x : ObjectId} {r : Reference} (hr : r ∈ c.references x) :
    ∃ o ∈ c.store.objects, o.1 = x := by
  cases hx : c.store.get? x with
  | some o => exact ⟨(x, o), Assembly.mem_of_lookup hx, rfl⟩
  | none =>
    have hnull : ∀ name, c.store.property x name = .null := by
      intro name
      simp [Store.property, Store.property?, hx]
    have hnone : ∀ (e : Element) name, e.references name .null = [] := by
      intro e name
      have hcontents : ∀ kind : ContainerKind, kind.contents .null = [] := by
        intro kind
        cases kind <;> rfl
      simp [Element.references, Value.parts, hcontents, partsIn]
    unfold references at hr
    split at hr
    · obtain ⟨name, -, hr⟩ := List.mem_flatMap.1 hr
      split at hr
      · simp at hr
      · simp [hnull, hnone] at hr
    · simp at hr

/-- The number of objects of the store that are not among those of a list. -/
def unseen (c : Call) (xs : List ObjectId) : Nat :=
  (c.store.objects.filter fun o => o.1 ∉ xs).length

theorem unseen_le (xs : List ObjectId) : c.unseen xs ≤ c.store.objects.length :=
  List.length_filter_le _ _

theorem unseen_cons_lt {x : ObjectId} {xs : List ObjectId} (hx : x ∉ xs)
    (hmem : ∃ o ∈ c.store.objects, o.1 = x) : c.unseen (x :: xs) < c.unseen xs := by
  obtain ⟨o, ho, rfl⟩ := hmem
  have hlt := Registry.length_flatMap_filter_add_le (fun o => [o]) (p := fun o' => o'.1 ∉ o.1 :: xs)
    (q := fun o' => o'.1 ∉ xs) (by simp_all) (by simp) (by simpa using hx) ho
  exact Nat.lt_of_succ_le (by simpa [unseen] using hlt)

/-! ### Cascades that end -/

/-- What a call has behind it where it cascades from an object at a path: the objects entered directly,
which have left marks on the way to the path, and the objects that references to elements have led
through since the last one of these. -/
structure Trail (c : Call) (root : ObjectId) (p : Progress) (group : TypeName) (x : ObjectId)
    (path : Path) (entered segment : List ObjectId) : Prop where
  isOpen : path.Open
  root_mem : root ∈ entered
  marked : ∀ y ∈ entered, ∃ way : Path, Marked p (some y) way group ∧ way.Named ∧
    way.nodes <+: path.nodes
  mem : x ∈ segment
  winds : ∀ y ∈ segment, c.Reaches root y ∧ c.Winds root y x

namespace Trail

variable {group : TypeName} {x : ObjectId} {path : Path} {entered segment : List ObjectId}
  {r : Reference}

theorem reaches (h : c.Trail root p group x path entered segment) : c.Reaches root x :=
  (h.winds x h.mem).1

/-- A step that is not passed over leads to no object that has been entered directly. -/
theorem notMem_entered (h : c.Trail root p group x path entered segment)
    (htrack : c.config.trackProcessed) (hpq : p.Extends q)
    (hr : c.isProcessed q ⟨r.target, r.place path, group, group⟩ = false) : r.target ∉ entered := by
  intro hmem
  obtain ⟨way, hmarked, hnamed, hprefix⟩ := h.marked _ hmem
  have hrelated : (r.place path).isRelatedTo way := by
    simp [Path.isRelatedTo, Path.isSubPathOf_of_prefix (r.prefix_place hnamed hprefix)]
  have hprocessed : c.isProcessed q ⟨r.target, r.place path, group, group⟩ := by
    simp only [Call.isProcessed, htrack, Bool.true_and, Bool.and_eq_true, List.contains_iff_mem,
      List.any_eq_true, decide_eq_true_eq]
    exact ⟨hpq.groups hmarked.1, _, hpq.paths hmarked.2, rfl, hrelated⟩
  simp [hprocessed] at hr

theorem direct (h : c.Trail root p group x path entered segment) (hr : r ∈ c.references x)
    (he : r.isElement = false) (hpq : p.Extends q)
    (hmarked : Marked q (some r.target) (r.place path) group) :
    c.Trail root q group r.target (r.place path) (r.target :: entered) [r.target] where
  isOpen := r.place_open h.isOpen
  root_mem := List.mem_cons_of_mem _ h.root_mem
  marked := List.forall_mem_cons.2 ⟨⟨_, hmarked, r.place_named h.isOpen he, List.prefix_refl _⟩,
    fun y hy => (h.marked y hy).imp fun _ ⟨hm, hnamed, hprefix⟩ =>
      ⟨hm.mono hpq, hnamed, r.prefix_place hnamed hprefix⟩⟩
  mem := by simp
  winds := by simpa using ⟨h.reaches.step hr, .refl⟩

theorem element (h : c.Trail root p group x path entered segment) (hr : r ∈ c.references x)
    (he : r.isElement) (hne : r.target ≠ root) (hpq : p.Extends q) :
    c.Trail root q group r.target (r.place path) entered (r.target :: segment) where
  isOpen := r.place_open h.isOpen
  root_mem := h.root_mem
  marked y hy := (h.marked y hy).imp fun _ ⟨hm, hnamed, hprefix⟩ =>
    ⟨hm.mono hpq, hnamed, r.prefix_place hnamed hprefix⟩
  mem := by simp
  winds := List.forall_mem_cons.2 ⟨⟨h.reaches.step hr, .refl⟩, fun y hy =>
    ⟨(h.winds y hy).1, (h.winds y hy).2.trans (.step hr he hne .refl)⟩⟩

end Trail

/-- How much is left to enter: objects directly, and between two of these objects as elements. -/
def remaining (c : Call) (entered segment : List ObjectId) : Nat :=
  c.unseen entered * (c.store.objects.length + 1) + c.unseen segment

theorem remaining_lt_of_direct {x : ObjectId} {entered : List ObjectId} (segment segment' : List ObjectId)
    (hx : x ∉ entered) (hmem : ∃ o ∈ c.store.objects, o.1 = x) :
    c.remaining (x :: entered) segment' < c.remaining entered segment := by
  have hle := unseen_le (c := c) segment'
  have hmul := Nat.mul_le_mul_right (c.store.objects.length + 1) (unseen_cons_lt hx hmem)
  rw [Nat.succ_mul] at hmul
  unfold remaining
  omega

theorem remaining_lt_of_element {x : ObjectId} (entered : List ObjectId) {segment : List ObjectId}
    (hx : x ∉ segment) (hmem : ∃ o ∈ c.store.objects, o.1 = x) :
    c.remaining entered (x :: segment) < c.remaining entered segment :=
  Nat.add_lt_add_left (unseen_cons_lt hx hmem) _

/-- Without circles, cascades do not run out of a depth that leaves room for all that is left. -/
theorem runCascades_ends (htrack : c.config.trackProcessed)
    (hkeeps : ∀ x, ∀ r ∈ c.references x, r.KeepsGroups) (hno : ∀ C, ¬ c.Circles root C) :
    ∀ {depth : Nat} {p q : Progress} {s : Subject} {x : ObjectId} {group : TypeName}
      {entered segment : List ObjectId}, c.Knows s → s.object = some x →
      c.Trail root p group x s.path entered segment → c.Remembers p →
      c.remaining entered segment < depth →
      (c.runCascades (c.cascade depth) s group).exec p ≠ (.error .exhausted, q)
  | 0, _, _, _, _, _, _, _, _, _, _, _, hdepth => absurd hdepth (Nat.not_lt_zero _)
  | depth + 1, p, q, s, x, group, entered, segment, hs, hx, htrail, hp, hdepth => by
    intro h
    rw [runCascades_eq hs hx] at h
    obtain ⟨before, step, after, o, hsteps, hbefore, -, h⟩ := exec_each_error h
    obtain ⟨r, hr, rfl⟩ := List.mem_map.1 (hsteps ▸ by simp :
      step ∈ (c.references x).map (·.step s.path group))
    have ho := (meets_each fun step _ => (follows_cascades p).cascade _ step).kept hbefore (.refl hp)
    rw [(hkeeps x r hr).step_eq s.path group] at h
    obtain ⟨hfresh, m, p₁, order, p₂, q', hmeta, horder, h⟩ := exec_cascade_exhausted h
    simp only [ne_eq, not_true_eq_false, decide_false] at horder
    obtain ⟨hknows, rfl, hp₂, -⟩ := knows_of_entry ho hmeta horder (r.place s.path)
      (r.target :: p₂.chain)
    obtain ⟨g, hg, p₃, hp₃, hmarked, h⟩ := marked_of_exhausted htrack
      (fun p step => (follows_cascades p).cascade depth step) hknows rfl hp₂.remembers h
    obtain rfl := List.mem_singleton.1 hg
    have hextends := (hp₂.trans hp₃).extends
    -- The cascades of the target have a step, so it is an object of the store.
    have hstore : ∃ o ∈ c.store.objects, o.1 = r.target := by
      have h' := h
      rw [runCascades_eq hknows rfl] at h'
      obtain ⟨_, next, _, _, hnext, -⟩ := exec_each_error h'
      obtain ⟨r', hr', -⟩ := List.mem_map.1 (hnext ▸ by simp :
        next ∈ (c.references r.target).map (·.step (r.place s.path) group))
      exact mem_store_of_references hr'
    have hentered := htrail.notMem_entered htrack ho.extends hfresh
    cases he : r.isElement with
    | false =>
      have hlt := remaining_lt_of_direct segment [r.target] hentered hstore
      exact runCascades_ends htrack hkeeps hno hknows rfl
        (htrail.direct hr he hextends (hmarked _ hg)) (hp₂.trans hp₃).remembers (by omega) h
    | true =>
      have hne : r.target ≠ root := fun heq => hentered (heq ▸ htrail.root_mem)
      have hsegment : r.target ∉ segment := fun hmem =>
        hno _ (circles_of_winds (htrail.winds _ hmem).1 (htrail.winds _ hmem).2 hr he rfl hne)
      have hlt := remaining_lt_of_element entered hsegment hstore
      exact runCascades_ends htrack hkeeps hno hknows rfl (htrail.element hr he hne hextends)
        (hp₂.trans hp₃).remembers (by omega) h

/-- Without circles a validation does not run out of depth. -/
theorem validate_not_exhausted {memory : Memory} {gs : List TypeName}
    (hmemory : memory.metadata.Coherent c.registry c.config.methodRules)
    (htrack : c.config.trackProcessed) (hconversions : c.registry.WithoutConversions)
    (hgs : ∀ g ∈ gs, Order.IsPlain c.registry g) (hno : ∀ C, ¬ c.Circles root C)
    (hdepth : (c.store.objects.length + 1) * (c.store.objects.length + 1) ≤ c.depth) :
    (c.validate root gs).exec (startOf memory root) ≠ (.error .exhausted, q) := by
  intro h
  obtain ⟨m, p₁, order, p₂, hmeta, horder, h⟩ := validate_exhausted h
  obtain ⟨hknows, hp₂, -⟩ := knows_of_start hmemory hmeta horder
  obtain ⟨hsequences, -, -⟩ := exec_orderOf_ok hgs horder
  obtain ⟨g, hg, r, hr, hmarked, h⟩ := marked_of_exhausted htrack
    (fun p step => (follows_cascades p).cascade c.depth step) hknows hsequences hp₂.remembers h
  have htrail : c.Trail root r g.name root .root [root] [root] :=
    ⟨Path.named_root.open, by simp,
      by simpa using ⟨.root, hmarked g hg, Path.named_root, List.prefix_refl _⟩, by simp,
      by simpa using ⟨.root, .refl⟩⟩
  refine runCascades_ends htrack (fun x r hr => keepsGroups_of_withoutConversions hconversions hr) hno
    hknows rfl htrail hr.remembers ?_ h
  have hle := unseen_le (c := c) [root]
  have hmul := Nat.mul_le_mul_right (c.store.objects.length + 1) hle
  rw [Nat.succ_mul] at hdepth
  unfold remaining
  omega

/-! ### Cascades that go on -/

/-- No path at which something has begun is longer than all others. -/
theorem exists_bound (es : List Event) :
    ∃ n, ∀ object (path : Path) group, .began object path group ∈ es → path.nodes.length ≤ n := by
  induction es with
  | nil => exact ⟨0, by simp⟩
  | cons e es ih =>
    obtain ⟨n, hn⟩ := ih
    cases e with
    | began object path group =>
      refine ⟨max path.nodes.length n, ?_⟩
      intro object' path' group' hmem
      rcases List.mem_cons.1 hmem with heq | hmem
      · cases heq
        exact Nat.le_max_left _ _
      · exact Nat.le_trans (hn _ _ _ hmem) (Nat.le_max_right _ _)
    | _ => exact ⟨n, by simpa using hn⟩

/-- Whether an object may be entered at a path: as an element, if it belongs to a circle. -/
def EntersAt (c : Call) (root : ObjectId) (C : ObjectId → Prop) (x : ObjectId) (path : Path)
    (_ : TypeName) : Prop := c.Reaches root x ∧ path.Open ∧ (C x → path.isElement)

theorem closed_entersAt (hconversions : c.registry.WithoutConversions) {C : ObjectId → Prop}
    (helement : c.Elemental root C) : c.Closed (c.EntersAt root C) := fun x _ _ hR r hr =>
  ⟨keepsGroups_of_withoutConversions hconversions hr, hR.1.step hr, r.place_open hR.2.1, fun ht => by
    rw [r.place_isElement hR.2.1]
    exact helement x hR.1 r hr ht⟩

/-- Where all that begins is finished, a circle that an object belongs to is followed along a longer
path. -/
theorem begun_further (htrack : c.config.trackProcessed) {C : ObjectId → Prop}
    (hC : c.Circles root C) {o q : Progress} (hfinished : ∀ object path group,
      .began object path group ∈ q.journal → c.Finished (c.EntersAt root C) o q object path group)
    {x : ObjectId} (hx : C x) {path : Path} {group : TypeName}
    (hbegan : .began (some x) path group ∈ q.journal) : ∃ y path' group', C y ∧
      .began (some y) path' group' ∈ q.journal ∧ path.nodes.length < path'.nodes.length := by
  obtain ⟨s, y, -, -, hy, -, hR, -, hvisited⟩ := hfinished _ _ _ hbegan
  cases hy
  obtain ⟨-, -, r, hr, he, ht⟩ := hC.2 x hx
  obtain ⟨path', group', hbegan', hrelated⟩ := hvisited r hr
  obtain ⟨s', y', -, -, hy', -, hR', -⟩ := hfinished _ _ _ hbegan'
  cases hy'
  refine ⟨r.target, path', group', ht, hbegan', ?_⟩
  have hlength : (r.place path).nodes.length = path.nodes.length + 1 :=
    r.length_place he (hR.2.2 hx)
  refine Nat.not_le.1 ?_
  intro hle
  have hunrelated := Path.isRelatedTo_eq_false (p := r.place path) (q := path')
    (r.place_open hR.2.1) (hR'.2.2 ht) (by omega)
  simp [hrelated htrack] at hunrelated

/-- The objects of a circle that are entered as elements alone are never through. -/
theorem stops_of_circles {memory : Memory} {gs : List TypeName} {vs : List Violation}
    (hmemory : memory.metadata.Coherent c.registry c.config.methodRules)
    (htrack : c.config.trackProcessed) (hconversions : c.registry.WithoutConversions)
    (hgs : ∀ g ∈ gs, Order.IsPlain c.registry g) {C : ObjectId → Prop} (hC : c.Circles root C)
    (helement : c.Elemental root C)
    (h : (c.validate root gs).exec (startOf memory root) = (.ok vs, q)) : c.stops q := by
  refine Bool.not_eq_false _ ▸ ?_
  intro hq
  have hasks : c.AsksFor root gs (c.EntersAt root C) :=
    asksFor_of_isPlain hgs fun _ => ⟨.root, Path.named_root.open, fun hroot =>
      absurd rfl (hC.2 root hroot).2.1⟩
  obtain ⟨-, hfinished, hroot⟩ :=
    validate_closes hmemory (closed_entersAt hconversions helement) hasks h hq
  -- The circle is followed along longer and longer paths.
  have hlong : ∀ n, ∃ x path group, C x ∧ .began (some x) path group ∈ q.journal ∧
      n ≤ path.nodes.length := by
    intro n
    induction n with
    | zero =>
      obtain ⟨x, hx⟩ := hC.1
      obtain ⟨path, group, hbegan⟩ := begun_of_reaches hfinished hroot (hC.2 x hx).1
      exact ⟨x, path, group, hx, hbegan, Nat.zero_le _⟩
    | succ n ih =>
      obtain ⟨x, path, group, hx, hbegan, hn⟩ := ih
      obtain ⟨y, path', group', hy, hbegan', hlt⟩ := begun_further htrack hC hfinished hx hbegan
      exact ⟨y, path', group', hy, hbegan', hn.trans_lt hlt⟩
  obtain ⟨n, hn⟩ := exists_bound q.journal
  obtain ⟨x, path, group, -, hbegan, hlt⟩ := hlong (n + 1)
  have := hn _ _ _ hbegan
  omega

end Call

namespace Validator

open Call

variable {v : Validator} {root : ObjectId} {gs : List TypeName}

theorem le_depth (v : Validator) :
    (v.store.objects.length + 1) * (v.store.objects.length + 1) ≤ v.depth := by
  have hobjects : (v.store.objects.length + 1) * (v.store.objects.length + 1) ≤
      Nat.pow (v.store.objects.length + 2) 2 := by
    rw [Nat.pow_eq, Nat.pow_two]
    exact Nat.mul_le_mul (Nat.le_succ _) (Nat.le_succ _)
  exact Nat.le_trans hobjects (Nat.le_mul_of_pos_right _ (Nat.pow_pos (Nat.succ_pos _)))

/-- How deep a call may go has no part in what objects lead to. -/
theorem reaches_within {depth depth' : Nat} {x : ObjectId}
    (h : (v.callWithin depth root).Reaches root x) : (v.callWithin depth' root).Reaches root x := by
  induction h with
  | root => exact .root
  | step _ hr ih => exact .step ih hr

theorem circles_within {depth depth' : Nat} {C : ObjectId → Prop}
    (h : (v.callWithin depth root).Circles root C) : (v.callWithin depth' root).Circles root C :=
  ⟨h.1, fun x hx => ⟨reaches_within (h.2 x hx).1, (h.2 x hx).2⟩⟩

/-- If no objects below the root refer to each other in circles as elements, a validation for plain
groups never runs out of depth. -/
theorem cascades_end (hv : v.Coherent) (htrack : v.config.trackProcessed)
    (hconversions : v.registry.WithoutConversions)
    (hgs : ∀ g ∈ gs, Order.IsPlain v.registry g)
    (hno : ∀ C, ¬ (v.callOn root).Circles root C) (depth : Nat) (hdepth : v.depth ≤ depth) :
    (v.validateWithin depth root gs).answer ≠ .error .exhausted := by
  intro h
  obtain ⟨q, hexec, -⟩ := v.exec_validateWithin depth root gs
  rw [h] at hexec
  exact validate_not_exhausted (c := v.callWithin depth root) hv htrack hconversions hgs
    (fun C hC => hno C (circles_within hC)) (Nat.le_trans v.le_depth hdepth) hexec

/-- If objects that are entered as elements alone refer to each other in circles, no depth is enough
for a validation to come to its end, unless the first violation ends it. -/
theorem cascades_go_on (hv : v.Coherent) (htrack : v.config.trackProcessed)
    (hconversions : v.registry.WithoutConversions)
    (hgs : ∀ g ∈ gs, Order.IsPlain v.registry g) {C : ObjectId → Prop}
    (hC : (v.callOn root).Circles root C)
    (helement : (v.callOn root).Elemental root C)
    (depth : Nat) (vs : List Violation) (h : (v.validateWithin depth root gs).answer = .ok vs) :
    v.config.failFast ∧ vs ≠ [] := by
  obtain ⟨q, hexec, -⟩ := v.exec_validateWithin depth root gs
  rw [h] at hexec
  have hstop : (v.callWithin depth root).stops q := stops_of_circles (c := v.callWithin depth root) hv
    htrack hconversions hgs (circles_within hC) (fun x hx => helement x (reaches_within hx)) hexec
  obtain ⟨-, -, -, -, -, -, -, hvs⟩ := validate_ok hexec
  simpa [Call.stops, hvs, callWithin, Validator.call] using hstop

/-- When the cascades of a validation for plain groups come to an end. They do if no objects below the
root refer to each other in circles as elements, and they do not if objects do that are entered as
elements alone, unless the first violation ends them. Where no class redefines the default group, they
end just as the tours for the groups of the request end, which depend on references alone. -/
theorem validate_ends (hv : v.Coherent) (htrack : v.config.trackProcessed)
    (hconversions : v.registry.WithoutConversions)
    (hgs : ∀ g ∈ gs, Order.IsPlain v.registry g) :
    ((∀ C, ¬ (v.callOn root).Circles root C) → ∀ depth, v.depth ≤ depth →
      (v.validateWithin depth root gs).answer ≠ .error .exhausted) ∧
    (∀ C, (v.callOn root).Circles root C → (v.callOn root).Elemental root C → ∀ depth vs,
      (v.validateWithin depth root gs).answer = .ok vs → v.config.failFast ∧ vs ≠ []) ∧
    (v.registry.WithoutRedefinitions → ∀ depth,
      ((v.validateWithin depth root gs).answer = .error .exhausted →
        ¬ (v.callWithin depth root).ToursEnd root (Order.requested v.registry gs)) ∧
      ∀ vs, (v.validateWithin depth root gs).answer = .ok vs → ¬ (v.config.failFast ∧ vs ≠ []) →
        (v.callWithin depth root).ToursEnd root (Order.requested v.registry gs)) := by
  refine ⟨fun hno depth hdepth => cascades_end hv htrack hconversions hgs hno depth hdepth,
    fun C hC helement depth vs h => cascades_go_on hv htrack hconversions hgs hC helement depth vs h,
    ?_⟩
  intro hredefinitions depth
  have hord := ordinary_of_withoutRedefinitions (c := v.callWithin depth root) hredefinitions
  have hkeeps : ∀ x, ∀ r ∈ (v.callWithin depth root).references x, r.KeepsGroups := fun x r hr =>
    keepsGroups_of_withoutConversions hconversions hr
  obtain ⟨q, hexec, -⟩ := v.exec_validateWithin depth root gs
  refine ⟨?_, ?_⟩
  · intro h
    rw [h] at hexec
    exact validate_strays (c := v.callWithin depth root) htrack hkeeps hord hv hgs hexec
  · intro vs h hgoes
    rw [h] at hexec
    obtain ⟨-, -, -, -, -, -, -, hvs⟩ := validate_ok hexec
    have hq : (v.callWithin depth root).stops q = false := by
      simpa [Call.stops, hvs, callWithin, Validator.call] using hgoes
    obtain ⟨legs, hnames, htoured, -⟩ := validate_tours (c := v.callWithin depth root) htrack hkeeps
      hord hv hgs hexec hq
    exact ⟨legs, hnames, htoured⟩

/-! ### Nodes in circles -/

/-- A validator of nodes, which may refer to a next node and to a list of kids. -/
def nodes (objects : List (ObjectId × Object)) : Validator where
  registry := [{ name := ⟨"Node"⟩, kind := .concrete, fields := [
      ⟨"next", { own := { cascading := true } }⟩,
      ⟨"kids", { containers := [(.listElement, { cascading := true })] }⟩] : TypeDefinition }
    ].foldl Registry.register .initial
  evaluators := Standard.evaluators
  config := {}
  store := ⟨objects⟩
  memory := {}

/-- Two nodes that are next to each other. The one is a kid of the root, which is a kid of that one. -/
def ringed : Validator := nodes
  [(⟨"root"⟩, ⟨⟨"Node"⟩, [("kids", .list [.object ⟨"a"⟩])]⟩),
    (⟨"a"⟩, ⟨⟨"Node"⟩, [("next", .object ⟨"b"⟩), ("kids", .list [.object ⟨"root"⟩])]⟩),
    (⟨"b"⟩, ⟨⟨"Node"⟩, [("next", .object ⟨"a"⟩)]⟩)]

/-- Circles of direct references and circles through the root come to an end. -/
theorem validate_ends_ringed :
    (∀ C, ¬ (ringed.callOn ⟨"root"⟩).Circles ⟨"root"⟩ C) ∧ ∀ depth, ringed.depth ≤ depth →
      (ringed.validateWithin depth ⟨"root"⟩ []).answer ≠ .error .exhausted := by
  have hreferences : ∀ x ∈ [(⟨"root"⟩ : ObjectId), ⟨"a"⟩, ⟨"b"⟩],
      ∀ r ∈ (ringed.callOn ⟨"root"⟩).references x, r.target ∈ [(⟨"root"⟩ : ObjectId), ⟨"a"⟩, ⟨"b"⟩] ∧
        (x ≠ ⟨"root"⟩ → r.isElement → r.target = ⟨"root"⟩) := by
    decide +kernel
  have hno : ∀ C, ¬ (ringed.callOn ⟨"root"⟩).Circles ⟨"root"⟩ C := by
    intro C hC
    obtain ⟨x, hx⟩ := hC.1
    obtain ⟨hreaches, hne, r, hr, he, ht⟩ := hC.2 x hx
    have hmem := hreaches.mem (by simp) fun y hy r hr => (hreferences y hy r hr).1
    exact (hC.2 _ ht).2.1 ((hreferences x hmem r hr).2 hne he)
  have hcoherent : ringed.Coherent := MetadataCache.coherent_nil _ _
  exact ⟨hno, (validate_ends hcoherent (by decide) (by decide +kernel) (by simp)).1 hno⟩

/-- A node that is a kid of the root and of itself. -/
def looped : Validator := nodes
  [(⟨"root"⟩, ⟨⟨"Node"⟩, [("kids", .list [.object ⟨"x"⟩])]⟩),
    (⟨"x"⟩, ⟨⟨"Node"⟩, [("kids", .list [.object ⟨"x"⟩])]⟩)]

/-- A circle of kids below the root is followed without an end. -/
theorem kids_in_circles_go_on :
    (looped.callOn ⟨"root"⟩).Circles ⟨"root"⟩ (· = ⟨"x"⟩) ∧
      looped.config = {} ∧ looped.registry.WithoutConversions ∧
      (∀ depth vs, (looped.validateWithin depth ⟨"root"⟩ []).answer ≠ .ok vs) ∧
      (looped.validateWithin 20 ⟨"root"⟩ []).answer matches .error .exhausted := by
  have hreferences : ∀ x ∈ [(⟨"root"⟩ : ObjectId), ⟨"x"⟩],
      ∀ r ∈ (looped.callOn ⟨"root"⟩).references x,
        r.target ∈ [(⟨"root"⟩ : ObjectId), ⟨"x"⟩] ∧ r.isElement := by
    decide +kernel
  have hedge : ∀ x ∈ [(⟨"root"⟩ : ObjectId), ⟨"x"⟩],
      ∃ r ∈ (looped.callOn ⟨"root"⟩).references x, r.target = ⟨"x"⟩ ∧ r.isElement := by
    decide +kernel
  have hcircle : (looped.callOn ⟨"root"⟩).Circles ⟨"root"⟩ (· = ⟨"x"⟩) := by
    refine ⟨⟨_, rfl⟩, ?_⟩
    rintro _ rfl
    obtain ⟨r, hr, ht, he⟩ := hedge ⟨"x"⟩ (by simp)
    obtain ⟨r', hr', ht', -⟩ := hedge ⟨"root"⟩ (by simp)
    exact ⟨ht' ▸ .step .root hr', by decide, r, hr, he, ht⟩
  have helement : (looped.callOn ⟨"root"⟩).Elemental ⟨"root"⟩ (· = ⟨"x"⟩) := by
    intro x hx r hr _
    have hmem := hx.mem (by simp) fun y hy r hr => (hreferences y hy r hr).1
    exact (hreferences x hmem r hr).2
  have hcoherent : looped.Coherent := MetadataCache.coherent_nil _ _
  refine ⟨hcircle, rfl, by decide +kernel, ?_, by decide +kernel⟩
  intro depth vs h
  cases (cascades_go_on hcoherent (by decide) (by decide +kernel) (by simp) hcircle helement depth vs
    h).1

/-- Nodes of which one is a kid of itself, and is entered directly from a kid `p` of the root and as an
element behind a kid `q`. -/
def chequered (kids : List Value) : Validator := nodes
  [(⟨"root"⟩, ⟨⟨"Node"⟩, [("kids", .list kids)]⟩),
    (⟨"p"⟩, ⟨⟨"Node"⟩, [("next", .object ⟨"x"⟩)]⟩),
    (⟨"q"⟩, ⟨⟨"Node"⟩, [("next", .object ⟨"y"⟩)]⟩),
    (⟨"y"⟩, ⟨⟨"Node"⟩, [("kids", .list [.object ⟨"x"⟩])]⟩),
    (⟨"x"⟩, ⟨⟨"Node"⟩, [("kids", .list [.object ⟨"x"⟩])]⟩)]

-- Whether a circle that is entered in both ways is left depends on which comes first.
example : ((chequered [.object ⟨"p"⟩, .object ⟨"q"⟩]).validate ⟨"root"⟩ []).answer matches .ok [] := by
  decide +kernel

example : ((chequered [.object ⟨"q"⟩, .object ⟨"p"⟩]).validateWithin 20 ⟨"root"⟩ []).answer
    matches .error .exhausted := by
  decide +kernel

end Validator

end ObjectValidation
