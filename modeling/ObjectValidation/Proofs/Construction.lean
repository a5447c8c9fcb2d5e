import ObjectValidation.Proofs.Clean
import ObjectValidation.Proofs.Findings
import ObjectValidation.Proofs.Marks
import ObjectValidation.Proofs.Ways
/-!
# What constructors made

An object that a constructor made is the root of the call that validates it as a returned value. But no
walk of the call begins there: the object is met by a cascade, at the path of the returned value. A call
that tracks what is processed takes the object for one that has not been validated yet, and finds there
what a validation of the object finds (`finds_constructed`). A call that keeps to the chain of objects
under way finds the root on it from the start, and validates nothing (`begins_nothing`).
-/

namespace ObjectValidation

open Run

/-! ### Paths behind others -/

namespace Path

/-- The path as one from where another path starts. -/
def behind (way p : Path) : Path := ⟨way.nodes ++ p.nodes⟩

theorem behind_root (way : Path) : way.behind root = way := by simp [behind, root]

theorem behind_property {way : Path} (hway : way.Named) (p : Path) (name : String) :
    (way.behind p).property name = way.behind (p.property name) := by
  unfold behind property
  congr 1
  rcases List.eq_nil_or_concat p.nodes with hp | ⟨ns, n, hp⟩
  · rcases List.eq_nil_or_concat way.nodes with hw | ⟨ms, m, hw⟩
    · simp [hp, hw, nameLast]
    · have hm : ¬ m.name.isNone := by simpa using Option.isSome_iff_ne_none.1 (hway m (by simp [hw]))
      rw [hp, hw, List.append_nil, List.concat_eq_append, nameLast_concat, if_neg hm]
      simp [nameLast]
  · rw [hp, List.concat_eq_append, ← List.append_assoc, nameLast_concat, nameLast_concat]
    split <;> simp

theorem behind_element (way p : Path) (position : Option Position) :
    (way.behind p).element position = way.behind (p.element position) := by
  simp [behind, element]

end Path

theorem BoundConstraint.targets_behind {way : Path} (hway : way.Named) (b : BoundConstraint)
    (path : Path) (value : Value) : b.targets (way.behind path) value =
      (b.targets path value).map fun target => (way.behind target.1, target.2) := by
  unfold targets
  split
  · rfl
  · simp [Path.behind_element, Path.behind_property hway]

/-- The subject at another path. -/
def Subject.at (s : Subject) (path : Path) : Subject := { s with path }

/-- A subject applies its constraints behind the places where it does if it is at the root. -/
theorem Subject.place_at {s : Subject} (hs : s.path = .root) {way : Path} (hway : way.Named)
    {store : Store} {b : BoundConstraint} {path : Path} {value : Value}
    (h : s.place store b = some (path, value)) :
    (s.at way).place store b = some (way.behind path, value) := by
  unfold place at h ⊢
  split at h
  · next hincludes =>
    rw [if_pos (show (s.at way).includes b.location from hincludes)]
    split at h
    · cases h
      rw [hs, Path.behind_root]
      rfl
    · cases h
      rw [hs, ← Path.behind_property hway, Path.behind_root]
      rfl
    · cases h
  · cases h

/-- The violation as one at a path behind another one, in a call that validates something returned. -/
def Violation.behind (way : Path) (type : TypeName) (returned : Value) (v : Violation) : Violation :=
  { v with path := way.behind v.path, rootType := type, returned := some returned }

/-- What succeeds for each item succeeds for what another map makes of the items, if that does so for
each of them. -/
theorem mapM_map_eq_ok {α β γ δ ε : Type} {f : α → Except ε β} {f' : γ → Except ε δ} {h : α → γ}
    {g : β → δ} (hf : ∀ x y, f x = .ok y → f' (h x) = .ok (g y)) :
    ∀ {xs : List α} {ys : List β}, xs.mapM f = .ok ys → (xs.map h).mapM f' = .ok (ys.map g)
  | [], ys, hys => by
    cases hys
    rfl
  | x :: xs, ys, hys => by
    rw [List.mapM_cons] at hys
    obtain ⟨y, hy, hys⟩ := bind_eq_ok.1 hys
    obtain ⟨zs, hzs, hys⟩ := bind_eq_ok.1 hys
    cases hys
    rw [List.map_cons, List.mapM_cons, hf x y hy, mapM_map_eq_ok hf hzs]
    rfl

namespace Call

variable {c : Call} {type : TypeName} {returned : Value} {way : Path}

/-- The call as one that validates something returned, by an executable of a type. -/
def returning (c : Call) (type : TypeName) (returned : Value) : Call :=
  { c with rootType := type, returned := some returned }

section

variable (hes : c.evaluators.IgnoreSites)

include hes

theorem failuresOf_behind {leaf : Option ObjectId} {k : Constraint} {target : Path × Value}
    {vs : List Violation} (h : c.failuresOf leaf k target = .ok vs) :
    (c.returning type returned).failuresOf leaf k (way.behind target.1, target.2) =
      .ok (vs.map (·.behind way type returned)) := by
  obtain ⟨ks, hks, hvs⟩ := bind_eq_ok.1 h
  cases hvs
  refine bind_eq_ok.2 ⟨ks, k.failing_congr (fun _ _ => verdict_eq_ok hes rfl rfl _ _) hks, ?_⟩
  rw [List.map_map]
  rfl

/-- What a constraint finds wrong with a value does not depend on where the value stands. -/
theorem failures_behind (hway : way.Named) {leaf : Option ObjectId} {path : Path} {value : Value}
    {b : BoundConstraint} {vs : List Violation} (h : c.failures leaf path value b = .ok vs) :
    (c.returning type returned).failures leaf (way.behind path) value b =
      .ok (vs.map (·.behind way type returned)) := by
  obtain ⟨vss, hvss, hvs⟩ := bind_eq_ok.1 h
  cases hvs
  have hmoved := mapM_map_eq_ok (fun _ _ => @failuresOf_behind c type returned way hes _ _ _ _) hvss
  rw [← BoundConstraint.targets_behind hway] at hmoved
  refine bind_eq_ok.2 ⟨_, hmoved, ?_⟩
  rw [← List.map_flatten]
  rfl

/-- What a check finds wrong, one behind a path finds there. -/
theorem found_behind (hway : way.Named) {leaf : Option ObjectId} {path : Path} {b : BoundConstraint}
    {group group' : TypeName} {value : Value} {w : Violation}
    (hw : w ∈ c.found (.checked leaf path b group value)) :
    w.behind way type returned ∈
      (c.returning type returned).found (.checked leaf (way.behind path) b group' value) := by
  cases hvs : c.failures leaf path value b with
  | error e => simp [found, hvs, Except.toOption] at hw
  | ok vs =>
    rw [found_checked hvs] at hw
    rw [found_checked (failures_behind hes hway hvs)]
    exact List.mem_map_of_mem hw

end

end Call

/-! ### Objects that are returned -/

/-- The path of the value that an executable returns. -/
def ExecutableMetadata.wayBack (e : ExecutableMetadata) : Path :=
  (Path.executable e.signature.name).returnValue

theorem ExecutableMetadata.named_wayBack (e : ExecutableMetadata) : e.wayBack.Named :=
  (Path.named_root.open.named_property _).open.named_property _

/-- The cascade from an object is a step into it: it contains no values. -/
theorem Element.cascade_object {e : Element} (hcascading : e.own.cascading)
    (hconversions : e.own.conversions = []) (path : Path) (group : TypeName) (x : ObjectId) :
    e.cascade path group (.object x) = [⟨x, path, group, group⟩] := by
  have hcontents : ∀ kind : ContainerKind, kind.contents (.object x) = [] := by
    rintro (_ | _ | _ | _) <;> rfl
  simp [cascade, hcascading, hcontents, objectsIn, Value.objects, Facet.step, Facet.converted, convert,
    hconversions]

namespace Call

variable {c : Call} {o p q : Progress} {x : ObjectId} {way : Path}

/-- Takes a step into an object for each group in turn. -/
def turns (c : Call) (x : ObjectId) (way : Path) (gs : List Group) : Run Unit :=
  c.each gs fun g => c.each [⟨x, way, g.name, g.name⟩] c.visit

/-- The validation of an object that a constructor returned takes steps into the object, once it has
checked what is demanded of it where it is returned. -/
theorem constructed_ok {type : TypeName} {m : Metadata} {sig : Signature} {e : ExecutableMetadata}
    {gs : List TypeName} {vs : List Violation} (hp : c.Remembers p) (hm : c.Assembles type m)
    (he : m.constructor? sig = some e) (hcovers : c.config.executables.covers e.kind)
    (hcascading : e.returnValue.own.cascading) (hconversions : e.returnValue.own.conversions = [])
    (hgs : ∀ g ∈ gs, Order.IsPlain c.registry g)
    (h : ((Operation.constructed type sig x gs).body c).exec p = (.ok vs, q)) :
    ∃ groups p₁, groups.map (·.name) = Order.requested c.registry gs ∧ c.Follows p p₁ ∧ Quiet p p₁ ∧
      (c.turns x e.wayBack groups).exec p₁ = (.ok (), q) ∧ q.violations = vs := by
  have hfollows := follows_cascades (c := c) p
  obtain ⟨m', p₁, hmeta, h⟩ := exec_bind_ok.1 h
  obtain rfl := hm.unique ((hfollows.metadata type).answer hmeta (.refl hp))
  simp only [he, Call.validateReturned, hcovers, Bool.not_true, Bool.false_eq_true, if_false] at h
  obtain ⟨order, p₂, horder, h⟩ := exec_bind_ok.1 h
  obtain ⟨_, q', hrun, h⟩ := exec_bind_ok.1 h
  cases h
  obtain ⟨hsequences, -, hnames⟩ := exec_orderOf_ok hgs horder
  obtain ⟨_, p₃, hchecks, hrun⟩ := exec_bind_ok.1 hrun
  obtain ⟨_, p₄, hcascades, hrun⟩ := exec_bind_ok.1 hrun
  rw [hsequences] at hrun
  cases hrun
  have hchecked : c.Follows p p₃ := by
    refine (meets_each fun g _ => meets_runExecutableGroup (hfollows.meaning _ _ _ hm) fun g' =>
      meets_checkReturned fun b _ => follows_checkConstraint).kept hchecks ?_
    exact (hfollows.expand _).kept horder ((hfollows.metadata _).kept hmeta (.refl hp))
  have hquiet : Quiet p p₃ := by
    refine (meets_each fun g _ => meets_runExecutableGroup (quiet_defaultMeaning _ _) fun g' =>
      meets_checkReturned fun b _ => quiet_checkConstraint).kept hchecks ?_
    exact (quiet_expanding _).kept horder ((quiet_metadataOf _).kept hmeta (.refl p))
  refine ⟨order.groups, p₃, hnames, hchecked, hquiet, ?_, rfl⟩
  simp only [Element.cascade_object hcascading hconversions] at hcascades
  exact hcascades

/-! ### Where the object counts as under way -/

/-- Without memory of what is processed, a step into an object under way begins nothing. -/
theorem quiet_cascade_of_mem_chain (htrack : c.config.trackProcessed = false) {step : CascadeStep}
    (h : step.target ∈ p.chain) : ∀ depth, Meets (c.cascade depth step) (Quiet p) Any AnyHalt
  | 0 => fun _ _ => trivial
  | depth + 1 => by
    unfold Call.cascade
    refine meets_isStopped.next fun _ => Meets.get.any.next fun _ => .ite ?_ .unit
    refine (quiet_metadataOf _).next fun m => (quiet_expanding _).next fun order => ?_
    refine Meets.get.bind fun q hq => ?_
    have hchain : c.isOnChain q step.target = true := by simp [isOnChain, htrack, hq.chain, h]
    rw [if_neg (by simp [hchain])]
    exact .unit

theorem quiet_turns_of_mem_chain (htrack : c.config.trackProcessed = false) (hx : x ∈ p.chain)
    (groups : List Group) : Meets (c.turns x way groups) (Quiet p) Any AnyHalt :=
  meets_each fun g _ => meets_each fun step hstep => by
    rw [List.mem_singleton.1 hstep]
    exact quiet_cascade_of_mem_chain htrack hx c.depth

/-! ### Where the object counts as processed -/

theorem BeginsBy.mono {B B' : Path → TypeName → Prop} (h : c.BeginsBy o x B p)
    (hB : ∀ path g, B path g → B' path g) : c.BeginsBy o x B' p :=
  ⟨h.follows, h.served, fun path g hmem => hB path g (h.began path g hmem)⟩

/-- An object that has begun for other groups alone is not passed over, unless the default group brings
others. -/
theorem BeginsBy.not_isProcessed {done : List TypeName} (h : c.BeginsBy o x (fun _ g => g ∈ done) p)
    (ho : o.processedGroups = []) (hord : TypeName.defaultGroup ∈ done →
      ∀ m, c.Assembles (c.store.typeOf x) m → c.Ordinary m.hierarchy)
    {g : TypeName} (hg : g ∉ done) (source : TypeName) :
    c.isProcessed p ⟨x, way, source, g⟩ = false := by
  refine Bool.eq_false_iff.2 fun hprocessed => ?_
  obtain ⟨-, hmark, -⟩ := isProcessed_iff.1 hprocessed
  obtain ⟨path, group, m, hbegan, hm, hserves⟩ := (h.served x g hmark).resolve_left (by simp [ho])
  have hdone := h.began path group hbegan
  rcases hserves with rfl | ⟨hdefault, hnot⟩
  · exact hg hdone
  · obtain rfl : group = TypeName.defaultGroup := by simpa [TypeName.isDefault] using hdefault
    exact hnot (hord hdone m hm)

theorem Walked.follows {s : Subject} {g : TypeName} (h : c.Walked o q s g) : c.Follows o q := by
  obtain ⟨p₁, p₂, hp₁, -, hp₁₂, hp₂⟩ := h
  exact hp₁.trans (hp₁₂.trans hp₂)

/-- The validation of a subject for one group makes the walk. -/
theorem walked_of_runSubject {s : Subject} (hs : c.Knows s) {depth : Nat} {g : TypeName}
    (hp : c.Follows o p) (hq : c.stops q = false)
    (h : (c.runSubject (c.cascade depth) s { groups := [Group.plain g] }).exec p = (.ok (), q)) :
    c.Walked o q s g := by
  obtain ⟨y, -, hm⟩ := hs.object
  obtain ⟨p₁, p₂, hfit, hwalks, hcascades⟩ := exec_runSubject_ok rfl h
  obtain ⟨-, r, hwalk, hrest⟩ := exec_each_cons_ok hwalks (not_stops_of_each hcascades hq)
  cases hrest
  have hp₁ := ((follows_cascades o).requireFit hm _).kept hfit hp
  have hp₂ := (follows_runGroup s g p₁).kept hwalk (.refl hp₁.remembers)
  refine ⟨p₁, p₂, hp₁, hwalk, hp₂, ?_⟩
  exact (meets_each fun g' _ => meets_runCascades (fun step => (follows_cascades p₂).cascade depth step)
    g'.name).kept hcascades (.refl hp₂.remembers)

section

variable (htrack : c.config.trackProcessed) (ho : o.processedGroups = [])
  (hx : c.ReturnsUnconverted x)

include htrack ho hx

/-- At its turn for a group an object is walked, if it has not begun for the group before. -/
theorem walked_of_turn {done : List TypeName} (h : c.BeginsBy o x (fun _ g => g ∈ done) p)
    (hord : TypeName.defaultGroup ∈ done → ∀ m, c.Assembles (c.store.typeOf x) m →
      c.Ordinary m.hierarchy) {g : TypeName} (hg : g ∉ done) {depth : Nat}
    (hexec : (c.cascade depth ⟨x, way, g, g⟩).exec p = (.ok (), q)) (hq : c.stops q = false) :
    c.BeginsBy o x (fun _ g' => g' ∈ done ++ [g]) q ∧
      ∃ s, c.Knows s ∧ s.object = some x ∧ s.path = way ∧ c.Walked o q s g := by
  have hkept : c.BeginsBy o x (fun _ g' => g' ∈ done ++ [g]) q := by
    refine ((keptAlong_heads hx (G := [g]) fun _ g' hg' => ?_).cascade depth _
      (.inr (.inr ⟨rfl, .root, fun _ => by simp⟩))).kept hexec
      (h.mono fun _ g' hg' => List.mem_append_left _ hg')
    exact List.mem_append_right _ hg'
  refine ⟨hkept, ?_⟩
  obtain _ | depth := depth
  · cases hexec
  rcases exec_cascade_ok hexec with ⟨rfl, hskip⟩ | ⟨-, -, m, p₁, order, p₂, hmeta, horder, hrun⟩
  · simp [hq, h.not_isProcessed ho hord hg] at hskip
  have hsame : decide (g ≠ g) = false := by simp
  simp only [hsame] at horder
  obtain ⟨hknows, rfl, hp₂, -⟩ := knows_of_entry h.follows hmeta horder way (x :: p₂.chain)
  rcases hrun with ⟨-, hchain⟩ | ⟨r, hrun, rfl⟩
  · simp [isOnChain, htrack] at hchain
  · have hwalked := walked_of_runSubject (q := r) hknows hp₂ hq hrun
    refine ⟨_, hknows, rfl, rfl, hwalked.mono ?_⟩
    exact (follows_cascades r).chain r _ (.refl hwalked.follows.remembers)

/-- Turns for different groups walk the object for all of them. -/
theorem walked_of_turns : ∀ {groups : List Group} {done : List TypeName} {p q : Progress},
    c.BeginsBy o x (fun _ g => g ∈ done) p → (done ++ groups.map (·.name)).Nodup →
    (TypeName.defaultGroup ∈ done ++ groups.map (·.name) →
      ∀ m, c.Assembles (c.store.typeOf x) m → c.Ordinary m.hierarchy) →
    (c.turns x way groups).exec p = (.ok (), q) → c.stops q = false →
    ∀ g ∈ groups, ∃ s, c.Knows s ∧ s.object = some x ∧ s.path = way ∧ c.Walked o q s g.name
  | [], _, _, _, _, _, _, _, _ => by simp
  | g :: groups, done, p, q, h, hnodup, hord, hexec, hq => by
    obtain ⟨hp, r, hturn, hrest⟩ := exec_each_cons_ok hexec hq
    have hr := not_stops_of_each hrest hq
    rw [each_singleton hp] at hturn
    rw [List.map_cons] at hnodup hord
    have hg : g.name ∉ done := fun hmem => (List.nodup_append.1 hnodup).2.2 _ hmem _ (by simp) rfl
    have hsplit : done ++ g.name :: groups.map (·.name) = (done ++ [g.name]) ++ groups.map (·.name) := by
      simp
    -- The turn before began the object for the groups done alone, so that this one is not passed over.
    obtain ⟨hkept, s, hs, hobject, hpath, hwalked⟩ := walked_of_turn htrack ho hx h
      (fun hmem => hord (List.mem_append_left _ hmem)) hg hturn hr
    have hfollows := (meets_each fun g' _ => meets_each fun step _ =>
      (follows_cascades r).cascade c.depth step).kept hrest (.refl hkept.follows.remembers)
    refine List.forall_mem_cons.2 ⟨⟨s, hs, hobject, hpath, hwalked.mono hfollows⟩, ?_⟩
    exact walked_of_turns hkept (hsplit ▸ hnodup) (hsplit ▸ hord) hrest hq

end

/-! ### What is found in an object -/

/-- What a walk demands has been checked when its call is through, be it in the walk or before. -/
theorem checked_of_walked {L : Location → Prop} {s : Subject} (hs : c.Knows s) (hx : s.object = some x)
    {g : TypeName} (h : c.Walked o q s g) (hq : c.stops q = false) (hsound : c.Sound L q)
    (hord : g.isDefault → c.Ordinary s.metadata.hierarchy) {b : BoundConstraint}
    (hb : b ∈ c.demanded s g) (ha : b.appliesTo g) {path : Path} {value : Value}
    (hplace : s.place c.store b = some (path, value)) :
    ∃ g', .checked (some x) path b g' value ∈ q.journal := by
  obtain ⟨_, -, hm⟩ := hs.object
  obtain ⟨_, m, hbm, hmem⟩ := exists_mem_of_mem_demanded hm hb
  obtain ⟨p₁, p₂, hp₁, hwalk, hp₁₂, hp₂⟩ := h
  -- A check of a constraint with the same number was one of this constraint, on the same value.
  have hsame : ∀ {b' : BoundConstraint} {g' : TypeName} {value' : Value},
      .checked (some x) path b' g' value' ∈ q.journal → b'.key = b.key →
      ∃ g', .checked (some x) path b g' value ∈ q.journal := by
    intro b' g' value' he hk
    obtain ⟨howns, hreads⟩ := hsound.checks _ _ _ _ _ he
    obtain rfl := howns.eq_of_key_eq (owns_of_mem_demanded hm hb) hk
    rw [hreads x rfl (Metadata.location_of_mem hbm hmem), ← hs.value_eq hx hplace] at he
    exact ⟨g', he⟩
  have hsince : ∀ e ∈ p₂.since p₁, e ∈ q.journal := fun e he =>
    hp₂.extends.journal.subset (List.mem_of_mem_drop he)
  have hsettled := runGroup_settles hwalk (stops_eq_false hp₂.extends hq) hp₁.remembers
    (fun hg => .inr (hord hg)) b hb ha path value hplace
  rw [hx] at hsettled
  rcases hsettled with ⟨g', he⟩ | ⟨-, hmark | ⟨b', g', value', he, hk⟩⟩
  · exact ⟨g', hsince _ he⟩
  · obtain ⟨b', g', value', he, hk⟩ := hsound.done _ ((hp₁₂.trans hp₂).extends.marks hmark)
    exact hsame he hk
  · exact hsame (hsince _ he) hk

/-- What the validation of an object finds in the object itself comes from a walk at the root, if no way
back to the object converts a group. -/
theorem found_at_root {memory : Memory} {gs : List TypeName} {vs : List Violation}
    (hmemory : memory.metadata.Coherent c.registry c.config.methodRules)
    (htrack : c.config.trackProcessed) (hx : c.ReturnsUnconverted x)
    (hgs : ∀ g ∈ gs, Order.IsPlain c.registry g)
    (hord : TypeName.defaultGroup ∈ Order.requested c.registry gs →
      ∀ m, c.Assembles (c.store.typeOf x) m → c.Ordinary m.hierarchy)
    (h : (c.validate x gs).exec (startOf memory x) = (.ok vs, q)) (hq : c.stops q = false)
    {w : Violation} (hw : w ∈ vs) (hleaf : w.leaf = some x) :
    ∃ s g b path value, c.Knows s ∧ s.object = some x ∧ s.path = .root ∧
      g ∈ Order.requested c.registry gs ∧ b ∈ c.demanded s g ∧ b.appliesTo g ∧
      s.place c.store b = some (path, value) ∧ w ∈ c.found (.checked (some x) path b g value) := by
  have hlogs := logs_validate hmemory h
  obtain ⟨-, -, -, -, -, -, -, rfl⟩ := validate_ok h
  rw [hlogs.1.accounts.found hq] at hw
  obtain ⟨e, he, hw⟩ := List.mem_flatMap.1 ((Violation.mem_addAll hw).resolve_left (by simp [startOf]))
  cases e with
  | checked object path b g value =>
    obtain rfl : object = some x := (leaf_of_found hw).symm.trans hleaf
    obtain ⟨s, group, hs, hobject, hbegan, hserves, hb, ha, hplace⟩ := hlogs.2 _ he
    obtain ⟨hroot, hgroup⟩ := validate_begins_root hmemory htrack hx hgs h hq hbegan
    obtain ⟨y, hy, hm⟩ := hs.object
    obtain rfl : y = x := Option.some.inj (hy.symm.trans hobject)
    obtain rfl : g = group := by
      refine hserves.resolve_right ?_
      rintro ⟨hdefault, hnot⟩
      obtain rfl : group = TypeName.defaultGroup := by simpa [TypeName.isDefault] using hdefault
      exact hnot (hord hgroup _ hm)
    exact ⟨s, g, b, path, value, hs, hobject, hroot, hgroup, hb, ha, hplace, hw⟩
  | _ => simp [found] at hw

/-! ### The call of an executable -/

theorem demandedFrom_returning (type : TypeName) (returned : Value) : ∀ types covered,
    (c.returning type returned).demandedFrom covered types = c.demandedFrom covered types
  | [], _ => rfl
  | _ :: above, covered => by
    simp only [demandedFrom, demandedFrom_returning type returned above]
    rfl

theorem demanded_returning (type : TypeName) (returned : Value) (s : Subject) (g : TypeName) :
    (c.returning type returned).demanded s g = c.demanded s g := by
  unfold demanded
  rw [demandedFrom_returning]

theorem reaches_returning (type : TypeName) (returned : Value) {y : ObjectId}
    (h : (c.returning type returned).Reaches x y) : c.Reaches x y := by
  induction h with
  | root => exact .root
  | step _ hr ih => exact ih.step hr

theorem returnsUnconverted_returning (type : TypeName) (returned : Value)
    (h : c.ReturnsUnconverted x) : (c.returning type returned).ReturnsUnconverted x :=
  fun y hy r hr hback => h y (reaches_returning type returned hy) r hr
    (reaches_returning type returned hback)

end Call

namespace Validator

open Call

variable {v : Validator} {x : ObjectId} {type : TypeName} {gs : List TypeName}
  {vs ws : List Violation}

/-- An object that a constructor made. The validation of the object as a returned value begins no
validation of it if the call keeps to the chain of objects under way. If the call tracks what is
processed, it finds in the object what the validation of the object finds there, behind the path of the
returned value, unless a way back to the object converts a group, or the default group is requested and
redefined for the object. -/
theorem finds_constructed (hv : v.Coherent) (hfast : v.config.failFast = false)
    (hes : v.evaluators.IgnoreSites) {m : Metadata} {sig : Signature} {e : ExecutableMetadata}
    (hm : (v.callOn x).Assembles type m) (he : m.constructor? sig = some e)
    (hcovers : v.config.executables.covers e.kind) (hcascading : e.returnValue.own.cascading)
    (hconversions : e.returnValue.own.conversions = [])
    (hgs : ∀ g ∈ gs, Order.IsPlain v.registry g) (hvs : (v.validate x gs).answer = .ok vs)
    (hws : (v.validateConstructorReturnValue type sig x gs).answer = .ok ws) :
    (v.config.trackProcessed = false → ∀ object path g, .began object path g ∉
      (v.validateConstructorReturnValue type sig x gs).journal) ∧
    (v.config.trackProcessed → (v.callOn x).ReturnsUnconverted x →
      (TypeName.defaultGroup ∈ Order.requested v.registry gs → ∀ own,
        (v.callOn x).Assembles (v.store.typeOf x) own → (v.callOn x).Ordinary own.hierarchy) →
      ∀ w ∈ vs, w.leaf = some x → ∃ w' ∈ ws, w'.key = (w.behind e.wayBack type (.object x)).key) := by
  let c := (v.callOn x).returning type (.object x)
  obtain ⟨q, hq, hjournal⟩ : ∃ q, ((Operation.constructed type sig x gs).body c).exec
      (startOf v.memory x) = (.ok ws, q) ∧
      (v.validateConstructorReturnValue type sig x gs).journal = q.journal :=
    ⟨_, Prod.ext hws rfl, rfl⟩
  have hstop : ∀ p, c.stops p = false := stops_eq_false_of_full hfast
  have hmemory : v.memory.metadata.Coherent c.registry c.config.methodRules := hv
  have hstart : c.Remembers (startOf v.memory x) := remembers_startOf hmemory x
  obtain ⟨groups, p, hnames, hp, hquiet, hturns, hfound⟩ :=
    constructed_ok hstart hm he hcovers hcascading hconversions hgs hq
  have hnames : groups.map (·.name) = Order.requested v.registry gs := hnames
  rw [hjournal]
  constructor
  · intro htrack object path g hmem
    have hturned := (quiet_turns_of_mem_chain htrack (by simp [hquiet.chain, startOf]) groups).kept
      hturns (.refl p)
    simpa [startOf] using hquiet.began object path g (hturned.began object path g hmem)
  · intro htrack hx hord w hw hleaf
    obtain ⟨q₀, hvalidate, -⟩ := v.exec_validateWithin v.depth x gs
    rw [← validate_eq, hvs] at hvalidate
    obtain ⟨s, g, b, path, value, hs, hobject, hroot, hg, hb, ha, hplace, hw⟩ :=
      found_at_root (c := v.callOn x) hv htrack hx hgs hord hvalidate (hstop q₀) hw hleaf
    have hbegins : c.BeginsBy (startOf v.memory x) x (fun _ g => g ∈ []) p :=
      ⟨hp, fun _ _ hmem => .inl (hquiet.groups ▸ hmem), fun path g hmem => by
        simpa [startOf] using hquiet.began _ path g hmem⟩
    obtain ⟨g, hturn, rfl⟩ := List.mem_map.1 (hnames ▸ hg)
    obtain ⟨s', hs', hobject', hpath, hwalked⟩ := walked_of_turns htrack rfl
      (returnsUnconverted_returning _ _ hx) hbegins
      (by rw [List.nil_append, hnames]; exact Order.nodup_requested _ _)
      (by rw [List.nil_append, hnames]; exact hord) hturns (hstop q) g hturn
    obtain rfl : s' = s.at e.wayBack :=
      hs'.eq ⟨hs.object, hs.whole⟩ (hobject'.trans hobject.symm) hpath
    have hsound := ((comesTo_operation hmemory (.constructed type sig x gs)).body.ends
      .start).sound hmemory
    have hstarted : c.start v.memory = startOf v.memory x := rfl
    rw [hstarted, hq] at hsound
    have hordinary : g.name.isDefault → c.Ordinary s.metadata.hierarchy := by
      intro hdefault
      obtain ⟨y, hy, hown⟩ := hs.object
      obtain rfl : y = x := Option.some.inj (hy.symm.trans hobject)
      have hname : g.name = TypeName.defaultGroup := by simpa [TypeName.isDefault] using hdefault
      exact hord (hname ▸ hg) _ hown
    obtain ⟨g', hchecked⟩ := checked_of_walked hs' hobject' hwalked (hstop q) hsound hordinary
      (by rw [demanded_returning]; exact hb) ha (Subject.place_at hroot e.named_wayBack hplace)
    rw [← hfound]
    exact exists_mem_violations (hstop q) hwalked.follows (by simpa [Progress.since, startOf] using hchecked)
      (found_behind hes e.named_wayBack hw)

/-- An object of a class that demands a name. It refers to itself, and its constructor asks for what it
makes to be validated. -/
def making (trackProcessed : Bool) : Validator where
  registry := [
    { name := ⟨"T"⟩, kind := .concrete, fields := [
        ⟨"name", { own := { constraints := [{ kind := "NotNull" }] } }⟩,
        ⟨"peer", { own := { cascading := true } }⟩],
      constructors := [{ kind := .constructor, name := "T", declaredBy := ⟨"T"⟩, parameters := [],
                         returnType := some ⟨"T"⟩, crossParameter := [], isPrivate := false,
                         isStatic := false, returnValue := { own := { cascading := true } } }] :
        TypeDefinition }
    ].foldl Registry.register .initial
  evaluators := Standard.evaluators
  config := { trackProcessed }
  store := ⟨[(⟨"t"⟩, ⟨⟨"T"⟩, [("peer", .object ⟨"t"⟩)]⟩)]⟩
  memory := {}

/-- The constructor of the class. -/
def made : Metadata × ExecutableMetadata :=
  let m := (Metadata.assemble (making true).registry (making true).config.methodRules ⟨"T"⟩).toOption.get
    (by decide +kernel)
  (m, (m.constructor? (.of "T" [])).get (by decide +kernel))

theorem assembles_made (trackProcessed : Bool) :
    ((making trackProcessed).callOn ⟨"t"⟩).Assembles ⟨"T"⟩ made.1 :=
  toOption_eq_some (Option.some_get _).symm

theorem constructor_made : made.1.constructor? (.of "T" []) = some made.2 := (Option.some_get _).symm

/-- A call that tracks what is processed finds that the object made has no name. -/
theorem finds_constructed_making :
    ∃ ws, ((making true).validateConstructorReturnValue ⟨"T"⟩ (.of "T" []) ⟨"t"⟩ []).answer = .ok ws ∧
      ∃ w ∈ ws, w.key = ("T.<return value>.name", "must not be null", "@NotNull", some ⟨"t"⟩) := by
  have hkeys : ((making true).validate ⟨"t"⟩ []).answer.toOption.map (·.map (·.key)) =
      some [("name", "must not be null", "@NotNull", some ⟨"t"⟩)] := by decide +kernel
  have hpaths : ((making true).validate ⟨"t"⟩ []).answer.toOption.map (·.map (·.path)) =
      some [Path.root.property "name"] := by decide +kernel
  have hreturned : ((making true).validateConstructorReturnValue ⟨"T"⟩ (.of "T" []) ⟨"t"⟩
      []).answer.toOption.isSome := by decide +kernel
  have htext : (made.2.wayBack.behind (Path.root.property "name")).text = "T.<return value>.name" := by
    decide +kernel
  have hreferences : ∀ r ∈ ((making true).callOn ⟨"t"⟩).references ⟨"t"⟩,
      r.target = ⟨"t"⟩ ∧ r.facet.conversions = [] := by decide +kernel
  have hordinary : made.1.hierarchy = [⟨"T"⟩] ∧ made.1.redefinesDefault = false := by decide +kernel
  obtain ⟨vs, hvs, hkeys⟩ := Option.map_eq_some_iff.1 hkeys
  obtain ⟨w, rfl, hkey⟩ := List.map_eq_singleton_iff.1 hkeys
  obtain ⟨ws, hws⟩ := Option.isSome_iff_exists.1 hreturned
  rw [hvs] at hpaths
  have hpath : w.path = Path.root.property "name" := by simpa using hpaths
  simp only [Violation.key, Prod.mk.injEq] at hkey
  have hunconverted : ((making true).callOn ⟨"t"⟩).ReturnsUnconverted ⟨"t"⟩ := by
    intro y hy r hr _
    have hy := hy.mem (List.mem_singleton_self _) fun z hz r hr => by
      rw [List.mem_singleton.1 hz] at hr
      exact List.mem_singleton.2 (hreferences r hr).1
    rw [List.mem_singleton.1 hy] at hr
    exact Reference.keepsGroups_of_nil (hreferences r hr).2
  refine ⟨ws, toOption_eq_some hws, ?_⟩
  have hcoherent : (making true).Coherent := MetadataCache.coherent_nil _ _
  have hord : ∀ own, ((making true).callOn ⟨"t"⟩).Assembles ⟨"T"⟩ own →
      ((making true).callOn ⟨"t"⟩).Ordinary own.hierarchy := by
    intro own hown type htype m hm
    rw [hown.unique (assembles_made true), hordinary.1, List.mem_singleton] at htype
    subst htype
    rw [hm.unique (assembles_made true)]
    exact hordinary.2
  obtain ⟨w', hw', hkey'⟩ := (finds_constructed hcoherent rfl Standard.ignoreSites
    (assembles_made true) constructor_made (by decide +kernel) (by decide +kernel) (by decide +kernel)
    (by simp) (toOption_eq_some hvs) (toOption_eq_some hws)).2 rfl hunconverted
    (fun _ => hord) w (by simp) hkey.2.2.2
  refine ⟨w', hw', hkey'.trans ?_⟩
  simp [Violation.key, Violation.behind, hpath, htext, hkey]

/-- A call that keeps to the chain of objects under way finds nothing in the object made, though it has
no name. -/
theorem overlooks_constructed :
    let v := making false
    v.config.failFast = false ∧ (v.callOn ⟨"t"⟩).Assembles ⟨"T"⟩ made.1 ∧
      made.1.constructor? (.of "T" []) = some made.2 ∧ v.config.executables.covers made.2.kind ∧
      made.2.returnValue.own.cascading ∧ made.2.returnValue.own.conversions = [] ∧
      (v.validateConstructorReturnValue ⟨"T"⟩ (.of "T" []) ⟨"t"⟩ []).answer = .ok [] ∧
      ∃ vs, (v.validate ⟨"t"⟩ []).answer = .ok vs ∧
        vs.map (·.key) = [("name", "must not be null", "@NotNull", some ⟨"t"⟩)] := by
  intro v
  have hnone : (v.validateConstructorReturnValue ⟨"T"⟩ (.of "T" []) ⟨"t"⟩ []).answer.toOption.map
      (·.length) = some 0 := by decide +kernel
  have hfound : (v.validate ⟨"t"⟩ []).answer.toOption.map (·.map (·.key)) =
      some [("name", "must not be null", "@NotNull", some ⟨"t"⟩)] := by decide +kernel
  obtain ⟨ws, hws, hlength⟩ := Option.map_eq_some_iff.1 hnone
  obtain rfl := List.length_eq_zero_iff.1 hlength
  obtain ⟨vs, hvs, hkeys⟩ := Option.map_eq_some_iff.1 hfound
  exact ⟨rfl, assembles_made false, constructor_made, by decide +kernel, by decide +kernel, by decide +kernel,
    toOption_eq_some hws, vs, toOption_eq_some hvs, hkeys⟩

end Validator

end ObjectValidation
