import Mathlib.Data.Finset.Card
import Mathlib.Data.Set.Finite.Lattice
import ObjectValidation.Proofs.Operations
import ObjectValidation.Proofs.Outcome
/-!
# The chain of objects under way

A call that does not track what is processed ends its cascades where they come upon an object whose own
validation is under way. So no object is twice on the chain (`Passes.nodup`), the chain is no longer
than there are objects, and cascades within cascades end before they are deeper than that.

A step of a cascade takes the object that it puts on the chain off again, whichever way it ends
(`exec_cascade_chain`). That is what the invariant of a walk needs: the chain is the same behind all
that the walk does.
-/

namespace ObjectValidation

open Run

/-! ### What values refer to -/

/-- Whether a value is an object or contains it, however deep. -/
inductive Value.Holds (x : ObjectId) : Value → Prop
  | object : Holds x (.object x)
  | item {items : List Value} {v : Value} : v ∈ items → Holds x v → Holds x (.list items)
  | entry {entries : List (String × Value)} {k : String} {v : Value} : (k, v) ∈ entries →
    Holds x v → Holds x (.map entries)
  | content {v : Value} : Holds x v → Holds x (.optional (some v))

namespace Value

variable {x : ObjectId}

theorem holds_of_object? {v : Value} (h : v.object? = some x) : v.Holds x := by
  cases v <;> cases h
  exact .object

theorem holds_of_unwrapped {v : Value} (h : v.unwrapped.object? = some x) : v.Holds x := by
  unfold unwrapped at h
  split at h
  · exact .content (holds_of_object? h)
  · exact holds_of_object? h

theorem holds_of_mem_contents {kind : ContainerKind} {v w : Value} {position : Option Position}
    (hw : (position, w) ∈ kind.contents v) (h : w.unwrapped.object? = some x) : v.Holds x := by
  unfold ContainerKind.contents at hw
  split at hw
  · obtain ⟨i, hi, heq⟩ := List.mem_mapIdx.1 hw
    obtain ⟨-, rfl⟩ := Prod.mk.inj heq
    exact .item (List.getElem_mem hi) (holds_of_unwrapped h)
  · obtain ⟨⟨k, u⟩, -, heq⟩ := List.mem_map.1 hw
    obtain ⟨-, rfl⟩ := Prod.mk.inj heq
    cases h
  · obtain ⟨⟨k, u⟩, hu, heq⟩ := List.mem_map.1 hw
    obtain ⟨-, rfl⟩ := Prod.mk.inj heq
    exact .entry hu (holds_of_unwrapped h)
  · next inner =>
    obtain ⟨-, rfl⟩ := Prod.mk.inj (List.mem_singleton.1 hw)
    cases inner with
    | none => cases h
    | some u => exact .content (holds_of_unwrapped h)
  · cases hw

theorem holds_of_mem_objectsIn {kind : ContainerKind} {v : Value} {path q : Path}
    (h : (x, q) ∈ objectsIn path (kind.contents v)) : v.Holds x := by
  obtain ⟨⟨position, w⟩, hw, h⟩ := List.mem_filterMap.1 h
  obtain ⟨y, hy, heq⟩ := Option.map_eq_some_iff.1 h
  obtain ⟨rfl, -⟩ := Prod.mk.inj heq
  exact holds_of_mem_contents hw hy

theorem holds_of_mem_objects {path q : Path} : ∀ {v : Value}, (x, q) ∈ v.objects path → v.Holds x
  | .object _, h => by
    obtain ⟨rfl, -⟩ := Prod.mk.inj (List.mem_singleton.1 h)
    exact .object
  | .list _, h => holds_of_mem_objectsIn h
  | .map _, h => holds_of_mem_objectsIn h
  | .optional (some _), h => .content (holds_of_mem_objects h)
  | .optional none, h | .null, h | .bool _, h | .int _, h | .float _, h | .str _, h => by cases h

theorem sizeOf_lt_of_entry {entries : List (String × Value)} {e : String × Value}
    (he : e ∈ entries) : sizeOf e.2 < 1 + sizeOf entries := by
  have hlt := List.sizeOf_lt_of_mem he
  have hpair : sizeOf e = 1 + sizeOf e.1 + sizeOf e.2 := Prod.mk.sizeOf_spec e.1 e.2
  omega

/-- There are finitely many objects in a value. -/
theorem finite_holds : ∀ v : Value, {x | v.Holds x}.Finite
  | .object y => by
    refine (Set.finite_singleton y).subset ?_
    rintro x ⟨⟩
    rfl
  | .list items => by
    refine (Set.Finite.biUnion items.finite_toSet fun v (hv : v ∈ items) => finite_holds v).subset ?_
    rintro x (_ | ⟨hv, h⟩)
    exact Set.mem_biUnion hv h
  | .map entries => by
    refine (Set.Finite.biUnion entries.finite_toSet fun e (he : e ∈ entries) =>
      have : sizeOf e.2 < 1 + sizeOf entries := sizeOf_lt_of_entry he
      finite_holds e.2).subset ?_
    rintro x (_ | _ | ⟨he, h⟩)
    exact Set.mem_biUnion he h
  | .optional (some v) => by
    refine (finite_holds v).subset ?_
    rintro x (_ | _ | _ | h)
    exact h
  | .optional none | .null | .bool _ | .int _ | .float _ | .str _ => by
    refine Set.finite_empty.subset ?_
    rintro x ⟨⟩

end Value

/-- The steps of the cascade from a value lead into objects of it. -/
theorem Element.holds_of_mem_cascade {e : Element} {path : Path} {group : TypeName} {v : Value}
    {step : CascadeStep} (h : step ∈ e.cascade path group v) : v.Holds step.target := by
  rcases List.mem_append.1 h with h | h
  · split at h
    · obtain ⟨⟨x, q⟩, hx, rfl⟩ := List.mem_map.1 h
      exact Value.holds_of_mem_objects hx
    · cases h
  · obtain ⟨⟨kind, facet⟩, -, h⟩ := List.mem_flatMap.1 h
    obtain ⟨⟨x, q⟩, hx, rfl⟩ := List.mem_map.1 h
    exact Value.holds_of_mem_objectsIn hx

/-- Whether an object has a property that refers to another one. -/
def Store.Refers (store : Store) (x y : ObjectId) : Prop :=
  ∃ name, (store.property x name).Holds y

/-- The steps of the cascades from an object lead into objects that it refers to. -/
theorem Subject.refers_of_mem_cascade {s : Subject} (hs : s.only = none) {store : Store}
    {group : TypeName} {step : CascadeStep} (h : step ∈ s.cascade store group) :
    ∃ x, s.object = some x ∧ store.Refers x step.target := by
  obtain ⟨name, -, h⟩ := List.mem_flatMap.1 h
  split at h
  · cases h
  · have hholds := Element.holds_of_mem_cascade h
    simp only [Subject.property, hs, Subject.property.read] at hholds
    cases hobject : s.object with
    | none =>
      rw [hobject] at hholds
      cases hholds
    | some x =>
      rw [hobject] at hholds
      exact ⟨x, rfl, name, hholds⟩

/-- The identities of all objects of a store. -/
def Store.identities (store : Store) : Finset ObjectId := (store.objects.map (·.1)).toFinset

/-- An object that refers to another one is one of the store, with a property that does. -/
theorem Store.exists_of_refers {store : Store} {x y : ObjectId} (h : store.Refers x y) :
    ∃ o ∈ store.objects, o.1 = x ∧ ∃ e ∈ o.2.properties, e.2.Holds y := by
  obtain ⟨name, h⟩ := h
  unfold Store.property Store.property? at h
  cases hx : store.get? x with
  | none =>
    rw [hx] at h
    cases h
  | some o =>
    rw [hx, Option.bind_some] at h
    cases hvalue : Entries.get? name o.properties with
    | none =>
      rw [hvalue] at h
      cases h
    | some value =>
      rw [hvalue] at h
      exact ⟨(x, o), Assembly.mem_of_lookup hx, rfl, _, Assembly.mem_of_lookup hvalue, h⟩

theorem Store.finite_referred (store : Store) : {y | ∃ x, store.Refers x y}.Finite := by
  refine (Set.Finite.biUnion store.objects.finite_toSet fun o _ =>
    Set.Finite.biUnion o.2.properties.finite_toSet fun e _ => e.2.finite_holds).subset ?_
  rintro y ⟨x, hrefers⟩
  obtain ⟨o, ho, -, e, he, hholds⟩ := Store.exists_of_refers hrefers
  exact Set.mem_biUnion ho (Set.mem_biUnion he hholds)

theorem Store.mem_identities_of_refers {store : Store} {x y : ObjectId} (h : store.Refers x y) :
    x ∈ store.identities := by
  obtain ⟨o, ho, rfl, -⟩ := Store.exists_of_refers h
  exact List.mem_toFinset.2 (List.mem_map_of_mem ho)

theorem Store.card_identities_le (store : Store) :
    store.identities.card ≤ store.objects.length := by
  unfold identities
  simpa using List.toFinset_card_le (store.objects.map (·.1))

namespace Call

variable (c : Call)

/-! ### The states of a call -/

/-- The states that a call can come to from a progress, by the smallest steps that it is made of, where
its cascades enter objects of `T`. -/
inductive Passes (T : ObjectId → Prop) (o : Progress) : Progress → Prop
  | start : Passes T o o
  | record {p : Progress} (e : Event) : Passes T o p → Passes T o ((Run.record e).exec p).2
  | metadata {p : Progress} (type : TypeName) :
    Passes T o p → Passes T o ((c.metadataOf type).exec p).2
  | expand {p : Progress} {α : Type} (x : Expanding α) :
    Passes T o p → Passes T o ((Run.expanding x).exec p).2
  | meaning {p : Progress} (object : Option ObjectId) (m : Metadata) :
    Passes T o p → Passes T o ((c.defaultMeaning object m).exec p).2
  | check {p : Progress} (s : Subject) (group : TypeName) (value : Value) (path : Path)
    (b : BoundConstraint) :
    Passes T o p → Passes T o ((c.checkConstraint s group value path b).exec p).2
  | mark {p : Progress} (s : Subject) (group : TypeName) :
    Passes T o p → Passes T o ((c.markProcessed s group).exec p).2
  | enter {p : Progress} {x : ObjectId} : T x → c.isOnChain p x = false → Passes T o p →
    Passes T o { p with chain := x :: p.chain }
  | leave {p : Progress} : Passes T o p → Passes T o { p with chain := p.chain.tail }

/-- Whether a computation leaves the chain and the metadata remembered as they are, and does not run out
of depth. -/
def Modest {α : Type} (x : Run α) : Prop :=
  ∀ chain metadata, Meets x (fun q => q.chain = chain ∧ q.memory.metadata = metadata) Any
    fun halt q => (q.chain = chain ∧ q.memory.metadata = metadata) ∧ halt ≠ .exhausted

variable {c}

theorem Modest.ends {α : Type} {x : Run α} (h : Modest x) (p : Progress) :
    (x.exec p).2.chain = p.chain ∧ (x.exec p).2.memory.metadata = p.memory.metadata :=
  ((h p.chain p.memory.metadata).haltsBy fun _ _ => And.left).ends ⟨rfl, rfl⟩

theorem modest_record (e : Event) : Modest (Run.record e) := fun _ _ => .record fun _ => id

theorem modest_expanding {α : Type} (x : Expanding α) : Modest (Run.expanding x) := fun _ _ =>
  meets_expanding (fun _ _ hp => ⟨hp, by simp⟩) (fun _ _ => id) x

theorem modest_defaultMeaning (object : Option ObjectId) (m : Metadata) :
    Modest (c.defaultMeaning object m) := fun _ _ =>
  meets_defaultMeaning (fun _ _ hp => ⟨hp, by simp⟩) (fun _ _ _ => id) (fun _ _ => id) object m

theorem modest_checkConstraint (s : Subject) (group : TypeName) (value : Value) (path : Path)
    (b : BoundConstraint) : Modest (c.checkConstraint s group value path b) := fun _ _ =>
  meets_checkConstraint (fun _ _ hp => ⟨hp, by simp⟩) (fun _ _ => id) (fun _ _ _ => id)
    (fun _ _ => id) fun _ hp _ => hp

theorem modest_markProcessed (s : Subject) (group : TypeName) :
    Modest (c.markProcessed s group) := fun _ _ => .ite (.update fun _ => id) .unit

theorem chain_metadataOf (type : TypeName) (p : Progress) :
    ((c.metadataOf type).exec p).2.chain = p.chain :=
  (meets_metadataOf_any (fun _ _ => id) (fun _ _ => id) type : Keeps _ (·.chain = p.chain)).ends rfl

namespace Passes

variable {T : ObjectId → Prop} {o p : Progress}

/-- What is remembered stays what would be put together again. -/
theorem coherent (ho : c.Coherent o) (h : c.Passes T o p) : c.Coherent p := by
  have hmodest : ∀ {α : Type} {x : Run α}, Modest x → ∀ {p}, c.Coherent p →
      c.Coherent (x.exec p).2 := by
    intro α x hx p hp
    unfold Coherent
    rw [(hx.ends p).2]
    exact hp
  induction h with
  | start => exact ho
  | record e _ ih => exact hmodest (modest_record e) ih
  | metadata type _ ih =>
    obtain ⟨cache, hcache, hexec⟩ := exec_metadataOf ih type
    rw [hexec]
    exact hcache
  | expand x _ ih => exact hmodest (modest_expanding x) ih
  | meaning object m _ ih => exact hmodest (modest_defaultMeaning object m) ih
  | check s group value path b _ ih => exact hmodest (modest_checkConstraint s group value path b) ih
  | mark s group _ ih => exact hmodest (modest_markProcessed s group) ih
  | enter _ _ _ ih => exact ih
  | leave _ ih => exact ih

/-- Without tracking, no object is on the chain twice, and only objects that cascades enter are. -/
theorem nodup (hoff : c.config.trackProcessed = false) (ho : o.chain.Nodup ∧ ∀ x ∈ o.chain, T x)
    (h : c.Passes T o p) : p.chain.Nodup ∧ ∀ x ∈ p.chain, T x := by
  induction h with
  | start => exact ho
  | record e _ ih => exact ih
  | metadata type _ ih =>
    rw [chain_metadataOf]
    exact ih
  | expand x _ ih =>
    rw [((modest_expanding x).ends _).1]
    exact ih
  | meaning object m _ ih =>
    rw [((modest_defaultMeaning object m).ends _).1]
    exact ih
  | check s group value path b _ ih =>
    rw [((modest_checkConstraint s group value path b).ends _).1]
    exact ih
  | mark s group _ ih =>
    rw [((modest_markProcessed s group).ends _).1]
    exact ih
  | @enter p x hx honchain _ ih =>
    have hnew : x ∉ p.chain := by simpa [isOnChain, hoff] using honchain
    refine ⟨List.nodup_cons.2 ⟨hnew, ih.1⟩, ?_⟩
    intro y hy
    exact (List.mem_cons.1 hy).elim (fun h => h ▸ hx) (ih.2 y)
  | @leave p _ ih =>
    exact ⟨ih.1.sublist (List.tail_sublist _), fun x hx => ih.2 x (List.mem_of_mem_tail hx)⟩

end Passes

/-! ### What cascades keep -/

section

variable (c) (T : ObjectId → Prop) (o : Progress) (chain : List ObjectId)

/-- The states with a chain that a call can come to. -/
def Stands (p : Progress) : Prop := c.Passes T o p ∧ p.chain = chain

/-- How a call ends before its time with a chain, where it does not run out of depth if `N` holds. -/
def Halts (N : Prop) (halt : Halt) (p : Progress) : Prop :=
  c.Stands T o chain p ∧ (N → halt ≠ .exhausted)

end

variable {T : ObjectId → Prop} {o : Progress} {chain : List ObjectId} {N : Prop}

theorem Modest.stands {α : Type} {x : Run α} (h : Modest x)
    (hpasses : ∀ p, c.Passes T o p → c.Passes T o (x.exec p).2) :
    Meets x (c.Stands T o chain) Any (c.Halts T o chain N) := by
  have hpasses : Keeps x (c.Passes T o) := keeps_of_ends hpasses
  refine .of_exec (fun p a q hp hexec => ?_) fun p halt q hp hexec => ?_
  · have hkept := (h chain p.memory.metadata).kept hexec ⟨hp.2, rfl⟩
    exact ⟨⟨hpasses.kept hexec hp.1, hkept.1⟩, trivial⟩
  · have hkept := (h chain p.memory.metadata).halt hexec ⟨hp.2, rfl⟩
    exact ⟨⟨hpasses.halt hexec hp.1, hkept.1.1⟩, fun _ => hkept.2⟩

section

variable (ho : c.Coherent o)

include ho

theorem stands_metadataOf (type : TypeName) :
    Meets (c.metadataOf type) (c.Stands T o chain) (c.Assembles type) (c.Halts T o chain N) := by
  intro p hp
  have hend := hp.1.metadata type
  have hchain := (chain_metadataOf (c := c) type p).trans hp.2
  obtain ⟨cache, -, hexec⟩ := exec_metadataOf (hp.1.coherent ho) type
  revert hend hchain
  rw [hexec]
  unfold Assembles
  cases Metadata.assemble c.registry c.config.methodRules type with
  | ok m => exact fun hend hchain => ⟨⟨hend, hchain⟩, rfl⟩
  | error e => exact fun hend hchain => ⟨⟨hend, hchain⟩, by simp⟩

theorem stands_runGroup (s : Subject) (group : TypeName) :
    Meets (c.runGroup s group) (c.Stands T o chain) Any (c.Halts T o chain N) := by
  have hwalk : KeptByWalk c s (c.Stands T o chain) (c.Halts T o chain N) (fun _ => True)
      fun _ => True := by
    refine ⟨⟨fun _ m _ => ?_, fun g b _ _ => ?_, fun g _ => ?_⟩, stands_metadataOf ho⟩
    · exact (modest_defaultMeaning s.object m).stands fun _ => .meaning s.object m
    · refine meets_checkBound_of fun path value _ => ?_
      exact (modest_checkConstraint s g value path b).stands fun _ => .check s g value path b
    · exact (modest_markProcessed s g).stands fun _ => .mark s g
  exact hwalk.runGroup (fun _ _ => trivial) (fun _ _ => trivial)
    (fun p hp => ⟨hp.1.record _, hp.2⟩) fun _ => id

/-- A subject with its cascades. -/
theorem stands_runSubject {s : Subject} {visit : CascadeStep → Run Unit} (hs : s.only = none)
    (hvisit : ∀ x, s.object = some x → ∀ step, c.store.Refers x step.target →
      Meets (visit step) (c.Stands T o chain) Any (c.Halts T o chain N)) (order : Order) :
    Meets (c.runSubject visit s order) (c.Stands T o chain) Any (c.Halts T o chain N) := by
  have hfit : Meets (c.requireFit s order) (c.Stands T o chain) Any (c.Halts T o chain N) := by
    refine .ite (Meets.next ?_ fun _ => .ofExcept (fun _ _ hp => ⟨hp, by simp⟩) fun _ _ => trivial)
      .unit
    exact (modest_defaultMeaning s.object s.metadata).stands fun _ => .meaning s.object s.metadata
  refine hfit.next fun _ => meets_runOrder (stands_runGroup ho s) fun group => ?_
  refine .ite .unit (meets_each fun step hstep => ?_)
  obtain ⟨x, hx, hrefers⟩ := Subject.refers_of_mem_cascade hs hstep
  exact hvisit x hx step hrefers

end

/-- While an object is under way that was not before, the chain is longer by it. -/
theorem stands_whileOnChain {x : ObjectId} (hx : T x)
    (hnew : ∀ p, p.chain = chain → c.isOnChain p x = false) {y : Run Unit}
    (hy : Meets y (c.Stands T o (x :: chain)) Any (c.Halts T o (x :: chain) N)) :
    Meets (whileOnChain x y) (c.Stands T o chain) Any (c.Halts T o chain N) := by
  rintro p ⟨hp, hchain⟩
  have hy := hy _ ⟨.enter hx (hnew p hchain) hp, by rw [hchain]⟩
  rw [exec_whileOnChain]
  revert hy
  cases exec y { p with chain := x :: p.chain } with
  | mk a q =>
    have hleave : c.Stands T o (x :: chain) q →
        c.Stands T o chain { q with chain := q.chain.tail } :=
      fun hq => ⟨.leave hq.1, by simp [hq.2]⟩
    cases a with
    | ok a => exact fun hq => ⟨hleave hq.1, trivial⟩
    | error e => exact fun hq => ⟨hleave hq.1, hq.2⟩

/-- How many objects there are that are not on a chain. -/
def room (objects : Finset ObjectId) (chain : List ObjectId) : Nat :=
  (objects.filter (· ∉ chain)).card

theorem room_cons_lt {objects : Finset ObjectId} {x : ObjectId} (hx : x ∈ objects)
    (hnew : x ∉ chain) : room objects (x :: chain) < room objects chain := by
  refine Finset.card_lt_card ((Finset.ssubset_iff_of_subset ?_).2 ⟨x, ?_, ?_⟩)
  · intro y hy
    simp only [Finset.mem_filter, List.mem_cons, not_or] at hy ⊢
    exact ⟨hy.1, hy.2.2⟩
  · simpa using ⟨hx, hnew⟩
  · simp

section

variable {objects : Finset ObjectId} (ho : c.Coherent o)
  (hT : ∀ x y, T x → c.store.Refers x y → T y)
  (hobjects : ∀ x, T x → x ∈ c.store.identities → x ∈ objects)

include ho hT hobjects

/-- A step of a cascade leaves the chain as it was. Without tracking it does not run out of depth where
it may go deeper than there are objects left. -/
theorem stands_cascade : ∀ (depth : Nat) (step : CascadeStep) (chain : List ObjectId),
    T step.target → Meets (c.cascade depth step) (c.Stands T o chain) Any
      (c.Halts T o chain (c.config.trackProcessed = false ∧ room objects chain < depth))
  | 0, _, _, _ => fun p hp => ⟨hp, fun h => absurd h.2 (Nat.not_lt_zero _)⟩
  | depth + 1, step, chain, ht => by
    unfold Call.cascade
    refine meets_isStopped.next fun _ => Meets.get.any.next fun _ => .ite ?_ .unit
    refine (stands_metadataOf ho _).any.next fun m =>
      ((modest_expanding _).stands fun _ => .expand _).next fun order => Meets.get.bind fun p hp => ?_
    split
    · next honchain =>
      have hnew : ∀ q, q.chain = chain → c.isOnChain q step.target = false := by
        intro q hq
        have hsame : c.isOnChain q step.target = c.isOnChain p step.target := by
          unfold isOnChain
          rw [hq, hp.2]
        simpa [hsame] using honchain
      refine stands_whileOnChain ht hnew (stands_runSubject ho rfl ?_ order)
      rintro x ⟨⟩ next hrefers
      refine (stands_cascade depth next _ (hT _ _ ht hrefers)).haltsBy fun halt q hq => ⟨hq.1, ?_⟩
      rintro ⟨hoff, hroom⟩
      have hmem := hobjects _ ht (Store.mem_identities_of_refers hrefers)
      have hfree : step.target ∉ chain := by simpa [isOnChain, hoff] using hnew { p with chain } rfl
      exact hq.2 ⟨hoff, by have := room_cons_lt hmem hfree; omega⟩
    · exact .unit

end

/-- A step of a cascade leaves the chain exactly as it was, whichever way it ends. -/
theorem exec_cascade_chain {p : Progress} (hp : c.Coherent p) (depth : Nat) (step : CascadeStep) :
    ((c.cascade depth step).exec p).2.chain = p.chain := by
  have hcascade := stands_cascade (T := fun _ => True) hp (fun _ _ _ _ => trivial)
    (fun _ _ => id) depth step p.chain trivial
  exact ((hcascade.haltsBy fun _ _ h => h.1).ends ⟨.start, rfl⟩).2

end Call

namespace Operation

/-- Whether a set of objects has those that an operation starts with and all that they refer to. -/
structure Within (op : Operation) (v : Validator) (T : ObjectId → Prop) : Prop where
  root : ∀ x, (op.call v).root = some x → T x
  given : ∀ value ∈ op.given, ∀ x, value.Holds x → T x
  closed : ∀ x y, T x → v.store.Refers x y → T y

/-- For every operation there is a finite set of objects that has all those. -/
theorem exists_within (op : Operation) (v : Validator) :
    ∃ objects : Finset ObjectId, op.Within v (· ∈ objects) := by
  have hroot : {x | (op.call v).root = some x}.Finite :=
    (List.finite_toSet (op.call v).root.toList).subset fun x hx => by simpa using hx
  have hgiven : (⋃ value ∈ {value | value ∈ op.given}, {x | value.Holds x}).Finite :=
    Set.Finite.biUnion op.given.finite_toSet fun value _ => value.finite_holds
  have hfinite := (hroot.union hgiven).union v.store.finite_referred
  refine ⟨hfinite.toFinset, ?_, ?_, ?_⟩
  · exact fun x hx => hfinite.mem_toFinset.2 (.inl (.inl hx))
  · exact fun value hvalue x hx => hfinite.mem_toFinset.2 (.inl (.inr (Set.mem_biUnion hvalue hx)))
  · exact fun x y _ hrefers => hfinite.mem_toFinset.2 (.inr ⟨x, hrefers⟩)

/-- The call that an operation makes, cascading as deep as told. -/
def callWithin (op : Operation) (v : Validator) (depth : Nat) : Call := { op.call v with depth }

variable {op : Operation} {v : Validator} {depth : Nat}

@[simp] theorem callWithin_config : (op.callWithin v depth).config = v.config := by cases op <;> rfl

@[simp] theorem callWithin_store : (op.callWithin v depth).store = v.store := by cases op <;> rfl

/-- The steps that an operation takes lead into objects of the set. -/
theorem Within.target {T : ObjectId → Prop} (h : op.Within v T) {step : CascadeStep}
    (hstep : op.Takes (op.callWithin v depth) step) : T step.target := by
  cases hstep with
  | given hvalue hstep => exact h.given _ hvalue _ (Element.holds_of_mem_cascade hstep)
  | object hs honly hstep =>
    obtain ⟨x, hx, hrefers⟩ := Subject.refers_of_mem_cascade honly hstep
    rw [callWithin_store] at hrefers
    cases hs with
    | object =>
      cases hx
      exact h.closed _ _ (h.root _ rfl) hrefers
    | property => cases honly
    | value => cases honly

end Operation

namespace Validator

open Call

/-- The report of an operation that cascades as deep as told. -/
def performWithin (v : Validator) (depth : Nat) (op : Operation) : Report (List Violation) :=
  v.run (op.callWithin v depth) (op.body (op.callWithin v depth))

theorem perform_eq_within (v : Validator) (op : Operation) :
    v.perform op = v.performWithin v.depth op := by cases op <;> rfl

variable {v : Validator} {op : Operation} {T : ObjectId → Prop} {objects : Finset ObjectId}
  {depth : Nat}

/-- What an operation does to the chain, and where it does not run out of depth. -/
theorem stands_operation (depth : Nat) (hv : v.Coherent) (hT : op.Within v T)
    (hobjects : ∀ x, T x → x ∈ v.store.identities → x ∈ objects) :
    let c := op.callWithin v depth
    let o := c.start v.memory
    Meets (op.body c) (c.Stands T o o.chain) Any
      (c.Halts T o o.chain (v.config.trackProcessed = false ∧ objects.card < depth)) := by
  intro c o
  have ho : c.Coherent o := by cases op <;> exact hv
  have hclosed : ∀ x y, T x → c.store.Refers x y → T y := by simpa [c] using hT.closed
  have hobjects : ∀ x, T x → x ∈ c.store.identities → x ∈ objects := by simpa [c] using hobjects
  have hparts : KeptByParts c op (c.Stands T o o.chain)
      (c.Halts T o o.chain (v.config.trackProcessed = false ∧ objects.card < depth)) := by
    refine ⟨fun _ _ hp => ⟨hp, by simp⟩, stands_metadataOf ho, fun object _ m _ => ?_, fun x => ?_,
      fun s group _ => stands_runGroup ho s group, fun s _ _ _ _ b _ group value path => ?_,
      fun step hstep => ?_⟩
    · exact (modest_defaultMeaning object m).stands fun _ => .meaning object m
    · exact (modest_expanding x).stands fun _ => .expand x
    · exact (modest_checkConstraint s group value path b).stands fun _ => .check s group value path b
    · refine (stands_cascade ho hclosed hobjects _ step _ (hT.target hstep)).haltsBy fun halt q hq =>
        ⟨hq.1, ?_⟩
      rintro ⟨hoff, hcard⟩
      exact hq.2 ⟨by simpa [c] using hoff, (Finset.card_filter_le _ _).trans_lt hcard⟩
  exact hparts.body

/-- An operation that may cascade deeper than there are objects to enter does not run out of depth. -/
theorem performWithin_ne_exhausted (hv : v.Coherent) (hoff : v.config.trackProcessed = false)
    (hT : op.Within v T) (hobjects : ∀ x, T x → x ∈ v.store.identities → x ∈ objects)
    (hcard : objects.card < depth) : (v.performWithin depth op).answer ≠ .error .exhausted := by
  have hend := stands_operation depth hv hT hobjects _ ⟨.start, rfl⟩
  unfold performWithin
  rw [run_eq]
  revert hend
  simp only
  generalize (op.body (op.callWithin v depth)).exec _ = outcome
  obtain ⟨a, q⟩ := outcome
  cases a with
  | ok vs => simp
  | error halt =>
    rintro ⟨-, hhalt⟩ heq
    exact hhalt ⟨hoff, hcard⟩ (Except.error.inj heq)

theorem length_lt_depth (v : Validator) : v.store.objects.length < v.depth := by
  have hsquare : ∀ n, 0 < Nat.pow (n + 2) 2 := fun n => Nat.pow_pos (by omega)
  calc v.store.objects.length < v.store.objects.length + 2 := by omega
    _ ≤ Nat.pow (v.store.objects.length + 2) 2 := Nat.le_self_pow (by decide) _
    _ ≤ v.depth := Nat.le_mul_of_pos_right _ (hsquare _)

/-- Without tracking, cascades end at the first object that is under way already. The objects that an
operation can enter are finitely many. In every state that a call comes to, no object is twice on the
chain, which is no longer than there are such objects; and a step of a cascade leads from there to such
a state again, in which the chain is exactly as it was, whichever way the step ends. So an operation
comes to its end where it may cascade deeper than there are objects, and as deep as operations may
go. -/
theorem cascades_end_on_chain (hv : v.Coherent) (hoff : v.config.trackProcessed = false)
    (op : Operation) :
    (∃ objects : Finset ObjectId, op.Within v (· ∈ objects)) ∧
    ∀ objects : Finset ObjectId, op.Within v (· ∈ objects) → ∀ depth : Nat,
      let c := op.callWithin v depth
      let o := c.start v.memory
      c.Passes (· ∈ objects) o ((op.body c).exec o).2 ∧
        (∀ p, c.Passes (· ∈ objects) o p → p.chain.Nodup ∧ p.chain.length ≤ objects.card ∧
          ∀ d step, ((c.cascade d step).exec p).2.chain = p.chain ∧
            (step.target ∈ objects → c.Passes (· ∈ objects) o ((c.cascade d step).exec p).2)) ∧
        (objects.card < depth → (v.performWithin depth op).answer ≠ .error .exhausted) ∧
        (v.perform op).answer ≠ .error .exhausted := by
  refine ⟨op.exists_within v, ?_⟩
  intro objects hobjects depth c o
  have ho : c.Coherent o := by cases op <;> exact hv
  have hstart : o.chain.Nodup ∧ ∀ x ∈ o.chain, x ∈ objects := by
    have hroot := hobjects.root
    change c.root.toList.Nodup ∧ ∀ x ∈ c.root.toList, x ∈ objects
    change ∀ x, c.root = some x → x ∈ objects at hroot
    cases hc : c.root with
    | none => simp
    | some x => simpa using hroot x hc
  refine ⟨?_, ?_, ?_, ?_⟩
  · exact (((stands_operation depth hv hobjects fun _ hx _ => hx).haltsBy fun _ _ h => h.1).ends
      ⟨.start, rfl⟩).1
  · intro p hp
    obtain ⟨hnodup, hmem⟩ := hp.nodup (by simpa [c] using hoff) hstart
    refine ⟨hnodup, ?_, fun d step => ⟨exec_cascade_chain (hp.coherent ho) d step, fun ht => ?_⟩⟩
    · rw [← List.toFinset_card_of_nodup hnodup]
      exact Finset.card_le_card fun x hx => hmem x (List.mem_toFinset.1 hx)
    · have hclosed : ∀ x y, x ∈ objects → c.store.Refers x y → y ∈ objects := by
        simpa [c] using hobjects.closed
      have hcascade := stands_cascade ho hclosed (fun x (hx : x ∈ objects) _ => hx) d step p.chain ht
      exact ((hcascade.haltsBy fun _ _ h => h.1).ends ⟨hp, rfl⟩).1
  · exact performWithin_ne_exhausted hv hoff hobjects fun _ hx _ => hx
  · rw [perform_eq_within]
    exact performWithin_ne_exhausted hv hoff hobjects (fun _ _ => id)
      (v.store.card_identities_le.trans_lt v.length_lt_depth)

/-- Two objects that refer to each other and one of them to itself, directly and as elements of a list,
on the way to which the default group becomes a sequence. Nothing is tracked. -/
def entwined : Validator where
  registry := [
    { name := ⟨"A"⟩, kind := .interface },
    { name := ⟨"S"⟩, kind := .interface, sequence := some [⟨"A"⟩, TypeName.defaultGroup] },
    { name := ⟨"Node"⟩, kind := .concrete, fields := [
      ⟨"next", { own := { cascading := true, conversions := [⟨TypeName.defaultGroup, ⟨"S"⟩⟩] } }⟩,
      ⟨"kids", { containers := [(.listElement, { cascading := true })] }⟩] : TypeDefinition }
    ].foldl Registry.register .initial
  evaluators := Standard.evaluators
  config := { trackProcessed := false }
  store := ⟨[(⟨"x"⟩, ⟨⟨"Node"⟩, [("kids", .list [.object ⟨"x"⟩, .object ⟨"y"⟩]), ("next", .object ⟨"y"⟩)]⟩),
    (⟨"y"⟩, ⟨⟨"Node"⟩, [("next", .object ⟨"x"⟩)]⟩)]⟩
  memory := {}

/-- The validation of one of them comes to its end, and does so if it may cascade no deeper than
thrice. -/
theorem entwined_ends :
    let op := Operation.object ⟨"x"⟩ []
    let objects : Finset ObjectId := {⟨"x"⟩, ⟨"y"⟩}
    let c := op.callWithin entwined 3
    entwined.Coherent ∧ entwined.config.trackProcessed = false ∧ op.Within entwined (· ∈ objects) ∧
      (∀ p, c.Passes (· ∈ objects) (c.start entwined.memory) p → p.chain.length ≤ 2) ∧
      (entwined.performWithin 3 op).answer ≠ .error .exhausted ∧
      (entwined.perform op).answer ≠ .error .exhausted := by
  intro op objects c
  have hcoherent : entwined.Coherent := MetadataCache.coherent_nil _ _
  have hclosed : ∀ x y, x ∈ objects → entwined.store.Refers x y → y ∈ objects := by
    intro x y _ hrefers
    obtain ⟨o, ho, -, e, he, hholds⟩ := Store.exists_of_refers hrefers
    simp only [entwined, List.mem_cons, List.not_mem_nil, or_false] at ho
    rcases ho with rfl | rfl
    · simp only [List.mem_cons, List.not_mem_nil, or_false] at he
      rcases he with rfl | rfl
      · cases hholds with
        | item hv hholds =>
          simp only [List.mem_cons, List.not_mem_nil, or_false] at hv
          rcases hv with rfl | rfl <;> cases hholds <;> decide
      · cases hholds
        decide
    · cases List.mem_singleton.1 he
      cases hholds
      decide
  have hwithin : op.Within entwined (· ∈ objects) :=
    ⟨fun x hx => Option.some.inj hx ▸ by decide, by simp [op, Operation.given], hclosed⟩
  obtain ⟨-, hchains, hends, hperform⟩ :=
    (cascades_end_on_chain hcoherent rfl op).2 objects hwithin 3
  exact ⟨hcoherent, rfl, hwithin, fun p hp => (hchains p hp).2.1, hends (by decide), hperform⟩

end Validator

end ObjectValidation
