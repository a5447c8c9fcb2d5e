import ObjectValidation.Proofs.DepthFirst
import ObjectValidation.Proofs.Nesting
import ObjectValidation.Proofs.Overrides
/-!
# Which types have a hierarchy

A type has a hierarchy just if all types above it are registered and none of them is above itself. The
walk along supertypes that comes first decides this: if it succeeds, all that it has found stands on
registered types up to the ends (`standing_of_soundFrom`), and if it fails, it names a type above that is
missing or comes back to itself (`fault_of_soundFrom`). Nothing that follows can fail then
(`exists_hierarchy`).
-/

namespace ObjectValidation

namespace Registry

open Relation

variable {r : Registry}

/-- Whether a type is registered, and all types above it are, up to those that list none. -/
inductive Standing (r : Registry) : TypeName → Prop
  | intro {name : TypeName} {d : TypeDefinition} : r.get? name = some d →
    (∀ above ∈ d.supertypes, Standing r above) → Standing r name

theorem standing_of_soundFrom {path sound names : List TypeName} {name : TypeName}
    (h : r.soundFrom path name sound = .ok names) (hsound : ∀ x ∈ sound, r.Standing x) :
    ∀ x ∈ names, r.Standing x := by
  fun_induction r.soundFrom path name sound generalizing names with
  | case1 =>
    cases h
    exact hsound
  | case2 => cases h
  | case3 => cases h
  | case4 path name sound hnew hpath d hd path' =>
    rename_i ih
    obtain ⟨all, hall, h⟩ := bind_eq_ok.1 h
    cases h
    have hstanding : ∀ x ∈ all, r.Standing x :=
      foldlM_keeps (I := (∀ x ∈ ·, r.Standing x)) (fun _ _ _ _ hx h => ih _ _ h hx) hall hsound
    refine List.forall_mem_cons.2 ⟨.intro hd fun above habove => hstanding above ?_, hstanding⟩
    refine foldlM_reaches (I := (above ∈ ·)) ?_ ?_ habove hall
    · exact fun _ _ h => (soundFrom_ok h).added
    · exact fun _ _ _ hx h => (soundFrom_ok h).kept hx

theorem Standing.of_above {name x : TypeName} (h : r.Standing name)
    (hx : ReflTransGen r.Lists x name) : r.Standing x := by
  induction hx using ReflTransGen.head_induction_on with
  | refl => exact h
  | head hlists _ ih =>
    obtain ⟨hd, habove⟩ := ih
    obtain ⟨d, hd', hmem⟩ := hlists
    obtain rfl := Option.some.inj (hd.symm.trans hd')
    exact habove _ hmem

theorem Standing.contains {name : TypeName} (h : r.Standing name) : r.contains name := by
  obtain ⟨hd, -⟩ := h
  simp [Registry.contains, hd]

/-- A type that was above itself would be above one of those that it lists. -/
theorem Standing.acyclic {name : TypeName} (h : r.Standing name) : ¬ TransGen r.Lists name name := by
  induction h with
  | intro hd _ ih =>
    intro hcycle
    obtain ⟨above, hreach, d, hd', hmem⟩ := TransGen.tail'_iff.1 hcycle
    obtain rfl := Option.some.inj (hd.symm.trans hd')
    exact ih above hmem (.head' ⟨_, hd, hmem⟩ hreach)

/-- Whether all types above a type, the type included, are registered and none is above itself. -/
structure Resolvable (r : Registry) (name : TypeName) : Prop where
  registered : ∀ x, ReflTransGen r.Lists x name → r.contains x
  acyclic : ∀ x, ReflTransGen r.Lists x name → ¬ TransGen r.Lists x x

theorem Standing.resolvable {name : TypeName} (h : r.Standing name) : r.Resolvable name :=
  ⟨fun _ hx => (h.of_above hx).contains, fun _ hx => (h.of_above hx).acyclic⟩

theorem Resolvable.of_above {name x : TypeName} (h : r.Resolvable name)
    (hx : ReflTransGen r.Lists x name) : r.Resolvable x :=
  ⟨fun y hy => h.registered y (hy.trans hx), fun y hy => h.acyclic y (hy.trans hx)⟩

theorem Resolvable.exists_get? {name : TypeName} (h : r.Resolvable name) :
    ∃ d, r.get? name = some d :=
  Option.isSome_iff_exists.1 (h.registered name .refl)

/-! ### Failures -/

/-- The errors that name a type above another one, or this one, which is missing or above itself. -/
inductive Fault (r : Registry) (name : TypeName) : Error → Prop
  | missing {x : TypeName} : ReflTransGen r.Lists x name → r.contains x = false →
    Fault r name (.typeNotFound x)
  | cyclic {x : TypeName} : ReflTransGen r.Lists x name → TransGen r.Lists x x →
    Fault r name (.cyclicHierarchy x)

theorem Fault.of_above {name above : TypeName} {e : Error} (h : r.Fault above e)
    (hlists : r.Lists above name) : r.Fault name e := by
  cases h with
  | missing hx hmissing => exact .missing (hx.tail hlists) hmissing
  | cyclic hx hcycle => exact .cyclic (hx.tail hlists) hcycle

theorem Resolvable.not_fault {name : TypeName} {e : Error} (h : r.Resolvable name) :
    ¬ r.Fault name e := by
  rintro (⟨hx, hmissing⟩ | ⟨hx, hcycle⟩)
  · exact Bool.false_ne_true (hmissing.symm.trans (h.registered _ hx))
  · exact h.acyclic _ hx hcycle

/-- The walk fails for a type that is missing, or for one on its path, and that is above itself: all
that is on the path is below the type that the walk has come to. -/
theorem fault_of_soundFrom {path sound : List TypeName} {name : TypeName} {e : Error}
    (h : r.soundFrom path name sound = .error e) (hpath : ∀ p ∈ path, TransGen r.Lists name p) :
    r.Fault name e := by
  fun_induction r.soundFrom path name sound with
  | case1 => cases h
  | case2 path name sound hnew hmem =>
    cases h
    exact .cyclic .refl (hpath name hmem)
  | case3 path name sound hnew hmem hnone =>
    cases h
    exact .missing .refl (by simp [Registry.contains, hnone])
  | case4 path name sound hnew hmem d hd path' ih =>
    rcases bind_eq_error.1 h with h | ⟨all, -, h⟩
    · obtain ⟨above, habove, sound', h⟩ := exists_of_foldlM_error h
      have hlists : r.Lists above name := ⟨d, hd, habove⟩
      refine (ih sound' above h fun p hp => ?_).of_above hlists
      rcases List.mem_append.1 hp with hp | hp
      · exact .head hlists (hpath p hp)
      · exact List.mem_singleton.1 hp ▸ .single hlists
    · cases h

/-! ### Success -/

theorem chainFrom_total {chain : List TypeName} {last : TypeDefinition} {name : TypeName}
    (hlast : r.get? name = some last) (h : r.Resolvable name)
    (hchain : ∀ x ∈ chain, ReflTransGen r.Lists name x) :
    ∃ names, r.chainFrom chain last = .ok names := by
  fun_induction r.chainFrom chain last generalizing name with
  | case1 chain last hs => exact ⟨chain, rfl⟩
  | case2 chain last superclass hs hmem =>
    have hlists : r.Lists superclass name :=
      ⟨last, hlast, List.mem_append_left _ (by simp [hs])⟩
    exact absurd (.head' hlists (hchain superclass hmem)) (h.acyclic superclass (.single hlists))
  | case3 chain last superclass hs hmem hnone =>
    have hlists : r.Lists superclass name :=
      ⟨last, hlast, List.mem_append_left _ (by simp [hs])⟩
    obtain ⟨d, hd⟩ := (h.of_above (.single hlists)).exists_get?
    rw [hd] at hnone
    cases hnone
  | case4 chain last superclass hs hmem d hd ih =>
    have hlists : r.Lists superclass name :=
      ⟨last, hlast, List.mem_append_left _ (by simp [hs])⟩
    refine ih hd (h.of_above (.single hlists)) fun x hx => ?_
    rcases List.mem_append.1 hx with hx | hx
    · exact .head hlists (hchain x hx)
    · exact List.mem_singleton.1 hx ▸ .refl

/-- The interfaces that a type lists. -/
def listed (r : Registry) (name : TypeName) : List TypeName :=
  ((r.get? name).map (·.interfaces)).getD []

theorem listed_eq {name : TypeName} {d : TypeDefinition} (h : r.get? name = some d) :
    r.listed name = d.interfaces := by simp [listed, h]

theorem resolve_listed {name : TypeName} {d : TypeDefinition} (h : r.get? name = some d) :
    (do return (← r.resolve name).interfaces : Except Error (List TypeName)) =
      .ok (r.listed name) := by
  rw [resolve_eq_ok.2 h, listed_eq h]
  rfl

theorem eq_map_listed {classes : List TypeName} {interfaces : List (List TypeName)}
    (h : classes.mapM (fun c => do return (← r.resolve c).interfaces) = .ok interfaces) :
    interfaces = classes.map r.listed := by
  refine Except.ok.inj (h.symm.trans (mapM_eq_ok_map fun class_ hclass => ?_))
  obtain ⟨_, -, hclass⟩ := (mapM_eq_ok h).2 class_ hclass
  obtain ⟨d, hd, -⟩ := bind_eq_ok.1 hclass
  exact resolve_listed (resolve_eq_ok.1 hd)

theorem exists_hierarchy {name : TypeName} (h : r.Resolvable name) :
    ∃ names, r.hierarchy name = .ok names := by
  obtain ⟨d, hd⟩ := h.exists_get?
  obtain ⟨sound, hsound⟩ : ∃ sound, r.soundFrom [] name [] = .ok sound := by
    cases hsound : r.soundFrom [] name [] with
    | ok sound => exact ⟨sound, rfl⟩
    | error e => exact absurd (fault_of_soundFrom hsound (by simp)) h.not_fault
  obtain ⟨classes, hclasses⟩ : ∃ classes, r.chainFrom [name] d = .ok classes :=
    chainFrom_total hd h fun x hx => List.mem_singleton.1 hx ▸ .refl
  obtain ⟨above, rfl, hascends⟩ := chainFrom_ok hclasses
  have habove : ∀ class_ ∈ [name] ++ above, ReflTransGen r.Lists class_ name :=
    hascends.reflTransGen hd
  have hlisted : ([name] ++ above).mapM (fun c => do return (← r.resolve c).interfaces) =
      .ok (([name] ++ above).map r.listed) := by
    refine mapM_eq_ok_map fun class_ hclass => ?_
    obtain ⟨e, he⟩ := (h.of_above (habove class_ hclass)).exists_get?
    exact resolve_listed he
  obtain ⟨names, hnames⟩ : ∃ names, r.collect ([name] ++ above)
      (([name] ++ above).map r.listed).flatten = .ok names := by
    refine collect_total fun x hx y hy => ?_
    obtain ⟨class_, hclass, hx⟩ := List.mem_flatMap.1 (List.flatMap_def ▸ hx)
    obtain ⟨e, he⟩ := (h.of_above (habove class_ hclass)).exists_get?
    rw [listed_eq he] at hx
    exact h.registered y ((hy.head he hx).reflTransGen.trans (habove class_ hclass))
  exact ⟨names, bind_eq_ok.2 ⟨sound, hsound, bind_eq_ok.2 ⟨_,
    bind_eq_ok.2 ⟨d, resolve_eq_ok.2 hd, hclasses⟩, bind_eq_ok.2 ⟨_, hlisted, hnames⟩⟩⟩⟩

theorem resolvable_of_hierarchy {name : TypeName} {names : List TypeName}
    (h : r.hierarchy name = .ok names) : r.Resolvable name := by
  obtain ⟨sound, hsound, -⟩ := bind_eq_ok.1 h
  exact (standing_of_soundFrom hsound (by simp) name (soundFrom_ok hsound).added).resolvable

theorem fault_of_hierarchy {name : TypeName} {e : Error} (h : r.hierarchy name = .error e) :
    r.Fault name e := by
  cases hsound : r.soundFrom [] name [] with
  | error e' =>
    rw [hierarchy, hsound] at h
    cases h
    exact fault_of_soundFrom hsound (by simp)
  | ok sound =>
    have hstanding := standing_of_soundFrom hsound (by simp) name (soundFrom_ok hsound).added
    obtain ⟨names, hnames⟩ := exists_hierarchy hstanding.resolvable
    rw [hnames] at h
    cases h

/-! ### How far the walks go -/

/-- What `soundFrom` comes to if types are above one another at most so deep; nothing if they are
deeper. -/
def soundWithin (r : Registry) (depth : Nat) (path : List TypeName) (name : TypeName)
    (sound : List TypeName) : ExceptT Error Option (List TypeName) :=
  match depth with
  | 0 => .mk none
  | depth + 1 =>
    if name ∈ sound then return sound
    else if name ∈ path then throw (.cyclicHierarchy name)
    else
      match r.get? name with
      | none => throw (.typeNotFound name)
      | some d => do
        let above ← d.supertypes.foldlM
          (fun sound above => soundWithin r depth (path ++ [name]) above sound) sound
        return name :: above

/-- What `chainFrom` comes to in at most so many steps; nothing if there are more superclasses. -/
def chainWithin (r : Registry) (steps : Nat) (chain : List TypeName) (last : TypeDefinition) :
    ExceptT Error Option (List TypeName) :=
  match steps with
  | 0 => .mk none
  | steps + 1 =>
    match last.superclass with
    | none => return chain
    | some name =>
      if name ∈ chain then throw (.cyclicHierarchy name)
      else
        match r.get? name with
        | none => throw (.typeNotFound name)
        | some d => chainWithin r steps (chain ++ [name]) d

/-- What `classHierarchy` comes to in at most so many steps; nothing if there are more superclasses. -/
def classHierarchyWithin (r : Registry) (steps : Nat) (name : TypeName) :
    ExceptT Error Option (List TypeName) := do
  r.chainWithin steps [name] (← (r.resolve name : Except Error TypeDefinition))

/-- What `hierarchy` comes to if none of its walks takes more steps, or goes deeper; nothing if one
does. -/
def hierarchyWithin (r : Registry) (steps : Nat) (name : TypeName) :
    ExceptT Error Option (List TypeName) := do
  let _ ← r.soundWithin steps [] name []
  let classes ← r.classHierarchyWithin steps name
  let listed ← (classes.mapM fun c => return (← r.resolve c).interfaces :
    Except Error (List (List TypeName)))
  .mk (r.collectWithin steps classes listed.flatten)

theorem run_bind_of_run {α β : Type} {x : ExceptT Error Option α} {x' : Except Error α}
    {f : α → ExceptT Error Option β} {g : α → Except Error β} (hx : x.run = some x')
    (hf : ∀ a, x' = .ok a → (f a).run = some (g a)) : (x >>= f).run = some (x' >>= g) := by
  rw [ExceptT.run_bind, hx]
  cases x' with
  | error e => rfl
  | ok a => exact hf a rfl

theorem run_soundWithin {path sound : List TypeName} {name : TypeName} {depth : Nat}
    (h : r.unmetWeight path < depth) :
    (r.soundWithin depth path name sound).run = some (r.soundFrom path name sound) := by
  fun_induction r.soundFrom path name sound generalizing depth <;>
    obtain ⟨depth, rfl⟩ := Nat.exists_eq_succ_of_ne_zero (Nat.ne_zero_of_lt h)
  case case1 path name sound hsound => simp [soundWithin, hsound]
  case case2 path name sound hsound hpath => simp [soundWithin, hsound, hpath]
  case case3 path name sound hsound hpath hnone => simp [soundWithin, hsound, hpath, hnone]
  case case4 path name sound hsound hpath d hd path' ih =>
    have hlt := unmetWeight_lt hd hpath
    simp only [soundWithin, hsound, hpath, if_false, hd]
    refine run_bind_of_run (Sequence.run_foldlM_of_run sound fun sound' above _ => ?_) fun _ _ => rfl
    exact ih sound' above (Nat.lt_of_lt_of_le hlt (Nat.le_of_lt_succ h))

theorem run_chainWithin {chain : List TypeName} {last : TypeDefinition} {steps : Nat}
    (h : r.unmetWeight chain < steps) :
    (r.chainWithin steps chain last).run = some (r.chainFrom chain last) := by
  fun_induction r.chainFrom chain last generalizing steps <;>
    obtain ⟨steps, rfl⟩ := Nat.exists_eq_succ_of_ne_zero (Nat.ne_zero_of_lt h)
  case case1 chain last hs => simp [chainWithin, hs]
  case case2 chain last name hs hmem => simp [chainWithin, hs, hmem]
  case case3 chain last name hs hmem hnone => simp [chainWithin, hs, hmem, hnone]
  case case4 chain last name hs hmem d hd ih =>
    have hlt := unmetWeight_lt hd hmem
    simp only [chainWithin, hs, hmem, if_false, hd]
    exact ih (by omega)

/-- The interfaces that superclasses list are paid for by the steps that lead to these. -/
theorem unmetWeight_chainFrom {chain names : List TypeName} {last : TypeDefinition}
    (h : r.chainFrom chain last = .ok names) : ∃ above, names = chain ++ above ∧
      r.unmetWeight names + (above.flatMap r.listed).length ≤ r.unmetWeight chain := by
  fun_induction r.chainFrom chain last with
  | case1 chain last hs =>
    cases h
    exact ⟨[], by simp⟩
  | case2 => cases h
  | case3 => cases h
  | case4 chain last name hs hmem d hd ih =>
    obtain ⟨above, rfl, hle⟩ := ih h
    have hvisit := unmetWeight_visit hd hmem
    refine ⟨name :: above, by simp, ?_⟩
    rw [List.flatMap_cons, List.length_append, listed_eq hd]
    omega

/-- No walk takes more steps than there are types and interfaces that these list. -/
theorem run_hierarchyWithin (r : Registry) (name : TypeName) :
    (r.hierarchyWithin (r.unmetWeight [] + 1) name).run = some (r.hierarchy name) := by
  have hvisit : ∀ d, r.resolve name = .ok d →
      r.unmetWeight [name] + d.interfaces.length + 1 ≤ r.unmetWeight [] :=
    fun d hd => unmetWeight_visit (resolve_eq_ok.1 hd) List.not_mem_nil
  have hclasses : (r.classHierarchyWithin (r.unmetWeight [] + 1) name).run =
      some (r.classHierarchy name) := by
    refine run_bind_of_run rfl fun d hd => run_chainWithin ?_
    have hle := hvisit d hd
    omega
  refine run_bind_of_run (run_soundWithin (Nat.lt_succ_self _)) fun _ _ => ?_
  refine run_bind_of_run hclasses fun classes hclasses => ?_
  refine run_bind_of_run rfl fun interfaces hinterfaces => collectWithin_eq ?_
  obtain ⟨d, hd, hclasses⟩ := bind_eq_ok.1 hclasses
  obtain ⟨above, rfl, habove⟩ := unmetWeight_chainFrom hclasses
  have hle := hvisit d hd
  rw [eq_map_listed hinterfaces, ← List.flatMap_def, List.singleton_append, List.flatMap_cons,
    List.length_append, listed_eq (resolve_eq_ok.1 hd)]
  rw [List.singleton_append] at habove
  omega

/-! ### Order -/

/-- Whether names are those of a type and its superclasses, in order, followed by all that these lead
to through interfaces, depth first from the type on. Each type is there once: ways end at the classes,
which have their own turns, and what comes again is left out. -/
structure IsHierarchy (r : Registry) (name : TypeName) (names : List TypeName) : Prop where
  nodup : names.Nodup
  order : ∃ d above rest, r.get? name = some d ∧ r.Ascends d above ∧ names = name :: above ++ rest ∧
    rest = (((name :: above).flatMap r.listed).flatMap (r.along (name :: above))).eraseDups ∧
    ∀ x, x ∈ rest ↔ x ∉ name :: above ∧ ∃ class_ ∈ name :: above, r.LeadsTo class_ x

theorem isHierarchy_of_hierarchy {name : TypeName} {names : List TypeName}
    (h : r.hierarchy name = .ok names) : r.IsHierarchy name names := by
  refine ⟨nodup_hierarchy h, ?_⟩
  obtain ⟨d, above, rest, hd, hascends, rfl, hmem⟩ := hierarchy_ok h
  have hnodup := nodup_hierarchy h
  have hresolvable := resolvable_of_hierarchy h
  refine ⟨d, above, rest, hd, hascends, rfl, ?_, fun x => ?_⟩
  · obtain ⟨_, -, h⟩ := bind_eq_ok.1 h
    obtain ⟨classes, hclasses, h⟩ := bind_eq_ok.1 h
    obtain ⟨interfaces, hinterfaces, h⟩ := bind_eq_ok.1 h
    obtain ⟨d', hd', hclasses⟩ := bind_eq_ok.1 hclasses
    obtain rfl := Option.some.inj (hd.symm.trans (resolve_eq_ok.1 hd'))
    obtain ⟨above', rfl, hascends'⟩ := chainFrom_ok hclasses
    obtain rfl := hascends.unique hascends'
    have hall := collect_eq (.self r (name :: above)) h
    rw [fresh_flatMap_along, eq_map_listed hinterfaces, ← List.flatMap_def] at hall
    exact List.append_cancel_left hall
  · rw [← hmem, List.mem_append]
    exact ⟨fun hx => ⟨fun hclass => (List.nodup_append.1 hnodup).2.2 x hclass x hx rfl, .inr hx⟩,
      fun ⟨hn, hx⟩ => hx.resolve_left hn⟩

/-- The search for a hierarchy ends. It succeeds just if all types above are registered and none is above
itself, and then it has the classes in order and what they lead to depth first; a failure names a type
above that is missing or above itself. -/
theorem hierarchy_exact (r : Registry) (name : TypeName) :
    (r.hierarchyWithin (r.unmetWeight [] + 1) name).run = some (r.hierarchy name) ∧
    ((∃ names, r.hierarchy name = .ok names) ↔ r.Resolvable name) ∧
    (∀ e, r.hierarchy name = .error e → r.Fault name e) ∧
    ∀ names, r.hierarchy name = .ok names → r.IsHierarchy name names :=
  ⟨run_hierarchyWithin r name, ⟨fun ⟨_, h⟩ => resolvable_of_hierarchy h, exists_hierarchy⟩,
    fun _ => fault_of_hierarchy, fun _ => isHierarchy_of_hierarchy⟩

/-- A class that comes to one interface in two ways, a class whose superclass is missing, and interfaces
that extend each other. -/
def crossing : Registry := [
  { name := ⟨"Top"⟩, kind := .interface },
  { name := ⟨"Left"⟩, kind := .interface, interfaces := [⟨"Top"⟩] },
  { name := ⟨"Right"⟩, kind := .interface, interfaces := [⟨"Top"⟩] },
  { name := ⟨"Base"⟩, kind := .concrete, interfaces := [⟨"Left"⟩] },
  { name := ⟨"Derived"⟩, kind := .concrete, superclass := some ⟨"Base"⟩, interfaces := [⟨"Right"⟩] },
  { name := ⟨"Orphan"⟩, kind := .concrete, superclass := some ⟨"Missing"⟩ },
  { name := ⟨"Here"⟩, kind := .interface, interfaces := [⟨"There"⟩] },
  { name := ⟨"There"⟩, kind := .interface, interfaces := [⟨"Here"⟩] : TypeDefinition }
  ].foldl Registry.register .initial

/-- The interface is listed once, where the way that comes first has it; the other types have no
hierarchy. -/
theorem hierarchy_exact_crossing :
    crossing.IsHierarchy ⟨"Derived"⟩ [⟨"Derived"⟩, ⟨"Base"⟩, ⟨"Right"⟩, ⟨"Top"⟩, ⟨"Left"⟩] ∧
      ¬ crossing.Resolvable ⟨"Orphan"⟩ ∧ ¬ crossing.Resolvable ⟨"Here"⟩ := by
  have hnone : ∀ name, (crossing.hierarchy name).toOption = none → ¬ crossing.Resolvable name := by
    intro name hnone hresolvable
    obtain ⟨names, hnames⟩ := (hierarchy_exact crossing name).2.1.2 hresolvable
    rw [hnames] at hnone
    cases hnone
  exact ⟨(hierarchy_exact crossing _).2.2.2 _ (toOption_eq_some (by decide +kernel)),
    hnone _ (by decide +kernel), hnone _ (by decide +kernel)⟩

end Registry

end ObjectValidation
