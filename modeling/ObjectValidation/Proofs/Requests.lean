import ObjectValidation.Proofs.Metadata
/-!
# Requests of plain groups

A request that lists no sequence comes to an order of groups alone: each group listed brings itself and
the groups it extends, in turn, unless they are there already.
-/

namespace ObjectValidation.Order

variable {r : Registry}

/-- Whether a group of a request stands for no sequence. -/
def IsPlain (r : Registry) (group : TypeName) : Prop :=
  group.isDefault ∨ r.sequenceMembers? group = none

instance (r : Registry) (group : TypeName) : Decidable (IsPlain r group) :=
  inferInstanceAs (Decidable (_ ∨ _))

/-- The names of the groups of an order. -/
def names (o : Order) : List TypeName := o.groups.map (·.name)

/-- The order with what a plain group brings added. -/
def bring (r : Registry) (o : Order) (group : TypeName) : Except Error Order :=
  (Sequence.positionOf r group).map o.addGroups

theorem request_of_isPlain {group : TypeName} (h : IsPlain r group) (o : Order)
    (cache : SequenceCache) :
    ((request r o group).run.run cache).run = (bring r o group, cache) := by
  unfold request bring Sequence.positionOf
  split
  · rfl
  · next hg =>
    rw [h.resolve_left hg]
    cases r.superInterfaces group <;> rfl

theorem foldlM_request : ∀ {gs : List TypeName} {o : Order} {cache : SequenceCache},
    (∀ g ∈ gs, IsPlain r g) →
    ((gs.foldlM (request r) o).run.run cache).run = (gs.foldlM (bring r) o, cache)
  | [], _, _, _ => rfl
  | g :: gs, o, cache, h => by
    rw [List.foldlM_cons, List.foldlM_cons, run_bind, request_of_isPlain (h g (by simp))]
    cases bring r o g with
    | error e => rfl
    | ok o' => exact foldlM_request fun g' hg' => h g' (by simp [hg'])

/-- The default group, however often it is listed, comes to its own order. -/
theorem foldlM_bring_default : ∀ {gs : List TypeName}, gs.all (·.isDefault) →
    gs.foldlM (bring r) default = .ok default
  | [], _ => rfl
  | g :: gs, h => by
    simp only [List.all_cons, Bool.and_eq_true] at h
    have hg : g = TypeName.defaultGroup := by simpa [TypeName.isDefault] using h.1
    have hbring : bring r default g = .ok default := by
      rw [hg]
      rfl
    rw [List.foldlM_cons, hbring]
    exact foldlM_bring_default h.2

/-- The order that plain groups come to. -/
theorem ofGroups_eq_ok {gs : List TypeName} {cache cache' : SequenceCache} {o : Order}
    (hplain : ∀ g ∈ gs, IsPlain r g)
    (h : ((ofGroups r gs).run.run cache).run = (.ok o, cache')) :
    gs ≠ [] ∧ gs.foldlM (bring r) {} = .ok o := by
  unfold ofGroups at h
  cases gs with
  | nil => cases h
  | cons g gs =>
    refine ⟨by simp, ?_⟩
    simp only [List.isEmpty_cons, Bool.false_eq_true, if_false] at h
    split at h
    · next hdefault =>
      cases h
      simp only [List.all_cons, Bool.and_eq_true] at hdefault
      obtain rfl : g = TypeName.defaultGroup := by simpa [TypeName.isDefault] using hdefault.1
      exact foldlM_bring_default hdefault.2
    · rw [run_bind] at h
      split at h
      · rw [foldlM_request hplain] at h
        exact congrArg Prod.fst h
      · cases h

/-! ### What the order has -/

theorem names_addGroups {o : Order} {gs : List Group} {name : TypeName} :
    name ∈ (o.addGroups gs).names ↔ name ∈ o.names ∨ ∃ g ∈ gs, g.name = name := by
  unfold addGroups names
  simp only
  generalize o.groups = groups
  induction gs generalizing groups with
  | nil => simp
  | cons g gs ih =>
    rw [List.foldl_cons, ih]
    unfold insertGroup
    split
    · next h =>
      simp only [List.any_eq_true, decide_eq_true_eq] at h
      obtain ⟨g', hg', hname⟩ := h
      simp only [List.mem_map, List.mem_cons]
      grind
    · simp only [List.map_append, List.map_cons, List.map_nil, List.mem_append, List.mem_cons]
      grind

theorem bring_eq_ok {o o' : Order} {group : TypeName} : bring r o group = .ok o' ↔
    ∃ gs, Sequence.positionOf r group = .ok gs ∧ o' = o.addGroups gs := by
  unfold bring
  cases Sequence.positionOf r group <;> simp [Except.map, eq_comm]

theorem plain_mem_positionOf {group : TypeName} {gs : List Group}
    (h : Sequence.positionOf r group = .ok gs) : Group.plain group ∈ gs := by
  unfold Sequence.positionOf at h
  split at h
  · cases h
    simp
  · obtain ⟨implied, -, h⟩ := bind_eq_ok.1 h
    cases h
    simp

/-- The order has just the groups that the listed ones bring, and no sequences. -/
theorem foldlM_bring_ok : ∀ {gs : List TypeName} {o o' : Order}, gs.foldlM (bring r) o = .ok o' →
    o'.sequences = o.sequences ∧ ∀ name, name ∈ o'.names ↔
      name ∈ o.names ∨ ∃ g ∈ gs, ∃ position, Sequence.positionOf r g = .ok position ∧
        ∃ g' ∈ position, g'.name = name
  | [], o, o', h => by
    cases h
    simp
  | g :: gs, o, o', h => by
    rw [List.foldlM_cons] at h
    obtain ⟨o₁, h₁, h⟩ := bind_eq_ok.1 h
    obtain ⟨position, hposition, rfl⟩ := bring_eq_ok.1 h₁
    obtain ⟨hsequences, hnames⟩ := foldlM_bring_ok h
    refine ⟨hsequences, ?_⟩
    intro name
    rw [hnames, names_addGroups]
    simp only [List.mem_cons, exists_eq_or_imp, hposition, Except.ok.injEq, exists_eq_left',
      or_assoc]

/-- An order of plain groups has the groups listed and no sequences. -/
theorem ofGroups_isPlain {gs : List TypeName} {cache cache' : SequenceCache} {o : Order}
    (hplain : ∀ g ∈ gs, IsPlain r g)
    (h : ((ofGroups r gs).run.run cache).run = (.ok o, cache')) :
    o.sequences = [] ∧ o.groups ≠ [] ∧ ∀ g ∈ gs, g ∈ o.names := by
  obtain ⟨hne, h⟩ := ofGroups_eq_ok hplain h
  obtain ⟨hsequences, hnames⟩ := foldlM_bring_ok h
  have hmem : ∀ g ∈ gs, g ∈ o.names := by
    intro g hg
    refine foldlM_reaches (x := g) (I := fun o => g ∈ o.names) ?_
      ?_ hg h
    · intro o o' hb
      obtain ⟨position, hposition, rfl⟩ := bring_eq_ok.1 hb
      exact names_addGroups.2 (.inr ⟨_, plain_mem_positionOf hposition, rfl⟩)
    · intro o g' o' hI hb
      obtain ⟨position, -, rfl⟩ := bring_eq_ok.1 hb
      exact names_addGroups.2 (.inl hI)
  obtain ⟨g, hg⟩ := List.exists_mem_of_ne_nil gs hne
  refine ⟨hsequences, ?_, hmem⟩
  rintro hnil
  simpa [names, hnil] using hmem g hg

/-! ### What is requested -/

/-- The names of the groups that a request comes to, one that lists no group being for the default
group; none if it fails. -/
def requested (r : Registry) (gs : List TypeName) : List TypeName :=
  match (if gs.isEmpty then [TypeName.defaultGroup] else gs).foldlM (bring r) {} with
  | .ok o => o.names
  | .error _ => []

theorem nodup_addGroups {o : Order} (h : o.names.Nodup) (gs : List Group) :
    (o.addGroups gs).names.Nodup := by
  unfold addGroups names
  unfold names at h
  simp only
  generalize o.groups = groups at h
  induction gs generalizing groups with
  | nil => exact h
  | cons g gs ih =>
    refine ih _ ?_
    unfold insertGroup
    split
    · exact h
    · next hg =>
      simp only [List.any_eq_true, decide_eq_true_eq, not_exists, not_and] at hg
      rw [List.map_append, List.nodup_append]
      refine ⟨h, by simp, ?_⟩
      intro a ha b hb
      obtain ⟨g', hg', rfl⟩ := List.mem_map.1 ha
      rw [List.map_singleton, List.mem_singleton] at hb
      exact hb ▸ hg g' hg'

/-- No group is requested twice. -/
theorem nodup_requested (r : Registry) (gs : List TypeName) : (requested r gs).Nodup := by
  unfold requested
  split
  · next o ho =>
    refine foldlM_keeps (I := fun o : Order => o.names.Nodup) ?_ ho (by
      simp [names])
    intro o g o' _ hI hb
    obtain ⟨position, -, rfl⟩ := bring_eq_ok.1 hb
    exact nodup_addGroups hI position
  · exact List.nodup_nil

/-- A request of plain groups comes to the groups that it is said to come to, and no sequences. -/
theorem ofGroups_requested {gs : List TypeName} {cache cache' : SequenceCache} {o : Order}
    (hplain : ∀ g ∈ gs, IsPlain r g)
    (h : ((ofGroups r (if gs.isEmpty then [TypeName.defaultGroup] else gs)).run.run cache).run =
      (.ok o, cache')) : o.sequences = [] ∧ o.groups ≠ [] ∧ o.names = requested r gs := by
  have hplain' : ∀ g ∈ (if gs.isEmpty then [TypeName.defaultGroup] else gs), IsPlain r g := by
    split
    · simpa using .inl rfl
    · exact hplain
  obtain ⟨hsequences, hgroups, -⟩ := ofGroups_isPlain hplain' h
  refine ⟨hsequences, hgroups, ?_⟩
  rw [requested, (ofGroups_eq_ok hplain' h).2]

end ObjectValidation.Order
