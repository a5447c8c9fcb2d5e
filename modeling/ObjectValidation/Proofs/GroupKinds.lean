import ObjectValidation.Proofs.Expansion
import ObjectValidation.Proofs.Splicing
/-!
# Classes as groups

A group that is requested has to be an interface. What comes with it is not looked at: the members of
sequences and what groups extend get into an order as they are registered. So the groups of an order are
interfaces just where the sequences that are requested, and the groups that these stand for, list nothing
else (`groups_are_interfaces_iff`).
-/

namespace ObjectValidation

namespace Registry

variable {r : Registry}

/-! ### What a member of a sequence stands for -/

/-- Whether a group is one that a member of a sequence stands for: itself, or what is listed below it. -/
def StandsFor (r : Registry) (member group : TypeName) : Prop :=
  Relation.ReflTransGen r.HasMember member group ∧ r.sequenceMembers? group = none

theorem standsFor_of_group {member group : TypeName} (h : r.sequenceMembers? member = none) :
    r.StandsFor member group ↔ group = member := by
  constructor
  · rintro ⟨hreach, -⟩
    rcases Relation.ReflTransGen.cases_head hreach with rfl | ⟨x, ⟨members, hmembers, -⟩, -⟩
    · rfl
    · rw [h] at hmembers
      cases hmembers
  · rintro rfl
    exact ⟨.refl, h⟩

theorem standsFor_of_sequence {sequence group : TypeName} {members : List TypeName}
    (h : r.sequenceMembers? sequence = some members) :
    r.StandsFor sequence group ↔ ∃ x ∈ members, r.StandsFor x group := by
  constructor
  · rintro ⟨hreach, hgroup⟩
    rcases Relation.ReflTransGen.cases_head hreach with rfl | ⟨x, ⟨members', hmembers', hx⟩, hreach⟩
    · rw [h] at hgroup
      cases hgroup
    · obtain rfl : members = members' := Option.some.inj (h.symm.trans hmembers')
      exact ⟨x, hx, hreach, hgroup⟩
  · rintro ⟨x, hx, hreach, hgroup⟩
    exact ⟨.head ⟨members, h, hx⟩ hreach, hgroup⟩

end Registry

namespace Sequence

variable {r : Registry}

/-- Where each step adds what belongs to its item, all steps add what belongs to one of the items. -/
theorem mem_foldlM_iff {α : Type} {f : List TypeName → α → Except Error (List TypeName)}
    {P : α → TypeName → Prop} : ∀ {xs : List α} {groups groups' : List TypeName},
    (∀ gs, ∀ x ∈ xs, ∀ gs', f gs x = .ok gs' → ∀ g, g ∈ gs' ↔ g ∈ gs ∨ P x g) →
    xs.foldlM f groups = .ok groups' → ∀ g, g ∈ groups' ↔ g ∈ groups ∨ ∃ x ∈ xs, P x g
  | [], groups, groups', _, h, g => by
    cases h
    simp
  | x :: xs, groups, groups', hf, h, g => by
    rw [List.foldlM_cons] at h
    obtain ⟨groups₁, hx, h⟩ := bind_eq_ok.1 h
    rw [mem_foldlM_iff (fun gs y hy => hf gs y (List.mem_cons_of_mem _ hy)) h g,
      hf groups x (by simp) groups₁ hx g, or_assoc]
    simp

theorem mem_place_iff {name member : TypeName} {groups groups' : List TypeName}
    (h : place name groups member = .ok groups') (g : TypeName) :
    g ∈ groups' ↔ g ∈ groups ∨ g = member := by
  rcases place_eq_ok h with ⟨hlast, rfl⟩ | ⟨-, rfl⟩
  · exact ⟨.inl, fun hg => hg.elim id fun he => he ▸ List.mem_of_getLast? hlast⟩
  · rw [List.mem_append, List.mem_singleton]

/-- A sequence is expanded to the groups that its members stand for. -/
theorem mem_expand_iff {path members groups : List TypeName} {name : TypeName}
    (h : expand r path name members = .ok groups) (g : TypeName) :
    g ∈ groups ↔ ∃ x ∈ members, r.StandsFor x g := by
  -- A nested sequence is expanded with itself on the path, so less is left to come to.
  induction hn : r.unmetWeight path using Nat.strong_induction_on generalizing path name members groups g
    with
  | h n ih =>
    rw [expand_eq] at h
    rw [mem_foldlM_iff (P := r.StandsFor) ?_ h]
    · simp
    intro gs member _ gs' henlist g
    rcases enlist_eq_ok henlist with ⟨hgroup, hplace⟩ | ⟨nested, inner, hnested, hpath, hinner, hplaces⟩
    · rw [mem_place_iff hplace, Registry.standsFor_of_group hgroup]
    · obtain ⟨d, hd, -⟩ := Option.bind_eq_some_iff.1 hnested
      rw [mem_foldlM_iff (P := fun x g => g = x) (fun _ _ _ _ hplace => mem_place_iff hplace) hplaces,
        Registry.standsFor_of_sequence hnested]
      simp only [exists_eq_right', ih _ (hn ▸ Registry.unmetWeight_lt hd hpath) hinner _ rfl]

/-- The groups at the position of a group are the group and what it extends. -/
theorem IsPosition.mem_iff {group x : TypeName} {position : List Group}
    (h : IsPosition r group position) : (∃ g ∈ position, g.name = x) ↔
      x = group ∨ (group.isDefault = false ∧ r.LeadsTo group x) := by
  obtain ⟨implied, rfl, -, himplied⟩ := h
  have hnames : (∃ g ∈ Group.plain group :: implied.map (⟨·, true⟩), g.name = x) ↔
      x = group ∨ x ∈ implied := by
    simp [Group.plain, eq_comm]
  rw [hnames, himplied]
  by_cases hx : x = group <;> simp [hx]

/-- Whether a group is part of a sequence: one that it is made of, or at one of its positions. -/
def Has (s : Sequence) (x : TypeName) : Prop :=
  x ∈ s.groups ∨ ∃ position ∈ s.positions, ∃ g ∈ position, g.name = x

/-- A sequence has the groups that its type stands for and what these extend. -/
theorem has_iff {name : TypeName} {members : List TypeName} {s : Sequence}
    (hmembers : r.sequenceMembers? name = some members) (h : build r name members = .ok s)
    (x : TypeName) : s.Has x ↔ ∃ leaf, r.StandsFor name leaf ∧
      (x = leaf ∨ (leaf.isDefault = false ∧ r.LeadsTo leaf x)) := by
  obtain ⟨groups, hgroups, h⟩ := bind_eq_ok.1 h
  obtain ⟨positions, hpositions, h⟩ := bind_eq_ok.1 h
  cases h
  have hleaf : ∀ g, g ∈ groups ↔ r.StandsFor name g := fun g => by
    rw [mem_expand_iff hgroups, Registry.standsFor_of_sequence hmembers]
  obtain ⟨hsource, himage⟩ := mapM_eq_ok hpositions
  constructor
  · rintro (hx | ⟨position, hposition, hx⟩)
    · exact ⟨x, (hleaf x).1 hx, .inl rfl⟩
    · obtain ⟨leaf, hmem, hleads⟩ := hsource position hposition
      exact ⟨leaf, (hleaf leaf).1 hmem, (isPosition_of_positionOf hleads).mem_iff.1 hx⟩
  · rintro ⟨leaf, hstands, hx⟩
    obtain ⟨position, hposition, hleads⟩ := himage leaf ((hleaf leaf).2 hstands)
    exact .inr ⟨position, hposition, (isPosition_of_positionOf hleads).mem_iff.2 hx⟩

end Sequence

namespace Order

open Expanding

variable {r : Registry}

/-! ### What a request brings into an order -/

/-- Whether a group is part of an order: on its own or in a sequence. -/
def Has (o : Order) (x : TypeName) : Prop := x ∈ o.names ∨ ∃ s ∈ o.sequences, s.Has x

/-- Whether a requested group brings another one with it: one of those that it stands for does, as that
group or as one that it extends. The default group brings only itself. -/
def Brings (r : Registry) (requested x : TypeName) : Prop :=
  if requested.isDefault then x = requested
  else ∃ leaf, r.StandsFor requested leaf ∧ (x = leaf ∨ (leaf.isDefault = false ∧ r.LeadsTo leaf x))

theorem brings_iff {g x : TypeName} (hdefault : g.isDefault = false) : Brings r g x ↔
    ∃ leaf, r.StandsFor g leaf ∧ (x = leaf ∨ (leaf.isDefault = false ∧ r.LeadsTo leaf x)) := by
  rw [Brings, if_neg (by simp [hdefault])]

theorem brings_of_isPlain {g x : TypeName} {gs : List Group} (hplain : IsPlain r g)
    (h : Sequence.IsPosition r g gs) : Brings r g x ↔ ∃ g' ∈ gs, g'.name = x := by
  rw [h.mem_iff]
  by_cases hdefault : g.isDefault
  · simp [Brings, hdefault]
  · have hdefault : g.isDefault = false := by simpa using hdefault
    have hgroup : r.sequenceMembers? g = none := hplain.resolve_left (by simp [hdefault])
    simp only [brings_iff hdefault, Registry.standsFor_of_group hgroup, exists_eq_left]

theorem brings_of_isExpanded {x : TypeName} {s : Sequence} (hplain : ¬ IsPlain r s.name)
    (h : IsExpanded r s) : Brings r s.name x ↔ s.Has x := by
  obtain ⟨members, hmembers, hbuild⟩ := h
  rw [brings_iff (Bool.eq_false_iff.2 (not_or.1 hplain).1), Sequence.has_iff hmembers hbuild]

theorem mem_map_firstOfEachName {gs : List Group} {x : TypeName} :
    x ∈ (firstOfEachName gs).map (·.name) ↔ ∃ g ∈ gs, g.name = x := by
  have hadded : (({} : Order).addGroups gs).groups = firstOfEachName gs := by
    simp [addGroups, foldl_insertGroup]
  have hnames : x ∈ (({} : Order).addGroups gs).names ↔ x ∈ ({} : Order).names ∨ ∃ g ∈ gs, g.name = x :=
    names_addGroups
  rw [names, hadded] at hnames
  simpa [names] using hnames

/-- The order has just what the requested groups bring. -/
theorem KeepsFirst.has_iff {requested : List TypeName} {o : Order} (h : KeepsFirst r requested o)
    (x : TypeName) : o.Has x ↔ ∃ g ∈ requested, Brings r g x := by
  constructor
  · rintro (hx | ⟨s, hs, hx⟩)
    · rw [names, h.groups, mem_map_firstOfEachName] at hx
      obtain ⟨g, hg, hx⟩ := hx
      obtain ⟨group, hgroup, hg⟩ := List.mem_flatMap.1 hg
      have hplain : IsPlain r group := by
        by_contra hplain
        rw [writtenOut, if_neg (not_or.1 hplain).1, if_neg hplain] at hg
        cases hg
      exact ⟨group, hgroup, (brings_of_isPlain hplain (h.written group hgroup hplain)).2 ⟨g, hg, hx⟩⟩
    · have hname : s.name ∈ requested.filter (¬ IsPlain r ·) := by
        rw [← List.mem_eraseDups, ← h.sequences]
        exact List.mem_map_of_mem hs
      obtain ⟨hname, hplain⟩ := List.mem_filter.1 hname
      exact ⟨s.name, hname, (brings_of_isExpanded (by simpa using hplain) (h.expanded s hs)).2 hx⟩
  · rintro ⟨group, hgroup, hx⟩
    by_cases hplain : IsPlain r group
    · obtain ⟨g, hg, hx⟩ := (brings_of_isPlain hplain (h.written group hgroup hplain)).1 hx
      refine .inl ?_
      rw [names, h.groups, mem_map_firstOfEachName]
      exact ⟨g, List.mem_flatMap.2 ⟨group, hgroup, hg⟩, hx⟩
    · have hname : group ∈ o.sequences.map (·.name) := by
        rw [h.sequences, List.mem_eraseDups]
        exact List.mem_filter.2 ⟨hgroup, by simpa using hplain⟩
      obtain ⟨s, hs, rfl⟩ := List.mem_map.1 hname
      exact .inr ⟨s, hs, (brings_of_isExpanded hplain (h.expanded s hs)).1 hx⟩

theorem has_iff_of_answer {requested : List TypeName} {o : Order}
    (h : answer (ofGroups r requested) = .ok o) (x : TypeName) :
    o.Has x ↔ ∃ g ∈ requested, Brings r g x := by
  by_cases hother : requested.any (!·.isDefault)
  · exact (keepsFirst_of_answer h hother).has_iff x
  · have hdefault : ∀ g ∈ requested, g = TypeName.defaultGroup := by
      simpa [TypeName.isDefault] using hother
    cases requested with
    | nil => cases h
    | cons g rest =>
      rw [answer_ofGroups_of_all (by simp) (by simpa using hother)] at h
      cases h
      have hhas : default.Has x ↔ x = TypeName.defaultGroup := by
        simp [Has, names, default, Group.plain]
      rw [hhas]
      constructor
      · rintro rfl
        exact ⟨g, by simp, by rw [hdefault g (by simp)]; rfl⟩
      · rintro ⟨g', hg', hx⟩
        rw [hdefault g' hg'] at hx
        exact hx

/-! ### Which of it are interfaces -/

/-- Groups that are requested are interfaces, unless the default group alone is. -/
theorem isInterface_of_answer {requested : List TypeName} {o : Order}
    (h : answer (ofGroups r requested) = .ok o) (hother : requested.any (!·.isDefault)) :
    ∀ g ∈ requested, r.isInterface g := by
  rw [answer_ofGroups_of_any hother] at h
  obtain ⟨_, hchecked, -⟩ := bind_eq_ok.1 h
  exact forM_checkGroup_eq_ok.1 hchecked

/-- Whether only interfaces are listed where a requested group leads: by the sequences that it comes to and
by what their groups extend. The default group leads nowhere. -/
structure LeadsToInterfaces (r : Registry) (group : TypeName) : Prop where
  isInterface : r.isInterface group
  members : group.isDefault = false → ∀ sequence x,
    Relation.ReflTransGen r.HasMember group sequence → r.HasMember sequence x → r.isInterface x
  extended : group.isDefault = false → ∀ leaf above x d, r.StandsFor group leaf →
    leaf.isDefault = false → r.LeadsTo leaf above → r.get? above = some d → x ∈ d.interfaces →
    r.isInterface x

theorem leadsToInterfaces_iff {g : TypeName} (hg : r.isInterface g) :
    (∀ x, Brings r g x → r.isInterface x) ↔ LeadsToInterfaces r g := by
  constructor
  · intro h
    refine ⟨hg, ?_, ?_⟩
    · intro hdefault sequence x hreach hx
      cases hmembers : r.sequenceMembers? x with
      -- A nested sequence gets into no order itself, but only an interface can be one.
      | some members => exact checkGroup_eq_ok.1 (checkGroup_sequence hmembers)
      | none => exact h x ((brings_iff hdefault).2 ⟨x, ⟨hreach.tail hx, hmembers⟩, .inl rfl⟩)
    · intro hdefault leaf above x d hstands hleaf hleads hd hx
      exact h x ((brings_iff hdefault).2 ⟨leaf, hstands, .inr ⟨hleaf, hleads.step hd hx⟩⟩)
  · intro h x hx
    cases hdefault : g.isDefault with
    | true =>
      rw [Brings, if_pos hdefault] at hx
      exact hx ▸ hg
    | false =>
      obtain ⟨leaf, hstands, hx⟩ := (brings_iff hdefault).1 hx
      have hleaf : r.isInterface leaf := by
        rcases Relation.ReflTransGen.cases_tail hstands.1 with rfl | ⟨sequence, hreach, hmember⟩
        · exact hg
        · exact h.members hdefault sequence leaf hreach hmember
      rcases hx with rfl | ⟨hother, hleads⟩
      · exact hleaf
      · cases hleads with
        | refl => exact hleaf
        | step hleads hd hx => exact h.extended hdefault leaf _ x _ hstands hother hleads hd hx

/-- Where types list only interfaces, each interface leads to interfaces only. -/
theorem leadsToInterfaces_of_lists {g : TypeName} (hg : r.isInterface g) (h : ∀ d ∈ r.definitions,
    ∀ x ∈ d.sequenceMembers?.getD [] ++ d.interfaces, r.isInterface x) : LeadsToInterfaces r g where
  isInterface := hg
  members := by
    rintro - sequence x - ⟨members, hmembers, hx⟩
    obtain ⟨d, hd, hd'⟩ := Option.bind_eq_some_iff.1 hmembers
    exact h d (Registry.mem_of_get? hd) x (List.mem_append_left _ (by rwa [hd']))
  extended _ _ _ x d _ _ _ hd hx := h d (Registry.mem_of_get? hd) x (List.mem_append_right _ hx)

/-- The groups of an order are interfaces just if only interfaces are listed where the requested groups
lead, whatever was requested before. -/
theorem groups_are_interfaces_iff {requested : List TypeName} {o : Order}
    (earlier : List (List TypeName))
    (h : (((ofGroups r requested).run.run (rememberedAfter r [] earlier)).run).1 = .ok o) :
    (∀ x, o.Has x → r.isInterface x) ↔ ∀ g ∈ requested, LeadsToInterfaces r g := by
  rw [(steady_ofGroups r requested).run_eq (coherent_rememberedAfter (SequenceCache.coherent_nil r))]
    at h
  have hhas := has_iff_of_answer h
  constructor
  · intro hinterfaces g hg
    have hbrings : ∀ x, Brings r g x → r.isInterface x :=
      fun x hx => hinterfaces x ((hhas x).2 ⟨g, hg, hx⟩)
    have hself : r.isInterface g := by
      by_cases hdefault : g.isDefault
      · exact hbrings g (by rw [Brings, if_pos hdefault])
      · exact isInterface_of_answer h (List.any_eq_true.2 ⟨g, hg, by simp [hdefault]⟩) g hg
    exact (leadsToInterfaces_iff hself).1 hbrings
  · intro hleads x hx
    obtain ⟨g, hg, hx⟩ := (hhas x).1 hx
    exact (leadsToInterfaces_iff (hleads g hg).isInterface).2 (hleads g hg) x hx

/-- Groups that extend each other and sequences of these, one of them nested. -/
def layered : Registry := [
  { name := ⟨"A"⟩, kind := .interface },
  { name := ⟨"B"⟩, kind := .interface, interfaces := [⟨"A"⟩] },
  { name := ⟨"Inner"⟩, kind := .interface, sequence := some [⟨"B"⟩] },
  { name := ⟨"Outer"⟩, kind := .interface,
    sequence := some [⟨"Inner"⟩, TypeName.defaultGroup] : TypeDefinition }
  ].foldl Registry.register .initial

/-- The order of the outer sequence and one of its groups. -/
def layered.order : Order where
  groups := [Group.plain ⟨"B"⟩, ⟨⟨"A"⟩, true⟩]
  sequences := [{
    name := ⟨"Outer"⟩
    groups := [⟨"B"⟩, TypeName.defaultGroup]
    positions := [[Group.plain ⟨"B"⟩, ⟨⟨"A"⟩, true⟩], [Group.plain TypeName.defaultGroup]] }]

/-- All that the outer sequence and the group bring are interfaces. -/
theorem layered_groups_are_interfaces :
    (((ofGroups layered [⟨"Outer"⟩, ⟨"B"⟩]).run.run (rememberedAfter layered [] [[⟨"Inner"⟩]])).run).1 =
      .ok layered.order ∧ ∀ x, layered.order.Has x → layered.isInterface x := by
  have horder : (((ofGroups layered [⟨"Outer"⟩, ⟨"B"⟩]).run.run
    (rememberedAfter layered [] [[⟨"Inner"⟩]])).run).1 = .ok layered.order :=
    toOption_eq_some (by decide +kernel)
  refine ⟨horder, (groups_are_interfaces_iff _ horder).2 fun g hg => leadsToInterfaces_of_lists ?_ ?_⟩
  · revert g
    decide +kernel
  · decide +kernel

/-- A sequence and a group that each list a class. -/
def straying : Registry := [
  { name := ⟨"Car"⟩, kind := .concrete },
  { name := ⟨"Steps"⟩, kind := .interface, sequence := some [⟨"Car"⟩] },
  { name := ⟨"Rides"⟩, kind := .interface, interfaces := [⟨"Car"⟩] : TypeDefinition }
  ].foldl Registry.register .initial

/-- The sequence of the class. -/
def straying.steps : Sequence where
  name := ⟨"Steps"⟩
  groups := [⟨"Car"⟩]
  positions := [[Group.plain ⟨"Car"⟩]]

/-- The class cannot be requested, but the sequence and the group get it into their orders. -/
theorem class_acts_as_group :
    (((ofGroups straying [⟨"Car"⟩]).run.run []).run).1 = .error (.notAGroup ⟨"Car"⟩) ∧
    (∀ g ∈ [⟨"Steps"⟩, ⟨"Rides"⟩], ∃ o, (((ofGroups straying [g]).run.run []).run).1 = .ok o ∧
      o.Has ⟨"Car"⟩) ∧ ¬ straying.isInterface ⟨"Car"⟩ := by
  have hsteps : (((ofGroups straying [⟨"Steps"⟩]).run.run []).run).1 =
    .ok { sequences := [straying.steps] } := toOption_eq_some (by decide +kernel)
  have hrides : (((ofGroups straying [⟨"Rides"⟩]).run.run []).run).1 =
    .ok { groups := [Group.plain ⟨"Rides"⟩, ⟨⟨"Car"⟩, true⟩] } := toOption_eq_some (by decide +kernel)
  refine ⟨rfl, List.forall_mem_cons.2 ⟨⟨_, hsteps, ?_⟩, List.forall_mem_singleton.2 ⟨_, hrides, ?_⟩⟩,
    by decide +kernel⟩
  · exact .inr ⟨_, List.mem_singleton_self _, .inl (List.mem_singleton_self _)⟩
  · exact .inl (by simp [names])

end Order

end ObjectValidation
