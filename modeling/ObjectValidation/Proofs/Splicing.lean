import ObjectValidation.Proofs.Nesting
/-!
# A default sequence in place of the default group

Where a class redefines the default group, a requested sequence runs the groups of the redefined one in
the place of its default group. The check made beforehand looks at the members that the redefined
sequence lists, and it is right of these: each stands next to the default group where the sequence lists
it too (`borders_of_allowsDefault`). What it does not look at are the groups that come with a nested
sequence; whether one of these runs twice apart is left open.
-/

namespace ObjectValidation

/-! ### Repetitions across a seam -/

/-- Whether all that stands between two places of a group is that group again. -/
def RepeatsMeet (groups : List TypeName) : Prop :=
  ∀ before between behind g, groups = before ++ g :: between ++ g :: behind → ∀ x ∈ between, x = g

theorem mem_collapse {g : TypeName} {xs : List TypeName} : g ∈ collapse xs ↔ g ∈ xs := by
  induction xs using List.reverseRecOn with
  | nil => rfl
  | append_singleton xs h ih =>
    rw [collapse_concat]
    split
    · next hlast =>
      rw [ih, List.mem_append, List.mem_singleton]
      exact ⟨.inl, fun hg => hg.elim id fun hg => hg ▸ List.mem_of_getLast? hlast⟩
    · rw [List.mem_append, List.mem_append, ih]

theorem collapse_of_nodup {xs : List TypeName} (h : xs.Nodup) : collapse xs = xs :=
  List.destutter_of_isChain _ _ (List.Pairwise.isChain h)

/-- Groups joined to others bring no repetition apart if those that both have meet at the seam. -/
theorem nodup_collapse_append (xs ys : List TypeName) : (collapse (xs ++ ys)).Nodup ↔
    (collapse xs).Nodup ∧ (collapse ys).Nodup ∧
      ∀ g ∈ xs, g ∈ ys → xs.getLast? = some g ∧ ys.head? = some g := by
  induction ys using List.reverseRecOn with
  | nil => simp [collapse]
  | append_singleton ys g ih =>
    rw [← List.append_assoc, collapse_concat, collapse_concat, List.getLast?_append]
    cases ys with
    | nil =>
      have hnil : collapse [] = [] := rfl
      simp only [List.append_nil, List.nil_append, List.getLast?_nil, Option.none_or, hnil,
        List.head?_cons, List.mem_singleton]
      by_cases hlast : xs.getLast? = some g
      · rw [if_pos hlast]
        grind
      · rw [if_neg hlast, List.nodup_append]
        simp only [mem_collapse]
        grind
    | cons y ys =>
      have hsome : (y :: ys).getLast?.or xs.getLast? = (y :: ys).getLast? := by
        rw [List.getLast?_cons, Option.some_or]
      rw [hsome, List.cons_append, List.head?_cons]
      rw [List.head?_cons] at ih
      by_cases hlast : (y :: ys).getLast? = some g
      · have hmem : g ∈ y :: ys := List.mem_of_getLast? hlast
        rw [if_pos hlast, if_pos hlast, ih]
        grind
      · rw [if_neg hlast, if_neg hlast, List.nodup_append, List.nodup_append, ih]
        simp only [mem_collapse]
        grind

theorem repeatsMeet_iff {groups : List TypeName} : RepeatsMeet groups ↔ (collapse groups).Nodup := by
  constructor
  · intro h
    induction groups with
    | nil => exact List.nodup_nil
    | cons g groups ih =>
      refine (nodup_collapse_append [g] groups).2 ⟨by simp [collapse], ih ?_, ?_⟩
      · intro before between behind x hx
        exact h (g :: before) between behind x (by rw [hx]; rfl)
      · intro x hx hmem
        obtain rfl := List.mem_singleton.1 hx
        obtain ⟨between, behind, rfl⟩ := List.append_of_mem hmem
        refine ⟨rfl, ?_⟩
        cases between with
        | nil => rfl
        | cons y between =>
          have hy : y = x := h [] (y :: between) behind x rfl y (by simp)
          rw [hy]
          rfl
  · intro h before between behind g hgroups x hx
    obtain ⟨front, back, rfl⟩ := List.append_of_mem hx
    have hsplit : groups = (before ++ g :: front) ++ (x :: back ++ g :: behind) := by
      rw [hgroups]
      simp
    rw [hsplit] at h
    obtain ⟨-, -, hseam⟩ := (nodup_collapse_append _ _).1 h
    exact Option.some.inj (hseam g (by simp) (by simp)).2

/-- Groups between others bring no repetition apart if the ones that these have as well are the first
of them right behind those in front or the last right before those behind. -/
theorem repeatsMeet_between {before inner behind : List TypeName} (h : (before ++ behind).Nodup)
    (hinner : inner.Nodup) : RepeatsMeet (before ++ (inner ++ behind)) ↔
      ∀ g ∈ inner, g ∈ before ++ behind → (before.getLast? = some g ∧ inner.head? = some g) ∨
        (inner.getLast? = some g ∧ behind.head? = some g) := by
  obtain ⟨hbefore, hbehind, hdisjoint⟩ := List.nodup_append.1 h
  rw [repeatsMeet_iff, nodup_collapse_append, nodup_collapse_append, collapse_of_nodup hbefore,
    collapse_of_nodup hinner, collapse_of_nodup hbehind]
  constructor
  · rintro ⟨-, ⟨-, -, hlast⟩, hfirst⟩ g hg hmem
    rcases List.mem_append.1 hmem with hmem | hmem
    · obtain ⟨hend, hstart⟩ := hfirst g hmem (List.mem_append_left _ hg)
      rw [List.head?_append_of_ne_nil _ (List.ne_nil_of_mem hg)] at hstart
      exact .inl ⟨hend, hstart⟩
    · exact .inr (hlast g hg hmem)
  · intro hborders
    refine ⟨hbefore, ⟨hinner, hbehind, ?_⟩, ?_⟩
    · intro g hg hmem
      rcases hborders g hg (List.mem_append_right _ hmem) with ⟨hend, -⟩ | hboth
      · exact absurd rfl (hdisjoint g (List.mem_of_getLast? hend) g hmem)
      · exact hboth
    · intro g hmem hg
      rcases List.mem_append.1 hg with hg | hg
      · rcases hborders g hg (List.mem_append_left _ hmem) with ⟨hend, hstart⟩ | ⟨-, hstart⟩
        · refine ⟨hend, ?_⟩
          rw [List.head?_append_of_ne_nil _ (List.ne_nil_of_mem hg)]
          exact hstart
        · exact absurd rfl (hdisjoint g hmem g (List.mem_of_head? hstart))
      · exact absurd rfl (hdisjoint g hmem g hg)

instance (groups : List TypeName) : Decidable (RepeatsMeet groups) :=
  decidable_of_iff _ repeatsMeet_iff.symm

namespace Sequence

variable {r : Registry}

/-! ### What an expanded sequence has -/

theorem place_eq_ok {name g : TypeName} {groups groups' : List TypeName}
    (h : place name groups g = .ok groups') :
    (groups.getLast? = some g ∧ groups' = groups) ∨ (g ∉ groups ∧ groups' = groups ++ [g]) := by
  unfold place at h
  split at h
  · split at h
    · next hlast =>
      cases h
      exact .inl ⟨hlast, rfl⟩
    · cases h
  · next hmem =>
    cases h
    exact .inr ⟨hmem, rfl⟩

theorem nodup_place {name g : TypeName} {groups groups' : List TypeName}
    (h : place name groups g = .ok groups') (hn : groups.Nodup) : groups'.Nodup := by
  rcases place_eq_ok h with ⟨-, rfl⟩ | ⟨hg, rfl⟩
  · exact hn
  · exact Registry.nodup_concat hn hg

theorem prefix_place {name g : TypeName} {groups groups' : List TypeName}
    (h : place name groups g = .ok groups') : groups <+: groups' := by
  rcases place_eq_ok h with ⟨-, rfl⟩ | ⟨-, rfl⟩
  · exact List.prefix_refl _
  · exact List.prefix_append _ _

theorem getLast?_place {name g : TypeName} {groups groups' : List TypeName}
    (h : place name groups g = .ok groups') : groups'.getLast? = some g := by
  rcases place_eq_ok h with ⟨hlast, rfl⟩ | ⟨-, rfl⟩
  · exact hlast
  · exact List.getLast?_concat

theorem nodup_enlist {path groups groups' : List TypeName} {name member : TypeName}
    (h : enlist r path name groups member = .ok groups') (hn : groups.Nodup) : groups'.Nodup := by
  rcases enlist_eq_ok h with ⟨-, h⟩ | ⟨nested, inner, -, -, -, h⟩
  · exact nodup_place h hn
  · exact foldlM_keeps (fun _ _ _ _ hn h => nodup_place h hn) h hn

theorem prefix_enlist {path groups groups' : List TypeName} {name member : TypeName}
    (h : enlist r path name groups member = .ok groups') : groups <+: groups' := by
  rcases enlist_eq_ok h with ⟨-, h⟩ | ⟨nested, inner, -, -, -, h⟩
  · exact prefix_place h
  · exact foldlM_keeps (fun _ _ _ _ hprefix h => hprefix.trans (prefix_place h)) h
      (List.prefix_refl groups)

/-- No group is left twice in a sequence that was expanded. -/
theorem nodup_expand {path members groups : List TypeName} {name : TypeName}
    (h : expand r path name members = .ok groups) : groups.Nodup := by
  rw [expand_eq] at h
  exact foldlM_keeps (fun _ _ _ _ hn h => nodup_enlist h hn) h List.nodup_nil

/-- What a sequence was expanded to are groups. -/
theorem group_of_mem_expand {path members groups : List TypeName} {name : TypeName}
    (h : expand r path name members = .ok groups) :
    ∀ g ∈ groups, r.sequenceMembers? g = none := by
  induction hn : r.unmetWeight path using Nat.strong_induction_on generalizing path name members groups
    with
  | h n ih =>
    rw [expand_eq] at h
    refine foldlM_keeps (I := fun groups => ∀ g ∈ groups, r.sequenceMembers? g = none) ?_ h (by simp)
    intro gs member gs' _ hgs henlist
    rcases enlist_eq_ok henlist with ⟨hnone, hplace⟩ | ⟨nested, inner, hnested, hpath, hinner, hplaces⟩
    · rcases place_eq_ok hplace with ⟨-, rfl⟩ | ⟨-, rfl⟩
      · exact hgs
      · intro g hg
        rcases List.mem_append.1 hg with hg | hg
        · exact hgs g hg
        · rw [List.mem_singleton.1 hg]
          exact hnone
    · obtain ⟨d, hd, -⟩ := Option.bind_eq_some_iff.1 hnested
      have hgroups := ih _ (hn ▸ Registry.unmetWeight_lt hd hpath) hinner rfl
      refine foldlM_keeps (I := fun groups => ∀ g ∈ groups, r.sequenceMembers? g = none) ?_ hplaces hgs
      intro gs₁ x gs₂ hx hgs₁ hplace g hg
      rcases place_eq_ok hplace with ⟨-, rfl⟩ | ⟨-, rfl⟩
      · exact hgs₁ g hg
      · rcases List.mem_append.1 hg with hg | hg
        · exact hgs₁ g hg
        · rw [List.mem_singleton.1 hg]
          exact hgroups x hx

/-- A group that is listed first runs first. -/
theorem head?_expand {path rest groups : List TypeName} {name g : TypeName}
    (hg : r.sequenceMembers? g = none) (h : expand r path name (g :: rest) = .ok groups) :
    groups.head? = some g := by
  rw [expand_eq, List.foldlM_cons] at h
  obtain ⟨first, hfirst, h⟩ := bind_eq_ok.1 h
  have hprefix : first <+: groups :=
    foldlM_keeps (fun _ _ _ _ hprefix h => hprefix.trans (prefix_enlist h)) h (List.prefix_refl first)
  rcases enlist_eq_ok hfirst with ⟨-, hplace⟩ | ⟨nested, inner, hnested, -⟩
  · rcases place_eq_ok hplace with ⟨hlast, -⟩ | ⟨-, rfl⟩
    · cases hlast
    · obtain ⟨others, rfl⟩ := hprefix
      rfl
  · rw [hg] at hnested
    cases hnested

/-- A group that is listed last runs last. -/
theorem getLast?_expand {path front groups : List TypeName} {name g : TypeName}
    (hg : r.sequenceMembers? g = none) (h : expand r path name (front ++ [g]) = .ok groups) :
    groups.getLast? = some g := by
  rw [expand_eq, List.foldlM_append] at h
  obtain ⟨before, -, h⟩ := bind_eq_ok.1 h
  obtain ⟨all, hall, h⟩ := bind_eq_ok.1 h
  cases h
  rcases enlist_eq_ok hall with ⟨-, hplace⟩ | ⟨nested, inner, hnested, -⟩
  · exact getLast?_place hplace
  · rw [hg] at hnested
    cases hnested

end Sequence

namespace Order

open Expanding

variable {r : Registry}

/-- Each sequence of an order was expanded. -/
theorem build_of_mem_sequences {groups : List TypeName} {o : Order} {q : Sequence}
    (h : answer (ofGroups r groups) = .ok o) (hq : q ∈ o.sequences) :
    ∃ name members, Sequence.build r name members = .ok q := by
  by_cases hne : groups = []
  · subst hne
    cases h
  by_cases hall : groups.all (·.isDefault)
  · rw [ofGroups, if_neg (by simpa using hne), if_pos hall] at h
    cases h
    cases hq
  rw [answer_ofGroups hne (Bool.eq_false_iff.2 hall)] at h
  obtain ⟨-, -, h⟩ := bind_eq_ok.1 h
  refine foldlM_keeps (I := fun o : Order => ∀ q ∈ o.sequences, ∃ name members,
    Sequence.build r name members = .ok q) ?_ h (by simp) q hq
  intro o g o' _ hI hrequest q hq
  by_cases hplain : IsPlain r g
  · rw [answer, request_of_isPlain hplain] at hrequest
    obtain ⟨gs, -, rfl⟩ := bring_eq_ok.1 hrequest
    exact hI q hq
  · obtain ⟨hdefault, hmembers⟩ := not_or.1 hplain
    obtain ⟨members, hmembers⟩ := Option.ne_none_iff_exists'.1 hmembers
    rw [answer_request_sequence (Bool.eq_false_iff.2 hdefault) hmembers] at hrequest
    cases hbuild : Sequence.build r g members with
    | error e =>
      rw [hbuild] at hrequest
      cases hrequest
    | ok s =>
      rw [hbuild] at hrequest
      cases hrequest
      unfold addSequence at hq
      split at hq
      · exact hI q hq
      · rcases List.mem_append.1 hq with hq | hq
        · exact hI q hq
        · rw [List.mem_singleton.1 hq]
          exact ⟨g, members, hbuild⟩

/-! ### What the check looks at -/

/-- A member that a list of groups has too is, where the check passes, the first one right before the
default group or the last one right behind it. -/
theorem borders_of_allowsDefault {members before behind : List TypeName} {g : TypeName} {i : Nat}
    (hnodup : (before ++ TypeName.defaultGroup :: behind).Nodup)
    (h : allowsDefault members (before ++ TypeName.defaultGroup :: behind))
    (hi : members[i]? = some g) (hg : g ≠ TypeName.defaultGroup) (hmem : g ∈ before ++ behind) :
    (i = 0 ∧ before.getLast? = some g) ∨ (i + 1 = members.length ∧ behind.head? = some g) := by
  obtain ⟨hlt, -⟩ := List.getElem?_eq_some_iff.1 hi
  have hbefore : TypeName.defaultGroup ∉ before := by
    intro hin
    exact (List.nodup_append.1 hnodup).2.2 _ hin _ (by simp) rfl
  have hplace : (before ++ TypeName.defaultGroup :: behind).findIdx? (·.isDefault) =
      some before.length := by
    have hnone : before.findIdx? (·.isDefault) = none := by
      rw [List.findIdx?_eq_none_iff]
      intro x hx
      have hne : x ≠ TypeName.defaultGroup := fun he => hbefore (he ▸ hx)
      simpa [TypeName.isDefault] using hne
    rw [List.findIdx?_append, hnone, List.findIdx?_cons]
    simp [TypeName.isDefault]
  obtain ⟨place, hfound⟩ : ∃ place,
      (before ++ TypeName.defaultGroup :: behind).findIdx? (· = g) = some place := by
    rw [← Option.isSome_iff_exists, List.findIdx?_isSome, List.any_eq_true]
    exact ⟨g, by simp at hmem ⊢; tauto, by simp⟩
  obtain ⟨hbound, hat, -⟩ := List.findIdx?_eq_some_iff_getElem.1 hfound
  have hat : (before ++ TypeName.defaultGroup :: behind)[place]? = some g := by
    rw [List.getElem?_eq_getElem hbound]
    simpa using hat
  unfold allowsDefault at h
  simp only [hplace] at h
  have hmember := List.all_eq_true.1 h i (List.mem_range.2 hlt)
  have hdefault : g.isDefault = false := by simpa [TypeName.isDefault] using hg
  simp only [hi, hdefault, Bool.false_or, hfound, fits, Bool.or_eq_true, Bool.and_eq_true,
    beq_iff_eq] at hmember
  rcases hmember with ⟨hfirst, hnext⟩ | ⟨hlast, hnext⟩
  · rw [List.getElem?_append_left (by omega)] at hat
    exact .inl ⟨hfirst, by rw [List.getLast?_eq_getElem?, ← hat]; congr 1; omega⟩
  · rw [List.getElem?_append_right (by omega), hnext, Nat.add_sub_cancel_left,
      List.getElem?_cons_succ] at hat
    exact .inr ⟨by omega, by rw [List.head?_eq_getElem?, hat]⟩

theorem allowsDefault_of_checkDefault {o : Order} {members : List TypeName}
    (h : o.checkDefault members = .ok ()) {q : Sequence} (hq : q ∈ o.sequences) :
    allowsDefault members q.groups := by
  unfold checkDefault at h
  generalize o.sequences = sequences at h hq
  induction sequences with
  | nil => cases hq
  | cons s sequences ih =>
    obtain ⟨_, hs, h⟩ := bind_eq_ok.1 (List.forM_cons.symm.trans h)
    rcases List.mem_cons.1 hq with rfl | hq
    · by_contra hfails
      rw [if_neg hfails] at hs
      cases hs
    · exact ih h hq

/-! ### The groups of the redefined sequence in their place -/

/-- The groups with those of a default sequence in place of the default group. -/
def splice (default groups : List TypeName) : List TypeName :=
  groups.flatMap fun g => if g.isDefault then default else [g]

theorem splice_append (default xs ys : List TypeName) :
    splice default (xs ++ ys) = splice default xs ++ splice default ys := List.flatMap_append

theorem splice_of_notMem {default : List TypeName} : ∀ {xs : List TypeName},
    TypeName.defaultGroup ∉ xs → splice default xs = xs
  | [], _ => rfl
  | x :: xs, h => by
    rw [List.mem_cons, not_or] at h
    have hx : x.isDefault = false := by simpa [TypeName.isDefault] using fun he => h.1 he.symm
    rw [splice, List.flatMap_cons, hx]
    exact congrArg (x :: ·) (splice_of_notMem h.2)

theorem splice_eq {default before behind : List TypeName}
    (h : (before ++ TypeName.defaultGroup :: behind).Nodup) :
    splice default (before ++ TypeName.defaultGroup :: behind) = before ++ (default ++ behind) := by
  obtain ⟨-, hbehind, hdisjoint⟩ := List.nodup_append.1 h
  have hbefore : TypeName.defaultGroup ∉ before := fun hin => hdisjoint _ hin _ (by simp) rfl
  have hbehind : TypeName.defaultGroup ∉ behind := (List.nodup_cons.1 hbehind).1
  rw [splice_append, splice_of_notMem hbefore]
  change before ++ (default ++ splice default behind) = _
  rw [splice_of_notMem hbehind]

/-- Where the check passes, a group that both sequences list runs right at the seam. -/
theorem borders_of_listed {type : TypeName} {members before behind groups : List TypeName}
    {g : TypeName} (hnodup : (before ++ TypeName.defaultGroup :: behind).Nodup)
    (h : allowsDefault members (before ++ TypeName.defaultGroup :: behind))
    (hexpand : Sequence.expand r [type] type members = .ok groups)
    (hplain : r.sequenceMembers? g = none) (hlisted : g ∈ members) (hg : g ≠ TypeName.defaultGroup)
    (hmem : g ∈ before ++ behind) : (before.getLast? = some g ∧ groups.head? = some g) ∨
      (groups.getLast? = some g ∧ behind.head? = some g) := by
  obtain ⟨i, hi⟩ := List.mem_iff_getElem?.1 hlisted
  rcases borders_of_allowsDefault hnodup h hi hg hmem with ⟨rfl, hlast⟩ | ⟨hend, hfirst⟩
  · obtain ⟨rest, rfl⟩ := List.head?_eq_some_iff.1 (List.head?_eq_getElem?.trans hi)
    exact .inl ⟨hlast, Sequence.head?_expand hplain hexpand⟩
  · have hi' : members.getLast? = some g := by
      rw [List.getLast?_eq_getElem?, ← hi, ← hend, Nat.add_sub_cancel]
    obtain ⟨front, rfl⟩ := List.getLast?_eq_some_iff.1 hi'
    exact .inr ⟨Sequence.getLast?_expand hplain hexpand, hfirst⟩

/-- Whether a group stands next to the default group on both sides of a seam: right before it and first
in the default sequence, or last in that and right behind it. -/
def Borders (g : TypeName) (default groups : List TypeName) : Prop :=
  ∃ before behind, groups = before ++ TypeName.defaultGroup :: behind ∧
    ((before.getLast? = some g ∧ default.head? = some g) ∨
      (default.getLast? = some g ∧ behind.head? = some g))

/-- Where the check of a redefined default sequence passes, its groups can stand in place of the default
group without a repetition apart just if those do that come with nested sequences: each that is not
listed itself, and that the requested sequence has too, borders on the default group. -/
theorem repeatsMeet_splice_iff {type : TypeName} {chosen : Option (List TypeName)}
    {members groups : List TypeName} {o d : Order} {q s : Sequence} (earlier : List (List TypeName))
    (hmembers : redefinition type chosen = .ok members)
    (ho : (((ofGroups r groups).run.run (rememberedAfter r [] earlier)).run).1 = .ok o)
    (hd : ofDefaultSequence r type members = .ok d) (hcheck : o.checkDefault members = .ok ())
    (hq : q ∈ o.sequences) (hdefault : TypeName.defaultGroup ∈ q.groups) (hs : s ∈ d.sequences) :
    RepeatsMeet (splice s.groups q.groups) ↔
      ∀ g ∈ s.groups, g ∉ members → g ∈ q.groups → Borders g s.groups q.groups := by
  rw [(steady_ofGroups r groups).run_eq (coherent_rememberedAfter (SequenceCache.coherent_nil r))]
    at ho
  obtain ⟨name, listed, hqbuild⟩ := build_of_mem_sequences ho hq
  have hqexpand := Sequence.build_eq_ok hqbuild
  have hsexpand : Sequence.expand r [type] type members = .ok s.groups := by
    obtain ⟨s', hbuild, hd⟩ := bind_eq_ok.1 hd
    cases hd
    rw [List.mem_singleton.1 hs]
    exact Sequence.build_eq_ok hbuild
  have hallows := allowsDefault_of_checkDefault hcheck hq
  have hnodup := Sequence.nodup_expand hqexpand
  have hplain := Sequence.group_of_mem_expand hqexpand
  obtain ⟨before, behind, hgroups⟩ := List.append_of_mem hdefault
  rw [hgroups] at hallows hnodup hplain ⊢
  have hrest : (before ++ behind).Nodup := by
    refine hnodup.sublist ?_
    exact List.Sublist.append_left (List.sublist_cons_self _ _) before
  have hnotMem : TypeName.defaultGroup ∉ before ++ behind := by
    intro hin
    exact (List.nodup_middle.1 hnodup).notMem hin
  rw [splice_eq hnodup, repeatsMeet_between hrest (Sequence.nodup_expand hsexpand)]
  constructor
  · intro hborders g hg hlisted hmem
    refine ⟨before, behind, rfl, hborders g hg ?_⟩
    rw [List.mem_append, List.mem_cons] at hmem
    have hne : g ≠ TypeName.defaultGroup :=
      fun he => hlisted (he ▸ default_mem_redefinition hmembers)
    rw [List.mem_append]
    exact hmem.imp_right fun h => h.resolve_left hne
  · intro hborders g hg hmem
    have hne : g ≠ TypeName.defaultGroup := fun he => hnotMem (he ▸ hmem)
    have hin : g ∈ before ++ TypeName.defaultGroup :: behind := by
      rw [List.mem_append] at hmem ⊢
      exact hmem.imp_right (List.mem_cons_of_mem _)
    by_cases hlisted : g ∈ members
    · exact borders_of_listed hnodup hallows hsexpand (hplain g hin) hlisted hne hmem
    · obtain ⟨before', behind', hsplit, hsides⟩ := hborders g hg hlisted hin
      have hbefore : TypeName.defaultGroup ∉ before := fun h => hnotMem (List.mem_append_left _ h)
      have hbehind : TypeName.defaultGroup ∉ behind := fun h => hnotMem (List.mem_append_right _ h)
      obtain ⟨rfl, -, rfl⟩ := (List.append_cons_inj_of_notMem hbefore hbehind).1 hsplit
      exact hsides

/-- Sequences with a group on either side of the default group, and one that brings the same group
along nested. -/
def besides : Registry := [
  { name := ⟨"A"⟩, kind := .interface },
  { name := ⟨"B"⟩, kind := .interface },
  { name := ⟨"Inner"⟩, kind := .interface, sequence := some [⟨"B"⟩, ⟨"A"⟩] },
  { name := ⟨"Front"⟩, kind := .interface, sequence := some [⟨"A"⟩, TypeName.defaultGroup] },
  { name := ⟨"Back"⟩, kind := .interface, sequence := some [TypeName.defaultGroup, ⟨"A"⟩] },
  { name := ⟨"T"⟩, kind := .concrete : TypeDefinition }
  ].foldl Registry.register .initial

/-- The sequence that runs a group in front of the default group. -/
def besides.front : Sequence where
  name := ⟨"Front"⟩
  groups := [⟨"A"⟩, TypeName.defaultGroup]
  positions := [[Group.plain ⟨"A"⟩], [Group.plain TypeName.defaultGroup]]

/-- The sequence that runs a group behind the default group. -/
def besides.back : Sequence where
  name := ⟨"Back"⟩
  groups := [TypeName.defaultGroup, ⟨"A"⟩]
  positions := [[Group.plain TypeName.defaultGroup], [Group.plain ⟨"A"⟩]]

/-- The redefined default sequence of the class, expanded to groups. -/
def besides.redefined (groups : List TypeName) : Sequence where
  name := ⟨"T"⟩
  groups := groups
  positions := groups.map fun g => [Group.plain g]

/-- The group that comes last with a nested sequence may stand right behind the default group. -/
theorem nested_group_borders :
    redefinition ⟨"T"⟩ (some [⟨"T"⟩, ⟨"Inner"⟩]) = .ok [TypeName.defaultGroup, ⟨"Inner"⟩] ∧
    (RepeatsMeet (splice [TypeName.defaultGroup, ⟨"B"⟩, ⟨"A"⟩] besides.back.groups) ↔
      ∀ g ∈ [TypeName.defaultGroup, ⟨"B"⟩, ⟨"A"⟩], g ∉ [TypeName.defaultGroup, ⟨"Inner"⟩] →
        g ∈ besides.back.groups →
        Borders g [TypeName.defaultGroup, ⟨"B"⟩, ⟨"A"⟩] besides.back.groups) := by
  have hmembers : redefinition ⟨"T"⟩ (some [⟨"T"⟩, ⟨"Inner"⟩]) =
    .ok [TypeName.defaultGroup, ⟨"Inner"⟩] := toOption_eq_some (by decide +kernel)
  have ho : (((ofGroups besides [⟨"Back"⟩]).run.run (rememberedAfter besides [] [])).run).1 =
    .ok { sequences := [besides.back] } := toOption_eq_some (by decide +kernel)
  have hd : ofDefaultSequence besides ⟨"T"⟩ [TypeName.defaultGroup, ⟨"Inner"⟩] =
    .ok { sequences := [besides.redefined [TypeName.defaultGroup, ⟨"B"⟩, ⟨"A"⟩]] } :=
    toOption_eq_some (by decide +kernel)
  exact ⟨hmembers, repeatsMeet_splice_iff [] hmembers ho hd (toOption_eq_some (by decide +kernel))
    List.mem_cons_self (by decide +kernel) List.mem_cons_self⟩

/-- The check passes where a nested sequence brings the group along that stands in front of the default
group, and with the sequences put together that group runs twice apart. -/
theorem nested_group_runs_apart :
    redefinition ⟨"T"⟩ (some [⟨"Inner"⟩, ⟨"T"⟩]) = .ok [⟨"Inner"⟩, TypeName.defaultGroup] ∧
    (((ofGroups besides [⟨"Front"⟩]).run.run []).run).1 = .ok { sequences := [besides.front] } ∧
    ofDefaultSequence besides ⟨"T"⟩ [⟨"Inner"⟩, TypeName.defaultGroup] =
      .ok { sequences := [besides.redefined [⟨"B"⟩, ⟨"A"⟩, TypeName.defaultGroup]] } ∧
    checkDefault { sequences := [besides.front] } [⟨"Inner"⟩, TypeName.defaultGroup] = .ok () ∧
    TypeName.defaultGroup ∈ besides.front.groups ∧
    ¬ RepeatsMeet (splice [⟨"B"⟩, ⟨"A"⟩, TypeName.defaultGroup] besides.front.groups) :=
  ⟨toOption_eq_some (by decide +kernel), toOption_eq_some (by decide +kernel),
    toOption_eq_some (by decide +kernel), toOption_eq_some (by decide +kernel), by decide +kernel,
    by decide +kernel⟩

end Order

end ObjectValidation
