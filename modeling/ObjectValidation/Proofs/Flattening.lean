import Mathlib.Data.List.Destutter
import Mathlib.Data.List.Induction
import Mathlib.Logic.Relation
import ObjectValidation.Proofs.Hierarchy
import ObjectValidation.Proofs.Sequences
/-!
# What a nested sequence comes to

A sequence of sequences comes to what the groups written out in its place come to. Each nested sequence
is checked and rid of its repetitions on its own, before its groups join those in front of them; that
this is the same as one pass over all groups rests on `collapse_append_collapse`, and that nothing is
refused on the way that such a pass would let through on `collapse_append_right`.
-/

namespace ObjectValidation

/-! ### Repetitions -/

/-- The groups with one left of each that directly follow each other. -/
def collapse (groups : List TypeName) : List TypeName := groups.destutter (· ≠ ·)

theorem destutter'_concat (g : TypeName) : ∀ (xs : List TypeName) (a : TypeName),
    (xs ++ [g]).destutter' (· ≠ ·) a =
      if (a :: xs).getLast? = some g then xs.destutter' (· ≠ ·) a
      else xs.destutter' (· ≠ ·) a ++ [g]
  | [], a => by by_cases h : a = g <;> simp [h]
  | b :: xs, a => by
    rw [List.cons_append, List.destutter'_cons, List.destutter'_cons, List.getLast?_cons_cons,
      destutter'_concat g xs b]
    by_cases h : a = b
    · subst h
      simp only [ne_eq, not_true_eq_false, if_false]
      exact destutter'_concat g xs a
    · simp only [ne_eq, h, not_false_eq_true, if_true]
      split <;> simp

/-- One more group stays unless it is the last already. -/
theorem collapse_concat (xs : List TypeName) (g : TypeName) : collapse (xs ++ [g]) =
    if xs.getLast? = some g then collapse xs else collapse xs ++ [g] := by
  unfold collapse
  cases xs with
  | nil => simp
  | cons a xs => exact destutter'_concat g xs a

theorem getLast?_collapse (xs : List TypeName) : (collapse xs).getLast? = xs.getLast? := by
  induction xs using List.reverseRecOn with
  | nil => rfl
  | append_singleton xs g ih =>
    rw [collapse_concat, List.getLast?_concat]
    split
    · next h => rw [ih, h]
    · rw [List.getLast?_concat]

/-- Groups that join others may have been collapsed before. -/
theorem collapse_append_collapse (xs ys : List TypeName) :
    collapse (xs ++ collapse ys) = collapse (xs ++ ys) := by
  induction ys using List.reverseRecOn with
  | nil => rfl
  | append_singleton ys g ih =>
    rw [← List.append_assoc, collapse_concat ys, collapse_concat (xs ++ ys)]
    by_cases h : ys.getLast? = some g
    · rw [if_pos h, ih, if_pos]
      rw [List.getLast?_append, h, Option.some_or]
    · rw [if_neg h, ← List.append_assoc, collapse_concat, ih, List.getLast?_append,
        List.getLast?_append, getLast?_collapse]

theorem collapse_append_left (xs ys : List TypeName) : collapse xs <+: collapse (xs ++ ys) := by
  induction ys using List.reverseRecOn with
  | nil => simp
  | append_singleton ys g ih =>
    rw [← List.append_assoc, collapse_concat]
    split
    · exact ih
    · exact ih.trans (List.prefix_append _ _)

theorem collapse_append_right (xs ys : List TypeName) : collapse ys <:+ collapse (xs ++ ys) := by
  induction xs with
  | nil => exact List.suffix_refl _
  | cons x xs ih =>
    refine ih.trans ?_
    unfold collapse
    rw [List.cons_append]
    cases xs ++ ys with
    | nil => exact List.nil_suffix
    | cons y zs =>
      rw [List.destutter_cons_cons]
      by_cases h : x = y
      · subst h
        simp [List.destutter_cons']
      · rw [if_pos h, List.destutter_cons']
        exact List.suffix_cons _ _

namespace Registry

variable {r : Registry}

/-- Whether a sequence lists a group or sequence. -/
def HasMember (r : Registry) (sequence member : TypeName) : Prop :=
  ∃ members, r.sequenceMembers? sequence = some members ∧ member ∈ members

/-- The groups that members of a sequence stand for, depth first and in order. -/
inductive Flattens (r : Registry) : List TypeName → List TypeName → Prop
  | nil : Flattens r [] []
  | group {group : TypeName} {rest leaves : List TypeName} : r.sequenceMembers? group = none →
    Flattens r rest leaves → Flattens r (group :: rest) (group :: leaves)
  | nested {sequence : TypeName} {members inner rest leaves : List TypeName} :
    r.sequenceMembers? sequence = some members → Flattens r members inner →
    Flattens r rest leaves → Flattens r (sequence :: rest) (inner ++ leaves)

/-- Members that rank below their sequences do not lead back to these. -/
theorem acyclic_of_rank (rank : TypeName → Nat)
    (h : ∀ d ∈ r.definitions, ∀ x ∈ d.sequenceMembers?.getD [], rank x < rank d.name)
    (x : TypeName) : ¬ Relation.TransGen r.HasMember x x := by
  have hstep : ∀ {a b}, r.HasMember a b → rank b < rank a := by
    rintro a b ⟨members, hmembers, hb⟩
    obtain ⟨d, hd, hd'⟩ := Option.bind_eq_some_iff.1 hmembers
    exact name_of_get? hd ▸ h d (mem_of_get? hd) b (by rw [hd']; exact hb)
  have hbelow : ∀ {b}, Relation.TransGen r.HasMember x b → rank b < rank x := by
    intro b hb
    induction hb with
    | single hb => exact hstep hb
    | tail _ hc ih => exact (hstep hc).trans ih
  exact fun hx => Nat.lt_irrefl _ (hbelow hx)

/-- Where all that types list is registered, so is all that sequences lead to. -/
theorem contains_below (h : ∀ d ∈ r.definitions,
      ∀ x ∈ d.sequenceMembers?.getD [] ++ d.interfaces, r.contains x)
    {name x y : TypeName} (hx : Relation.TransGen r.HasMember name x) (hy : r.LeadsTo x y) :
    r.contains y := by
  have hstep : ∀ {a b}, r.HasMember a b → r.contains b := by
    rintro a b ⟨members, hmembers, hb⟩
    obtain ⟨d, hd, hd'⟩ := Option.bind_eq_some_iff.1 hmembers
    refine h d (mem_of_get? hd) b (List.mem_append_left _ ?_)
    rw [hd']
    exact hb
  induction hy with
  | refl =>
    cases hx with
    | single hx => exact hstep hx
    | tail _ hx => exact hstep hx
  | step _ hd hi _ => exact h _ (mem_of_get? hd) _ (List.mem_append_right _ hi)

end Registry

namespace Sequence

variable {r : Registry}

/-- What the groups that stand in the place of members come to: themselves without repetitions, if
none of them is left twice. -/
structure ComesTo (leaves : List TypeName) (answer : Except Error (List TypeName)) : Prop where
  ok : (collapse leaves).Nodup → answer = .ok (collapse leaves)
  error : ¬ (collapse leaves).Nodup → ∃ sequence group,
    answer = .error (.unexpandableSequence sequence group)

theorem comesTo_place {before : List TypeName} (h : (collapse before).Nodup) (name g : TypeName) :
    ComesTo (before ++ [g]) (place name (collapse before) g) := by
  rw [place, getLast?_collapse]
  by_cases hlast : before.getLast? = some g
  · have hmem : g ∈ collapse before := List.mem_of_getLast? (getLast?_collapse before ▸ hlast)
    have heq : collapse (before ++ [g]) = collapse before := by rw [collapse_concat, if_pos hlast]
    exact ⟨fun _ => by rw [if_pos hmem, if_pos hlast, heq], fun hn => absurd (heq ▸ h) hn⟩
  · have heq : collapse (before ++ [g]) = collapse before ++ [g] := by
      rw [collapse_concat, if_neg hlast]
    by_cases hmem : g ∈ collapse before
    · refine ⟨?_, fun _ => ⟨name, g, by rw [if_pos hmem, if_neg hlast]⟩⟩
      intro hn
      rw [heq, List.nodup_append] at hn
      exact absurd rfl (hn.2.2 g hmem g (by simp))
    · refine ⟨fun _ => by rw [if_neg hmem, heq], ?_⟩
      intro hn
      rw [heq] at hn
      exact absurd (List.nodup_append.2 ⟨h, by simp, by grind⟩) hn

/-- Groups join those in front of them as if they had been listed with them. -/
theorem ComesTo.bind {before leaves : List TypeName} {x : Except Error (List TypeName)}
    {f : List TypeName → Except Error (List TypeName)} (hx : ComesTo before x)
    (hf : (collapse before).Nodup → ComesTo (before ++ leaves) (f (collapse before))) :
    ComesTo (before ++ leaves) (x >>= f) := by
  by_cases h : (collapse before).Nodup
  · rw [hx.ok h]
    exact hf h
  · obtain ⟨sequence, group, he⟩ := hx.error h
    refine ⟨fun hn => absurd ((collapse_append_left before leaves).sublist.nodup hn) h, ?_⟩
    intro _
    exact ⟨sequence, group, by rw [he]; rfl⟩

theorem comesTo_foldlM_place (name : TypeName) : ∀ {groups before : List TypeName},
    (collapse before).Nodup →
    ComesTo (before ++ groups) (groups.foldlM (place name) (collapse before))
  | [], before, h => by
    rw [List.append_nil]
    exact ⟨fun _ => rfl, fun hn => absurd h hn⟩
  | g :: groups, before, h => by
    rw [List.foldlM_cons, List.append_cons]
    exact (comesTo_place h name g).bind fun h' => comesTo_foldlM_place name h'

/-- The groups of a sequence under way with what one more member stands for. -/
def enlist (r : Registry) (path : List TypeName) (name : TypeName) (groups : List TypeName)
    (member : TypeName) : Except Error (List TypeName) :=
  match r.get? member with
  | none => throw (.typeNotFound member)
  | some d =>
    match d.sequenceMembers? with
    | none => place name groups member
    | some nested =>
      if member ∈ path then throw (.cyclicSequence member)
      else do (← expand r (path ++ [member]) member nested).foldlM (place name) groups

theorem expand_eq (path : List TypeName) (name : TypeName) (members : List TypeName) :
    expand r path name members = members.foldlM (enlist r path name) [] := by
  rw [expand]
  congr 1
  funext groups member
  unfold enlist
  split
  · next h => simp only [h]
  · next d h =>
    simp only [h]
    cases d.sequenceMembers? with
    | none => rfl
    | some nested => simp only [dite_eq_ite]

theorem enlist_group {path : List TypeName} {name member : TypeName} {groups : List TypeName}
    (hcontains : r.contains member) (h : r.sequenceMembers? member = none) :
    enlist r path name groups member = place name groups member := by
  obtain ⟨d, hd⟩ := Option.isSome_iff_exists.1 hcontains
  simp only [Registry.sequenceMembers?, hd, Option.bind_some] at h
  simp only [enlist, hd, h]

theorem enlist_nested {path : List TypeName} {name member : TypeName} {groups nested : List TypeName}
    (h : r.sequenceMembers? member = some nested) (hpath : member ∉ path) :
    enlist r path name groups member =
      (expand r (path ++ [member]) member nested) >>= (·.foldlM (place name) groups) := by
  obtain ⟨d, hd, hmembers⟩ := Option.bind_eq_some_iff.1 h
  simp only [enlist, hd, hmembers, if_neg hpath]

/-- Members whose sequences are neither under way nor members of themselves, all of what they lead to
being registered. -/
structure Expandable (r : Registry) (path members : List TypeName) : Prop where
  above : ∀ p ∈ path, ∀ x ∈ members, Relation.TransGen r.HasMember p x
  acyclic : ∀ x ∈ members, ∀ y, Relation.ReflTransGen r.HasMember x y →
    ¬ Relation.TransGen r.HasMember y y
  registered : ∀ x ∈ members, ∀ y, Relation.ReflTransGen r.HasMember x y → r.contains y

namespace Expandable

variable {path rest members : List TypeName} {member : TypeName}

theorem tail (h : Expandable r path (member :: rest)) : Expandable r path rest where
  above p hp x hx := h.above p hp x (List.mem_cons_of_mem _ hx)
  acyclic x hx := h.acyclic x (List.mem_cons_of_mem _ hx)
  registered x hx := h.registered x (List.mem_cons_of_mem _ hx)

theorem not_mem (h : Expandable r path (member :: rest)) : member ∉ path := fun hmem =>
  h.acyclic member (by simp) member .refl (h.above member hmem member (by simp))

theorem nested (h : Expandable r path (member :: rest))
    (hmembers : r.sequenceMembers? member = some members) :
    Expandable r (path ++ [member]) members := by
  have hstep : ∀ x ∈ members, r.HasMember member x := fun x hx => ⟨members, hmembers, hx⟩
  refine ⟨?_, ?_, ?_⟩
  · intro p hp x hx
    rcases List.mem_append.1 hp with hp | hp
    · exact (h.above p hp member (by simp)).tail (hstep x hx)
    · exact List.mem_singleton.1 hp ▸ .single (hstep x hx)
  · intro x hx y hy
    exact h.acyclic member (by simp) y (.head (hstep x hx) hy)
  · intro x hx y hy
    exact h.registered member (by simp) y (.head (hstep x hx) hy)

end Expandable

/-- A nested sequence joins what is in front of it as its groups would. -/
theorem ComesTo.join {inner before : List TypeName} {x : Except Error (List TypeName)}
    (hx : ComesTo inner x) (h : (collapse before).Nodup) (name : TypeName) :
    ComesTo (before ++ inner) (x >>= (·.foldlM (place name) (collapse before))) := by
  by_cases hi : (collapse inner).Nodup
  · rw [hx.ok hi]
    have hjoined : ComesTo (before ++ collapse inner)
      ((collapse inner).foldlM (place name) (collapse before)) := comesTo_foldlM_place name h
    refine ⟨?_, ?_⟩
    · rw [← collapse_append_collapse]
      exact hjoined.ok
    · rw [← collapse_append_collapse]
      exact hjoined.error
  · obtain ⟨sequence, group, he⟩ := hx.error hi
    refine ⟨fun hn => absurd ((collapse_append_right before inner).sublist.nodup hn) hi, ?_⟩
    intro _
    exact ⟨sequence, group, by rw [he]; rfl⟩

/-- Members come to what the groups do that stand in their place. -/
theorem comesTo_foldlM_enlist {members leaves : List TypeName} (h : r.Flattens members leaves) :
    ∀ {path : List TypeName} (name : TypeName) (before : List TypeName),
    Expandable r path members → (collapse before).Nodup →
    ComesTo (before ++ leaves) (members.foldlM (enlist r path name) (collapse before)) := by
  induction h with
  | nil =>
    intro path name before _ hn
    rw [List.append_nil]
    exact ⟨fun _ => rfl, fun h => absurd hn h⟩
  | @group group rest leaves hgroup _ ih =>
    intro path name before he hn
    rw [List.foldlM_cons, enlist_group (he.registered group (by simp) group .refl) hgroup,
      List.append_cons]
    exact (comesTo_place hn name group).bind fun hn' => ih name _ he.tail hn'
  | @nested sequence members inner rest leaves hsequence _ _ ihinner ihrest =>
    intro path name before he hn
    have hinner : ComesTo inner (expand r (path ++ [sequence]) sequence members) := by
      rw [expand_eq]
      exact ihinner sequence [] (he.nested hsequence) List.nodup_nil
    rw [List.foldlM_cons, enlist_nested hsequence he.not_mem, ← List.append_assoc]
    exact (hinner.join hn name).bind fun hn' => ihrest name _ he.tail hn'

theorem comesTo_expand {path members leaves : List TypeName} (h : Expandable r path members)
    (hleaves : r.Flattens members leaves) (name : TypeName) :
    ComesTo leaves (expand r path name members) := by
  rw [expand_eq]
  exact comesTo_foldlM_enlist hleaves name [] h List.nodup_nil

/-- Members that can be expanded stand for some groups. -/
theorem Expandable.exists_flattens {path members : List TypeName} (h : Expandable r path members) :
    ∃ leaves, r.Flattens members leaves := by
  induction hn : r.unmetWeight path using Nat.strong_induction_on generalizing path members with
  | h n ih =>
    induction members with
    | nil => exact ⟨[], .nil⟩
    | cons member rest ihrest =>
      obtain ⟨leaves, hleaves⟩ := ihrest h.tail
      cases hmember : r.sequenceMembers? member with
      | none => exact ⟨_, .group hmember hleaves⟩
      | some nested =>
        obtain ⟨d, hd, -⟩ := Option.bind_eq_some_iff.1 hmember
        have hlt := Registry.unmetWeight_lt hd h.not_mem
        obtain ⟨inner, hinner⟩ := ih _ (hn ▸ hlt) (h.nested hmember) rfl
        exact ⟨_, .nested hmember hinner hleaves⟩

/-- What stands in the place of members is one of them or is listed by sequences below them. -/
theorem exists_of_mem_leaves {members leaves : List TypeName} (h : r.Flattens members leaves)
    {g : TypeName} (hg : g ∈ leaves) : ∃ x ∈ members, Relation.ReflTransGen r.HasMember x g := by
  induction h with
  | nil => cases hg
  | group _ _ ih =>
    rcases List.mem_cons.1 hg with rfl | hg
    · exact ⟨_, by simp, .refl⟩
    · obtain ⟨x, hx, hreach⟩ := ih hg
      exact ⟨x, List.mem_cons_of_mem _ hx, hreach⟩
  | nested hsequence _ _ ihinner ihrest =>
    rcases List.mem_append.1 hg with hg | hg
    · obtain ⟨x, hx, hreach⟩ := ihinner hg
      exact ⟨_, by simp, .head ⟨_, hsequence, hx⟩ hreach⟩
    · obtain ⟨x, hx, hreach⟩ := ihrest hg
      exact ⟨x, List.mem_cons_of_mem _ hx, hreach⟩

end Sequence

/-! ### Positions -/

namespace Registry

variable {r : Registry}

theorem collect_total {seen pending : List TypeName}
    (h : ∀ x ∈ pending, ∀ y, r.LeadsTo x y → r.contains y) :
    ∃ names, r.collect seen pending = .ok names := by
  fun_induction r.collect seen pending with
  | case1 seen => exact ⟨seen, rfl⟩
  | case2 seen name rest _ ih => exact ih fun x hx => h x (List.mem_cons_of_mem _ hx)
  | case3 seen name rest _ hnone =>
    have hname := h name (by simp) name .refl
    rw [contains, hnone] at hname
    cases hname
  | case4 seen name rest _ d hd ih =>
    refine ih ?_
    intro x hx y hy
    rcases List.mem_append.1 hx with hx | hx
    · exact h name (by simp) y (hy.head hd hx)
    · exact h x (List.mem_cons_of_mem _ hx) y hy

/-- A type whose interfaces are all registered has superinterfaces. -/
theorem superInterfaces_total {name : TypeName} (h : ∀ x, r.LeadsTo name x → r.contains x) :
    ∃ names, r.superInterfaces name = .ok names := by
  obtain ⟨d, hd⟩ := Option.isSome_iff_exists.1 (h name .refl)
  obtain ⟨all, hall⟩ : ∃ all, r.collect [name] d.interfaces = .ok all :=
    collect_total fun x hx y hy => h y (hy.head hd hx)
  exact ⟨all.drop 1, bind_eq_ok.2 ⟨d, resolve_eq_ok.2 hd, bind_eq_ok.2 ⟨all, hall, rfl⟩⟩⟩

end Registry

namespace Sequence

variable {r : Registry}

/-- Whether a position is that of a group: the group itself and then, once each and by implication
only, the other types that it leads to. The default group is on its own. -/
def IsPosition (r : Registry) (group : TypeName) (position : List Group) : Prop :=
  ∃ implied : List TypeName, position = Group.plain group :: implied.map (⟨·, true⟩) ∧
    implied.Nodup ∧
    ∀ x, x ∈ implied ↔ group.isDefault = false ∧ x ≠ group ∧ r.LeadsTo group x

/-- A position that a group comes to is that of the group. -/
theorem isPosition_of_positionOf {group : TypeName} {gs : List Group}
    (h : positionOf r group = .ok gs) : IsPosition r group gs := by
  unfold positionOf at h
  split at h
  · next hdefault =>
    cases h
    exact ⟨[], rfl, List.nodup_nil, by simp [hdefault]⟩
  · next hdefault =>
    obtain ⟨implied, himplied, h⟩ := bind_eq_ok.1 h
    cases h
    obtain ⟨hself, hnodup⟩ := List.nodup_cons.1 (Registry.nodup_superInterfaces himplied)
    refine ⟨implied, rfl, hnodup, fun x => ?_⟩
    rw [← Registry.mem_superInterfaces himplied, List.mem_cons]
    constructor
    · exact fun hx => ⟨by simpa using hdefault, fun he => hself (he ▸ hx), .inr hx⟩
    · exact fun ⟨_, hne, hx⟩ => hx.resolve_left hne

theorem positionOf_total {group : TypeName} (h : ∀ x, r.LeadsTo group x → r.contains x) :
    ∃ position, positionOf r group = .ok position ∧ IsPosition r group position := by
  obtain ⟨position, hposition⟩ : ∃ position, positionOf r group = .ok position := by
    unfold positionOf
    split
    · exact ⟨_, rfl⟩
    · obtain ⟨names, hnames⟩ := Registry.superInterfaces_total h
      exact ⟨_, bind_eq_ok.2 ⟨names, hnames, rfl⟩⟩
  exact ⟨position, hposition, isPosition_of_positionOf hposition⟩

theorem mapM_positionOf : ∀ {groups : List TypeName},
    (∀ g ∈ groups, ∀ x, r.LeadsTo g x → r.contains x) → ∃ positions,
      groups.mapM (positionOf r) = .ok positions ∧ List.Forall₂ (IsPosition r) groups positions
  | [], _ => ⟨[], rfl, .nil⟩
  | g :: groups, h => by
    obtain ⟨position, hposition, hg⟩ := positionOf_total (h g (by simp))
    obtain ⟨positions, hpositions, hgroups⟩ :=
      mapM_positionOf fun g' hg' => h g' (List.mem_cons_of_mem _ hg')
    refine ⟨position :: positions, ?_, .cons hg hgroups⟩
    rw [List.mapM_cons, hposition, hpositions]
    rfl

end Sequence

namespace Order

open Expanding

variable {r : Registry}

theorem checkGroup_sequence {name : TypeName} {members : List TypeName}
    (hmembers : r.sequenceMembers? name = some members) : checkGroup r name = .ok () := by
  obtain ⟨d, hd, hd'⟩ := Option.bind_eq_some_iff.1 hmembers
  have hinterface : d.isInterface = true := by
    by_contra h
    simp [TypeDefinition.sequenceMembers?, h] at hd'
  simp only [checkGroup, Registry.resolve, hd, bind, Except.bind, hinterface]
  rfl

/-- A sequence that is requested comes to what it is expanded to. -/
theorem answer_ofGroups_sequence {name : TypeName} {members : List TypeName}
    (hname : name.isDefault = false) (hmembers : r.sequenceMembers? name = some members) :
    answer (ofGroups r [name]) =
      (Sequence.build r name members).map fun s => { sequences := [s] } := by
  have hrequest : answer (request r {} name) =
      (Sequence.build r name members).map fun s => { sequences := [s] } := by
    simp only [request, hname, hmembers]
    refine ((steady_obtainSequence hmembers).answer_bind
      fun s => .ofExcept (.ok (({} : Order).addSequence s))).trans ?_
    rw [answer_obtainSequence]
    cases Sequence.build r name members <;> rfl
  have hcheck : ([name].forM fun g => (checkGroup r g : Expanding Unit)) = pure () := by
    change ((checkGroup r name : Expanding Unit) >>= fun _ => pure ()) = pure ()
    rw [checkGroup_sequence hmembers]
    rfl
  unfold ofGroups
  simp only [List.isEmpty_cons, Bool.false_eq_true, if_false, List.all_cons, hname, Bool.false_and]
  rw [hcheck, pure_bind]
  simp only [List.foldlM_cons, List.foldlM_nil, bind_pure]
  exact hrequest

/-- Whether a request for a sequence comes to what one pass over the groups that stand in the place of
its members comes to: the one sequence of these groups with the position of each, if none is left twice
when repetitions are gone, and a failure for that reason otherwise. -/
def ExpandsAsWrittenOut (r : Registry) (name : TypeName) (members : List TypeName)
    (answer : Except Error Order) : Prop :=
  (∃ leaves, r.Flattens members leaves) ∧ ∀ leaves, r.Flattens members leaves →
    ((collapse leaves).Nodup → ∃ positions,
      answer = .ok { sequences := [{ name, groups := collapse leaves, positions }] } ∧
        List.Forall₂ (Sequence.IsPosition r) (collapse leaves) positions) ∧
    (¬ (collapse leaves).Nodup → ∃ sequence group,
      answer = .error (.unexpandableSequence sequence group))

/-- A sequence other than the default group that does not contain itself, nor any that does, comes to
what its groups do when they are written out, whatever was requested before. -/
theorem request_expands_as_written_out {name : TypeName} {members : List TypeName}
    (hname : name.isDefault = false) (hmembers : r.sequenceMembers? name = some members)
    (hacyclic : ∀ x, Relation.ReflTransGen r.HasMember name x →
      ¬ Relation.TransGen r.HasMember x x)
    (hregistered : ∀ x, Relation.TransGen r.HasMember name x → ∀ y, r.LeadsTo x y → r.contains y)
    (earlier : List (List TypeName)) :
    ExpandsAsWrittenOut r name members
      (((ofGroups r [name]).run.run (rememberedAfter r [] earlier)).run).1 := by
  have hstep : ∀ x ∈ members, r.HasMember name x := fun x hx => ⟨members, hmembers, hx⟩
  have hexpandable : Sequence.Expandable r [name] members := by
    refine ⟨?_, ?_, ?_⟩
    · intro p hp x hx
      exact List.mem_singleton.1 hp ▸ .single (hstep x hx)
    · intro x hx y hy
      exact hacyclic y (.head (hstep x hx) hy)
    · intro x hx y hy
      exact hregistered y (.head' (hstep x hx) hy) y .refl
  rw [(steady_ofGroups r [name]).run_eq (coherent_rememberedAfter (SequenceCache.coherent_nil r)),
    answer_ofGroups_sequence hname hmembers]
  refine ⟨hexpandable.exists_flattens, ?_⟩
  intro leaves hleaves
  obtain ⟨hok, herror⟩ := Sequence.comesTo_expand hexpandable hleaves name
  refine ⟨?_, ?_⟩
  · intro hnodup
    have hreach : ∀ g ∈ collapse leaves, ∀ x, r.LeadsTo g x → r.contains x := by
      intro g hg
      have hg : g ∈ leaves := (List.destutter_sublist _ leaves).subset hg
      obtain ⟨x, hx, hbelow⟩ := Sequence.exists_of_mem_leaves hleaves hg
      exact hregistered g (.head' (hstep x hx) hbelow)
    obtain ⟨positions, hpositions, hare⟩ := Sequence.mapM_positionOf hreach
    refine ⟨positions, ?_, hare⟩
    simp only [Sequence.build, hok hnodup, bind, Except.bind, hpositions]
    rfl
  · intro hnodup
    obtain ⟨sequence, group, he⟩ := herror hnodup
    refine ⟨sequence, group, ?_⟩
    simp only [Sequence.build, he, bind, Except.bind, Except.map]

/-- Sequences that share members: the outer one comes to the groups of two inner ones that overlap. -/
def overlapping : Registry := [
  { name := ⟨"Root"⟩, kind := .interface },
  { name := ⟨"A"⟩, kind := .interface },
  { name := ⟨"B"⟩, kind := .interface, interfaces := [⟨"A"⟩, ⟨"Root"⟩] },
  { name := ⟨"C"⟩, kind := .interface },
  { name := ⟨"Left"⟩, kind := .interface, sequence := some [⟨"A"⟩, ⟨"B"⟩] },
  { name := ⟨"Right"⟩, kind := .interface, sequence := some [⟨"B"⟩, ⟨"C"⟩] },
  { name := ⟨"Outer"⟩, kind := .interface,
    sequence := some [⟨"Left"⟩, ⟨"Right"⟩, ⟨"C"⟩, TypeName.defaultGroup] },
  { name := ⟨"Back"⟩, kind := .interface,
    sequence := some [⟨"Right"⟩, ⟨"Left"⟩] : TypeDefinition }
  ].foldl Registry.register .initial

/-- The outer sequence has each group once; the one that comes back to a group of its first member
fails, after other requests too. -/
theorem overlapping_expands :
    ExpandsAsWrittenOut overlapping ⟨"Outer"⟩
        [⟨"Left"⟩, ⟨"Right"⟩, ⟨"C"⟩, TypeName.defaultGroup]
        (((ofGroups overlapping [⟨"Outer"⟩]).run.run (rememberedAfter overlapping []
          [[⟨"Left"⟩], [⟨"Back"⟩]])).run).1 ∧
      ExpandsAsWrittenOut overlapping ⟨"Back"⟩ [⟨"Right"⟩, ⟨"Left"⟩]
        (((ofGroups overlapping [⟨"Back"⟩]).run.run (rememberedAfter overlapping []
          [[⟨"Outer"⟩, ⟨"Right"⟩]])).run).1 := by
  have hacyclic := Registry.acyclic_of_rank (r := overlapping)
    (fun t => if t ∈ [⟨"Outer"⟩, ⟨"Back"⟩] then 2 else if t ∈ [⟨"Left"⟩, ⟨"Right"⟩] then 1 else 0)
    (by decide +kernel)
  have hcomplete : ∀ d ∈ overlapping.definitions,
    ∀ x ∈ d.sequenceMembers?.getD [] ++ d.interfaces, overlapping.contains x := by decide +kernel
  exact ⟨request_expands_as_written_out rfl (by decide +kernel) (fun x _ => hacyclic x)
      (fun x hx y => Registry.contains_below hcomplete hx) _,
    request_expands_as_written_out rfl (by decide +kernel) (fun x _ => hacyclic x)
      (fun x hx y => Registry.contains_below hcomplete hx) _⟩

/-- The default group registered once more, as a sequence that comes back to its first group. -/
def sequenceAsDefault : Registry := [
  { name := ⟨"A"⟩, kind := .interface },
  { name := ⟨"B"⟩, kind := .interface },
  { name := TypeName.defaultGroup, kind := .interface,
    sequence := some [⟨"A"⟩, ⟨"B"⟩, ⟨"A"⟩] : TypeDefinition }
  ].foldl Registry.register .initial

/-- A request for the default group alone stands for the default group whatever is registered under its
name, so it does not fail where the groups written out in its place do. -/
theorem default_group_is_not_expanded :
    sequenceAsDefault.sequenceMembers? TypeName.defaultGroup = some [⟨"A"⟩, ⟨"B"⟩, ⟨"A"⟩] ∧
      (∀ x, ¬ Relation.TransGen sequenceAsDefault.HasMember x x) ∧
      (∀ x, Relation.TransGen sequenceAsDefault.HasMember TypeName.defaultGroup x →
        ∀ y, sequenceAsDefault.LeadsTo x y → sequenceAsDefault.contains y) ∧
      ¬ ExpandsAsWrittenOut sequenceAsDefault TypeName.defaultGroup [⟨"A"⟩, ⟨"B"⟩, ⟨"A"⟩]
        (((ofGroups sequenceAsDefault [TypeName.defaultGroup]).run.run []).run).1 := by
  refine ⟨by decide +kernel, ?_, ?_, ?_⟩
  · exact Registry.acyclic_of_rank (fun t => if t.isDefault then 1 else 0) (by decide +kernel)
  · intro x hx y
    exact Registry.contains_below (by decide +kernel) hx
  · rintro ⟨-, h⟩
    have hleaves : sequenceAsDefault.Flattens [⟨"A"⟩, ⟨"B"⟩, ⟨"A"⟩] [⟨"A"⟩, ⟨"B"⟩, ⟨"A"⟩] :=
      .group (by decide +kernel) (.group (by decide +kernel) (.group (by decide +kernel) .nil))
    obtain ⟨sequence, group, he⟩ := (h _ hleaves).2 (by decide +kernel)
    cases he

end Order

end ObjectValidation
