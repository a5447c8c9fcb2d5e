import ObjectValidation.Proofs.DepthFirst
import ObjectValidation.Proofs.Nesting
/-!
# The groups that a request comes to

Written out, a request has in the place of each plain group the group and, by implication, what it extends
depth first. The order has each group of this list where it comes first, with what is said of it there: one
that an earlier group extends stays implied, even if it is requested later on. Groups are compared by name
alone as they are added, so what is added of a list is what comes first there (`foldl_insertGroup`), and
what requests add in turn joins as their lists do (`Grows.trans`).
-/

namespace ObjectValidation

theorem Registry.contains_of_leadsTo {r : Registry} {name x : TypeName}
    (h : ∀ d ∈ r.definitions, ∀ x ∈ d.interfaces, r.contains x) (hname : r.contains name)
    (hx : r.LeadsTo name x) : r.contains x := by
  cases hx with
  | refl => exact hname
  | step _ hd hx => exact h _ (mem_of_get? hd) x hx

namespace Sequence

variable {r : Registry}

theorem name_of_build {name : TypeName} {members : List TypeName} {s : Sequence}
    (h : build r name members = .ok s) : s.name = name := by
  obtain ⟨groups, -, h⟩ := bind_eq_ok.1 h
  obtain ⟨positions, -, h⟩ := bind_eq_ok.1 h
  cases h
  rfl

end Sequence

namespace Order

open Expanding

variable {r : Registry}

/-! ### First occurrences -/

/-- The groups of a list where their names come first. -/
def firstOfEachName (gs : List Group) : List Group := gs.eraseDupsBy (·.name == ·.name)

/-- Groups that are added in turn leave of their list what comes first there and was not there before. -/
theorem foldl_insertGroup : ∀ (gs present : List Group), gs.foldl insertGroup present =
    present ++ firstOfEachName (gs.filter fun g => !present.any (·.name = g.name))
  | [], present => by simp [firstOfEachName]
  | g :: gs, present => by
    rw [List.foldl_cons, foldl_insertGroup gs, insertGroup]
    split
    · next h => rw [List.filter_cons_of_neg (by simp [h])]
    · next h =>
      rw [List.filter_cons_of_pos (by simpa using h), firstOfEachName, firstOfEachName,
        List.eraseDupsBy_cons, List.append_assoc, List.singleton_append, List.filter_filter]
      refine congrArg (fun later => present ++ g :: List.eraseDupsBy _ later)
        (List.filter_congr fun g' _ => ?_)
      rw [Bool.eq_iff_iff]
      simp only [List.any_append, List.any_cons, List.any_nil, Bool.or_false, Bool.not_or,
        Bool.and_eq_true, Bool.not_eq_true', List.any_eq_false, decide_eq_true_eq,
        decide_eq_false_iff_not, beq_eq_false_iff_ne, ne_eq]
      grind

/-! ### What a request is written out to -/

/-- What a group of a request is written out to: the group and, by implication, what it extends depth
first. The default group brings nothing along, and a sequence is not among the groups. -/
def writtenOut (r : Registry) (group : TypeName) : List Group :=
  if group.isDefault then [Group.plain group]
  else if IsPlain r group then
    Group.plain group :: (r.along [] group).tail.eraseDups.map (⟨·, true⟩)
  else []

theorem positionOf_eq {group : TypeName} {gs : List Group} (hplain : IsPlain r group)
    (h : Sequence.positionOf r group = .ok gs) : gs = writtenOut r group := by
  unfold Sequence.positionOf at h
  unfold writtenOut
  split at h
  · next hdefault =>
    cases h
    rw [if_pos hdefault]
  · next hdefault =>
    obtain ⟨implied, himplied, h⟩ := bind_eq_ok.1 h
    cases h
    rw [if_neg hdefault, if_pos hplain, Registry.superInterfaces_eq himplied]

/-- Whether a sequence is what its type is expanded to. -/
def IsExpanded (r : Registry) (s : Sequence) : Prop :=
  ∃ members, r.sequenceMembers? s.name = some members ∧ Sequence.build r s.name members = .ok s

/-- What requests add to an order: of the groups that they are written out to those that come first, and
the sequences that are not part of it. -/
structure Grows (r : Registry) (requested : List TypeName) (o o' : Order) : Prop where
  groups : o'.groups = (requested.flatMap (writtenOut r)).foldl insertGroup o.groups
  sequences : o'.sequences.map (·.name) = o.sequences.map (·.name) ++
    fresh (o.sequences.map (·.name)) (requested.filter (¬ IsPlain r ·))
  expanded : (∀ s ∈ o.sequences, IsExpanded r s) → ∀ s ∈ o'.sequences, IsExpanded r s

theorem Grows.trans {xs ys : List TypeName} {o o₁ o₂ : Order} (h₁ : Grows r xs o o₁)
    (h₂ : Grows r ys o₁ o₂) : Grows r (xs ++ ys) o o₂ where
  groups := by rw [h₂.groups, h₁.groups, List.flatMap_append, List.foldl_append]
  sequences := by
    rw [h₂.sequences, h₁.sequences, List.filter_append, fresh_append, List.append_assoc]
  expanded h := h₂.expanded (h₁.expanded h)

theorem grows_addGroups {o : Order} {group : TypeName} (hplain : IsPlain r group) :
    Grows r [group] o (o.addGroups (writtenOut r group)) where
  groups := by rw [List.flatMap_singleton]; rfl
  sequences := by
    rw [List.filter_cons_of_neg (by simpa using hplain), List.filter_nil,
      fresh_of_subset (List.nil_subset _), List.append_nil]
    rfl
  expanded := id

theorem grows_addSequence {o : Order} {group : TypeName} {s : Sequence} (hname : s.name = group)
    (hplain : ¬ IsPlain r group) (hs : IsExpanded r s) : Grows r [group] o (o.addSequence s) := by
  have hwritten : writtenOut r group = [] := by
    rw [writtenOut, if_neg (not_or.1 hplain).1, if_neg hplain]
  have hfilter : [group].filter (¬ IsPlain r ·) = [group] := by simp [hplain]
  unfold addSequence
  split
  · next h =>
    have hmem : group ∈ o.sequences.map (·.name) := by
      simpa [hname] using h
    refine ⟨by simp [hwritten], ?_, id⟩
    rw [hfilter, fresh_of_subset (by simpa using hmem), List.append_nil]
  · next h =>
    have hmem : group ∉ o.sequences.map (·.name) := by
      simpa [hname] using h
    refine ⟨by simp [hwritten], ?_, ?_⟩
    · rw [hfilter, fresh_cons hmem, fresh_of_subset (List.nil_subset _), List.map_append, List.map_cons,
        hname, List.map_nil]
    · intro hall q hq
      rcases List.mem_append.1 hq with hq | hq
      · exact hall q hq
      · exact List.mem_singleton.1 hq ▸ hs

/-- One request adds what its group is written out to, or its sequence. -/
theorem grows_request {o o' : Order} {group : TypeName}
    (h : answer (request r o group) = .ok o') : Grows r [group] o o' := by
  by_cases hplain : IsPlain r group
  · rw [answer, request_of_isPlain hplain] at h
    obtain ⟨gs, hgs, rfl⟩ := bring_eq_ok.1 h
    obtain rfl := positionOf_eq hplain hgs
    exact grows_addGroups hplain
  · obtain ⟨hdefault, hmembers⟩ := not_or.1 hplain
    obtain ⟨members, hmembers⟩ := Option.ne_none_iff_exists'.1 hmembers
    rw [answer_request_sequence (Bool.eq_false_iff.2 hdefault) hmembers] at h
    cases hbuild : Sequence.build r group members with
    | error e =>
      rw [hbuild] at h
      cases h
    | ok s =>
      rw [hbuild] at h
      cases h
      have hname := Sequence.name_of_build hbuild
      exact grows_addSequence hname hplain ⟨members, by rw [hname]; exact ⟨hmembers, hbuild⟩⟩

/-- So do all requests in turn. -/
theorem grows_foldlM : ∀ {requested : List TypeName} {o o' : Order},
    requested.foldlM (fun o g => answer (request r o g)) o = .ok o' → Grows r requested o o'
  | [], o, o', h => by
    cases h
    exact ⟨rfl, by simp [fresh, List.removeAll], id⟩
  | group :: requested, o, o', h => by
    rw [List.foldlM_cons] at h
    obtain ⟨o₁, hrequest, h⟩ := bind_eq_ok.1 h
    exact (grows_request hrequest).trans (grows_foldlM h)

/-! ### Requests that come to an order -/

/-- Whether a group can be requested and, with all that it extends, be part of an order. -/
structure Requestable (r : Registry) (group : TypeName) : Prop where
  isPlain : IsPlain r group
  isInterface : r.isInterface group
  registered : ∀ x, r.LeadsTo group x → r.contains x

theorem checkGroup_eq_ok {group : TypeName} : checkGroup r group = .ok () ↔ r.isInterface group := by
  unfold checkGroup Registry.resolve Registry.isInterface
  cases r.get? group with
  | none => simp [bind, Except.bind]
  | some d => cases hd : d.isInterface <;> simp [bind, Except.bind, hd, pure, Except.pure, throw,
      throwThe, MonadExceptOf.throw]

theorem forM_checkGroup_eq_ok : ∀ {requested : List TypeName},
    requested.forM (checkGroup r) = .ok () ↔ ∀ g ∈ requested, r.isInterface g
  | [] => iff_of_true rfl (by simp)
  | g :: requested => by
    change (checkGroup r g >>= fun _ => requested.forM (checkGroup r)) = .ok () ↔ _
    rw [List.forall_mem_cons, ← checkGroup_eq_ok, ← forM_checkGroup_eq_ok, bind_eq_ok]
    exact ⟨fun ⟨_, h⟩ => h, fun h => ⟨(), h⟩⟩

theorem answer_forM_checkGroup : ∀ requested : List TypeName,
    answer (requested.forM fun g => (checkGroup r g : Expanding Unit)) = requested.forM (checkGroup r)
  | [] => rfl
  | g :: requested => by
    have hsplit := (Steady.ofExcept (r := r) (checkGroup r g)).answer_bind
      fun _ => Steady.forM (fun g => .ofExcept (checkGroup r g)) requested
    refine hsplit.trans ?_
    rw [answer_forM_checkGroup requested]
    rfl

/-- The default group alone comes to its own order, whatever is registered under its name. -/
theorem answer_ofGroups_of_all {requested : List TypeName} (hne : requested ≠ [])
    (h : requested.all (·.isDefault)) : answer (ofGroups r requested) = .ok default := by
  rw [ofGroups, if_neg (by simpa using hne), if_pos h]
  rfl

/-- Any other request comes to what its groups do in turn if all of them are interfaces. -/
theorem answer_ofGroups_of_any {requested : List TypeName} (h : requested.any (!·.isDefault)) :
    answer (ofGroups r requested) = requested.forM (checkGroup r) >>= fun _ =>
      requested.foldlM (fun o g => answer (request r o g)) {} := by
  have hne : requested ≠ [] := by
    rintro rfl
    cases h
  rw [answer_ofGroups hne (by simpa using h), answer_forM_checkGroup]

theorem exists_foldlM_request : ∀ {requested : List TypeName} (o : Order),
    (∀ g ∈ requested, Requestable r g) →
    ∃ o', requested.foldlM (fun o g => answer (request r o g)) o = .ok o'
  | [], o, _ => ⟨o, rfl⟩
  | g :: requested, o, h => by
    have hg := h g (by simp)
    obtain ⟨gs, hgs, -⟩ := Sequence.positionOf_total hg.registered
    have hrequest : answer (request r o g) = .ok (o.addGroups gs) := by
      rw [answer, request_of_isPlain hg.isPlain]
      exact bring_eq_ok.2 ⟨gs, hgs, rfl⟩
    rw [List.foldlM_cons, hrequest]
    exact exists_foldlM_request _ fun g' hg' => h g' (List.mem_cons_of_mem _ hg')

/-- Plain groups come to an order if all that they extend is registered, whether or not that leads back
to them. -/
theorem exists_answer_ofGroups {requested : List TypeName} (hne : requested ≠ [])
    (h : ∀ g ∈ requested, Requestable r g) : ∃ o, answer (ofGroups r requested) = .ok o := by
  by_cases hall : requested.all (·.isDefault)
  · exact ⟨default, answer_ofGroups_of_all hne hall⟩
  · rw [answer_ofGroups_of_any (by simpa using hall),
      forM_checkGroup_eq_ok.2 fun g hg => (h g hg).isInterface]
    exact exists_foldlM_request {} h

/-- What an order has of a request: of the groups that it is written out to those that come first, and
its sequences without repetition. -/
structure KeepsFirst (r : Registry) (requested : List TypeName) (o : Order) : Prop where
  groups : o.groups = firstOfEachName (requested.flatMap (writtenOut r))
  written : ∀ g ∈ requested, IsPlain r g → Sequence.IsPosition r g (writtenOut r g)
  sequences : o.sequences.map (·.name) = (requested.filter (¬ IsPlain r ·)).eraseDups
  expanded : ∀ s ∈ o.sequences, IsExpanded r s

theorem keepsFirst_of_answer {requested : List TypeName} {o : Order}
    (h : answer (ofGroups r requested) = .ok o) (hother : requested.any (!·.isDefault)) :
    KeepsFirst r requested o := by
  rw [answer_ofGroups_of_any hother] at h
  obtain ⟨-, -, h⟩ := bind_eq_ok.1 h
  have hgrows := grows_foldlM h
  refine ⟨?_, ?_, ?_, hgrows.expanded (by simp)⟩
  · rw [hgrows.groups, foldl_insertGroup]
    simp
  · intro g hg hplain
    obtain ⟨o₁, o₂, hrequest⟩ := exists_of_foldlM_ok h hg
    rw [answer, request_of_isPlain hplain] at hrequest
    obtain ⟨gs, hgs, -⟩ := bring_eq_ok.1 hrequest
    exact positionOf_eq hplain hgs ▸ Sequence.isPosition_of_positionOf hgs
  · rw [hgrows.sequences]
    simp [fresh, List.removeAll]

/-- Expansion ends, and requests of plain groups whose superinterfaces are registered come to an order. The
order of a request that is not for the default group alone has of all that the request is written out to
what comes first, whatever was requested before. -/
theorem request_keeps_first_occurrences (r : Registry) (earlier : List (List TypeName))
    (requested : List TypeName) : ExpansionEnds r ∧
      (requested ≠ [] → (∀ g ∈ requested, Requestable r g) →
        ∃ o, (((ofGroups r requested).run.run (rememberedAfter r [] earlier)).run).1 = .ok o) ∧
      ∀ o, (((ofGroups r requested).run.run (rememberedAfter r [] earlier)).run).1 = .ok o →
        requested.any (!·.isDefault) → KeepsFirst r requested o := by
  rw [(steady_ofGroups r requested).run_eq (coherent_rememberedAfter (SequenceCache.coherent_nil r))]
  exact ⟨expansionEnds r, exists_answer_ofGroups, fun _ => keepsFirst_of_answer⟩

/-- Interfaces that extend each other, a group that comes with another one, and a sequence. -/
def entwined : Registry := [
  { name := ⟨"Here"⟩, kind := .interface, interfaces := [⟨"There"⟩, ⟨"Root"⟩] },
  { name := ⟨"There"⟩, kind := .interface, interfaces := [⟨"Here"⟩, ⟨"Side"⟩] },
  { name := ⟨"Root"⟩, kind := .interface },
  { name := ⟨"Side"⟩, kind := .interface, interfaces := [⟨"Root"⟩] },
  { name := ⟨"Steps"⟩, kind := .interface, sequence := some [⟨"Root"⟩, ⟨"Side"⟩] : TypeDefinition }
  ].foldl Registry.register .initial

/-- The sequence of two groups, the second of which extends the first. -/
def entwined.steps : Sequence where
  name := ⟨"Steps"⟩
  groups := [⟨"Root"⟩, ⟨"Side"⟩]
  positions := [[Group.plain ⟨"Root"⟩], [Group.plain ⟨"Side"⟩, ⟨⟨"Root"⟩, true⟩]]

/-- Groups that extend each other come to an order. One that is requested after a group that extends it
stays implied, and one that is requested first does not become so. -/
theorem entwined_keeps_first_occurrences :
    (∃ o, (((ofGroups entwined [⟨"Here"⟩, ⟨"There"⟩]).run.run
      (rememberedAfter entwined [] [])).run).1 = .ok o) ∧
    KeepsFirst entwined
      [⟨"Root"⟩, ⟨"Steps"⟩, ⟨"There"⟩, TypeName.defaultGroup, ⟨"Here"⟩, ⟨"Steps"⟩]
      { groups := [Group.plain ⟨"Root"⟩, Group.plain ⟨"There"⟩, ⟨⟨"Here"⟩, true⟩, ⟨⟨"Side"⟩, true⟩,
          Group.plain TypeName.defaultGroup],
        sequences := [entwined.steps] } := by
  obtain ⟨-, -, hkeeps⟩ := request_keeps_first_occurrences entwined []
    [⟨"Root"⟩, ⟨"Steps"⟩, ⟨"There"⟩, TypeName.defaultGroup, ⟨"Here"⟩, ⟨"Steps"⟩]
  have hcomplete : ∀ d ∈ entwined.definitions, ∀ x ∈ d.interfaces, entwined.contains x := by
    decide +kernel
  have hhere : Requestable entwined ⟨"Here"⟩ :=
    ⟨by decide +kernel, by decide +kernel,
      fun x => Registry.contains_of_leadsTo hcomplete (by decide +kernel)⟩
  have hthere : Requestable entwined ⟨"There"⟩ :=
    ⟨by decide +kernel, by decide +kernel,
      fun x => Registry.contains_of_leadsTo hcomplete (by decide +kernel)⟩
  refine ⟨(request_keeps_first_occurrences entwined [] _).2.1 (by simp) ?_,
    hkeeps _ (toOption_eq_some (by decide +kernel)) (by decide +kernel)⟩
  simpa using ⟨hhere, hthere⟩

end Order

end ObjectValidation
