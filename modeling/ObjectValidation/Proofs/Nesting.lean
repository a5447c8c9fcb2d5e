import ObjectValidation.Proofs.Flattening
/-!
# Sequences that contain themselves

A sequence that leads back to itself is never expanded, and nothing else is reported to be one. What
expansion has on its path decides both: a sequence that was expanded was not on the path of any
sequence that holds it, so it does not lead back to itself (`not_cyclic_of_expand`); and what is on the
path leads to all that is listed at its end, so to meet it there closes a cycle (`cyclic_of_expand`).

Expansion comes to an end because a sequence is taken up only where it is not on the path. How deep it
may have to go is counted by `expandWithin`.
-/

namespace ObjectValidation

/-! ### Failures -/

theorem bind_eq_error {ε α β : Type} {x : Except ε α} {f : α → Except ε β} {e : ε} :
    (x >>= f) = .error e ↔ x = .error e ∨ ∃ a, x = .ok a ∧ f a = .error e := by
  cases x <;> simp [bind, Except.bind]

/-- A loop that fails does so in one of its rounds. -/
theorem exists_of_foldlM_error {ε α β : Type} {f : β → α → Except ε β} {e : ε} :
    ∀ {xs : List α} {b : β}, xs.foldlM f b = .error e → ∃ x ∈ xs, ∃ b', f b' x = .error e
  | [], b, h => by cases h
  | x :: xs, b, h => by
    rw [List.foldlM_cons] at h
    rcases bind_eq_error.1 h with h | ⟨b', -, h⟩
    · exact ⟨x, by simp, b, h⟩
    · obtain ⟨y, hy, hfail⟩ := exists_of_foldlM_error h
      exact ⟨y, List.mem_cons_of_mem _ hy, hfail⟩

/-- A loop that succeeds does so in each of its rounds. -/
theorem exists_of_foldlM_ok {ε α β : Type} {f : β → α → Except ε β} {xs : List α} {b b' : β} {x : α}
    (h : xs.foldlM f b = .ok b') (hx : x ∈ xs) : ∃ b₁ b₂, f b₁ x = .ok b₂ :=
  foldlM_reaches (I := fun _ => ∃ b₁ b₂, f b₁ x = .ok b₂) (fun b₁ b₂ h => ⟨b₁, b₂, h⟩)
    (fun _ _ _ h _ => h) hx h

theorem exists_of_mapM_error {ε α β : Type} {f : α → Except ε β} {e : ε} :
    ∀ {xs : List α}, xs.mapM f = .error e → ∃ x ∈ xs, f x = .error e
  | [], h => by cases h
  | x :: xs, h => by
    rw [List.mapM_cons] at h
    rcases bind_eq_error.1 h with h | ⟨y, -, h⟩
    · exact ⟨x, by simp, h⟩
    · rcases bind_eq_error.1 h with h | ⟨ys, -, h⟩
      · obtain ⟨x', hx', hfail⟩ := exists_of_mapM_error h
        exact ⟨x', List.mem_cons_of_mem _ hx', hfail⟩
      · cases h

namespace Registry

variable {r : Registry}

/-- A class is no group sequence. -/
theorem sequenceMembers?_of_mem_classes {type : TypeName} (h : type ∈ r.classes) :
    r.sequenceMembers? type = none := by
  obtain ⟨d, hd, rfl⟩ := List.mem_map.1 h
  obtain ⟨hmem, hclass⟩ := List.mem_filter.1 hd
  have hget : r.get? d.name = some d := by
    have hfound : (r.get? d.name).isSome := List.find?_isSome.2 ⟨d, hmem, by simp⟩
    obtain ⟨e, he⟩ := Option.isSome_iff_exists.1 hfound
    have hname := name_of_get? he
    exact List.inj_on_of_nodup_map r.distinct (mem_of_get? he) hmem hname ▸ he
  rw [sequenceMembers?, hget, Option.bind_some, TypeDefinition.sequenceMembers?, if_neg]
  simpa using hclass

theorem exists_members {x y : TypeName} (h : Relation.TransGen r.HasMember x y) :
    ∃ members, r.sequenceMembers? x = some members := by
  obtain ⟨_, ⟨members, hmembers, -⟩, -⟩ := Relation.TransGen.head'_iff.1 h
  exact ⟨members, hmembers⟩

/-- The walk over interfaces fails for unknown types alone. -/
theorem typeNotFound_of_collect {seen pending : List TypeName} {e : Error}
    (h : r.collect seen pending = .error e) : ∃ name, e = .typeNotFound name := by
  fun_induction collect r seen pending with
  | case1 => cases h
  | case2 seen name rest hseen ih => exact ih h
  | case3 seen name rest hseen hget => exact ⟨name, by cases h; rfl⟩
  | case4 seen name rest hseen d hget ih => exact ih h

theorem typeNotFound_of_superInterfaces {name : TypeName} {e : Error}
    (h : r.superInterfaces name = .error e) : ∃ name, e = .typeNotFound name := by
  unfold superInterfaces resolve at h
  rcases bind_eq_error.1 h with h | ⟨d, -, h⟩
  · cases hget : r.get? name with
    | some d => rw [hget] at h; cases h
    | none => rw [hget] at h; cases h; exact ⟨name, rfl⟩
  · rcases bind_eq_error.1 h with h | ⟨names, -, h⟩
    · exact typeNotFound_of_collect h
    · cases h

/-! ### How long the walk over interfaces is -/

/-- What `collect` comes to in at most so many steps; nothing if there are more to do. -/
def collectWithin (r : Registry) (steps : Nat) (seen pending : List TypeName) :
    Option (Except Error (List TypeName)) :=
  match steps, pending with
  | 0, _ => none
  | _ + 1, [] => some (.ok seen)
  | steps + 1, name :: rest =>
    if name ∈ seen then r.collectWithin steps seen rest
    else
      match r.get? name with
      | none => some (.error (.typeNotFound name))
      | some d => r.collectWithin steps (seen ++ [name]) (d.interfaces ++ rest)

/-- A walk over interfaces takes no more steps than there are types not seen yet, interfaces that these
list, and names that are pending. -/
theorem collectWithin_eq {seen pending : List TypeName} {steps : Nat}
    (h : r.unmetWeight seen + pending.length < steps) :
    r.collectWithin steps seen pending = some (r.collect seen pending) := by
  fun_induction collect r seen pending generalizing steps <;>
    obtain ⟨steps, rfl⟩ := Nat.exists_eq_succ_of_ne_zero (Nat.ne_zero_of_lt h)
  case case1 seen => rfl
  case case2 seen name rest hseen ih =>
    rw [List.length_cons] at h
    rw [collectWithin, if_pos hseen]
    exact ih (by omega)
  case case3 seen name rest hseen hget => rw [collectWithin, if_neg hseen, hget]
  case case4 seen name rest hseen d hget ih =>
    have hvisit := unmetWeight_visit hget hseen
    rw [List.length_cons] at h
    rw [collectWithin, if_neg hseen, hget]
    refine ih ?_
    rw [List.length_append]
    omega

end Registry

namespace Sequence

variable {r : Registry}

/-! ### What expansion passes over -/

/-- A member that was taken up is a group, or a sequence that was expanded and is not on the path. -/
theorem enlist_eq_ok {path groups groups' : List TypeName} {name member : TypeName}
    (h : enlist r path name groups member = .ok groups') :
    (r.sequenceMembers? member = none ∧ place name groups member = .ok groups') ∨
    ∃ nested inner, r.sequenceMembers? member = some nested ∧ member ∉ path ∧
      expand r (path ++ [member]) member nested = .ok inner ∧
      inner.foldlM (place name) groups = .ok groups' := by
  unfold enlist at h
  split at h
  · cases h
  · next d hd =>
    have hmember : r.sequenceMembers? member = d.sequenceMembers? := by
      rw [Registry.sequenceMembers?, hd, Option.bind_some]
    rw [hmember]
    split at h
    · next hnone => exact .inl ⟨hnone, h⟩
    · next nested hnested =>
      split at h
      · cases h
      · next hpath =>
        obtain ⟨inner, hinner, h⟩ := bind_eq_ok.1 h
        exact .inr ⟨nested, inner, hnested, hpath, hinner, h⟩

/-- A sequence among the members of one that was expanded was expanded in its turn. -/
theorem expand_nested {path members groups nested : List TypeName} {name member : TypeName}
    (h : expand r path name members = .ok groups) (hmember : member ∈ members)
    (hnested : r.sequenceMembers? member = some nested) :
    member ∉ path ∧ ∃ inner, expand r (path ++ [member]) member nested = .ok inner := by
  rw [expand_eq] at h
  obtain ⟨groups₁, groups₂, henlist⟩ := exists_of_foldlM_ok h hmember
  rcases enlist_eq_ok henlist with ⟨hnone, -⟩ | ⟨nested', inner, hsome, hpath, hinner, -⟩
  · rw [hnested] at hnone
    cases hnone
  · obtain rfl : nested = nested' := Option.some.inj (hnested.symm.trans hsome)
    exact ⟨hpath, inner, hinner⟩

/-- A sequence that expanded members lead to was expanded in its turn, as none that is on the path. -/
theorem expand_below {path members groups nested : List TypeName} {name x y : TypeName}
    (hreach : Relation.ReflTransGen r.HasMember x y) (hy : r.sequenceMembers? y = some nested)
    (h : expand r path name members = .ok groups) (hx : x ∈ members) :
    y ∉ path ∧ ∃ path' inner, y ∈ path' ∧ expand r path' y nested = .ok inner := by
  induction hreach using Relation.ReflTransGen.head_induction_on generalizing path name members groups
    with
  | refl =>
    obtain ⟨hpath, inner, hinner⟩ := expand_nested h hx hy
    exact ⟨hpath, _, inner, by simp, hinner⟩
  | head hstep _ ih =>
    obtain ⟨members', hmembers', hx'⟩ := hstep
    obtain ⟨-, inner, hinner⟩ := expand_nested h hx hmembers'
    obtain ⟨hpath, hfound⟩ := ih hinner hx'
    exact ⟨fun hy => hpath (List.mem_append_left _ hy), hfound⟩

/-- A sequence that is on the path while its members are expanded does not lead back to itself. -/
theorem not_cyclic_of_mem {path members groups : List TypeName} {x name : TypeName}
    (hx : r.sequenceMembers? x = some members) (hpath : x ∈ path)
    (h : expand r path name members = .ok groups) : ¬ Relation.TransGen r.HasMember x x := by
  intro hcycle
  obtain ⟨y, ⟨members', hmembers', hy⟩, hback⟩ := Relation.TransGen.head'_iff.1 hcycle
  obtain rfl : members = members' := Option.some.inj (hx.symm.trans hmembers')
  exact (expand_below hback hx h hy).1 hpath

/-- Nothing that expanded members lead to leads back to itself. -/
theorem not_cyclic_of_expand {path members groups : List TypeName} {name x y : TypeName}
    (h : expand r path name members = .ok groups) (hx : x ∈ members)
    (hreach : Relation.ReflTransGen r.HasMember x y) : ¬ Relation.TransGen r.HasMember y y := by
  intro hcycle
  obtain ⟨nested, hnested⟩ := Registry.exists_members hcycle
  obtain ⟨-, path', inner, hpath', hinner⟩ := expand_below hreach hnested h hx
  exact not_cyclic_of_mem hnested hpath' hinner hcycle

/-! ### What is reported -/

theorem place_ne_cyclic {sequence name group : TypeName} {groups : List TypeName} :
    place name groups group ≠ .error (.cyclicSequence sequence) := by
  unfold place
  split
  · split <;> simp
  · simp

/-- A member is reported as a cycle if it is on the path or something in it is. -/
theorem enlist_cyclic {path groups : List TypeName} {name member sequence : TypeName}
    (h : enlist r path name groups member = .error (.cyclicSequence sequence)) :
    ∃ nested, r.sequenceMembers? member = some nested ∧
      (member = sequence ∧ sequence ∈ path ∨ member ∉ path ∧
        expand r (path ++ [member]) member nested = .error (.cyclicSequence sequence)) := by
  unfold enlist at h
  split at h
  · cases h
  · next d hd =>
    split at h
    · exact absurd h place_ne_cyclic
    · next nested hnested =>
      refine ⟨nested, by rw [Registry.sequenceMembers?, hd, Option.bind_some, hnested], ?_⟩
      split at h
      · next hpath =>
        cases h
        exact .inl ⟨rfl, hpath⟩
      · next hpath =>
        rcases bind_eq_error.1 h with h | ⟨inner, -, h⟩
        · exact .inr ⟨hpath, h⟩
        · obtain ⟨group, -, groups', hplace⟩ := exists_of_foldlM_error h
          exact absurd hplace place_ne_cyclic

/-- What is reported as a cycle is one, if what is on the path leads to the members. -/
theorem cyclic_of_expand {path members : List TypeName} {name sequence : TypeName}
    (habove : ∀ p ∈ path, (r.sequenceMembers? p).isSome → ∀ x ∈ members,
      Relation.TransGen r.HasMember p x)
    (h : expand r path name members = .error (.cyclicSequence sequence)) :
    (∃ x ∈ members, Relation.ReflTransGen r.HasMember x sequence) ∧
      Relation.TransGen r.HasMember sequence sequence := by
  induction hn : r.unmetWeight path using Nat.strong_induction_on generalizing path name members with
  | h n ih =>
    rw [expand_eq] at h
    obtain ⟨member, hmember, groups, h⟩ := exists_of_foldlM_error h
    obtain ⟨nested, hnested, ⟨rfl, hpath⟩ | ⟨hpath, h⟩⟩ := enlist_cyclic h
    · exact ⟨⟨member, hmember, .refl⟩, habove member hpath (by simp [hnested]) member hmember⟩
    · obtain ⟨d, hd, -⟩ := Option.bind_eq_some_iff.1 hnested
      have habove' : ∀ p ∈ path ++ [member], (r.sequenceMembers? p).isSome → ∀ x ∈ nested,
          Relation.TransGen r.HasMember p x := by
        intro p hp hsequence x hx
        have hstep : r.HasMember member x := ⟨nested, hnested, hx⟩
        rcases List.mem_append.1 hp with hp | hp
        · exact (habove p hp hsequence member hmember).tail hstep
        · exact List.mem_singleton.1 hp ▸ .single hstep
      obtain ⟨⟨x, hx, hreach⟩, hcycle⟩ :=
        ih _ (hn ▸ Registry.unmetWeight_lt hd hpath) habove' h rfl
      exact ⟨⟨member, hmember, .head ⟨nested, hnested, hx⟩ hreach⟩, hcycle⟩

theorem build_eq_ok {name : TypeName} {members : List TypeName} {s : Sequence}
    (h : build r name members = .ok s) : expand r [name] name members = .ok s.groups := by
  obtain ⟨groups, hgroups, h⟩ := bind_eq_ok.1 h
  obtain ⟨positions, -, h⟩ := bind_eq_ok.1 h
  cases h
  exact hgroups

theorem expand_of_build_cyclic {name sequence : TypeName} {members : List TypeName}
    (h : build r name members = .error (.cyclicSequence sequence)) :
    expand r [name] name members = .error (.cyclicSequence sequence) := by
  rcases bind_eq_error.1 h with h | ⟨groups, -, h⟩
  · exact h
  · rcases bind_eq_error.1 h with h | ⟨positions, -, h⟩
    · obtain ⟨group, -, h⟩ := exists_of_mapM_error h
      unfold positionOf at h
      split at h
      · cases h
      · rcases bind_eq_error.1 h with h | ⟨implied, -, h⟩
        · obtain ⟨unknown, hunknown⟩ := Registry.typeNotFound_of_superInterfaces h
          cases hunknown
        · cases h
    · cases h

/-! ### How deep expansion goes -/

/-- What `expand` comes to if sequences are nested at most so deep; nothing if they are nested
deeper. -/
def expandWithin (r : Registry) (depth : Nat) (path : List TypeName) (name : TypeName)
    (members : List TypeName) : ExceptT Error Option (List TypeName) :=
  match depth with
  | 0 => .mk none
  | depth + 1 =>
    members.foldlM (fun groups member =>
      match r.get? member with
      | none => throw (.typeNotFound member)
      | some d =>
        match d.sequenceMembers? with
        | none => (place name groups member : Except Error (List TypeName))
        | some nested =>
          if member ∈ path then throw (.cyclicSequence member)
          else do
            let inner ← expandWithin r depth (path ++ [member]) member nested
            (inner.foldlM (place name) groups : Except Error (List TypeName))) []

theorem run_foldlM_of_run {α β : Type} {f : β → α → ExceptT Error Option β}
    {g : β → α → Except Error β} : ∀ {xs : List α} (b : β), (∀ b, ∀ x ∈ xs, (f b x).run = some (g b x)) →
      (xs.foldlM f b).run = some (xs.foldlM g b)
  | [], b, _ => rfl
  | x :: xs, b, h => by
    rw [List.foldlM_cons, List.foldlM_cons, ExceptT.run_bind, h b x (by simp)]
    cases g b x with
    | error e => rfl
    | ok b' => exact run_foldlM_of_run b' fun b y hy => h b y (List.mem_cons_of_mem _ hy)

theorem unmet_lt {name : TypeName} {d : TypeDefinition} {seen : List TypeName}
    (h : r.get? name = some d) (hs : name ∉ seen) :
    (r.unmet (seen ++ [name])).length < (r.unmet seen).length := by
  obtain rfl := Registry.name_of_get? h
  have hless := Registry.length_flatMap_filter_add_le (fun e => [e])
    (q := fun e => e.name ∉ seen) (p := fun e => e.name ∉ seen ++ [d.name]) (by simp_all) (by simp)
    (by simpa using hs) (Registry.mem_of_get? h)
  rw [List.flatMap_singleton', List.flatMap_singleton', List.length_singleton] at hless
  exact hless

/-- Sequences are nested at most as deep as there are types that are not on the path. -/
theorem run_expandWithin {depth : Nat} : ∀ {path : List TypeName} (name : TypeName)
    (members : List TypeName), (r.unmet path).length < depth →
    (expandWithin r depth path name members).run = some (expand r path name members) := by
  induction depth with
  | zero => exact fun _ _ h => absurd h (Nat.not_lt_zero _)
  | succ depth ih =>
    intro path name members h
    rw [expand_eq, expandWithin]
    refine run_foldlM_of_run [] ?_
    intro groups member _
    unfold enlist
    cases hd : r.get? member with
    | none => rfl
    | some d =>
      simp only
      cases hnested : d.sequenceMembers? with
      | none => rfl
      | some nested =>
        simp only
        by_cases hpath : member ∈ path
        · rw [if_pos hpath, if_pos hpath]
          rfl
        · have hlt := unmet_lt hd hpath
          rw [if_neg hpath, if_neg hpath, ExceptT.run_bind, ih member nested (by omega)]
          cases expand r (path ++ [member]) member nested <;> rfl

end Sequence

namespace Order

open Expanding

variable {r : Registry}

/-! ### Requests -/

theorem answer_foldlM {α β : Type} {f : β → α → Expanding β} (hf : ∀ b a, Steady r (f b a)) :
    ∀ (as : List α) (b : β), answer (as.foldlM f b) = as.foldlM (fun b a => answer (f b a)) b
  | [], b => rfl
  | a :: as, b => by
    rw [List.foldlM_cons, List.foldlM_cons, (hf b a).answer_bind fun b' => .foldlM hf as b']
    congr 1
    funext b'
    exact answer_foldlM hf as b'

theorem answer_request_sequence {g : TypeName} {members : List TypeName} (hg : g.isDefault = false)
    (hmembers : r.sequenceMembers? g = some members) (o : Order) :
    answer (request r o g) = (Sequence.build r g members).map o.addSequence := by
  simp only [request, hg, hmembers]
  refine ((steady_obtainSequence hmembers).answer_bind
    fun s => .ofExcept (.ok (o.addSequence s))).trans ?_
  rw [answer_obtainSequence]
  cases Sequence.build r g members <;> rfl

/-- A group that stands for no sequence fails, if it does, for an unknown type. -/
theorem answer_request_plain {g : TypeName} {e : Error} (h : IsPlain r g) {o : Order}
    (he : answer (request r o g) = .error e) : ∃ name, e = .typeNotFound name := by
  rw [answer, request_of_isPlain h, bring] at he
  unfold Sequence.positionOf at he
  split at he
  · cases he
  · cases himplied : r.superInterfaces g with
    | ok implied => rw [himplied] at he; cases he
    | error e' =>
      rw [himplied] at he
      cases he
      exact Registry.typeNotFound_of_superInterfaces himplied

/-- A request that is not for the default group alone comes to what its groups do in turn. -/
theorem answer_ofGroups {groups : List TypeName} (hne : groups ≠ [])
    (h : groups.all (·.isDefault) = false) : answer (ofGroups r groups) =
      answer (groups.forM fun g => (checkGroup r g : Expanding Unit)) >>= fun _ =>
        groups.foldlM (fun o g => answer (request r o g)) {} := by
  cases groups with
  | nil => exact absurd rfl hne
  | cons g groups =>
    simp only [ofGroups, List.isEmpty_cons, Bool.false_eq_true, if_false, h]
    refine ((Steady.forM (fun g => .ofExcept (checkGroup r g)) (g :: groups)).answer_bind fun _ =>
      .foldlM steady_request (g :: groups) {}).trans ?_
    congr 1
    funext _
    exact answer_foldlM steady_request (g :: groups) {}

theorem checkGroup_ne_cyclic {group sequence : TypeName} :
    checkGroup r group ≠ .error (.cyclicSequence sequence) := by
  intro h
  unfold checkGroup at h
  rcases bind_eq_error.1 h with h | ⟨d, -, h⟩
  · unfold Registry.resolve at h
    split at h <;> cases h
  · split at h <;> cases h

theorem answer_checkGroups_ne_cyclic {sequence : TypeName} : ∀ groups : List TypeName,
    answer (groups.forM fun g => (checkGroup r g : Expanding Unit)) ≠ .error (.cyclicSequence sequence)
  | [], h => by cases h
  | g :: groups, h => by
    have hsplit := (Steady.ofExcept (r := r) (checkGroup r g)).answer_bind
      fun _ => Steady.forM (fun g => .ofExcept (checkGroup r g)) groups
    rcases bind_eq_error.1 (hsplit.symm.trans h) with h | ⟨_, -, h⟩
    · exact absurd h checkGroup_ne_cyclic
    · exact answer_checkGroups_ne_cyclic groups h

/-- A request that succeeds has expanded each sequence that it lists. -/
theorem build_of_ofGroups {groups members : List TypeName} {g : TypeName} {o : Order}
    (h : answer (ofGroups r groups) = .ok o) (hg : g ∈ groups) (hdefault : g.isDefault = false)
    (hmembers : r.sequenceMembers? g = some members) :
    ∃ s, Sequence.build r g members = .ok s := by
  have hne : groups ≠ [] := List.ne_nil_of_mem hg
  have hall : groups.all (·.isDefault) = false := List.all_eq_false.2 ⟨g, hg, by simp [hdefault]⟩
  rw [answer_ofGroups hne hall] at h
  obtain ⟨-, -, h⟩ := bind_eq_ok.1 h
  obtain ⟨o₁, o₂, hrequest⟩ := exists_of_foldlM_ok h hg
  rw [answer_request_sequence hdefault hmembers] at hrequest
  cases hbuild : Sequence.build r g members with
  | ok s => exact ⟨s, rfl⟩
  | error e =>
    rw [hbuild] at hrequest
    cases hrequest

/-- A cycle that a request reports was met when a sequence that it lists was expanded. -/
theorem build_of_ofGroups_cyclic {groups : List TypeName} {sequence : TypeName}
    (h : answer (ofGroups r groups) = .error (.cyclicSequence sequence)) :
    ∃ g ∈ groups, g.isDefault = false ∧ ∃ members, r.sequenceMembers? g = some members ∧
      Sequence.build r g members = .error (.cyclicSequence sequence) := by
  by_cases hne : groups = []
  · subst hne
    cases h
  by_cases hall : groups.all (·.isDefault)
  · cases groups with
    | nil => exact absurd rfl hne
    | cons g groups =>
      rw [ofGroups, if_neg (by simp), if_pos hall] at h
      cases h
  rw [answer_ofGroups hne (Bool.eq_false_iff.2 hall)] at h
  rcases bind_eq_error.1 h with h | ⟨_, -, h⟩
  · exact absurd h (answer_checkGroups_ne_cyclic groups)
  · obtain ⟨g, hg, o, h⟩ := exists_of_foldlM_error h
    by_cases hplain : IsPlain r g
    · obtain ⟨name, hname⟩ := answer_request_plain hplain h
      cases hname
    · obtain ⟨hdefault, hmembers⟩ := not_or.1 hplain
      obtain ⟨members, hmembers⟩ := Option.ne_none_iff_exists'.1 hmembers
      have hdefault := Bool.eq_false_iff.2 hdefault
      rw [answer_request_sequence hdefault hmembers] at h
      refine ⟨g, hg, hdefault, members, hmembers, ?_⟩
      cases hbuild : Sequence.build r g members with
      | ok s => rw [hbuild] at h; cases h
      | error e => rw [hbuild] at h; cases h; rfl

/-- Whether what groups or sequences come to is a failure if one of them leads to a sequence that leads
back to itself, and reports only such a sequence to be cyclic. -/
structure FindsCycles (r : Registry) (start : List TypeName) (answer : Except Error Order) :
    Prop where
  complete : ∀ s ∈ start, ∀ x, Relation.ReflTransGen r.HasMember s x →
    Relation.TransGen r.HasMember x x → ∃ e, answer = .error e
  sound : ∀ x, answer = .error (.cyclicSequence x) →
    (∃ s ∈ start, Relation.ReflTransGen r.HasMember s x) ∧ Relation.TransGen r.HasMember x x

/-- Whether expansion comes to an end: sequences are nested no deeper than there are types, and no walk
over interfaces takes more steps than there are types and interfaces that these list. -/
structure ExpansionEnds (r : Registry) : Prop where
  sequences : ∀ name members, (Sequence.expandWithin r (r.size + 1) [name] name members).run =
    some (Sequence.expand r [name] name members)
  interfaces : ∀ name d, r.get? name = some d →
    r.collectWithin (r.unmetWeight []) [name] d.interfaces = some (r.collect [name] d.interfaces)

theorem expansionEnds (r : Registry) : ExpansionEnds r where
  sequences name members :=
    Sequence.run_expandWithin name members (Nat.lt_succ_of_le (List.length_filter_le _ _))
  interfaces name d h := by
    have hvisit : r.unmetWeight [name] + d.interfaces.length + 1 ≤ r.unmetWeight [] :=
      Registry.unmetWeight_visit h (List.not_mem_nil)
    exact Registry.collectWithin_eq (by omega)

theorem findsCycles_ofGroups (r : Registry) (groups : List TypeName) :
    FindsCycles r (groups.filter (!·.isDefault)) (answer (ofGroups r groups)) := by
  refine ⟨?_, ?_⟩
  · intro s hs x hreach hcycle
    obtain ⟨hs, hdefault⟩ := List.mem_filter.1 hs
    cases hanswer : answer (ofGroups r groups) with
    | error e => exact ⟨e, rfl⟩
    | ok o =>
      obtain ⟨members, hmembers⟩ := Registry.exists_members (.trans_right hreach hcycle)
      obtain ⟨sequence, hbuild⟩ := build_of_ofGroups hanswer hs (by simpa using hdefault) hmembers
      have hexpand := Sequence.build_eq_ok hbuild
      rcases Relation.ReflTransGen.cases_head hreach with rfl | ⟨y, ⟨members', hmembers', hy⟩, hreach⟩
      · exact absurd hcycle (Sequence.not_cyclic_of_mem hmembers (by simp) hexpand)
      · obtain rfl : members = members' := Option.some.inj (hmembers.symm.trans hmembers')
        exact absurd hcycle (Sequence.not_cyclic_of_expand hexpand hy hreach)
  · intro x hx
    obtain ⟨g, hg, hdefault, members, hmembers, hbuild⟩ := build_of_ofGroups_cyclic hx
    have hstep : ∀ y ∈ members, r.HasMember g y := fun y hy => ⟨members, hmembers, hy⟩
    obtain ⟨⟨y, hy, hreach⟩, hcycle⟩ := Sequence.cyclic_of_expand (fun p hp _ y hy => by
      rw [List.mem_singleton.1 hp]
      exact .single (hstep y hy)) (Sequence.expand_of_build_cyclic hbuild)
    exact ⟨⟨g, List.mem_filter.2 ⟨hg, by simp [hdefault]⟩, .head (hstep y hy) hreach⟩, hcycle⟩

theorem findsCycles_ofDefaultSequence {type : TypeName} (htype : type ∈ r.classes)
    (members : List TypeName) : FindsCycles r members (ofDefaultSequence r type members) := by
  refine ⟨?_, ?_⟩
  · intro s hs x hreach hcycle
    cases hanswer : ofDefaultSequence r type members with
    | error e => exact ⟨e, rfl⟩
    | ok o =>
      obtain ⟨sequence, hbuild, -⟩ := bind_eq_ok.1 hanswer
      exact absurd hcycle (Sequence.not_cyclic_of_expand (Sequence.build_eq_ok hbuild) hs hreach)
  · intro x hx
    rcases bind_eq_error.1 hx with hbuild | ⟨_, -, h⟩
    · refine Sequence.cyclic_of_expand ?_ (Sequence.expand_of_build_cyclic hbuild)
      intro p hp hsequence
      rw [List.mem_singleton.1 hp, Registry.sequenceMembers?_of_mem_classes htype] at hsequence
      cases hsequence
    · cases h

/-- Expansion ends; it fails for each sequence other than the default group that leads to one which
leads back to itself, whatever was requested before, and it reports no other as cyclic. So it does for
the redefined default sequence of a class. -/
theorem expansion_finds_cycles (r : Registry) : ExpansionEnds r ∧
    (∀ earlier groups, FindsCycles r (groups.filter (!·.isDefault))
      (((ofGroups r groups).run.run (rememberedAfter r [] earlier)).run).1) ∧
    ∀ type ∈ r.classes, ∀ members, FindsCycles r members (ofDefaultSequence r type members) := by
  refine ⟨expansionEnds r, ?_, fun type htype members => findsCycles_ofDefaultSequence htype members⟩
  intro earlier groups
  rw [(steady_ofGroups r groups).run_eq (coherent_rememberedAfter (SequenceCache.coherent_nil r))]
  exact findsCycles_ofGroups r groups

/-- A sequence that lists another one twice, and one whose member leads back to itself. -/
def entangled : Registry := [
  { name := ⟨"A"⟩, kind := .interface },
  { name := ⟨"Shared"⟩, kind := .interface, sequence := some [⟨"A"⟩] },
  { name := ⟨"Twice"⟩, kind := .interface, sequence := some [⟨"Shared"⟩, ⟨"Shared"⟩] },
  { name := ⟨"Loop"⟩, kind := .interface, sequence := some [⟨"A"⟩, ⟨"Back"⟩] },
  { name := ⟨"Back"⟩, kind := .interface, sequence := some [⟨"Twice"⟩, ⟨"Loop"⟩] },
  { name := ⟨"Outer"⟩, kind := .interface, sequence := some [⟨"Twice"⟩, ⟨"Loop"⟩] },
  { name := ⟨"Bean"⟩, kind := .concrete : TypeDefinition }
  ].foldl Registry.register .initial

/-- The cycle is found from outside, after other requests too and among the members that a class
lists. -/
theorem entangled_is_found :
    (∃ e, (((ofGroups entangled [⟨"Twice"⟩, ⟨"Outer"⟩]).run.run
      (rememberedAfter entangled [] [[⟨"Twice"⟩], [⟨"Outer"⟩]])).run).1 = .error e) ∧
    ⟨"Bean"⟩ ∈ entangled.classes ∧
    ∃ e, ofDefaultSequence entangled ⟨"Bean"⟩ [⟨"Shared"⟩, TypeName.defaultGroup, ⟨"Outer"⟩] =
      .error e := by
  have houter : entangled.HasMember ⟨"Outer"⟩ ⟨"Loop"⟩ :=
    ⟨[⟨"Twice"⟩, ⟨"Loop"⟩], by decide +kernel, by simp⟩
  have hloop : entangled.HasMember ⟨"Loop"⟩ ⟨"Back"⟩ :=
    ⟨[⟨"A"⟩, ⟨"Back"⟩], by decide +kernel, by simp⟩
  have hback : entangled.HasMember ⟨"Back"⟩ ⟨"Loop"⟩ :=
    ⟨[⟨"Twice"⟩, ⟨"Loop"⟩], by decide +kernel, by simp⟩
  have hbean : ⟨"Bean"⟩ ∈ entangled.classes := by decide +kernel
  obtain ⟨-, hrequests, hclasses⟩ := expansion_finds_cycles entangled
  refine ⟨?_, hbean, ?_⟩
  · exact (hrequests _ _).complete ⟨"Outer"⟩ (by decide +kernel) _ (.single houter)
      (.head hloop (.single hback))
  · exact (hclasses _ hbean _).complete ⟨"Outer"⟩ (by simp) _ (.single houter)
      (.head hloop (.single hback))

/-- The default group registered once more, as a sequence that lists itself. -/
def defaultInItself : Registry := [
  { name := TypeName.defaultGroup, kind := .interface,
    sequence := some [TypeName.defaultGroup] : TypeDefinition }
  ].foldl Registry.register .initial

/-- A request for the default group alone does not take up a sequence that is registered under its
name, so the cycle of that one is not found. -/
theorem default_group_is_not_taken_up :
    defaultInItself.HasMember TypeName.defaultGroup TypeName.defaultGroup ∧
      ¬ FindsCycles defaultInItself [TypeName.defaultGroup]
        (((ofGroups defaultInItself [TypeName.defaultGroup]).run.run []).run).1 := by
  have hself : defaultInItself.HasMember TypeName.defaultGroup TypeName.defaultGroup :=
    ⟨[TypeName.defaultGroup], by decide +kernel, by simp⟩
  refine ⟨hself, ?_⟩
  intro h
  obtain ⟨e, he⟩ := h.complete _ (by simp) _ .refl (.single hself)
  cases he

end Order

end ObjectValidation
