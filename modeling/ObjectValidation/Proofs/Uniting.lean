import ObjectValidation.Proofs.Joins
import ObjectValidation.Proofs.Merging
import ObjectValidation.Type.Draft
/-!
# United contracts

The declarations of a method or constructor put constraints on its returned value, on its parameters and
on all arguments together. The executable that is merged from them has each constraint once: for each that
some declaration puts in one place there is exactly one that is equal to it, for the same kind of contained
values, and there are no others (`Metadata.unites_declarations`). This asks for declarations that equal
themselves, as those of a member do that is built from such (`ExecutableDraft.isProper_define`).
-/

namespace ObjectValidation

/-! ### Constraints without repeats -/

/-- Where no two of some items fulfil a condition and one does, just one does. -/
theorem countP_eq_one {α : Type} {p : α → Bool} {xs : List α}
    (hfew : xs.Pairwise fun x y => ¬(p x ∧ p y)) (hsome : ∃ x ∈ xs, p x) : xs.countP p = 1 := by
  obtain ⟨x, hx, hp⟩ := hsome
  have hmem : x ∈ xs.filter p := List.mem_filter.2 ⟨hx, hp⟩
  have hfew := hfew.sublist (List.filter_sublist (p := p))
  rw [List.countP_eq_length_filter]
  cases hkept : xs.filter p with
  | nil => simp [hkept] at hmem
  | cons y ys =>
    cases ys with
    | nil => rfl
    | cons z zs =>
      rw [hkept] at hfew
      have hy : y ∈ xs.filter p := hkept ▸ by simp
      have hz : z ∈ xs.filter p := hkept ▸ by simp
      have hyz := (List.pairwise_cons.1 hfew).1 z (by simp)
      exact absurd ⟨(List.mem_filter.1 hy).2, (List.mem_filter.1 hz).2⟩ hyz

/-- Whether constraints are those of a declaration, each of them once up to equality. -/
structure Unites (bs : List BoundConstraint) (declared : Option ContainerKind → Constraint → Prop) :
    Prop where
  once : ∀ part k, declared part k → bs.countP (fun b => b.container = part && b.constraint.same k) = 1
  declared : ∀ b ∈ bs, declared b.container b.constraint

namespace Assembly

variable {r : Registry} {type : TypeName} {next : Nat} {os : List Occurrence} {location : Location}

/-- Of the constraints that are kept none equals a later one on the same kind of value. -/
theorem pairwise_withoutRepeats (bs : List BoundConstraint) : (withoutRepeats bs).Pairwise
    fun b b' => ¬(b.container = b'.container ∧ b.constraint.same b'.constraint) := by
  suffices hfold : ∀ bs kept : List BoundConstraint,
      (kept.Pairwise fun b b' => ¬(b.container = b'.container ∧ b.constraint.same b'.constraint)) →
      (bs.foldl (fun kept b =>
        if kept.any fun k => k.container = b.container && k.constraint.same b.constraint then kept
        else kept ++ [b]) kept).Pairwise
          fun b b' => ¬(b.container = b'.container ∧ b.constraint.same b'.constraint) from
    hfold bs [] .nil
  -- The fold keeps what is kept so far free of repeats, from any such list on.
  intro bs
  induction bs with
  | nil => exact fun _ => id
  | cons b bs ih =>
    intro kept hkept
    refine ih _ ?_
    dsimp only
    split
    · exact hkept
    · next hnew =>
      refine List.pairwise_append.2 ⟨hkept, List.pairwise_singleton _ _, fun k hk b' hb' hrepeats => ?_⟩
      obtain rfl := List.mem_singleton.1 hb'
      exact hnew (List.any_eq_true.2 ⟨k, hk, by simpa using hrepeats⟩)

/-- The constraints that are bound to a location unite what is declared there. -/
theorem unites_boundAt (hproper : ∀ o ∈ os, o.location = location → o.constraint.IsProper) :
    Unites (withoutRepeats ((bindAll type next os).filter (·.location = location))) fun part k =>
      ∃ o ∈ os, o.location = location ∧ o.container = part ∧ o.constraint = k := by
  have hfrom : ∀ b ∈ withoutRepeats ((bindAll type next os).filter (·.location = location)),
      b.toOccurrence ∈ os ∧ b.location = location := by
    intro b hb
    obtain ⟨hb, hlocation⟩ := List.mem_filter.1 (mem_withoutRepeats hb)
    obtain ⟨i, hi, rfl⟩ := List.mem_mapIdx.1 hb
    exact ⟨List.getElem_mem hi, by simpa using hlocation⟩
  refine ⟨fun part k hk => ?_, fun b hb => ?_⟩
  · obtain ⟨o, ho, hlocation, rfl, rfl⟩ := hk
    have hk := hproper o ho hlocation
    -- Two kept constraints that equal `k` equal each other, for which equality is turned around.
    refine countP_eq_one ((pairwise_withoutRepeats _).imp_of_mem fun {b b'} hb hb' hnew hboth => ?_) ?_
    · simp only [Bool.and_eq_true, decide_eq_true_eq] at hboth
      obtain ⟨⟨hpart, hsame⟩, hpart', hsame'⟩ := hboth
      have hb' := hproper _ (hfrom b' hb').1 (hfrom b' hb').2
      exact hnew ⟨hpart.trans hpart'.symm, Constraint.same_trans hsame (hb'.same_symm hsame')⟩
    · obtain ⟨b, hb, hpart, hsame⟩ :=
        (exists_mem_boundAt (· = o.container)).2 ⟨o, ho, hlocation, rfl, hk.same_refl⟩
      exact ⟨b, hb, by simpa using ⟨hpart, hsame⟩⟩
  · exact ⟨_, (hfrom b hb).1, (hfrom b hb).2, rfl, rfl⟩

end Assembly

/-! ### Executables -/

/-- Whether all that a declaration of an executable demands is declared properly. -/
def Executable.IsProper (d : Executable) : Prop :=
  ∀ location part k, d.DeclaresAt location part k → k.IsProper

/-- A member that is built from proper declarations is declared properly. -/
theorem ExecutableDraft.isProper_define {d : ExecutableDraft} {owner : TypeName} {e : Executable}
    (h : d.define owner = .ok e) (hparameters : ∀ p ∈ d.parameters, p.element.IsProper)
    (hreturned : d.returnValue.IsProper) (hcross : ∀ k ∈ d.crossParameter, k.IsProper) :
    e.IsProper := by
  unfold define at h
  simp only at h
  split at h
  · cases h
  split at h
  · cases h
  cases h
  intro location part k hk
  cases location with
  | parameter index =>
    obtain ⟨p, hp, hk⟩ := hk
    obtain ⟨q, hq, rfl⟩ := List.mem_mapIdx.1 (List.mem_of_getElem? hp)
    exact ((hparameters _ (List.getElem_mem hq)).located owner _).of_declares hk
  | crossParameter => exact Constraint.isProper_locatedAll hcross k hk.2
  | returnValue => exact (hreturned.located owner _).of_declares hk
  | _ => exact absurd hk id

namespace Assembly

variable {r : Registry} {type : TypeName} {next : Nat} {first : Executable} {others : List Executable}
  {e : ExecutableMetadata}

/-- A merged executable unites its declarations. -/
theorem unites_of_mergeExecutable (h : mergeExecutable r type next first others = .ok e)
    (hlength : ∀ d ∈ first :: others, d.parameters.length = first.parameters.length)
    (hproper : ∀ d ∈ first :: others, d.IsProper) (location : Location) :
    Unites (e.constraintsAt location) fun part k =>
      ∃ d ∈ first :: others, d.DeclaresAt location part k := by
  have hdeclares : ∀ part k, (∃ o ∈ executableOccurrences r first.parameters.length (first :: others),
      o.location = location ∧ o.container = part ∧ o.constraint = k) ↔
      ∃ d ∈ first :: others, d.DeclaresAt location part k := by
    intro part k
    constructor
    · rintro ⟨o, ho, rfl, rfl, rfl⟩
      obtain ⟨-, d, hd, -, -, hdeclares⟩ := mem_executableOccurrences_iff.1 ho
      exact ⟨d, hd, hdeclares⟩
    · rintro ⟨d, hd, hdeclares⟩
      refine ⟨⟨k, location, part, d.declaredBy, r.isInterface d.declaredBy⟩,
        mem_executableOccurrences_iff.2 ⟨?_, d, hd, rfl, rfl, hdeclares⟩, rfl, rfl, rfl⟩
      rintro index rfl
      obtain ⟨p, hp, -⟩ := hdeclares
      exact hlength d hd ▸ (List.getElem?_eq_some_iff.1 hp).1
  rw [constraintsAt_of_mergeExecutable h]
  simp only [← hdeclares]
  refine unites_boundAt fun o ho hlocation => ?_
  obtain ⟨d, hd, hdeclares⟩ := (hdeclares _ _).1 ⟨o, ho, hlocation, rfl, rfl⟩
  exact hproper d hd _ _ _ hdeclares

end Assembly

namespace Metadata

open Assembly

variable {r : Registry} {rules : List MethodRule} {type : TypeName} {m : Metadata}

/-- For each constraint that a declaration of a method, or that of a constructor, puts on the returned
value, on a parameter or on all arguments, the executable has exactly one there that is equal to it and is
for the same kind of contained values, if any; and it has no others. -/
theorem unites_declarations (h : assemble r rules type = .ok m) :
    (∀ e ∈ m.methods, (∀ d, r.Declares type d → d.signature = e.signature → d.IsProper) →
      ∀ location, Unites (e.constraintsAt location) fun part k =>
        ∃ d, (r.Declares type d ∧ d.signature = e.signature) ∧ d.DeclaresAt location part k) ∧
    ∀ e ∈ m.constructors, ∃ own c, r.get? type = some own ∧
      (own.constructors.filter (·.signature = e.signature)).getLast? = some c ∧
      (c.IsProper → ∀ location, Unites (e.constraintsAt location) (c.DeclaresAt location)) := by
  refine ⟨fun e he hproper location => ?_, fun e he => ?_⟩
  · obtain ⟨first, others, next, hmerge, -, hdeclared⟩ := mergeExecutable_of_mem_methods h he
    have hfirst := (hdeclared first).1 (by simp)
    have hunites := unites_of_mergeExecutable hmerge (fun d hd => Executable.length_eq_of_signature
      (((hdeclared d).1 hd).2.trans hfirst.2.symm)) (fun d hd =>
        hproper d ((hdeclared d).1 hd).1 ((hdeclared d).1 hd).2) location
    simpa only [hdeclared] using hunites
  · obtain ⟨own, c, next, hown, hc, hmerge⟩ := mergeExecutable_of_mem_constructors h he
    refine ⟨own, c, hown, hc, fun hproper location => ?_⟩
    simpa using unites_of_mergeExecutable hmerge (by simp) (by simpa) location

/-- A method that lists names, as a type declares it. -/
def listing (owner : TypeName) (constraints : List Constraint) (contained : Constraint) : Executable :=
  { kind := .method, name := "list", declaredBy := owner, parameters := [],
    returnType := some ⟨"List"⟩, crossParameter := [], isPrivate := false, isStatic := false,
    returnValue := {
      own := { constraints }, containers := [(.listElement, { constraints := [contained] })] } }

theorem isProper_listing {owner : TypeName} {constraints : List Constraint} {contained : Constraint}
    (h : ∀ k ∈ contained :: constraints, k.groups.Nodup ∧ k.attributes = [] ∧ k.composing = []) :
    (listing owner constraints contained).IsProper := by
  intro location part k hk
  have hmem : k ∈ contained :: constraints := by
    cases location with
    | returnValue =>
      cases part with
      | none => exact List.mem_cons_of_mem _ hk
      | some kind =>
        obtain ⟨f, hf, hk⟩ := hk
        simp_all [listing]
    | _ => simp [Executable.DeclaresAt, listing] at hk
  obtain ⟨hgroups, hattributes, hparts⟩ := h k hmem
  exact .intro hgroups (by simp [hattributes]) (by simp [hparts])

/-- A list that is there for some groups. -/
def present (groups : List TypeName) : Constraint := { kind := "NotNull", groups }

/-- An interface that demands a list for two groups, and names that are there. -/
def guests : TypeDefinition where
  name := ⟨"Guests"⟩
  kind := .interface
  methods := [listing ⟨"Guests"⟩ [present [⟨"Basic"⟩, ⟨"Full"⟩]] { kind := "NotNull" }]

/-- A class below it that demands the list twice, once with the groups the other way round, and names that
are not blank. -/
def book : TypeDefinition where
  name := ⟨"Book"⟩
  kind := .concrete
  interfaces := [⟨"Guests"⟩]
  methods := [listing ⟨"Book"⟩ [present [⟨"Full"⟩, ⟨"Basic"⟩], present [⟨"Basic"⟩, ⟨"Full"⟩]]
    { kind := "NotBlank" }]

def guestBook : Registry := [guests, book].foldl Registry.register .initial

/-- The book has the shared demand once, and both demands on names. -/
theorem unites_declarations_guestBook :
    ∃ m, assemble guestBook (MethodRule.active {}) ⟨"Book"⟩ = .ok m ∧ ∃ e ∈ m.methods,
      e.returnConstraints.length = 3 ∧
      e.returnConstraints.countP (fun b =>
        b.container = none && b.constraint.same (present [⟨"Basic"⟩, ⟨"Full"⟩])) = 1 ∧
      e.returnConstraints.countP (fun b =>
        b.container = some .listElement && b.constraint.same { kind := "NotNull" }) = 1 := by
  let m := (assemble guestBook (MethodRule.active {}) ⟨"Book"⟩).toOption.get (by decide +kernel)
  have hm : assemble guestBook (MethodRule.active {}) ⟨"Book"⟩ = .ok m :=
    toOption_eq_some (Option.some_get _).symm
  have hlist : m.methods.any (fun e => e.signature = .of "list" [] && e.returnConstraints.length = 3) := by
    decide +kernel
  obtain ⟨e, he, hlist⟩ := List.any_eq_true.1 hlist
  simp only [Bool.and_eq_true, decide_eq_true_eq] at hlist
  have hhierarchy : guestBook.hierarchy ⟨"Book"⟩ = .ok [⟨"Book"⟩, ⟨"Guests"⟩] :=
    toOption_eq_some (by decide +kernel)
  have hdeclared : ∀ d, guestBook.Declares ⟨"Book"⟩ d → d.IsProper := by
    rintro d ⟨names, hnames, name, hname, t, ht, hd⟩
    obtain rfl := Except.ok.inj (hhierarchy.symm.trans hnames)
    have hbook : guestBook.get? ⟨"Book"⟩ = some book := rfl
    have hguests : guestBook.get? ⟨"Guests"⟩ = some guests := rfl
    have hd : d ∈ book.methods ∨ d ∈ guests.methods := by
      rcases List.mem_pair.1 hname with rfl | rfl
      · obtain rfl := Option.some.inj (hbook.symm.trans ht)
        exact .inl (List.mem_filter.1 hd).1
      · obtain rfl := Option.some.inj (hguests.symm.trans ht)
        exact .inr (List.mem_filter.1 hd).1
    rcases hd with hd | hd
    · obtain rfl := List.mem_singleton.1 hd
      exact isProper_listing (by simp [present, TypeName.defaultGroup])
    · obtain rfl := List.mem_singleton.1 hd
      exact isProper_listing (by simp [present])
  have hunites := (unites_declarations hm).1 e he (fun d hd _ => hdeclared d hd) .returnValue
  have hguests : guestBook.Declares ⟨"Book"⟩
      (listing ⟨"Guests"⟩ [present [⟨"Basic"⟩, ⟨"Full"⟩]] { kind := "NotNull" }) :=
    ⟨_, hhierarchy, ⟨"Guests"⟩, by simp, guests, rfl, by simp [memberMethods, guests, listing]⟩
  refine ⟨m, hm, e, he, hlist.2, hunites.once none _ ?_, hunites.once (some .listElement) _ ?_⟩
  · exact ⟨_, ⟨hguests, hlist.1.symm⟩, by simp [Executable.DeclaresAt, Element.Declares, listing]⟩
  · exact ⟨_, ⟨hguests, hlist.1.symm⟩, by simp [Executable.DeclaresAt, Element.Declares, listing]⟩

end Metadata

end ObjectValidation
