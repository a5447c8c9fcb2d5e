import ObjectValidation.Proofs.Closure
import ObjectValidation.Proofs.Operations
/-!
# Where a redefined default group has to fit

Before an order runs on an object, the redefined default group of the type of the object is fitted into
the sequences of the order (`fits_of_requireFit`). So what an operation on an object, a property or a
value runs in place of the default group does fit, if it is the type itself that redefines it
(`perform_fits`). A type above it is not asked, nor is the order fitted that runs on an executable.
-/

namespace ObjectValidation

open Run

/-- The groups that an operation is asked for. -/
def Operation.groups : Operation → List TypeName
  | .object _ gs => gs
  | .property _ _ gs => gs
  | .value _ _ _ gs => gs
  | .arguments _ _ _ gs => gs
  | .returned _ _ _ gs => gs
  | .constructorArguments _ _ _ gs => gs
  | .constructed _ _ _ gs => gs

namespace Call

variable {c : Call}

/-! ### What the default group lists -/

/-- The groups that stand for the default group of an object, as its type lists them or the provider of
the type chooses them. -/
def listedFor (c : Call) (object : Option ObjectId) (m : Metadata) : Except Error (List TypeName) :=
  match m.default with
  | .ordinary => .ok [TypeName.defaultGroup]
  | .listed groups _ => .ok groups
  | .provided provider => redefinition m.type (provider.groups c.store m.type object)

theorem listedFor_of_defaultGroups {object : Option ObjectId} {m : Metadata}
    {groups : List TypeName} {p q : Progress}
    (h : (c.defaultGroups object m).exec p = (.ok groups, q)) :
    c.listedFor object m = .ok groups := by
  rw [Call.defaultGroups] at h
  rw [listedFor]
  cases hd : m.default with
  | ordinary =>
    rw [hd] at h
    cases h
    rfl
  | listed listed order =>
    rw [hd] at h
    cases h
    rfl
  | provided provider =>
    rw [hd] at h
    obtain ⟨_, r, -, h⟩ := exec_bind_ok.1 h
    exact (exec_ofExcept_eq_ok.1 h).1

/-- What is worked out first of all in a call lists what the type or its provider does. -/
theorem listedFor_of_defaultMeaning {object : Option ObjectId} {m : Metadata} {d : DefaultMeaning}
    {p q : Progress} (hp : p.defaults = [])
    (h : (c.defaultMeaning object m).exec p = (.ok d, q)) :
    c.listedFor object m = .ok d.groups := by
  unfold Call.defaultMeaning at h
  obtain ⟨_, r, hget, h⟩ := exec_bind_ok.1 h
  cases hget
  rw [hp, List.lookup_nil] at h
  obtain ⟨groups, r, hgroups, h⟩ := exec_bind_ok.1 h
  obtain ⟨order, r', -, h⟩ := exec_bind_ok.1 h
  obtain ⟨_, r'', -, h⟩ := exec_bind_ok.1 h
  cases h
  exact listedFor_of_defaultGroups hgroups

/-- The check of a subject passes if the default group that its type redefines fits into the order. -/
theorem fits_of_requireFit {s : Subject} {o : Order} {p q : Progress} (hp : p.defaults = [])
    (hr : s.metadata.redefinesDefault) (h : (c.requireFit s o).exec p = (.ok (), q)) :
    ∃ members, c.listedFor s.object s.metadata = .ok members ∧ o.checkDefault members = .ok () := by
  unfold Call.requireFit at h
  rw [if_pos hr] at h
  obtain ⟨d, r, hd, h⟩ := exec_bind_ok.1 h
  exact ⟨d.groups, listedFor_of_defaultMeaning hp hd, (exec_ofExcept_eq_ok.1 h).1⟩

theorem requireFit_of_findings {s : Subject} {o : Order} {vs : List Violation} {p q : Progress}
    (h : (c.findings s o).exec p = (.ok vs, q)) :
    ∃ r, (c.requireFit s o).exec p = (.ok (), r) ∧
      (c.runOrder o (c.runGroup s) (c.runCascades c.visit s)).exec r = (.ok (), q) := by
  obtain ⟨_, q', hsubject, h⟩ := exec_bind_ok.1 h
  obtain ⟨_, r, hfit, hsubject⟩ := exec_bind_ok.1 hsubject
  cases h
  exact ⟨r, hfit, hsubject⟩

theorem fits_of_findings {s : Subject} {o : Order} {vs : List Violation} {p q : Progress}
    (hp : p.defaults = []) (hr : s.metadata.redefinesDefault)
    (h : (c.findings s o).exec p = (.ok vs, q)) :
    ∃ members, c.listedFor s.object s.metadata = .ok members ∧ o.checkDefault members = .ok () := by
  obtain ⟨r, hfit, -⟩ := requireFit_of_findings h
  exact fits_of_requireFit hp hr hfit

/-! ### Where operations start -/

/-- Whether a call has done nothing yet but look up metadata. -/
structure Idle (c : Call) (sequences : SequenceCache) (p : Progress) : Prop where
  coherent : c.Coherent p
  defaults : p.defaults = []
  journal : p.journal = []
  sequences : p.memory.sequences = sequences

variable {sequences : SequenceCache}

theorem idle_metadataOf (type : TypeName) :
    Meets (c.metadataOf type) (c.Idle sequences) (c.Assembles type) AnyHalt :=
  meets_metadataOf (fun _ h => h.coherent) (fun _ _ _ => trivial)
    (fun _ _ hcache h => ⟨hcache, h.defaults, h.journal, h.sequences⟩) type

theorem idle_requireProperty (m : Metadata) (type : TypeName) (name : String) :
    Meets (Call.requireProperty m type name) (c.Idle sequences) Any AnyHalt :=
  meets_requireProperty (fun _ _ _ => trivial) m type name

theorem idle_navigate (text : String) (steps : List (Option String × Option Position))
    (object : ObjectId) (path : Path) :
    Meets (c.navigate text object path steps) (c.Idle sequences) Any AnyHalt :=
  meets_navigate (fun _ _ _ => trivial) (fun type => (idle_metadataOf type).any) text steps object path

/-- A subject of which one property counts begins nothing but itself. -/
theorem began_of_findings {s : Subject} {type : TypeName} (hm : c.Assembles type s.metadata)
    (honly : s.only.isSome) {o : Order} {vs : List Violation} {p q : Progress}
    (hdefaults : p.defaults = []) (hjournal : p.journal = []) (hcoherent : c.Coherent p)
    (h : (c.findings s o).exec p = (.ok vs, q)) {object : Option ObjectId} {path : Path}
    {group : TypeName} (hbegan : .began object path group ∈ q.journal) :
    object = s.object ∧ path = s.path := by
  let Only (q : Progress) : Prop := ∀ object path group, .began object path group ∈ q.journal →
    object = s.object ∧ path = s.path
  have hp : c.Remembers p := ⟨hcoherent, by simp [hdefaults]⟩
  have honlyp : Only p := by
    intro object path group hmem
    rw [hjournal] at hmem
    cases hmem
  obtain ⟨r, hfit, hrun⟩ := requireFit_of_findings h
  have hr : c.Remembers r := (((follows_cascades p).requireFit hm o).kept hfit (.refl hp)).remembers
  have honlyr : Only r := by
    intro object path group hmem
    exact honlyp object path group (((quiet_requireFit s o).kept hfit (.refl p)).began _ _ _ hmem)
  have hgroup (g : TypeName) :
      Meets (c.runGroup s g) (fun q => c.Remembers q ∧ Only q) Any AnyHalt := by
    refine .of_ok fun q _ q' ⟨hq, hOnly⟩ hexec => ?_
    refine ⟨⟨((follows_runGroup s g q).kept hexec (.refl hq)).remembers, ?_⟩, trivial⟩
    intro object path group hmem
    rcases (enters_runGroup hq hexec).began object path group hmem with hmem | ⟨ho, hpath, -⟩
    · exact hOnly object path group hmem
    · exact ⟨ho, hpath⟩
  have hcascades (g : TypeName) :
      Meets (c.runCascades c.visit s g) (fun q => c.Remembers q ∧ Only q) Any AnyHalt := by
    unfold Call.runCascades
    rw [if_pos honly]
    exact .unit
  exact ((meets_runOrder hgroup hcascades).kept hrun ⟨hr, honlyr⟩).2 object path group hbegan

/-- The order that groups come to, given the sequences that are remembered. -/
def orderFrom (c : Call) (sequences : SequenceCache) (groups : List TypeName) : Except Error Order :=
  (((Order.ofGroups c.registry (if groups.isEmpty then [TypeName.defaultGroup] else groups)).run.run
    sequences).run).1

theorem idle_orderOf {groups : List TypeName} {o o' : Order} {p q : Progress}
    (ho : c.orderFrom sequences groups = .ok o) (hp : c.Idle sequences p)
    (h : (c.orderOf groups).exec p = (.ok o', q)) :
    o' = o ∧ q.defaults = [] ∧ q.journal = [] ∧ c.Coherent q := by
  obtain ⟨cache, hrun⟩ := exec_expanding_ok h
  have hkept : Meets (c.orderOf groups) (fun q => q.defaults = [] ∧ q.journal = [] ∧ c.Coherent q) Any
      AnyHalt := meets_expanding (fun _ _ _ => trivial) (fun _ _ => id) _
  rw [hp.sequences] at hrun
  exact ⟨Except.ok.inj ((congrArg Prod.fst hrun).symm.trans ho),
    hkept.kept h ⟨hp.defaults, hp.journal, hp.coherent⟩⟩

/-- What an operation starts at has been fitted, if its default group has begun. -/
theorem fits_of_body {op : Operation} {s : Subject} {o : Order} {vs : List Violation}
    {p q : Progress} (hp : c.Idle sequences p) (hs : op.StartsAt c s)
    (ho : c.orderFrom sequences op.groups = .ok o) (hr : s.metadata.redefinesDefault)
    (h : (op.body c).exec p = (.ok vs, q))
    (hbegan : .began s.object s.path TypeName.defaultGroup ∈ q.journal) :
    ∃ members, c.listedFor s.object s.metadata = .ok members ∧ o.checkDefault members = .ok () := by
  cases hs with
  | @object x gs m hm =>
    obtain ⟨m', p₁, hmeta, h⟩ := exec_bind_ok.1 h
    obtain ⟨o', p₂, horder, h⟩ := exec_bind_ok.1 h
    obtain ⟨rfl, hdefaults, -⟩ := idle_orderOf ho ((idle_metadataOf _).kept hmeta hp) horder
    obtain rfl := ((idle_metadataOf _).answer hmeta hp).unique hm
    exact fits_of_findings hdefaults hr h
  | @value type name w gs m hm =>
    obtain ⟨m', p₁, hmeta, h⟩ := exec_bind_ok.1 h
    obtain ⟨_, p₂, hproperty, h⟩ := exec_bind_ok.1 h
    obtain ⟨o', p₃, horder, h⟩ := exec_bind_ok.1 h
    have hp₁ := (idle_metadataOf _).kept hmeta hp
    obtain ⟨rfl, hdefaults, -⟩ :=
      idle_orderOf ho ((idle_requireProperty _ _ _).kept hproperty hp₁) horder
    obtain rfl := ((idle_metadataOf _).answer hmeta hp).unique hm
    exact fits_of_findings hdefaults hr h
  | @property root x text name gs read path m hread hname hm =>
    -- The path decides which object the operation starts at, and that one alone is begun.
    change (c.validateProperty root text gs).exec p = _ at h
    unfold Call.validateProperty at h
    simp only [hread, hname] at h
    obtain ⟨reached, p₁, hnavigate, h⟩ := exec_bind_ok.1 h
    have hp₁ := (idle_navigate _ _ _ _).kept hnavigate hp
    cases reached with
    | none =>
      cases h
      rw [hp₁.journal] at hbegan
      cases hbegan
    | some reached =>
      obtain ⟨m', p₂, hmeta, h⟩ := exec_bind_ok.1 h
      obtain ⟨_, p₃, hproperty, h⟩ := exec_bind_ok.1 h
      obtain ⟨o', p₄, horder, h⟩ := exec_bind_ok.1 h
      have hp₂ := (idle_metadataOf _).kept hmeta hp₁
      have hm' := (idle_metadataOf _).answer hmeta hp₁
      obtain ⟨rfl, hdefaults, hjournal, hcoherent⟩ :=
        idle_orderOf ho ((idle_requireProperty _ _ _).kept hproperty hp₂) horder
      obtain ⟨hx, hpath⟩ := began_of_findings hm' rfl hdefaults hjournal hcoherent h hbegan
      obtain rfl : x = reached.1 := Option.some.inj hx
      obtain rfl : path = reached.2 := hpath
      obtain rfl := hm'.unique hm
      exact fits_of_findings hdefaults hr h

end Call

namespace Validator

open Call

variable {v : Validator}

/-- An operation on an object, a property or a value that comes to an end with the default group of
what it starts at begun has had the default group fitted into the sequences asked for, if the type of
what it starts at redefines it. -/
theorem perform_fits (hv : v.Coherent) {op : Operation} {s : Subject} {o : Order}
    {vs : List Violation} (hs : op.StartsAt (op.call v) s)
    (ho : (op.call v).orderFrom v.memory.sequences op.groups = .ok o)
    (hr : s.metadata.redefinesDefault) (hok : (v.perform op).answer = .ok vs)
    (hbegan : .began s.object s.path TypeName.defaultGroup ∈ (v.perform op).journal) :
    ∃ members, (op.call v).listedFor s.object s.metadata = .ok members ∧
      o.checkDefault members = .ok () := by
  have hidle : (op.call v).Idle v.memory.sequences ((op.call v).start v.memory) := by
    refine ⟨?_, rfl, rfl, rfl⟩
    cases op <;> exact hv
  rw [perform_eq, run_eq] at hbegan hok
  exact fits_of_body hidle hs ho hr (Prod.ext hok rfl) hbegan

/-- Objects of a class that redefines its default group, and of a class below it. -/
def flanked : Validator where
  registry := [
    { name := ⟨"A"⟩, kind := .interface },
    { name := ⟨"Front"⟩, kind := .interface, sequence := some [⟨"A"⟩, TypeName.defaultGroup] },
    { name := ⟨"Behind"⟩, kind := .interface, sequence := some [TypeName.defaultGroup, ⟨"A"⟩] },
    { name := ⟨"Super"⟩, kind := .concrete, sequence := some [⟨"A"⟩, ⟨"Super"⟩], methods := [
      { kind := .method
        name := "call"
        declaredBy := ⟨"Super"⟩
        parameters := [
          ⟨"a", ⟨"string"⟩, { own := { constraints := [{ kind := "NotNull", groups := [⟨"A"⟩] }] } }⟩]
        returnType := none
        returnValue := {}
        crossParameter := []
        isPrivate := false
        isStatic := false }] },
    { name := ⟨"Sub"⟩, kind := .concrete, superclass := some ⟨"Super"⟩ : TypeDefinition }
    ].foldl Registry.register .initial
  evaluators := Standard.evaluators
  config := {}
  store := ⟨[(⟨"t"⟩, ⟨⟨"Super"⟩, []⟩), (⟨"s"⟩, ⟨⟨"Sub"⟩, []⟩)]⟩
  memory := {}

/-- The metadata of the classes. -/
def flankedMetadata : Metadata × Metadata :=
  let assemble name := Metadata.assemble flanked.registry flanked.config.methodRules ⟨name⟩
  ((assemble "Super").toOption.get (by decide +kernel),
    (assemble "Sub").toOption.get (by decide +kernel))

/-- A sequence with the first group of the redefined default group right before the default group. -/
def flanked.front : Order where
  sequences := [
    { name := ⟨"Front"⟩
      groups := [⟨"A"⟩, TypeName.defaultGroup]
      positions := [[Group.plain ⟨"A"⟩], [Group.plain TypeName.defaultGroup]] }]

/-- A sequence with that group behind the default group. -/
def flanked.behind : Order where
  sequences := [
    { name := ⟨"Behind"⟩
      groups := [TypeName.defaultGroup, ⟨"A"⟩]
      positions := [[Group.plain TypeName.defaultGroup], [Group.plain ⟨"A"⟩]] }]

/-- An object is validated for the sequence into which the default group of its type fits. -/
theorem perform_fits_front :
    let op := Operation.object ⟨"t"⟩ [⟨"Front"⟩]
    let c := op.call flanked
    let s : Subject := { object := some ⟨"t"⟩, metadata := flankedMetadata.1, path := .root }
    op.StartsAt c s ∧ s.metadata.redefinesDefault ∧
      ∃ members, c.listedFor s.object s.metadata = .ok members ∧
        flanked.front.checkDefault members = .ok () := by
  intro op c s
  have hm : c.Assembles ⟨"Super"⟩ flankedMetadata.1 := toOption_eq_some (Option.some_get _).symm
  have hs : op.StartsAt c s := .object hm
  have hr : s.metadata.redefinesDefault = true := by decide +kernel
  have ho : c.orderFrom flanked.memory.sequences op.groups = .ok flanked.front :=
    toOption_eq_some (by decide +kernel)
  have hsome : ((flanked.perform op).answer.toOption.map (·.length)) = some 0 := by decide +kernel
  obtain ⟨vs, hvs, -⟩ := Option.map_eq_some_iff.1 hsome
  have hbegins : (flanked.perform op).journal.any
      (Event.isBeginAt ⟨"t"⟩ s.path TypeName.defaultGroup) = true := by decide +kernel
  obtain ⟨e, he, hbegin⟩ := List.any_eq_true.1 hbegins
  have hcoherent : flanked.Coherent := MetadataCache.coherent_nil _ _
  exact ⟨hs, hr, perform_fits hcoherent hs ho hr (toOption_eq_some hvs)
    (Event.isBeginAt_iff.1 hbegin ▸ he)⟩

/-- The arguments of a method of the class, and an object of the class below, are validated for the
sequence into which the default group does not fit, while an object of the class itself is not. -/
theorem unfit_default_runs :
    flankedMetadata.1.redefinesDefault ∧ flankedMetadata.2.redefinesDefault = false ∧
    flankedMetadata.2.hierarchy = [⟨"Sub"⟩, ⟨"Super"⟩] ∧
    (flanked.call none ⟨"Super"⟩).listedFor (some ⟨"t"⟩) flankedMetadata.1 =
      .ok [⟨"A"⟩, TypeName.defaultGroup] ∧
    (flanked.call none ⟨"Super"⟩).listedFor (some ⟨"s"⟩) flankedMetadata.1 =
      .ok [⟨"A"⟩, TypeName.defaultGroup] ∧
    (flanked.call none ⟨"Super"⟩).orderFrom [] [⟨"Behind"⟩] = .ok flanked.behind ∧
    (flanked.behind.checkDefault [⟨"A"⟩, TypeName.defaultGroup]).toOption = none ∧
    ((flanked.perform (.arguments ⟨"t"⟩ ⟨"call", [⟨"string"⟩]⟩ [.str ""] [⟨"Behind"⟩])).answer
      ).toOption.map (·.length) = some 0 ∧
    ((flanked.perform (.object ⟨"s"⟩ [⟨"Behind"⟩])).answer).toOption.map (·.length) = some 0 ∧
    (flanked.perform (.object ⟨"t"⟩ [⟨"Behind"⟩])).answer.toOption.isNone := by
  exact ⟨by decide +kernel, by decide +kernel, by decide +kernel,
    toOption_eq_some (by decide +kernel), toOption_eq_some (by decide +kernel),
    toOption_eq_some (by decide +kernel), by decide +kernel, by decide +kernel, by decide +kernel,
    by decide +kernel⟩

end Validator

end ObjectValidation
