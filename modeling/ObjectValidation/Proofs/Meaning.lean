import ObjectValidation.Proofs.Findings
import ObjectValidation.Proofs.Registries
import ObjectValidation.Proofs.Requests
/-!
# What a cascading validation means

Where nothing is tracked, a validation is meant for the objects that references lead to from the root,
at the paths that they lead along and for the groups that they convert to (`Meant`). If no object leads
back to itself, a validation begins there and nowhere else, and what it finds is what the walks there
find, each made alone in a call of its own (`validate_meaning`).

That all is begun is an induction on the depth of the cascades: each object that is under way leads to
the target of a step, so no step stops at the chain (`cascade_done`). That it finds no more and no less
is a matter of single walks.
-/

namespace ObjectValidation

open Run

/-- Whether all conversions of the properties of a type are to plain groups. -/
def Registry.WithPlainConversions (r : Registry) : Prop :=
  r.ConvertsBy fun x => Order.IsPlain r x.target

instance (r : Registry) : Decidable r.WithPlainConversions :=
  inferInstanceAs (Decidable (r.ConvertsBy _))

namespace Call

variable {c : Call}

/-- The groups that a cascade goes on for: all that its group stands for if it came about by
conversion, else the group alone. -/
def groupsOf (c : Call) (step : CascadeStep) : List TypeName :=
  if step.group = step.source then [step.group] else Order.requested c.registry [step.group]

/-- Where and for which groups the validation of a root is meant to check: at the root for the groups
of the request and, from there on, along each reference for the groups that a cascade goes on for. -/
inductive Meant (c : Call) (root : ObjectId) (gs : List TypeName) :
    ObjectId → Path → TypeName → Prop
  | root {group : TypeName} : group ∈ Order.requested c.registry gs →
    Meant c root gs root .root group
  | step {x : ObjectId} {path : Path} {group group' : TypeName} {r : Reference} :
    Meant c root gs x path group → r ∈ c.references x → group' ∈ c.groupsOf (r.step path group) →
    Meant c root gs r.target (r.place path) group'

/-- Whether references lead from the first object to the second one, by one reference at least. -/
def Leads (c : Call) (x y : ObjectId) : Prop := ∃ r ∈ c.references x, c.Reaches r.target y

theorem Leads.step {x y : ObjectId} (h : c.Leads x y) {r : Reference} (hr : r ∈ c.references y) :
    c.Leads x r.target := h.imp fun _ h => ⟨h.1, h.2.step hr⟩

theorem leads_of_mem {x : ObjectId} {r : Reference} (hr : r ∈ c.references x) :
    c.Leads x r.target := ⟨r, hr, .root⟩

variable {root : ObjectId} {gs : List TypeName} {o p q : Progress}

theorem Meant.reaches {x : ObjectId} {path : Path} {group : TypeName}
    (h : c.Meant root gs x path group) : c.Reaches root x := by
  induction h with
  | root => exact .root
  | step _ hr _ ih => exact ih.step hr

/-- Objects that are ranked so that references lead down never lead back to themselves. -/
theorem not_leads_of_rank {xs : List ObjectId} (rank : ObjectId → Nat)
    (hxs : ∀ y ∈ xs, ∀ r ∈ c.references y, r.target ∈ xs ∧ rank r.target < rank y) {x : ObjectId}
    (hx : x ∈ xs) : ¬ c.Leads x x := by
  have hdown : ∀ {y z}, c.Reaches y z → y ∈ xs → z ∈ xs ∧ rank z ≤ rank y := by
    intro y z h hy
    induction h with
    | root => exact ⟨hy, Nat.le_refl _⟩
    | step _ hr ih =>
      obtain ⟨hmem, hlt⟩ := hxs _ ih.1 _ hr
      exact ⟨hmem, Nat.le_of_lt (Nat.lt_of_lt_of_le hlt ih.2)⟩
  rintro ⟨r, hr, hback⟩
  obtain ⟨hmem, hlt⟩ := hxs x hx r hr
  exact absurd (hdown hback hmem).2 (Nat.not_le.2 hlt)

/-! ### The groups of a step -/

/-- A step that converts its group to a plain one, if at all. -/
def GoesPlain (c : Call) (step : CascadeStep) : Prop :=
  step.group = step.source ∨ Order.IsPlain c.registry step.group

theorem goesPlain_of_mem_references (h : c.registry.WithPlainConversions) {x : ObjectId}
    {r : Reference} (hr : r ∈ c.references x) (path : Path) (group : TypeName) :
    c.GoesPlain (r.step path group) := by
  rcases r.facet.converted_cases group with hkept | ⟨y, hy, htarget⟩
  · exact .inl hkept
  · refine .inr ?_
    change Order.IsPlain c.registry (r.facet.converted group)
    rw [htarget]
    exact convertsBy_of_mem_references h hr y hy

/-- The order of a step is for the groups that the cascade goes on for, and no sequences. -/
theorem expanding_ofGroup_names {step : CascadeStep} {order : Order} (hstep : c.GoesPlain step)
    (h : (Run.expanding (Order.ofGroup c.registry step.group (step.group ≠ step.source))).exec p =
      (.ok order, q)) : order.sequences = [] ∧ order.names = c.groupsOf step := by
  unfold groupsOf
  by_cases hsame : step.group = step.source
  · have hkept : decide (step.group ≠ step.source) = false := by simp [hsame]
    rw [hkept] at h
    rw [expanding_ofGroup_ok h, if_pos hsame]
    exact ⟨rfl, rfl⟩
  · have hconverted : decide (step.group ≠ step.source) = true := by simp [hsame]
    rw [hconverted] at h
    rw [if_neg hsame]
    obtain ⟨cache, h⟩ := exec_expanding_ok h
    unfold Order.ofGroup at h
    split at h
    · next hg =>
      obtain hg : step.group = TypeName.defaultGroup := by simpa [TypeName.isDefault] using hg
      cases h
      rw [hg]
      exact ⟨rfl, rfl⟩
    · have hplain : ∀ g ∈ [step.group], Order.IsPlain c.registry g := by
        simpa using hstep.resolve_left hsame
      obtain ⟨hsequences, -, hnames⟩ := Order.ofGroups_requested hplain h
      exact ⟨hsequences, hnames⟩

/-! ### Where a validation has begun -/

/-- Whether a step has been followed: the validation of its target has begun for all groups that the
cascade goes on for. -/
def Followed (c : Call) (step : CascadeStep) (q : Progress) : Prop :=
  ∀ group ∈ c.groupsOf step, .began (some step.target) step.path group ∈ q.journal

theorem Followed.mono {step : CascadeStep} {q r : Progress} (h : c.Followed step q)
    (hqr : c.Follows q r) : c.Followed step r :=
  fun group hgroup => hqr.extends.journal.subset (h group hgroup)

/-- Whether what has begun at a path is meant and done: the walk has been made, and all references of
the object have been followed. -/
def Done (c : Call) (root : ObjectId) (gs : List TypeName) (o q : Progress)
    (object : Option ObjectId) (path : Path) (group : TypeName) : Prop :=
  ∃ s x, c.Knows s ∧ s.object = some x ∧ object = some x ∧ s.path = path ∧
    c.Meant root gs x path group ∧ c.Walked o q s group ∧
    ∀ r ∈ c.references x, c.Followed (r.step path group) q

theorem done_stays : Note.Stays c (c.Done root gs o) := by
  rintro q q' object path group hqq' ⟨s, x, hs, hx, ho, hpath, hmeant, hwalked, hfollowed⟩
  exact ⟨s, x, hs, hx, ho, hpath, hmeant, hwalked.mono hqq', fun r hr => (hfollowed r hr).mono hqq'⟩

section

variable (htrack : c.config.trackProcessed = false) (hplain : c.registry.WithPlainConversions)
  (hacyclic : ∀ x, c.Reaches root x → ¬ c.Leads x x)

include hplain in
/-- The validation of a subject for groups leaves all done that it begins, if its cascades do. -/
theorem runSubject_done {visit : CascadeStep → Run Unit}
    (hvisit : ∀ step p q, c.Follows o p → c.GoesPlain step →
      (∀ g ∈ c.groupsOf step, c.Meant root gs step.target step.path g) →
      c.Reaches root step.target → (∀ y ∈ p.chain, c.Leads y step.target) →
      (visit step).exec p = (.ok (), q) → c.stops q = false →
      c.Advances (c.Done root gs o) p q ∧ c.Followed step q)
    {s : Subject} (hs : c.Knows s) {x : ObjectId} (hx : s.object = some x) {order : Order}
    (hsequences : order.sequences = [])
    (hmeant : ∀ g ∈ order.names, c.Meant root gs x s.path g) (hreaches : c.Reaches root x)
    (hchain : ∀ y ∈ p.chain, y = x ∨ c.Leads y x) (hp : c.Follows o p)
    (h : (c.runSubject visit s order).exec p = (.ok (), q)) (hq : c.stops q = false) :
    c.Advances (c.Done root gs o) p q ∧
      ∀ g ∈ order.groups, .began (some x) s.path g.name ∈ q.journal := by
  have hnames : ∀ g ∈ order.groups, c.Meant root gs x s.path g.name := fun g hg =>
    hmeant g.name (List.mem_map_of_mem hg)
  refine runSubject_advances (P := fun q => c.Follows o q ∧ q.chain = p.chain) (V := c.Followed)
    done_stays (fun q r hq hqr => ⟨hq.1.trans hqr.follows, hqr.chain.trans hq.2⟩)
    (fun _ hq => hq.1.remembers) (fun _ _ _ hv hqr => hv.mono hqr) hs hx hsequences hp
    (fun q hoq hpq _ => ⟨hoq, hpq.chain⟩) ?_ ?_ h hq
  · intro g hg r hr q q' hq h hq'
    refine hvisit _ q q' hq.1 (goesPlain_of_mem_references hplain hr _ _)
      (fun g' hg' => (hnames g hg).step hr hg') (hreaches.step hr) ?_ h hq'
    intro y hy
    rcases hchain y (hq.2 ▸ hy) with rfl | hleads
    · exact leads_of_mem hr
    · exact hleads.step hr
  · intro q g hg hwalked hfollowed
    exact ⟨s, x, hs, hx, rfl, rfl, hnames g hg, hwalked, hfollowed⟩

include htrack hplain hacyclic

/-- A cascade into a target that all objects under way lead to enters it, and leaves all done that it
begins. -/
theorem cascade_done : ∀ depth step p q, c.Follows o p → c.GoesPlain step →
    (∀ g ∈ c.groupsOf step, c.Meant root gs step.target step.path g) →
    c.Reaches root step.target → (∀ y ∈ p.chain, c.Leads y step.target) →
    (c.cascade depth step).exec p = (.ok (), q) → c.stops q = false →
    c.Advances (c.Done root gs o) p q ∧ c.Followed step q
  | 0, _, _, _, _, _, _, _, _, h, _ => by cases h
  | depth + 1, step, p, q, hp, hstep, hmeant, hreaches, hchain, h, hq => by
    rcases exec_cascade_ok h with ⟨rfl, hskip⟩ | ⟨-, -, m, p₁, order, p₂, hmeta, horder, h⟩
    · simp [hq, Call.isProcessed, htrack] at hskip
    obtain ⟨hknows, hpp₂, hquiet⟩ := knows_of_metadata (.refl hp.remembers) hmeta horder step.path
    rcases h with ⟨rfl, honchain⟩ | ⟨r, hrun, rfl⟩
    · have hmem : step.target ∈ q.chain := by simpa [Call.isOnChain, htrack] using honchain
      exact absurd (hchain _ (hquiet.chain ▸ hmem)) (hacyclic _ hreaches)
    · obtain ⟨hsequences, hnames⟩ := expanding_ofGroup_names hstep horder
      obtain ⟨hadv, hbegan⟩ := runSubject_done (o := o) (x := step.target) hplain
        (cascade_done depth) hknows rfl hsequences (hnames ▸ hmeant) hreaches
        (fun y hy => (List.mem_cons.1 hy).imp_right fun hy => hchain y (hquiet.chain ▸ hy))
        ((follows_cascades o).chain p₂ _ (hp.trans hpp₂)) hrun hq
      refine ⟨(hquiet.advances hpp₂).trans done_stays (hadv.offChain done_stays hpp₂.remembers), ?_⟩
      intro group hgroup
      rw [← hnames] at hgroup
      obtain ⟨g, hg, rfl⟩ := List.mem_map.1 hgroup
      exact hbegan g hg

/-- A validation begins where it is meant to and nowhere else, and leaves done all that it begins. -/
theorem validate_done {memory : Memory} {vs : List Violation}
    (hmemory : memory.metadata.Coherent c.registry c.config.methodRules)
    (hgs : ∀ g ∈ gs, Order.IsPlain c.registry g)
    (h : (c.validate root gs).exec (startOf memory root) = (.ok vs, q)) (hq : c.stops q = false) :
    (∀ object path group, .began object path group ∈ q.journal →
      c.Done root gs (startOf memory root) q object path group) ∧
    ∀ x path group, c.Meant root gs x path group → .began (some x) path group ∈ q.journal := by
  obtain ⟨m, p₁, order, p₂, hmeta, horder, hrun, -⟩ := validate_ok h
  obtain ⟨hknows, hp₂, hquiet⟩ := knows_of_start hmemory hmeta horder
  obtain ⟨hsequences, -, hnames⟩ := exec_orderOf_ok hgs horder
  obtain ⟨hadv, hbegan⟩ := runSubject_done (x := root) hplain
    (cascade_done htrack hplain hacyclic c.depth) hknows rfl hsequences
    (fun g hg => .root (hnames ▸ hg)) .root
    (fun y hy => .inl (by simpa [hquiet.chain, startOf] using hy)) hp₂ hrun hq
  have hdone : ∀ object path group, .began object path group ∈ q.journal →
      c.Done root gs (startOf memory root) q object path group := by
    intro object path group hmem
    refine (hadv.began object path group hmem).resolve_left ?_
    intro hmem
    simpa [startOf] using hquiet.began object path group hmem
  refine ⟨hdone, ?_⟩
  intro x path group hmeant
  induction hmeant with
  | root hgroup =>
    rw [← hnames] at hgroup
    obtain ⟨g, hg, rfl⟩ := List.mem_map.1 hgroup
    exact hbegan g hg
  | step _ hr hgroup ih =>
    obtain ⟨s, y, -, -, hy, -, -, -, hfollowed⟩ := hdone _ _ _ ih
    cases hy
    exact hfollowed _ hr _ hgroup

end

end Call

namespace Validator

open Call

variable {v : Validator} {root : ObjectId} {gs : List TypeName} {vs : List Violation}

/-- What the constraints of an object find at a path for a group, checked in a call that does nothing
else. -/
def checkAlone (v : Validator) (root x : ObjectId) (path : Path) (group : TypeName) :
    Report (List Violation) :=
  v.run (v.callOn root) ((v.callOn root).constraintPass x path group)

/-- Where nothing is tracked, a validation finds what the constraints of the objects find that it is
meant for, each checked alone: no state of the call comes between the violations and their meaning, if
no object leads back to itself. -/
theorem validate_meaning (hv : v.Coherent) (htrack : v.config.trackProcessed = false)
    (hfast : v.config.failFast = false) (hredefinitions : v.registry.WithoutRedefinitions)
    (hconversions : v.registry.WithPlainConversions)
    (hgs : ∀ g ∈ gs, Order.IsPlain v.registry g)
    (hacyclic : ∀ x, (v.callOn root).Reaches root x → ¬ (v.callOn root).Leads x x)
    (h : (v.validate root gs).answer = .ok vs) :
    (∀ x path group, (v.callOn root).Meant root gs x path group →
      ∃ ws, (v.checkAlone root x path group).answer = .ok ws) ∧
    ∀ key, (∃ violation ∈ vs, violation.key = key) ↔
      ∃ x path group ws, (v.callOn root).Meant root gs x path group ∧
        (v.checkAlone root x path group).answer = .ok ws ∧ ∃ w ∈ ws, w.key = key := by
  have hord := ordinary_of_withoutRedefinitions (c := v.callOn root) hredefinitions
  have hstops : ∀ q, (v.callOn root).stops q = false := by
    intro q
    simp [Call.stops, callWithin, Validator.call, hfast]
  have hstart := remembers_startOf (c := v.callOn root) hv root
  obtain ⟨q, hexec, -⟩ := v.exec_validateWithin v.depth root gs
  rw [← validate_eq, h] at hexec
  have hlogs := logs_validate (c := v.callOn root) hv hexec
  obtain ⟨hdone, hbegan⟩ := validate_done (c := v.callOn root) htrack hconversions hacyclic hv hgs
    hexec (hstops q)
  obtain ⟨-, -, -, -, -, -, -, rfl⟩ := validate_ok hexec
  have halone : ∀ x path group, ∃ q', ((v.callOn root).constraintPass x path group).exec
      (startOf v.memory root) = ((v.checkAlone root x path group).answer, q') :=
    fun _ _ _ => ⟨_, rfl⟩
  have hmakes : ∀ x path group, (v.callOn root).Meant root gs x path group →
      ∃ s, (v.callOn root).Knows s ∧ s.object = some x ∧ s.path = path ∧
        (v.callOn root).Walked (startOf v.memory root) q s group := by
    intro x path group hmeant
    obtain ⟨s, y, hs, hsy, hy, hpath, -, hwalked, -⟩ := hdone _ _ _ (hbegan x path group hmeant)
    cases hy
    exact ⟨s, hs, hsy, hpath, hwalked⟩
  have hsucceeds : ∀ x path group, (v.callOn root).Meant root gs x path group →
      ∃ ws, (v.checkAlone root x path group).answer = .ok ws := by
    intro x path group hmeant
    obtain ⟨s, hs, hx, rfl, hwalked⟩ := hmakes x path group hmeant
    obtain ⟨ws, q', hpass⟩ := exists_constraintPass hord rfl hlogs (hstops q) hs hx hwalked
      hstart.coherent
    exact ⟨ws, congrArg Prod.fst hpass⟩
  refine ⟨hsucceeds, fun key => ⟨?_, ?_⟩⟩
  · rintro ⟨violation, hviolation, rfl⟩
    obtain ⟨s, group, hs, -, hbegun, hfinds⟩ :=
      found_where_walked hord rfl hlogs (hstops q) hviolation
    obtain ⟨-, x, -, -, hx, -, hmeant, -, -⟩ := hdone _ _ _ hbegun
    obtain ⟨ws, hws⟩ := hsucceeds x s.path group hmeant
    obtain ⟨q', hexec'⟩ := halone x s.path group
    rw [hws] at hexec'
    obtain ⟨s', hs', hx', hpath, hwalked, hlogs', rfl, -⟩ := constraintPass_ok hstart hexec'
    obtain rfl := hs'.eq hs (hx'.trans hx.symm) hpath
    exact ⟨x, _, group, _, hmeant, hws, hfinds _ q' rfl hlogs' (hstops q') hwalked⟩
  · rintro ⟨x, path, group, ws, hmeant, hws, w, hw, rfl⟩
    obtain ⟨q', hexec'⟩ := halone x path group
    rw [hws] at hexec'
    obtain ⟨s', hs', hx', rfl, -, hlogs', rfl, honly⟩ := constraintPass_ok hstart hexec'
    obtain ⟨s, group', hs, -, hbegun, hfinds⟩ := found_where_walked hord rfl hlogs' (hstops q') hw
    obtain ⟨hobject, hpath, rfl⟩ := (honly _ _ _ hbegun).resolve_left (by simp [startOf])
    obtain rfl := hs.eq hs' (hobject.trans hx'.symm) hpath
    obtain ⟨s'', hs'', hx'', hpath', hwalked⟩ := hmakes x _ _ hmeant
    obtain rfl := hs''.eq hs (hx''.trans hx'.symm) hpath'
    exact hfinds _ q rfl hlogs (hstops q) hwalked

/-! ### A shared object -/

/-- A box that refers to one label in two ways: directly, where the default group is converted to a
group that extends another one, and as an element of a list. -/
def labelled : Validator where
  registry := [
    { name := ⟨"Early"⟩, kind := .interface },
    { name := ⟨"Late"⟩, kind := .interface, interfaces := [⟨"Early"⟩] },
    { name := ⟨"Label"⟩, kind := .concrete,
      fields := [⟨"text", { own := { constraints := [{ kind := "NotNull", groups := [⟨"Early"⟩] }] } }⟩,
        ⟨"code", { own := { constraints := [{ kind := "NotNull" }] } }⟩] },
    { name := ⟨"Box"⟩, kind := .concrete,
      fields := [⟨"label", { own := { cascading := true,
                                      conversions := [⟨TypeName.defaultGroup, ⟨"Late"⟩⟩] } }⟩,
        ⟨"labels", { containers := [(.listElement, { cascading := true })] }⟩] : TypeDefinition }
    ].foldl Registry.register .initial
  evaluators := Standard.evaluators
  config := { trackProcessed := false }
  store := ⟨[(⟨"box"⟩, ⟨⟨"Box"⟩, [("label", .object ⟨"x"⟩), ("labels", .list [.object ⟨"x"⟩])]⟩),
    (⟨"x"⟩, ⟨⟨"Label"⟩, []⟩)]⟩
  memory := {}

/-- What is found of the label is what its constraints find on the two ways, each for its groups. -/
theorem validate_meaning_labelled :
    ∃ vs, (labelled.validate ⟨"box"⟩ []).answer = .ok vs ∧
      vs.map (·.key) = [("label.text", "must not be null", "@NotNull", some ⟨"x"⟩),
        ("labels[0].code", "must not be null", "@NotNull", some ⟨"x"⟩)] ∧
      ∀ key, (∃ violation ∈ vs, violation.key = key) ↔
        ∃ x path group ws, (labelled.callOn ⟨"box"⟩).Meant ⟨"box"⟩ [] x path group ∧
          (labelled.checkAlone ⟨"box"⟩ x path group).answer = .ok ws ∧ ∃ w ∈ ws, w.key = key := by
  have hkeys : (labelled.validate ⟨"box"⟩ []).answer.toOption.map (·.map (·.key)) =
      some [("label.text", "must not be null", "@NotNull", some ⟨"x"⟩),
        ("labels[0].code", "must not be null", "@NotNull", some ⟨"x"⟩)] := by
    decide +kernel
  obtain ⟨vs, hvs, hmap⟩ := Option.map_eq_some_iff.1 hkeys
  have hcoherent : labelled.Coherent := MetadataCache.coherent_nil _ _
  have hranked : ∀ y ∈ [(⟨"box"⟩ : ObjectId), ⟨"x"⟩], ∀ r ∈ (labelled.callOn ⟨"box"⟩).references y,
      r.target ∈ [(⟨"box"⟩ : ObjectId), ⟨"x"⟩] ∧
        (if r.target = ⟨"box"⟩ then 1 else 0) < if y = ⟨"box"⟩ then 1 else 0 := by
    decide +kernel
  have hacyclic : ∀ x, (labelled.callOn ⟨"box"⟩).Reaches ⟨"box"⟩ x →
      ¬ (labelled.callOn ⟨"box"⟩).Leads x x := fun x hx =>
    not_leads_of_rank (fun y => if y = ⟨"box"⟩ then 1 else 0) hranked
      (hx.mem (by simp) fun y hy r hr => (hranked y hy r hr).1)
  exact ⟨vs, toOption_eq_some hvs, hmap,
    (validate_meaning hcoherent rfl rfl (by decide +kernel) (by decide +kernel) (by simp) hacyclic
      (toOption_eq_some hvs)).2⟩

end Validator

end ObjectValidation
