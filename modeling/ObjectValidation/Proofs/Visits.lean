import ObjectValidation.Proofs.Outcome
import ObjectValidation.Proofs.Tour
/-!
# Cascades make tours

Where no type converts groups or redefines its default group, the cascades of a call for one group make
a tour: validation begins for the group at the spots that the tour sees, and what other groups have
begun stays as it is (`cascade_tours`). The spots of all groups count as marked for those that come
after them, so a validation makes one tour for each of its groups (`validate_tours`). If a validation
runs out of depth, the tours for its groups do not end within that depth (`validate_strays`).
-/

namespace ObjectValidation

open Run

namespace Call

variable {c : Call}

/-- What is known of a call in the middle of its tour for a group: validation has begun for the group
where the tour has been, and the marked spots are those of the tour and of all before. -/
structure Matches (p : Progress) (group : TypeName) (marked seen : List Spot) : Prop where
  groups : ∀ x, (some x, group) ∈ p.processedGroups ↔ ∃ path, (x, path) ∈ seen
  paths : ∀ x path, (some x, path) ∈ p.processedPaths ↔ (x, path) ∈ seen ∨ (x, path) ∈ marked
  began : ∀ x path, .began (some x) path group ∈ p.journal ↔ (x, path) ∈ seen

/-- Whether nothing has changed for a group but the marks of paths. -/
structure Spared (group : TypeName) (p q : Progress) : Prop where
  groups : ∀ x, (x, group) ∈ q.processedGroups ↔ (x, group) ∈ p.processedGroups
  began : ∀ x path, .began x path group ∈ q.journal ↔ .began x path group ∈ p.journal

variable {p q r : Progress} {group : TypeName} {marked seen : List Spot}

theorem Spared.refl (group : TypeName) (p : Progress) : Spared group p p :=
  ⟨fun _ => .rfl, fun _ _ => .rfl⟩

theorem Spared.trans (h : Spared group p q) (h' : Spared group q r) : Spared group p r :=
  ⟨fun x => (h'.groups x).trans (h.groups x), fun x path => (h'.began x path).trans (h.began x path)⟩

theorem Spared.quiet (h : Quiet p q) : Spared group p q :=
  ⟨fun _ => h.groups ▸ .rfl, fun x path => ⟨h.began x path group, (h.journal ·)⟩⟩

theorem Matches.quiet (h : Matches p group marked seen) (hpq : Quiet p q) :
    Matches q group marked seen where
  groups := hpq.groups ▸ h.groups
  paths := hpq.paths ▸ h.paths
  began x path := ((Spared.quiet hpq).began (some x) path).trans (h.began x path)

theorem Matches.chained (h : Matches p group marked seen) (chain : List ObjectId) :
    Matches { p with chain } group marked seen := ⟨h.groups, h.paths, h.began⟩

theorem Spared.chained (h : Spared group p q) (chain : List ObjectId) :
    Spared group p { q with chain } := ⟨h.groups, h.began⟩

theorem Matches.isProcessed_eq (h : Matches p group marked seen) (htrack : c.config.trackProcessed)
    (x : Spot) : c.isProcessed p ⟨x.1, x.2, group, group⟩ = passes marked seen x := by
  rw [Bool.eq_iff_iff, passes_iff]
  simp only [Call.isProcessed, htrack, Bool.true_and, Bool.and_eq_true, List.contains_iff_mem,
    List.any_eq_true, decide_eq_true_eq, Prod.exists, h.groups]
  refine and_congr_right fun _ => ⟨?_, ?_⟩
  · rintro ⟨_, path, hmem, rfl, hrelated⟩
    exact ⟨path, (h.paths _ _).1 hmem, hrelated⟩
  · rintro ⟨path, hmem, hrelated⟩
    exact ⟨_, path, (h.paths _ _).2 hmem, rfl, hrelated⟩

/-! ### Walks -/

/-- What walks of a subject for groups do, said exactly, where no default group is redefined. -/
structure Enrolls (p : Progress) (s : Subject) (gs : List TypeName) (q : Progress) : Prop where
  groups : ∀ x, x ∈ q.processedGroups ↔ x ∈ p.processedGroups ∨ (x.1 = s.object ∧ x.2 ∈ gs)
  paths : ∀ x, x ∈ q.processedPaths ↔ x ∈ p.processedPaths ∨ (x = (s.object, s.path) ∧ gs ≠ [])
  began : ∀ x path g, .began x path g ∈ q.journal ↔ .began x path g ∈ p.journal ∨
    (x = s.object ∧ path = s.path ∧ g ∈ gs)

theorem Enrolls.refl (p : Progress) (s : Subject) : Enrolls p s [] p :=
  ⟨by simp, by simp, by simp⟩

theorem Enrolls.cons {s : Subject} {gs : List TypeName} (h : Enrolls p s [group] q)
    (h' : Enrolls q s gs r) : Enrolls p s (group :: gs) r where
  groups x := by
    rw [h'.groups, h.groups, or_assoc, List.mem_singleton, List.mem_cons, ← and_or_left]
  paths x := by
    rw [h'.paths, h.paths, or_assoc, ← and_or_left]
    simp
  began x path g := by
    rw [h'.began, h.began, or_assoc, List.mem_singleton, List.mem_cons, ← and_or_left,
      ← and_or_left]

theorem enrolls_runGroup (htrack : c.config.trackProcessed) (hord : ∀ types, c.Ordinary types)
    {s : Subject} (hs : c.Knows s) (hp : c.Remembers p)
    (h : (c.runGroup s group).exec p = (.ok (), q)) (hq : c.stops q = false) :
    Enrolls p s [group] q := by
  have henters := enters_runGroup hp h
  have hmarked := marked_of_runGroup htrack hs h hq hp
  have hextends := ((follows_runGroup s group p).kept h (.refl hp)).extends
  refine ⟨fun x => ⟨fun hx => ?_, ?_⟩, fun x => ⟨fun hx => ?_, ?_⟩,
    fun x path g => ⟨fun hx => ?_, ?_⟩⟩
  · refine (henters.groups x hx).imp_right ?_
    rintro ⟨g, hg, heq⟩
    rw [heq, hg.resolve_right fun hg => hg.2 (hord _)]
    simp
  · rintro (hx | ⟨hx, hg⟩)
    · exact hextends.groups hx
    · rw [show x = (s.object, group) from Prod.ext hx (List.mem_singleton.1 hg)]
      exact hmarked.1
  · exact (henters.paths x hx).imp_right fun heq => ⟨heq, by simp⟩
  · rintro (hx | ⟨rfl, -⟩)
    · exact hextends.paths hx
    · exact hmarked.2
  · simpa using henters.began x path g hx
  · rintro (hx | ⟨rfl, rfl, hg⟩)
    · exact hextends.journal.subset hx
    · rw [List.mem_singleton.1 hg]
      exact henters.begun

theorem enrolls_walks (htrack : c.config.trackProcessed) (hord : ∀ types, c.Ordinary types)
    {s : Subject} (hs : c.Knows s) : ∀ {gs : List Group} {p q : Progress}, c.Remembers p →
    (c.each gs fun g => c.runGroup s g.name).exec p = (.ok (), q) → c.stops q = false →
    Enrolls p s (gs.map (·.name)) q
  | [], p, _, _, h, _ => by
    cases h
    exact .refl p s
  | g :: gs, p, q, hp, h, hq => by
    obtain ⟨-, r, hg, h⟩ := exec_each_cons_ok h hq
    have hr := ((follows_runGroup s g.name p).kept hg (.refl hp)).remembers
    exact (enrolls_runGroup htrack hord hs hp hg (not_stops_of_each h hq)).cons
      (enrolls_walks htrack hord hs hr h hq)

theorem Enrolls.spared {s : Subject} {gs : List TypeName} (h : Enrolls p s gs q) {g : TypeName}
    (hg : g ∉ gs) : Spared g p q where
  groups _ := (h.groups _).trans <| or_iff_left fun heq => hg heq.2
  began x path := (h.began x path g).trans <| or_iff_left fun heq => hg heq.2.2

theorem Matches.enroll {s : Subject} {x : ObjectId} (hx : s.object = some x)
    (h : Matches p group marked seen) (hpq : Enrolls p s [group] q) :
    Matches q group marked (seen ++ [(x, s.path)]) where
  groups y := by
    rw [hpq.groups, h.groups, hx]
    simp [exists_or]
  paths y path := by
    rw [hpq.paths, h.paths, hx]
    simp [or_right_comm]
  began y path := by
    rw [hpq.began, h.began, hx]
    simp

/-- The walk of a subject adds a spot to the tour. -/
theorem Matches.walk (htrack : c.config.trackProcessed) (hord : ∀ types, c.Ordinary types)
    {s : Subject} (hs : c.Knows s) {x : ObjectId} (hx : s.object = some x)
    (hm : Matches p group marked seen) (hp : c.Remembers p) {order : Order}
    (hfit : (c.requireFit s order).exec p = (.ok (), q))
    (hwalks : (c.each [Group.plain group] fun g => c.runGroup s g.name).exec q = (.ok (), r))
    (hr : c.stops r = false) :
    c.Remembers r ∧ Matches r group marked (seen ++ [(x, s.path)]) ∧
      ∀ g, g ≠ group → Spared g p r := by
  obtain ⟨object, -, hmetadata⟩ := hs.object
  have hq := (((follows_cascades p).requireFit hmetadata order).kept hfit (.refl hp)).remembers
  have hquiet := (quiet_requireFit s order).kept hfit (.refl p)
  obtain ⟨-, _, hwalk, hnil⟩ := exec_each_cons_ok hwalks hr
  cases hnil
  have henrolls := enrolls_runGroup htrack hord hs hq hwalk hr
  refine ⟨((follows_runGroup s group q).kept hwalk (.refl hq)).remembers,
    (hm.quiet hquiet).enroll hx henrolls, ?_⟩
  intro g hg
  exact (Spared.quiet hquiet).trans (henrolls.spared (by simpa [Group.plain] using hg))

/-! ### Cascades -/

section

variable (c) (group marked) in
/-- Whether a step that may cascade as deep as told makes a tour of that depth. -/
def Tours (depth : Nat) : Prop :=
  ∀ {x : Spot} {p q : Progress} {seen : List Spot}, c.Remembers p → Matches p group marked seen →
    (c.cascade depth ⟨x.1, x.2, group, group⟩).exec p = (.ok (), q) → c.stops q = false →
    ∃ spots, c.tour marked depth seen x = some spots ∧ Matches q group marked spots ∧
      ∀ g, g ≠ group → Spared g p q

variable (htrack : c.config.trackProcessed)
  (hkeeps : ∀ x, ∀ r ∈ c.references x, r.KeepsGroups)

/-- The steps along references make a tour if each of them does. -/
theorem each_tours {depth : Nat} (h : c.Tours group marked depth) {path : Path} :
    ∀ {rs : List Reference} {p q : Progress} {seen : List Spot}, (∀ r ∈ rs, r.KeepsGroups) →
    c.Remembers p → Matches p group marked seen →
    (c.each (rs.map (·.step path group)) (c.cascade depth)).exec p = (.ok (), q) →
    c.stops q = false →
    ∃ spots, c.follow marked depth path seen rs = some spots ∧ Matches q group marked spots ∧
      ∀ g, g ≠ group → Spared g p q
  | [], p, q, seen, _, _, hm, hexec, _ => by
    cases hexec
    exact ⟨seen, rfl, hm, fun g _ => .refl g p⟩
  | r :: rs, p, q, seen, hkeeps, hp, hm, hexec, hq => by
    rw [List.map_cons] at hexec
    obtain ⟨-, o, hr, hrs⟩ := exec_each_cons_ok hexec hq
    rw [(hkeeps r (by simp)).step_eq path group] at hr
    have ho := ((follows_cascades p).cascade depth _).kept hr (.refl hp)
    obtain ⟨spots, htour, hmatches, hspared⟩ :=
      h (x := (r.target, r.place path)) hp hm hr (not_stops_of_each hrs hq)
    obtain ⟨spots', hfollow, hmatches', hspared'⟩ :=
      each_tours h (fun r' hr' => hkeeps r' (by simp [hr'])) ho.remembers hmatches hrs hq
    exact ⟨spots', follow_cons.2 ⟨spots, htour, hfollow⟩, hmatches', fun g hg =>
      (hspared g hg).trans (hspared' g hg)⟩

include htrack hkeeps in
/-- A step of a cascade makes a tour. -/
theorem cascade_tours (hord : ∀ types, c.Ordinary types) : ∀ depth, c.Tours group marked depth
  | 0, _, _, _, _, _, _, hexec, _ => by cases hexec
  | depth + 1, x, p, q, seen, hp, hm, hexec, hq => by
    have hpasses := hm.isProcessed_eq htrack x
    rcases exec_cascade_ok hexec with ⟨rfl, hskip⟩ | ⟨-, henter, m, p₁, order, p₂, hmeta, horder, h⟩
    · have hskip := hskip.resolve_left (by simp [hq])
      rw [hpasses] at hskip
      exact ⟨seen, by rw [tour_succ, if_pos hskip], hm, fun g _ => .refl g q⟩
    rw [hpasses] at henter
    simp only [ne_eq, not_true_eq_false, decide_false] at horder
    obtain ⟨hknows, rfl, hp₂, hquiet⟩ := knows_of_entry (.refl hp) hmeta horder x.2 (x.1 :: p₂.chain)
    rcases h with ⟨-, hchain⟩ | ⟨o, hrun, rfl⟩
    · simp [Call.isOnChain, htrack] at hchain
    obtain ⟨p₃, p₄, hfit, hwalks, hcascades⟩ := exec_runSubject_ok rfl hrun
    obtain ⟨hp₄, hmatches, hspared⟩ := ((hm.quiet hquiet).chained _).walk htrack hord hknows rfl
      hp₂.remembers hfit hwalks (not_stops_of_each hcascades hq)
    obtain ⟨-, _, hcascade, hnil⟩ := exec_each_cons_ok hcascades hq
    cases hnil
    rw [runCascades_eq hknows rfl] at hcascade
    obtain ⟨spots, hfollow, hmatches', hspared'⟩ := each_tours (cascade_tours hord depth) (hkeeps x.1)
      hp₄ hmatches hcascade hq
    refine ⟨spots, ?_, hmatches'.chained _, ?_⟩
    · rw [tour_succ, if_neg (by simp [henter])]
      exact hfollow
    · intro g hg
      have hbefore : Spared g p { p₂ with chain := x.1 :: p₂.chain } :=
        (Spared.quiet hquiet).chained _
      exact (hbefore.trans (hspared g hg)).trans ((hspared' g hg).chained _)

/-! ### Cascades that run out of depth -/

variable (c) (group marked) in
/-- Whether no tour of a depth ends where a step runs out of that depth. -/
def Strays (depth : Nat) : Prop :=
  ∀ {x : Spot} {p q : Progress} {seen : List Spot}, c.Remembers p → Matches p group marked seen →
    (c.cascade depth ⟨x.1, x.2, group, group⟩).exec p = (.error .exhausted, q) →
    c.tour marked depth seen x = none

/-- The steps along references stray if one of them does. -/
theorem each_strays {depth : Nat} (htours : c.Tours group marked depth)
    (h : c.Strays group marked depth) {path : Path} {rs : List Reference} {p q : Progress}
    {seen : List Spot} (hkeeps : ∀ r ∈ rs, r.KeepsGroups) (hp : c.Remembers p)
    (hm : Matches p group marked seen)
    (hexec : (c.each (rs.map (·.step path group)) (c.cascade depth)).exec p =
      (.error .exhausted, q)) : c.follow marked depth path seen rs = none := by
  obtain ⟨before, step, after, o, hsteps, hbefore, hstop, hstep⟩ := exec_each_error hexec
  obtain ⟨passed, left, rfl, rfl, hleft⟩ := List.map_eq_append_iff.1 hsteps
  obtain ⟨r, rest, rfl, rfl, -⟩ := List.map_eq_cons_iff.1 hleft
  have ho := (meets_each fun step _ => (follows_cascades p).cascade _ step).kept hbefore (.refl hp)
  obtain ⟨spots, hfollow, hmatches, -⟩ :=
    each_tours htours (fun r hr => hkeeps r (by simp [hr])) hp hm hbefore hstop
  rw [(hkeeps r (by simp)).step_eq path group] at hstep
  have hnone := h (x := (r.target, r.place path)) ho.remembers hmatches hstep
  rw [follow_append hfollow]
  exact follow_cons_none hnone

include htrack hkeeps in
/-- A step of a cascade that runs out of depth strays. -/
theorem cascade_strays (hord : ∀ types, c.Ordinary types) : ∀ depth, c.Strays group marked depth
  | 0, _, _, _, _, _, _, _ => rfl
  | depth + 1, x, p, q, seen, hp, hm, hexec => by
    obtain ⟨hfresh, m, p₁, order, p₂, q', hmeta, horder, hrun⟩ := exec_cascade_exhausted hexec
    rw [hm.isProcessed_eq htrack x] at hfresh
    simp only [ne_eq, not_true_eq_false, decide_false] at horder
    obtain ⟨hknows, rfl, hp₂, hquiet⟩ := knows_of_entry (.refl hp) hmeta horder x.2 (x.1 :: p₂.chain)
    obtain ⟨p₃, p₄, hfit, hwalks, hcascades⟩ := exec_runSubject_exhausted hknows rfl hp₂.remembers hrun
    obtain ⟨before, g, after, p₅, hgroups, hbefore, hstop, hcascade⟩ := exec_each_error hcascades
    obtain ⟨rfl, rfl, rfl⟩ : before = [] ∧ g = Group.plain group ∧ after = [] := by
      cases before <;> simp_all
    cases hbefore
    obtain ⟨hp₄, hmatches, -⟩ := ((hm.quiet hquiet).chained _).walk htrack hord hknows rfl
      hp₂.remembers hfit hwalks hstop
    rw [runCascades_eq hknows rfl] at hcascade
    rw [tour_succ, if_neg (by simp [hfresh])]
    exact each_strays (cascade_tours htrack hkeeps hord depth) (cascade_strays hord depth) (hkeeps x.1)
      hp₄ hmatches hcascade

end

/-! ### Validations -/

section

variable {root : ObjectId} {s : Subject}

/-- What validation for a group begins with, once the root has been walked for all groups. -/
theorem Enrolls.matches (hs : s.object = some root) (hpath : s.path = .root) {gs : List TypeName}
    (h : Enrolls p s gs q) (hgroups : p.processedGroups = []) (hpaths : p.processedPaths = [])
    (hbegan : ∀ x path g, .began x path g ∉ p.journal) (hg : group ∈ gs) :
    Matches q group [(root, .root)] [(root, .root)] where
  groups x := by
    rw [h.groups, hgroups, hs]
    simp [hg]
  paths x path := by
    rw [h.paths, hpaths, hs, hpath]
    simp [List.ne_nil_of_mem hg]
  began x path := by
    rw [h.began, hs, hpath]
    simp [hg, hbegan]

/-- Behind the tour for one group, its spots count as marked for another group. -/
theorem Matches.behind {g : TypeName} {spots : List Spot}
    (hm : Matches p g marked [(root, .root)]) (hmatches : Matches q group marked spots)
    (hspared : Spared g p q) (hstart : (root, .root) ∈ spots) :
    Matches q g (marked ++ spots) [(root, .root)] where
  groups x := (hspared.groups _).trans (hm.groups x)
  paths x path := by
    rw [hmatches.paths]
    simp only [List.mem_append, List.mem_singleton]
    constructor
    · rintro (hx | hx)
      · exact .inr (.inr hx)
      · exact .inr (.inl hx)
    · rintro (hx | hx | hx)
      · exact .inl (hx ▸ hstart)
      · exact .inr hx
      · exact .inl hx
  began x path := (hspared.began _ path).trans (hm.began x path)

variable (htrack : c.config.trackProcessed)
  (hkeeps : ∀ x, ∀ r ∈ c.references x, r.KeepsGroups) (hord : ∀ types, c.Ordinary types)
  (hknows : c.Knows s) (hs : s.object = some root) (hpath : s.path = .root)

include htrack hkeeps hord hknows hs hpath in
/-- The cascades of the root make one tour for each group. -/
theorem cascades_toured : ∀ {gs : List Group} {p q : Progress} {marked : List Spot},
    (gs.map (·.name)).Nodup → c.Remembers p →
    (∀ g ∈ gs, Matches p g.name marked [(root, .root)]) →
    (c.each gs fun g => c.runCascades c.visit s g.name).exec p = (.ok (), q) →
    c.stops q = false → ∃ legs : List (TypeName × List Spot), legs.map (·.1) = gs.map (·.name) ∧
      c.Toured c.depth root marked legs ∧
      (∀ g ∈ gs, ∀ x, .began (some x.1) x.2 g.name ∈ q.journal ↔ Sees legs g.name x) ∧
      ∀ g, g ∉ gs.map (·.name) → Spared g p q
  | [], p, _, marked, _, _, _, h, _ => by
    cases h
    exact ⟨[], rfl, trivial, by simp, fun g _ => .refl g p⟩
  | g :: gs, p, q, marked, hnodup, hp, hm, h, hq => by
    rw [List.map_cons, List.nodup_cons] at hnodup
    obtain ⟨-, o, hg, h⟩ := exec_each_cons_ok h hq
    have ho : c.Follows p o :=
      (meets_runCascades (fun step => (follows_cascades p).cascade _ step) g.name).kept hg (.refl hp)
    rw [runCascades_eq hknows hs, hpath] at hg
    obtain ⟨spots, hfollow, hmatches, hspared⟩ := each_tours (cascade_tours htrack hkeeps hord c.depth)
      (hkeeps root) hp (hm g (by simp)) hg (not_stops_of_each h hq)
    have hne : ∀ g' ∈ gs, g'.name ≠ g.name := fun g' hg' heq =>
      hnodup.1 (heq ▸ List.mem_map_of_mem hg')
    -- For the groups that follow, what the tour has seen counts as marked.
    have hrest : ∀ g' ∈ gs, Matches o g'.name (marked ++ spots) [(root, .root)] := fun g' hg' =>
      (hm g' (by simp [hg'])).behind hmatches (hspared g'.name (hne g' hg')) (start_mem hfollow)
    obtain ⟨legs, hnames, htoured, hsees, hspared'⟩ :=
      cascades_toured hnodup.2 ho.remembers hrest h hq
    refine ⟨(g.name, spots) :: legs, by simp [hnames], ⟨hfollow, htoured⟩,
      List.forall_mem_cons.2 ⟨?_, ?_⟩, ?_⟩
    · intro x
      have hnotin : ¬ Sees legs g.name x := fun h => hnodup.1 (hnames ▸ mem_of_sees h)
      rw [(hspared' g.name hnodup.1).began, hmatches.began, sees_cons, or_iff_left hnotin]
      simp
    · intro g' hg' x
      rw [hsees g' hg' x, sees_cons]
      exact (or_iff_right fun heq => hne g' hg' heq.1).symm
    · intro g' hg'
      rw [List.map_cons, List.mem_cons, not_or] at hg'
      exact (hspared g' hg'.1).trans (hspared' g' hg'.2)

include htrack hkeeps hord hknows hs hpath in
/-- Where the cascades of the root run out of depth, the tours for its groups do not end. -/
theorem cascades_stray : ∀ {gs : List Group} {p q : Progress} {marked : List Spot},
    (gs.map (·.name)).Nodup → c.Remembers p →
    (∀ g ∈ gs, Matches p g.name marked [(root, .root)]) →
    (c.each gs fun g => c.runCascades c.visit s g.name).exec p = (.error .exhausted, q) →
    ∀ legs : List (TypeName × List Spot), legs.map (·.1) = gs.map (·.name) →
      ¬ c.Toured c.depth root marked legs
  | [], _, _, _, _, _, _, h => by cases h
  | g :: gs, p, q, marked, hnodup, hp, hm, h => by
    intro legs hnames htoured
    rw [List.map_cons, List.nodup_cons] at hnodup
    obtain ⟨⟨_, spots⟩, legs, rfl, rfl, hrest⟩ := List.map_eq_cons_iff.1 hnames
    obtain ⟨-, h⟩ := exec_each_cons_error h
    rw [runCascades_eq hknows hs, hpath] at h
    rcases h with h | ⟨o, hg, hstop, h⟩
    · have hnone := each_strays (cascade_tours htrack hkeeps hord c.depth)
        (cascade_strays htrack hkeeps hord c.depth) (hkeeps root) hp (hm g (by simp)) h
      cases hnone.symm.trans htoured.1
    · obtain ⟨spots', hfollow, hmatches, hspared⟩ := each_tours
        (cascade_tours htrack hkeeps hord c.depth) (hkeeps root) hp (hm g (by simp)) hg hstop
      obtain rfl : spots' = spots := Option.some.inj (hfollow.symm.trans htoured.1)
      have ho := (meets_each fun step _ => (follows_cascades p).cascade _ step).kept hg (.refl hp)
      refine cascades_stray hnodup.2 ho.remembers ?_ h legs hrest htoured.2
      intro g' hg'
      have hne : g'.name ≠ g.name := fun heq => hnodup.1 (heq ▸ List.mem_map_of_mem hg')
      exact (hm g' (by simp [hg'])).behind hmatches (hspared g'.name hne) (start_mem hfollow)

omit s in
include htrack hord in
/-- What is known of a validation for plain groups once the root has been walked for all of them. -/
theorem root_walked {memory : Memory} {gs : List TypeName} {m : Metadata} {order : Order}
    {p₁ p₂ p₃ : Progress} (hmemory : memory.metadata.Coherent c.registry c.config.methodRules)
    (hmeta : (c.metadataOf (c.store.typeOf root)).exec (startOf memory root) = (.ok m, p₁))
    (horder : (c.orderOf gs).exec p₁ = (.ok order, p₂))
    (hfit : (c.requireFit { object := some root, metadata := m, path := .root } order).exec p₂ =
      (.ok (), p₃))
    (hwalks : (c.each order.groups fun g =>
      c.runGroup { object := some root, metadata := m, path := .root } g.name).exec p₃ = (.ok (), q))
    (hq : c.stops q = false) :
    c.Knows { object := some root, metadata := m, path := .root } ∧ c.Remembers q ∧
      (∀ g ∈ order.groups, Matches q g.name [(root, .root)] [(root, .root)]) ∧
      ∀ x path g, .began x path g ∈ q.journal → g ∈ order.names := by
  obtain ⟨hknows, hp₂, hstart⟩ := knows_of_start hmemory hmeta horder
  obtain ⟨object, -, hm⟩ := hknows.object
  have hp₃ := ((follows_cascades _).requireFit hm _).kept hfit hp₂
  have hquiet := (quiet_requireFit _ _).kept hfit hstart
  have henrolls := enrolls_walks htrack hord hknows hp₃.remembers hwalks hq
  have hp₄ := (meets_each fun g _ => follows_runGroup _ g.name _).kept hwalks hp₃
  have hbegan : ∀ x path g, .began x path g ∉ p₃.journal := by
    intro x path g hmem
    simpa [startOf] using hquiet.began x path g hmem
  refine ⟨hknows, hp₄.remembers, ?_, ?_⟩
  · intro g hg
    exact henrolls.matches rfl rfl (by simp [hquiet.groups, startOf])
      (by simp [hquiet.paths, startOf]) hbegan (List.mem_map_of_mem hg)
  · intro x path g hmem
    exact (((henrolls.began x path g).1 hmem).resolve_left (hbegan x path g)).2.2

omit s in
include htrack hkeeps hord in
/-- A validation for plain groups that is not stopped makes a tour for each group it is asked for. -/
theorem validate_tours {memory : Memory} {gs : List TypeName} {vs : List Violation}
    (hmemory : memory.metadata.Coherent c.registry c.config.methodRules)
    (hgs : ∀ g ∈ gs, Order.IsPlain c.registry g)
    (h : (c.validate root gs).exec (startOf memory root) = (.ok vs, q)) (hq : c.stops q = false) :
    ∃ legs : List (TypeName × List Spot), legs.map (·.1) = Order.requested c.registry gs ∧
      c.Toured c.depth root [(root, .root)] legs ∧
      ∀ g x, .began (some x.1) x.2 g ∈ q.journal ↔ Sees legs g x := by
  obtain ⟨m, p₁, order, p₂, hmeta, horder, hrun, -⟩ := validate_ok h
  obtain ⟨hsequences, -, hnames⟩ := exec_orderOf_ok hgs horder
  obtain ⟨p₃, p₄, hfit, hwalks, hcascades⟩ := exec_runSubject_ok hsequences hrun
  obtain ⟨hknows, hp₄, hmatches, hbegan⟩ := root_walked htrack hord hmemory hmeta horder hfit hwalks
    (not_stops_of_each hcascades hq)
  have hnodup : order.names.Nodup := hnames ▸ Order.nodup_requested _ _
  obtain ⟨legs, hlegs, htoured, hsees, hspared⟩ := cascades_toured htrack hkeeps hord hknows rfl rfl
    hnodup hp₄ hmatches hcascades hq
  refine ⟨legs, hlegs.trans hnames, htoured, ?_⟩
  intro g x
  by_cases hg : g ∈ order.groups.map (·.name)
  · obtain ⟨g', hg', rfl⟩ := List.mem_map.1 hg
    exact hsees g' hg' x
  · rw [(hspared g hg).began]
    exact ⟨fun h => absurd (hbegan _ _ _ h) hg, fun h => absurd (hlegs ▸ mem_of_sees h) hg⟩

omit s in
include htrack hkeeps hord in
/-- Where a validation for plain groups runs out of depth, the tours for its groups do not end. -/
theorem validate_strays {memory : Memory} {gs : List TypeName}
    (hmemory : memory.metadata.Coherent c.registry c.config.methodRules)
    (hgs : ∀ g ∈ gs, Order.IsPlain c.registry g)
    (h : (c.validate root gs).exec (startOf memory root) = (.error .exhausted, q)) :
    ¬ c.ToursEnd root (Order.requested c.registry gs) := by
  intro ⟨legs, hlegs, htoured⟩
  obtain ⟨m, p₁, order, p₂, hmeta, horder, hrun⟩ := validate_exhausted h
  obtain ⟨hsequences, -, hnames⟩ := exec_orderOf_ok hgs horder
  obtain ⟨hknows, hp₂, -⟩ := knows_of_start hmemory hmeta horder
  obtain ⟨p₃, p₄, hfit, hwalks, hcascades⟩ :=
    exec_runSubject_exhausted hknows hsequences hp₂.remembers hrun
  obtain ⟨before, g, after, r, -, hbefore, hstop, -⟩ := exec_each_error hcascades
  obtain ⟨-, hp₄, hmatches, -⟩ := root_walked htrack hord hmemory hmeta horder hfit hwalks
    (not_stops_of_each hbefore hstop)
  have hnodup : order.names.Nodup := hnames ▸ Order.nodup_requested _ _
  exact cascades_stray htrack hkeeps hord hknows rfl rfl hnodup hp₄ hmatches hcascades legs
    (hlegs.trans hnames.symm) htoured

end

end Call

end ObjectValidation
