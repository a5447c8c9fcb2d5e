import ObjectValidation.Proofs.References
/-!
# Tours of objects

What the cascades of a call come upon depends on references alone. A tour follows them in order, depth
first. It passes an object over that it has seen, if the object has been seen on the same way, or has
been marked there by tours before.

Tours that are made one after another, each with the spots of all before it marked, see the same spots
from the first one on that sees no object at two paths (`eq_of_once`). A tour that comes after one with
the same spots marked sees no object at two of them (`path_eq_of_marked`).
-/

namespace ObjectValidation

/-- An object and a path at which it is come upon. -/
abbrev Spot := ObjectId × Path

/-- Whether spots have no object at two paths. -/
def Once (spots : List Spot) : Prop :=
  ∀ x path path', (x, path) ∈ spots → (x, path') ∈ spots → path = path'

/-- Whether a tour passes a spot over. -/
def passes (marked seen : List Spot) (x : Spot) : Bool :=
  seen.any (·.1 = x.1) && (seen ++ marked).any fun y => y.1 = x.1 && x.2.isRelatedTo y.2

theorem passes_iff {marked seen : List Spot} {x : Spot} : passes marked seen x ↔
    (∃ path, (x.1, path) ∈ seen) ∧
      ∃ path, ((x.1, path) ∈ seen ∨ (x.1, path) ∈ marked) ∧ x.2.isRelatedTo path := by
  simp only [passes, Bool.and_eq_true, List.any_eq_true, decide_eq_true_eq, Prod.exists,
    List.mem_append]
  constructor
  · rintro ⟨⟨_, path, hmem, rfl⟩, _, path', hmem', rfl, hrelated⟩
    exact ⟨⟨path, hmem⟩, path', hmem', hrelated⟩
  · rintro ⟨⟨path, hmem⟩, path', hmem', hrelated⟩
    exact ⟨⟨_, path, hmem, rfl⟩, _, path', hmem', rfl, hrelated⟩

theorem passes_mono {marked marked' seen : List Spot} (h : marked ⊆ marked') {x : Spot}
    (hx : passes marked seen x) : passes marked' seen x := by
  rw [passes_iff] at hx ⊢
  exact ⟨hx.1, hx.2.imp fun _ hpath => ⟨hpath.1.imp_right (h ·), hpath.2⟩⟩

/-- What a tour adds to the spots it has seen: each one is not passed over where it is added. -/
inductive Grows (marked seen : List Spot) : List Spot → Prop
  | refl : Grows marked seen seen
  | snoc {spots : List Spot} {x : Spot} : Grows marked seen spots → passes marked spots x = false →
    Grows marked seen (spots ++ [x])

namespace Grows

variable {marked seen spots spots' : List Spot}

theorem trans (h : Grows marked seen spots) (h' : Grows marked spots spots') :
    Grows marked seen spots' := by
  induction h' with
  | refl => exact h
  | snoc _ hx ih => exact .snoc ih hx

theorem subset (h : Grows marked seen spots) : seen ⊆ spots := by
  induction h with
  | refl => exact fun _ => id
  | snoc _ _ ih => exact fun _ hx => List.mem_append_left _ (ih hx)

/-- An object is seen at no more than one of the spots that are marked. -/
theorem path_eq_of_marked {x : Spot} (h : Grows marked [x] spots) {y : ObjectId}
    {path path' : Path} (hy : (y, path) ∈ spots) (hy' : (y, path') ∈ spots)
    (hm : (y, path) ∈ marked) (hm' : (y, path') ∈ marked) : path = path' := by
  -- Whichever of the two spots comes second would have been passed over.
  have hpassed : ∀ {spots : List Spot} {path path' : Path}, passes marked spots (y, path') = false →
      (y, path) ∈ spots → (y, path') ∉ marked := by
    intro _ _ _ hfresh hmem hmarked
    have hpasses : passes _ _ (y, _) :=
      passes_iff.2 ⟨⟨_, hmem⟩, _, .inr hmarked, Path.isRelatedTo_self _⟩
    simp [hfresh] at hpasses
  induction h with
  | refl =>
    rw [List.mem_singleton] at hy hy'
    exact congrArg Prod.snd (hy.trans hy'.symm)
  | snoc _ hfresh ih =>
    rcases List.mem_append.1 hy with hseen | hnew <;>
      rcases List.mem_append.1 hy' with hseen' | hnew'
    · exact ih hseen hseen'
    · cases List.mem_singleton.1 hnew'
      exact absurd hm' (hpassed hfresh hseen)
    · cases List.mem_singleton.1 hnew
      exact absurd hm (hpassed hfresh hseen')
    · rw [List.mem_singleton] at hnew hnew'
      exact congrArg Prod.snd (hnew.trans hnew'.symm)

end Grows

namespace Call

variable (c : Call)

/-- The spots that a tour has seen once it is through with a spot. -/
def tour (marked : List Spot) : Nat → List Spot → Spot → Option (List Spot)
  | 0, _, _ => none
  | depth + 1, seen, x =>
    if passes marked seen x then some seen
    else (c.references x.1).foldlM (fun seen r => tour marked depth seen (r.target, r.place x.2))
      (seen ++ [x])

/-- The spots that a tour has seen once it has followed references of an object at a path. -/
def follow (marked : List Spot) (depth : Nat) (path : Path) (seen : List Spot)
    (rs : List Reference) : Option (List Spot) :=
  rs.foldlM (fun seen r => c.tour marked depth seen (r.target, r.place path)) seen

/-- The spots that a tour from an object sees. -/
def tourFrom (marked : List Spot) (depth : Nat) (root : ObjectId) : Option (List Spot) :=
  c.follow marked depth .root [(root, .root)] (c.references root)

variable {c} {marked marked' seen spots : List Spot} {depth : Nat} {root : ObjectId}

theorem tour_succ (x : Spot) : c.tour marked (depth + 1) seen x =
    if passes marked seen x then some seen
    else c.follow marked depth x.2 (seen ++ [x]) (c.references x.1) := rfl

theorem follow_cons {path : Path} {r : Reference} {rs : List Reference} :
    c.follow marked depth path seen (r :: rs) = some spots ↔
      ∃ spots', c.tour marked depth seen (r.target, r.place path) = some spots' ∧
        c.follow marked depth path spots' rs = some spots := by
  simp [follow, Option.bind_eq_some_iff]

theorem follow_cons_none {path : Path} {r : Reference} {rs : List Reference}
    (h : c.tour marked depth seen (r.target, r.place path) = none) :
    c.follow marked depth path seen (r :: rs) = none := by
  simp [follow, h]

theorem follow_append {path : Path} {rs rs' : List Reference}
    (h : c.follow marked depth path seen rs = some spots) :
    c.follow marked depth path seen (rs ++ rs') = c.follow marked depth path spots rs' := by
  unfold follow at h ⊢
  rw [List.foldlM_append, h]
  rfl

/-! ### What a tour adds -/

theorem follow_grows {path : Path} (h : ∀ {seen spots x}, c.tour marked depth seen x = some spots →
      Grows marked seen spots) : ∀ {rs : List Reference} {seen : List Spot},
    c.follow marked depth path seen rs = some spots → Grows marked seen spots
  | [], _, hspots => by
    cases hspots
    exact .refl
  | r :: rs, seen, hspots => by
    obtain ⟨spots', hr, hrs⟩ := follow_cons.1 hspots
    exact (h hr).trans (follow_grows h hrs)

theorem tour_grows : ∀ {depth : Nat} {seen spots : List Spot} {x : Spot},
    c.tour marked depth seen x = some spots → Grows marked seen spots
  | 0, _, _, _, h => by cases h
  | depth + 1, seen, spots, x, h => by
    rw [tour_succ] at h
    split at h
    · cases h
      exact .refl
    · next hx =>
      exact (Grows.refl.snoc (by simpa using hx)).trans (follow_grows tour_grows h)

/-! ### Tours that see nothing twice -/

theorem follow_eq_of_once {path : Path} (h : ∀ {seen spots' x},
      c.tour marked depth seen x = some spots' → spots' ⊆ spots →
      c.tour marked' depth seen x = some spots') :
    ∀ {rs : List Reference} {seen : List Spot}, c.follow marked depth path seen rs = some spots →
    c.follow marked' depth path seen rs = some spots
  | [], _, hspots => hspots
  | r :: rs, seen, hspots => by
    obtain ⟨spots', hr, hrs⟩ := follow_cons.1 hspots
    have hsubset := (follow_grows tour_grows hrs).subset
    exact follow_cons.2 ⟨spots', h hr hsubset, follow_eq_of_once h hrs⟩

/-- If a tour sees no object at two paths, further marks do not keep it from anything. -/
theorem tour_eq_of_once (hmarked : marked ⊆ marked') (honce : Once spots) : ∀ {depth : Nat}
    {seen spots' : List Spot} {x : Spot}, c.tour marked depth seen x = some spots' → spots' ⊆ spots →
    c.tour marked' depth seen x = some spots'
  | 0, _, _, _, h, _ => by cases h
  | depth + 1, seen, spots', x, h, hsubset => by
    rw [tour_succ] at h ⊢
    split at h
    · next hx =>
      rw [if_pos (passes_mono hmarked hx)]
      exact h
    · next hx =>
      have hgrows := (follow_grows tour_grows h).subset
      have hnew : ¬ passes marked' seen x := by
        intro hx'
        obtain ⟨⟨path, hpath⟩, -⟩ := passes_iff.1 hx'
        -- The object would be seen at the path twice.
        obtain rfl := honce x.1 path x.2 (hsubset (hgrows (by simp [hpath])))
          (hsubset (hgrows (by simp)))
        exact hx (passes_iff.2 ⟨⟨_, hpath⟩, _, .inl hpath, Path.isRelatedTo_self _⟩)
      rw [if_neg hnew]
      exact follow_eq_of_once (fun h' hsubset' => tour_eq_of_once hmarked honce h'
        fun y hy => hsubset (hsubset' hy)) h

theorem tourFrom_eq_of_once (hmarked : marked ⊆ marked') (honce : Once spots)
    (h : c.tourFrom marked depth root = some spots) : c.tourFrom marked' depth root = some spots :=
  follow_eq_of_once (fun h' hsubset => tour_eq_of_once hmarked honce h' hsubset) h

/-! ### Tours one after another -/

/-- Tours for groups one after another, each with the spots of all before it marked. -/
def Toured (c : Call) (depth : Nat) (root : ObjectId) :
    List Spot → List (TypeName × List Spot) → Prop
  | _, [] => True
  | marked, (_, spots) :: legs =>
    c.tourFrom marked depth root = some spots ∧ c.Toured depth root (marked ++ spots) legs

theorem tourFrom_of_mem {group : TypeName} : ∀ {legs : List (TypeName × List Spot)}
    {marked : List Spot}, c.Toured depth root marked legs → (group, spots) ∈ legs →
    ∃ marked', marked ⊆ marked' ∧ c.tourFrom marked' depth root = some spots
  | (g, first) :: legs, marked, h, hmem => by
    rcases List.mem_cons.1 hmem with heq | hmem
    · cases heq
      exact ⟨marked, fun _ => id, h.1⟩
    · obtain ⟨marked', hsubset, htour⟩ := tourFrom_of_mem h.2 hmem
      exact ⟨marked', fun x hx => hsubset (List.mem_append_left _ hx), htour⟩

/-- Whether the tours for groups, one after another, end within the depth of a call. -/
def ToursEnd (c : Call) (root : ObjectId) (groups : List TypeName) : Prop :=
  ∃ legs : List (TypeName × List Spot), legs.map (·.1) = groups ∧
    c.Toured c.depth root [(root, .root)] legs

/-- All tours see the same spots that come after one which sees no object at two paths. -/
theorem eq_of_once (honce : Once spots) (h : c.tourFrom marked depth root = some spots)
    {legs : List (TypeName × List Spot)} (hlegs : c.Toured depth root marked legs)
    {group : TypeName} {spots' : List Spot} (hmem : (group, spots') ∈ legs) : spots' = spots := by
  obtain ⟨marked', hsubset, htour⟩ := tourFrom_of_mem hlegs hmem
  rw [tourFrom_eq_of_once hsubset honce h] at htour
  exact (Option.some.inj htour).symm

/-- Each tour sees at least where it starts. -/
theorem start_mem (h : c.tourFrom marked depth root = some spots) : (root, .root) ∈ spots :=
  (follow_grows tour_grows h).subset (by simp)

/-- A tour sees no object at two of the spots that are marked. -/
theorem path_eq_of_marked (h : c.tourFrom marked depth root = some spots) {x : ObjectId}
    {path path' : Path} (hx : (x, path) ∈ spots) (hx' : (x, path') ∈ spots)
    (hm : (x, path) ∈ marked) (hm' : (x, path') ∈ marked) : path = path' :=
  (follow_grows tour_grows h).path_eq_of_marked hx hx' hm hm'

/-! ### Two series of tours -/

/-- The first group of a list where it parts from another list. -/
def parting : List TypeName → List TypeName → Option TypeName
  | g :: gs, h :: hs => if g = h then parting gs hs else some g
  | _, _ => none

/-- Whether tours for the groups of a list see all that they see, too, if they are made for those of
another list: these groups are among the others, and where the lists part, no object is seen at two
paths. -/
def Spares (seen : TypeName → Spot → Prop) (gs hs : List TypeName) : Prop :=
  gs ⊆ hs ∧ ∀ g, parting gs hs = some g → ∀ x path path', seen g (x, path) → seen g (x, path') →
    path = path'

/-- Whether tours see a spot for a group. -/
def Sees (legs : List (TypeName × List Spot)) (group : TypeName) (x : Spot) : Prop :=
  ∃ spots, (group, spots) ∈ legs ∧ x ∈ spots

variable {legs legs' : List (TypeName × List Spot)}

theorem sees_cons {group g : TypeName} {x : Spot} : Sees ((g, spots) :: legs) group x ↔
    (group = g ∧ x ∈ spots) ∨ Sees legs group x := by
  constructor
  · rintro ⟨spots', hmem, hx⟩
    rcases List.mem_cons.1 hmem with heq | hmem
    · cases heq
      exact .inl ⟨rfl, hx⟩
    · exact .inr ⟨spots', hmem, hx⟩
  · rintro (⟨rfl, hx⟩ | ⟨spots', hmem, hx⟩)
    · exact ⟨spots, by simp, hx⟩
    · exact ⟨spots', List.mem_cons_of_mem _ hmem, hx⟩

theorem mem_of_sees {group : TypeName} {x : Spot} (h : Sees legs group x) :
    group ∈ legs.map (·.1) := by
  obtain ⟨spots, hmem, -⟩ := h
  exact List.mem_map_of_mem hmem

theorem sees_start (h : c.Toured depth root marked legs) {group : TypeName}
    (hmem : group ∈ legs.map (·.1)) : Sees legs group (root, .root) := by
  obtain ⟨⟨g, spots⟩, hleg, rfl⟩ := List.mem_map.1 hmem
  obtain ⟨_, -, htour⟩ := tourFrom_of_mem h hleg
  exact ⟨spots, hleg, start_mem htour⟩

theorem mem_of_parting : ∀ {gs hs : List TypeName} {g : TypeName}, parting gs hs = some g → g ∈ gs
  | [], _, _, h => by simp [parting] at h
  | _ :: _, [], _, h => by simp [parting] at h
  | a :: gs, b :: hs, g, h => by
    unfold parting at h
    split at h
    · exact List.mem_cons_of_mem _ (mem_of_parting h)
    · cases h
      simp

theorem spots_eq_of_nodup {group : TypeName} {spots' : List Spot} :
    ∀ {legs : List (TypeName × List Spot)}, (legs.map (·.1)).Nodup → (group, spots) ∈ legs →
    (group, spots') ∈ legs → spots = spots'
  | (g, first) :: legs, hnodup, h, h' => by
    rw [List.map_cons, List.nodup_cons] at hnodup
    have hnotin : ∀ {a spots}, (a, spots) ∈ legs → a ≠ g := fun hmem heq =>
      hnodup.1 (List.mem_map.2 ⟨_, hmem, heq⟩)
    rcases List.mem_cons.1 h with heq | htail <;> rcases List.mem_cons.1 h' with heq' | htail'
    · exact congrArg Prod.snd (heq.trans heq'.symm)
    · exact absurd (congrArg Prod.fst heq) (hnotin htail')
    · exact absurd (congrArg Prod.fst heq') (hnotin htail)
    · exact spots_eq_of_nodup hnodup.2 htail htail'

/-- Behind tours for the same group, one series spares the other as from their start. -/
theorem spares_cons {g : TypeName} {gs hs : List TypeName} (hgs : g ∉ gs) :
    Spares (Sees ((g, spots) :: legs)) (g :: gs) (g :: hs) ↔
      Spares (Sees legs) gs hs := by
  have hparting : parting (g :: gs) (g :: hs) = parting gs hs := if_pos rfl
  have hne : ∀ {a}, a ∈ gs → a ≠ g := fun ha heq => hgs (heq ▸ ha)
  have hsees : ∀ {a x}, a ∈ gs → (Sees ((g, spots) :: legs) a x ↔ Sees legs a x) := fun ha => by
    rw [sees_cons]
    exact or_iff_right fun h => hne ha h.1
  unfold Spares
  rw [hparting]
  refine and_congr ⟨fun h a ha => ?_, fun h => List.cons_subset_cons g h⟩
    (forall_congr' fun a => imp_congr_right fun ha => ?_)
  · exact (List.mem_cons.1 (h (List.mem_cons_of_mem _ ha))).resolve_left (hne ha)
  · simp only [hsees (mem_of_parting ha)]

/-- What is seen in one series of tours is seen in another one just if the second one spares it. -/
theorem sees_iff_spares : ∀ {legs legs' : List (TypeName × List Spot)} {marked : List Spot},
    c.Toured depth root marked legs → c.Toured depth root marked legs' →
    (legs.map (·.1)).Nodup → (legs'.map (·.1)).Nodup →
    ((∀ g x, Sees legs g x → Sees legs' g x) ↔
      Spares (Sees legs) (legs.map (·.1)) (legs'.map (·.1)))
  | [], legs', marked, _, _, _, _ => by simp [Sees, Spares, parting]
  | (g, spots) :: legs, [], marked, h, _, _, _ => by
    refine ⟨fun hsees => absurd (hsees g _ (sees_start h (by simp))) (by simp [Sees]), ?_⟩
    intro hspares
    simpa using hspares.1
  | (g, spots) :: legs, (g', spots') :: legs', marked, h, h', hnodup, hnodup' => by
    obtain rfl : spots = spots' := Option.some.inj (h.1.symm.trans h'.1)
    rw [List.map_cons, List.nodup_cons] at hnodup hnodup'
    have hne : ∀ {a x}, Sees legs a x → a ≠ g := fun h heq => hnodup.1 (heq ▸ mem_of_sees h)
    by_cases hg : g = g'
    · subst hg
      rw [List.map_cons, List.map_cons, spares_cons hnodup.1,
        ← sees_iff_spares h.2 h'.2 hnodup.2 hnodup'.2]
      refine ⟨?_, ?_⟩
      · intro hsees a x hx
        exact (sees_cons.1 (hsees a x (sees_cons.2 (.inr hx)))).resolve_left fun heq => hne hx heq.1
      · intro hsees a x hx
        exact sees_cons.2 ((sees_cons.1 hx).imp_right (hsees a x))
    · have hparting : parting (g :: legs.map (·.1)) (g' :: legs'.map (·.1)) = some g := if_neg hg
      constructor
      · -- A tour behind one that sees an object at two paths sees it at one of them at most.
        refine fun hsees => ⟨fun a ha => mem_of_sees (hsees a _ (sees_start h ha)), ?_⟩
        intro a ha x path path' hx hx'
        obtain rfl : g = a := Option.some.inj (hparting.symm.trans ha)
        have hspots : ∀ {y}, Sees ((g, spots) :: legs) g y → y ∈ spots := fun hy =>
          ((sees_cons.1 hy).resolve_right fun hy => hne hy rfl).2
        have hlater : ∀ {y}, Sees ((g, spots) :: legs) g y → Sees legs' g y := fun hy =>
          (sees_cons.1 (hsees g _ hy)).resolve_left fun heq => hg heq.1
        obtain ⟨later, hmem, hpath⟩ := hlater hx
        obtain ⟨later', hmem', hpath'⟩ := hlater hx'
        obtain rfl := spots_eq_of_nodup hnodup'.2 hmem hmem'
        obtain ⟨marked', hsubset, htour⟩ := tourFrom_of_mem h'.2 hmem
        exact path_eq_of_marked htour hpath hpath'
          (hsubset (List.mem_append_right _ (hspots hx)))
          (hsubset (List.mem_append_right _ (hspots hx')))
      · -- A tour that sees no object at two paths is what all later ones come to.
        intro hspares a x hx
        have honce : Once spots := fun y path path' hy hy' =>
          hspares.2 g hparting y path path' ⟨spots, by simp, hy⟩ ⟨spots, by simp, hy'⟩
        obtain ⟨later, hmem, hx⟩ := hx
        obtain rfl := eq_of_once honce h.1 h hmem
        obtain ⟨⟨a', later'⟩, hmem', rfl⟩ := List.mem_map.1 (hspares.1 (List.mem_map_of_mem hmem))
        obtain rfl := eq_of_once honce h'.1 h' hmem'
        exact ⟨_, hmem', hx⟩

end Call

end ObjectValidation
