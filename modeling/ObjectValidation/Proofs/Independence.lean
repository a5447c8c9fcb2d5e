import ObjectValidation.Proofs.Findings
import ObjectValidation.Proofs.Registries
import ObjectValidation.Proofs.Visits
/-!
# Requests of more groups

A call marks where an object has been validated, but not for which group: the marks of one group count
for the groups after it as well. So what a request finds need not be found if it is made along with
other groups. Where the two requests come to different groups first, whatever the first request
validates at one path alone is validated in the second one too, and an object that it validates at two
paths is not (`validate_append`).
-/

namespace ObjectValidation

open Run

namespace Call

variable {c : Call}

/-- What one validation finds is found at an object and a path where it has begun for a group, and
another validation finds it if it has begun there as well. -/
theorem begun_of_mem_violations {o q o' q' : Progress} {R : ObjectId → Path → TypeName → Prop}
    (hord : ∀ types, c.Ordinary types) (ho : o.violations = []) (hlogs : c.Logs c.Traced o q)
    (ho' : o'.processedConstraints = []) (hlogs' : c.Logs c.Traced o' q')
    (hq : c.stops q = false) (hq' : c.stops q' = false)
    (hfinished : ∀ object path group, .began object path group ∈ q'.journal →
      c.Finished R o' q' object path group) {v : Violation} (hv : v ∈ q.violations) :
    ∃ x path group, v.leaf = some x ∧ .began (some x) path group ∈ q.journal ∧
      (.began (some x) path group ∈ q'.journal → ∃ w ∈ q'.violations, w.key = v.key) := by
  obtain ⟨s, group, hs, hleaf, hbegan, hfinds⟩ := found_where_walked hord ho hlogs hq hv
  obtain ⟨x, hx, -⟩ := hs.object
  refine ⟨x, s.path, group, hleaf.trans hx, hx ▸ hbegan, ?_⟩
  intro hbegan'
  obtain ⟨s', y, hs', hy, hobject, hpath, -, hwalked, -⟩ := hfinished _ _ _ hbegan'
  obtain rfl := hs'.eq hs (hy.trans (hobject.symm.trans hx.symm)) hpath
  exact hfinds o' q' ho' hlogs' hq' hwalked

end Call

namespace Validator

open Call

variable {v : Validator} {root : ObjectId} {gs hs : List TypeName} {vs ws : List Violation}

/-- Whether the validation of an object for a request has begun for a group at a spot. -/
def Begins (v : Validator) (root : ObjectId) (gs : List TypeName) (group : TypeName) (x : Spot) :
    Prop := .began (some x.1) x.2 group ∈ (v.validate root gs).journal

/-- A validation begins wherever it has begun with fewer groups just if, where the two requests part,
the smaller one begins at no more than one path for each object. Then it also finds all that is found
for the smaller request; whatever else it does not find belongs to an object that it has not begun at
some path for some group. -/
theorem validate_append (hv : v.Coherent) (htrack : v.config.trackProcessed)
    (hfast : v.config.failFast = false) (hconversions : v.registry.WithoutConversions)
    (hredefinitions : v.registry.WithoutRedefinitions)
    (hplain : ∀ g ∈ gs ++ hs, Order.IsPlain v.registry g)
    (h : (v.validate root hs).answer = .ok vs)
    (h' : (v.validate root (gs ++ hs)).answer = .ok ws) :
    ((∀ g x, v.Begins root hs g x → v.Begins root (gs ++ hs) g x) ↔
      Spares (v.Begins root hs) (Order.requested v.registry hs)
        (Order.requested v.registry (gs ++ hs))) ∧
    (Spares (v.Begins root hs) (Order.requested v.registry hs)
        (Order.requested v.registry (gs ++ hs)) →
      ∀ violation ∈ vs, ∃ w ∈ ws, w.key = violation.key) ∧
    ∀ violation ∈ vs, (∀ w ∈ ws, w.key ≠ violation.key) → ∃ g x,
      violation.leaf = some x.1 ∧ v.Begins root hs g x ∧ ¬ v.Begins root (gs ++ hs) g x := by
  have hord := ordinary_of_withoutRedefinitions (c := v.callOn root) hredefinitions
  have hkeeps : ∀ x, ∀ r ∈ (v.callOn root).references x, r.KeepsGroups := fun x r hr =>
    keepsGroups_of_withoutConversions hconversions hr
  have hstops : ∀ q, (v.callOn root).stops q = false := by
    intro q
    simp [Call.stops, callWithin, Validator.call, hfast]
  obtain ⟨q, hexec, hjournal⟩ := v.exec_validateWithin v.depth root hs
  obtain ⟨q', hexec', hjournal'⟩ := v.exec_validateWithin v.depth root (gs ++ hs)
  rw [← validate_eq, h] at hexec
  rw [← validate_eq, h'] at hexec'
  have hhs : ∀ g ∈ hs, Order.IsPlain v.registry g := fun g hg =>
    hplain g (List.mem_append_right _ hg)
  obtain ⟨legs, hnames, htoured, hsees⟩ := validate_tours (c := v.callOn root) htrack hkeeps hord hv hhs
    hexec (hstops q)
  obtain ⟨legs', hnames', htoured', hsees'⟩ := validate_tours (c := v.callOn root) htrack hkeeps hord hv
    hplain hexec' (hstops q')
  have hbegins : v.Begins root hs = Sees legs := by
    funext g x
    rw [Begins, validate_eq, ← hjournal]
    exact propext (hsees g x)
  have hbegins' : v.Begins root (gs ++ hs) = Sees legs' := by
    funext g x
    rw [Begins, validate_eq, ← hjournal']
    exact propext (hsees' g x)
  have hiff : (∀ g x, v.Begins root hs g x → v.Begins root (gs ++ hs) g x) ↔
      Spares (v.Begins root hs) (Order.requested v.registry hs)
        (Order.requested v.registry (gs ++ hs)) := by
    rw [hbegins, hbegins']
    change _ ↔ Spares _ (Order.requested (v.callOn root).registry hs)
      (Order.requested (v.callOn root).registry (gs ++ hs))
    rw [← hnames, ← hnames']
    exact sees_iff_spares htoured htoured' (hnames ▸ Order.nodup_requested _ _)
      (hnames' ▸ Order.nodup_requested _ _)
  have hclosed : (v.callOn root).Closed fun _ _ _ => True := fun x _ _ _ r hr => ⟨hkeeps x r hr, trivial⟩
  obtain ⟨hlogs, -⟩ := validate_closes (c := v.callOn root) hv hclosed
    (asksFor_of_isPlain hhs fun _ => trivial) hexec (hstops q)
  obtain ⟨hlogs', hfinished, -⟩ := validate_closes (c := v.callOn root) hv hclosed
    (asksFor_of_isPlain hplain fun _ => trivial) hexec' (hstops q')
  obtain ⟨-, -, -, -, -, -, -, rfl⟩ := validate_ok hexec
  obtain ⟨-, -, -, -, -, -, -, rfl⟩ := validate_ok hexec'
  have hfound : ∀ violation ∈ q.violations, ∃ g x, violation.leaf = some x.1 ∧
      v.Begins root hs g x ∧ (v.Begins root (gs ++ hs) g x →
        ∃ w ∈ q'.violations, w.key = violation.key) := by
    intro violation hviolation
    obtain ⟨x, path, group, hleaf, hbegan, hbegan'⟩ := begun_of_mem_violations hord rfl hlogs rfl hlogs'
      (hstops q) (hstops q') hfinished hviolation
    simp only [Begins, validate_eq, ← hjournal, ← hjournal']
    exact ⟨group, (x, path), hleaf, hbegan, hbegan'⟩
  refine ⟨hiff, ?_, ?_⟩
  · intro hspares violation hviolation
    obtain ⟨g, x, -, hbegins, hfinds⟩ := hfound violation hviolation
    exact hfinds (hiff.2 hspares g x hbegins)
  · intro violation hviolation hlost
    obtain ⟨g, x, hleaf, hbegins, hfinds⟩ := hfound violation hviolation
    refine ⟨g, x, hleaf, hbegins, fun hbegins' => ?_⟩
    obtain ⟨w, hw, hkey⟩ := hfinds hbegins'
    exact hlost w hw hkey

/-! ### Two references to leaves -/

/-- The spot at which an event begins the validation of an object, and the group it is for. -/
def beginning? : Event → Option (TypeName × Spot)
  | .began (some x) path group => some (group, (x, path))
  | _ => none

/-- All spots at which the validation of an object for a request has begun. -/
def beginnings (v : Validator) (root : ObjectId) (gs : List TypeName) : List (TypeName × Spot) :=
  (v.validate root gs).journal.filterMap beginning?

theorem begins_iff {group : TypeName} {x : Spot} :
    v.Begins root gs group x ↔ (group, x) ∈ v.beginnings root gs := by
  refine ⟨fun h => List.mem_filterMap.2 ⟨_, h, rfl⟩, ?_⟩
  intro h
  obtain ⟨e, he, hx⟩ := List.mem_filterMap.1 h
  unfold beginning? at hx
  split at hx
  · cases hx
    exact he
  · cases hx

/-- A pair of references to objects of which a name is demanded in the second of two groups. -/
def paired (a b : ObjectId) : Validator where
  registry := [
    { name := ⟨"A"⟩, kind := .interface },
    { name := ⟨"B"⟩, kind := .interface },
    { name := ⟨"Leaf"⟩, kind := .concrete,
      fields := [⟨"name", { own := { constraints := [{ kind := "NotNull", groups := [⟨"B"⟩] }] } }⟩] },
    { name := ⟨"Pair"⟩, kind := .concrete, fields := [⟨"a", { own := { cascading := true } }⟩,
      ⟨"b", { own := { cascading := true } }⟩] : TypeDefinition }
    ].foldl Registry.register .initial
  evaluators := Standard.evaluators
  config := {}
  store := ⟨[(⟨"p"⟩, ⟨⟨"Pair"⟩, [("a", .object a), ("b", .object b)]⟩), (⟨"x"⟩, ⟨⟨"Leaf"⟩, []⟩),
    (⟨"y"⟩, ⟨⟨"Leaf"⟩, []⟩)]⟩
  memory := {}

/-- Where the references lead to two leaves, what is found for the second group alone is found for
both groups. -/
theorem validate_append_paired :
    ∃ vs ws, ((paired ⟨"x"⟩ ⟨"y"⟩).validate ⟨"p"⟩ [⟨"B"⟩]).answer = .ok vs ∧
      ((paired ⟨"x"⟩ ⟨"y"⟩).validate ⟨"p"⟩ ([⟨"A"⟩] ++ [⟨"B"⟩])).answer = .ok ws ∧
      vs.length = 2 ∧ ∀ violation ∈ vs, ∃ w ∈ ws, w.key = violation.key := by
  have hfound : ((paired ⟨"x"⟩ ⟨"y"⟩).validate ⟨"p"⟩ [⟨"B"⟩]).answer.toOption.map (·.length) = some 2 := by
    decide +kernel
  have hfound' : ((paired ⟨"x"⟩ ⟨"y"⟩).validate ⟨"p"⟩ ([⟨"A"⟩] ++ [⟨"B"⟩])).answer.toOption.isSome := by
    decide +kernel
  obtain ⟨vs, hvs, hlength⟩ := Option.map_eq_some_iff.1 hfound
  obtain ⟨ws, hws⟩ := Option.isSome_iff_exists.1 hfound'
  have hcoherent : (paired ⟨"x"⟩ ⟨"y"⟩).Coherent := MetadataCache.coherent_nil _ _
  have hrequested : Order.requested (paired ⟨"x"⟩ ⟨"y"⟩).registry [⟨"B"⟩] = [⟨"B"⟩] ∧
      Order.requested (paired ⟨"x"⟩ ⟨"y"⟩).registry ([⟨"A"⟩] ++ [⟨"B"⟩]) = [⟨"A"⟩, ⟨"B"⟩] := by
    decide +kernel
  have honce : ∀ s ∈ (paired ⟨"x"⟩ ⟨"y"⟩).beginnings ⟨"p"⟩ [⟨"B"⟩],
      ∀ s' ∈ (paired ⟨"x"⟩ ⟨"y"⟩).beginnings ⟨"p"⟩ [⟨"B"⟩], s.2.1 = s'.2.1 → s.2.2 = s'.2.2 := by
    decide +kernel
  have hspares : Spares ((paired ⟨"x"⟩ ⟨"y"⟩).Begins ⟨"p"⟩ [⟨"B"⟩])
      (Order.requested (paired ⟨"x"⟩ ⟨"y"⟩).registry [⟨"B"⟩])
      (Order.requested (paired ⟨"x"⟩ ⟨"y"⟩).registry ([⟨"A"⟩] ++ [⟨"B"⟩])) := by
    rw [hrequested.1, hrequested.2]
    exact ⟨by simp, fun g _ x path path' h h' => honce _ (begins_iff.1 h) _ (begins_iff.1 h') rfl⟩
  exact ⟨vs, ws, toOption_eq_some hvs, toOption_eq_some hws, hlength,
    (validate_append hcoherent (by decide) rfl (by decide +kernel) (by decide +kernel)
      (by decide +kernel) (toOption_eq_some hvs) (toOption_eq_some hws)).2.1 hspares⟩

/-- Where both references lead to one leaf, a violation that is found for the second group alone is not
found for both groups. -/
theorem shared_leaf_is_missed :
    (paired ⟨"x"⟩ ⟨"x"⟩).config = {} ∧ (paired ⟨"x"⟩ ⟨"x"⟩).registry.WithoutConversions ∧
      (paired ⟨"x"⟩ ⟨"x"⟩).registry.WithoutRedefinitions ∧
      (∀ g ∈ [⟨"A"⟩, ⟨"B"⟩], Order.IsPlain (paired ⟨"x"⟩ ⟨"x"⟩).registry g) ∧
      ∃ vs ws, ((paired ⟨"x"⟩ ⟨"x"⟩).validate ⟨"p"⟩ [⟨"B"⟩]).answer = .ok vs ∧
        ((paired ⟨"x"⟩ ⟨"x"⟩).validate ⟨"p"⟩ ([⟨"A"⟩] ++ [⟨"B"⟩])).answer = .ok ws ∧
        ∃ violation ∈ vs, ∀ w ∈ ws, w.key ≠ violation.key := by
  refine ⟨rfl, by decide +kernel, by decide +kernel, by decide +kernel, ?_⟩
  have hkeys : ((paired ⟨"x"⟩ ⟨"x"⟩).validate ⟨"p"⟩ [⟨"B"⟩]).answer.toOption.map (·.map (·.key)) =
      some [("a.name", "must not be null", "@NotNull", some ⟨"x"⟩),
        ("b.name", "must not be null", "@NotNull", some ⟨"x"⟩)] := by
    decide +kernel
  have hkeys' : ((paired ⟨"x"⟩ ⟨"x"⟩).validate ⟨"p"⟩ ([⟨"A"⟩] ++ [⟨"B"⟩])).answer.toOption.map
      (·.map (·.key)) = some [("a.name", "must not be null", "@NotNull", some ⟨"x"⟩)] := by
    decide +kernel
  obtain ⟨vs, hvs, hmap⟩ := Option.map_eq_some_iff.1 hkeys
  obtain ⟨ws, hws, hmap'⟩ := Option.map_eq_some_iff.1 hkeys'
  obtain ⟨violation, hviolation, hkey⟩ := List.mem_map.1 (hmap ▸ by simp :
    ("b.name", "must not be null", "@NotNull", some ⟨"x"⟩) ∈ vs.map (·.key))
  refine ⟨vs, ws, toOption_eq_some hvs, toOption_eq_some hws, violation, hviolation, ?_⟩
  intro w hw heq
  have hmem : w.key ∈ ws.map (·.key) := List.mem_map_of_mem hw
  rw [hmap', heq, hkey] at hmem
  simp at hmem

end Validator

end ObjectValidation
