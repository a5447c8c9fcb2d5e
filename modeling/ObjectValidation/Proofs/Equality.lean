import Mathlib.Data.List.Perm.Subperm
import ObjectValidation.Proofs.Demands
/-!
# Equality of declarations

Two declarations are equal if they demand and report the same. What is no number differs from itself, and
groups are compared by count and membership, so that equality is an equivalence where declarations have
no such attributes and list no group twice, which no declaration does that is built (`nodup_groupsOf`).
-/

namespace ObjectValidation

theorem Attribute.same_refl {a : Attribute} (h : a ≠ .float .nan) : a.same a := by
  cases a with
  | float x =>
    rw [same, Binary64.same_iff]
    cases x with
    | nan => exact absurd rfl h
    | infinite negative => exact ⟨_, rfl, rfl⟩
    | finite negative units => exact ⟨_, rfl, rfl⟩
  | _ => simp [same]

theorem Attribute.same_symm : ∀ {a b : Attribute}, a.same b → b.same a
  | .bool _, .bool _, h => by simp_all [same]
  | .int _, .int _, h => by simp_all [same]
  | .str _, .str _, h => by simp_all [same]
  | .float _, .float _, h => by
    simp only [same, Binary64.same_iff] at h ⊢
    obtain ⟨n, hx, hy⟩ := h
    exact ⟨n, hy, hx⟩

namespace Constraint

/-- Whether a declaration and its parts list no group twice and have no attribute that is no number. -/
inductive IsProper : Constraint → Prop
  | intro {c : Constraint} (groups : c.groups.Nodup)
      (attributes : ∀ x ∈ c.attributes, x.2 ≠ .float .nan)
      (parts : ∀ part ∈ c.composing, part.IsProper) : c.IsProper

theorem nodup_firstOccurrences {α : Type} [DecidableEq α] (xs : List α) :
    (firstOccurrences xs).Nodup := by
  suffices hfold : ∀ xs seen : List α, seen.Nodup →
      (xs.foldl (fun seen x => if x ∈ seen then seen else seen ++ [x]) seen).Nodup from
    hfold xs [] .nil
  intro xs
  induction xs with
  | nil => exact fun _ => id
  | cons x xs ih =>
    intro seen hseen
    refine ih _ ?_
    dsimp only
    split
    · exact hseen
    · next hx => exact List.nodup_append.2 ⟨hseen, by simp, by grind⟩

/-- The groups of a declaration that is built differ. -/
theorem nodup_groupsOf (groups : List TypeName) : (groupsOf groups).Nodup := by
  have hnodup := nodup_firstOccurrences groups
  unfold groupsOf
  split
  · simp
  · exact hnodup

theorem sameAttributes_refl : ∀ {as : List (String × Attribute)},
    (∀ x ∈ as, x.2 ≠ .float .nan) → sameAttributes as as
  | [], _ => rfl
  | (_, _) :: _, h => by
    obtain ⟨ha, has⟩ := List.forall_mem_cons.1 h
    simp only [sameAttributes, beq_self_eq_true, Bool.true_and, Bool.and_eq_true]
    exact ⟨Attribute.same_refl ha, sameAttributes_refl has⟩

theorem sameAttributes_symm : ∀ {as bs : List (String × Attribute)},
    sameAttributes as bs → sameAttributes bs as
  | [], [], _ => rfl
  | (_, _) :: _, (_, _) :: _, h => by
    simp only [sameAttributes, Bool.and_eq_true, beq_iff_eq] at h ⊢
    exact ⟨⟨h.1.1.symm, Attribute.same_symm h.1.2⟩, sameAttributes_symm h.2⟩

theorem sameGroups_refl (gs : List TypeName) : sameGroups gs gs := by
  simp [sameGroups]

/-- Lists of one length of which the first repeats nothing and is in the second have the same members. -/
theorem sameGroups_symm {gs hs : List TypeName} (hnodup : gs.Nodup) (h : sameGroups gs hs) :
    sameGroups hs gs := by
  simp only [sameGroups, Bool.and_eq_true, beq_iff_eq, List.all_eq_true, List.contains_iff_mem] at *
  have hperm := (hnodup.subperm h.2).perm_of_length_le (Nat.le_of_eq h.1.symm)
  exact ⟨h.1.symm, fun g => hperm.mem_iff.2⟩

theorem sameAll_refl : ∀ {cs : List Constraint}, (∀ c ∈ cs, c.same c) → sameAll cs cs
  | [], _ => by simp [sameAll]
  | c :: cs, h => by
    obtain ⟨hc, hcs⟩ := List.forall_mem_cons.1 h
    simp only [sameAll, Bool.and_eq_true]
    exact ⟨hc, sameAll_refl hcs⟩

theorem sameAll_symm : ∀ {cs ds : List Constraint}, (∀ c ∈ cs, ∀ d, c.same d → d.same c) →
    sameAll cs ds → sameAll ds cs
  | [], [], _, h => h
  | c :: cs, d :: ds, hsymm, h => by
    obtain ⟨hc, hcs⟩ := List.forall_mem_cons.1 hsymm
    simp only [sameAll, Bool.and_eq_true] at h ⊢
    exact ⟨hc d h.1, sameAll_symm hcs h.2⟩

theorem IsProper.same_refl {c : Constraint} (h : c.IsProper) : c.same c := by
  induction h with
  | @intro c _ attributes _ ih =>
    cases c
    simp only [same, beq_self_eq_true, Bool.true_and, Bool.and_eq_true]
    exact ⟨⟨⟨sameAttributes_refl attributes, trivial⟩, sameGroups_refl _⟩, sameAll_refl ih⟩

theorem IsProper.same_symm {c d : Constraint} (h : c.IsProper) : c.same d → d.same c := by
  induction h generalizing d with
  | @intro c groups _ _ ih =>
    cases c
    cases d
    simp only [same, Bool.and_eq_true, beq_iff_eq]
    rintro ⟨⟨⟨⟨⟨⟨hk, hs⟩, ht⟩, ha⟩, hp⟩, hg⟩, hc⟩
    exact ⟨⟨⟨⟨⟨⟨hk.symm, hs.symm⟩, ht.symm⟩, sameAttributes_symm ha⟩, hp.symm⟩,
      sameGroups_symm groups hg⟩, sameAll_symm (fun part hpart _ => ih part hpart) hc⟩

theorem mem_locatedAll {owner : TypeName} {site : Site} {part : Constraint} :
    ∀ {cs : List Constraint}, part ∈ locatedAll owner site cs ↔ ∃ c ∈ cs, c.located owner site = part
  | [] => by simp [locatedAll]
  | c :: cs => by simp [locatedAll, mem_locatedAll, eq_comm]

/-- A proper declaration stays proper as part of a type. -/
theorem IsProper.located {c : Constraint} (h : c.IsProper) (owner : TypeName) (site : Site) :
    (c.located owner site).IsProper := by
  induction h with
  | @intro c groups attributes _ ih =>
    cases c
    unfold Constraint.located
    refine .intro groups attributes fun part hpart => ?_
    obtain ⟨c, hc, rfl⟩ := mem_locatedAll.1 hpart
    exact ih c hc

theorem isProper_locatedAll {owner : TypeName} {site : Site} {cs : List Constraint}
    (h : ∀ c ∈ cs, c.IsProper) : ∀ k ∈ locatedAll owner site cs, k.IsProper := by
  intro k hk
  obtain ⟨c, hc, rfl⟩ := mem_locatedAll.1 hk
  exact (h c hc).located owner site

end Constraint

end ObjectValidation
