import Mathlib.Data.List.Infix
import ObjectValidation.Constraint.Standard
import ObjectValidation.Proofs.Evaluation
/-!
# What a composed constraint reports

A constraint is a tree: it is composed of constraints that apply to the same value. The declarations in
it have addresses, the numbers of the parts that lead to them. Each declaration that rejects the value is
reported by the topmost one above it that reports as single, or by itself if there is none
(`Constraint.reporter`).

What is reported for a value are the declarations at the addresses that report something, each of them
once, in the order in which a walk from the top comes by them (`Call.failing_reports`). This holds
although the parts after a failing one are not evaluated where one is enough.
-/

namespace ObjectValidation
namespace Constraint

/-- A property of constraints that each one has if its parts do holds of all. -/
@[elab_as_elim]
theorem induction_parts {P : Constraint → Prop}
    (h : ∀ c : Constraint, (∀ part ∈ c.composing, P part) → P c) (c : Constraint) : P c :=
  h c fun part _ => induction_parts h part
termination_by sizeOf c
decreasing_by
  rename_i hpart
  have hlt := List.sizeOf_lt_of_mem hpart
  cases c
  simp only [Constraint.mk.sizeOf_spec] at hlt ⊢
  omega

/-- The declaration at an address: the constraint itself at the empty one, and otherwise the one that
the rest of the address leads to in the part with the first number. -/
def at? : Constraint → List Nat → Option Constraint
  | c, [] => some c
  | c, i :: a => (c.composing[i]?).bind fun part => part.at? a

/-- The address of the declaration that reports the failure of the one at an address: the topmost one on
the way there that reports as single, or that one itself. -/
def reporter (c : Constraint) (a : List Nat) : List Nat :=
  (a.inits.find? fun b => (c.at? b).any (·.reportAsSingle)).getD a

variable {c part : Constraint} {a : List Nat} {i : Nat}

@[simp] theorem at?_nil : c.at? [] = some c := by
  unfold at?
  rfl

@[simp] theorem at?_cons : c.at? (i :: a) = (c.composing[i]?).bind (·.at? a) := by
  rw [at?]

/-- What holds of all declarations in a constraint holds of itself and of all in its parts. -/
theorem forall_at?_iff {P : Constraint → Prop} : (∀ a part, c.at? a = some part → P part) ↔
    P c ∧ ∀ part ∈ c.composing, ∀ a nested, part.at? a = some nested → P nested := by
  constructor
  · refine fun h => ⟨h [] c at?_nil, fun part hpart a nested ha => ?_⟩
    obtain ⟨i, hi⟩ := List.mem_iff_getElem?.1 hpart
    exact h (i :: a) nested (by simpa [hi] using ha)
  · rintro ⟨hc, hparts⟩ a part ha
    cases a with
    | nil =>
      obtain rfl : c = part := by simpa using ha
      exact hc
    | cons i a =>
      obtain ⟨above, hi, ha⟩ := Option.bind_eq_some_iff.1 (at?_cons.symm.trans ha)
      exact hparts above (List.mem_of_getElem? hi) a part ha

theorem reporter_of_single (h : c.reportAsSingle) : c.reporter a = [] := by
  cases a <;> simp [reporter, h]

@[simp] theorem reporter_nil : c.reporter [] = [] := by
  cases h : c.reportAsSingle <;> simp [reporter, h]

/-- Where a constraint does not report as single, the failures of a part are reported as the part would
report them. -/
theorem reporter_cons (hc : c.reportAsSingle = false) (hpart : c.composing[i]? = some part) :
    c.reporter (i :: a) = i :: part.reporter a := by
  have hbelow : ∀ b : List Nat, (c.at? (i :: b)).any (·.reportAsSingle) =
      (part.at? b).any (·.reportAsSingle) := by
    intro b
    rw [at?_cons, hpart, Option.bind_some]
  unfold reporter
  rw [List.inits_cons, List.find?_cons, at?_nil, Option.any_some, hc]
  simp only [List.find?_map, Function.comp_def, hbelow]
  cases List.find? (fun b => (part.at? b).any (·.reportAsSingle)) a.inits <;> rfl

/-! ### What is reported -/

variable {judge : Constraint → Except Error (Option Bool)}

theorem failing_eq_ok {ks : List Constraint} : c.failing judge = .ok ks ↔
    ∃ verdict parts, judge c = .ok verdict ∧
      failingParts judge c.reportAsSingle c.composing = .ok parts ∧
      ks = if c.reportAsSingle && !parts.isEmpty then [c]
        else (if verdict = some false then [c] else []) ++ parts := by
  obtain ⟨_, _, _, _, composing, single, _, _, _⟩ := c
  unfold failing
  simp only [bind_eq_ok]
  refine exists_congr fun verdict => ?_
  constructor
  · rintro ⟨hv, parts, hparts, h⟩
    refine ⟨parts, hv, hparts, ?_⟩
    split at h
    · next hs =>
      cases h
      rw [if_pos hs]
    · next hs =>
      cases h
      rw [if_neg hs]
  · rintro ⟨parts, hv, hparts, rfl⟩
    refine ⟨hv, parts, hparts, ?_⟩
    split <;> rfl

/-- Parts that fail each on its own fail one after the other, if not the first one is enough. -/
theorem failingParts_eq_flatMap {f : Constraint → List Constraint} : ∀ {parts : List Constraint},
    (∀ part ∈ parts, part.failing judge = .ok (f part)) →
    failingParts judge false parts = .ok (parts.flatMap f)
  | [], _ => rfl
  | part :: rest, h => by
    obtain ⟨hpart, hrest⟩ := List.forall_mem_cons.1 h
    unfold failingParts
    rw [hpart, failingParts_eq_flatMap hrest]
    rfl

/-- Where one failing part is enough, none is found just if no part fails. -/
theorem failingParts_single {f : Constraint → List Constraint} : ∀ {parts : List Constraint},
    (∀ part ∈ parts, part.failing judge = .ok (f part)) →
    ∃ ks, failingParts judge true parts = .ok ks ∧ (ks = [] ↔ ∀ part ∈ parts, f part = [])
  | [], _ => ⟨[], rfl, by simp⟩
  | part :: rest, h => by
    obtain ⟨hpart, hrest⟩ := List.forall_mem_cons.1 h
    obtain ⟨ks, hks, hnone⟩ := failingParts_single hrest
    unfold failingParts
    rw [hpart, hks]
    cases hf : f part with
    | nil => exact ⟨ks, rfl, by simp [hf, hnone]⟩
    | cons k others => exact ⟨k :: others, rfl, by simp [hf]⟩

/-- Whether addresses are, from the top down and from the first part to the last, those of the
declarations that report the failures in a constraint. -/
structure Reports (judge : Constraint → Except Error (Option Bool)) (c : Constraint)
    (reported : List (List Nat)) : Prop where
  ascending : reported.Pairwise (· < ·)
  mem_iff : ∀ a, a ∈ reported ↔
    ∃ b part, c.at? b = some part ∧ judge part = .ok (some false) ∧ c.reporter b = a

/-- Nothing is reported just where no declaration rejects the value. -/
theorem Reports.eq_nil_iff {reported : List (List Nat)} (h : Reports judge c reported) :
    reported = [] ↔ ∀ a part, c.at? a = some part → judge part ≠ .ok (some false) := by
  constructor
  · rintro rfl a part hpart hrejects
    exact List.not_mem_nil ((h.mem_iff _).2 ⟨a, part, hpart, hrejects, rfl⟩)
  · intro haccepts
    refine List.eq_nil_iff_forall_not_mem.2 fun a ha => ?_
    obtain ⟨b, part, hpart, hrejects, -⟩ := (h.mem_iff a).1 ha
    exact haccepts b part hpart hrejects

theorem reports_nil (h : ∀ a part, c.at? a = some part → judge part ≠ .ok (some false)) :
    Reports judge c [] := by
  refine ⟨.nil, fun a => ⟨fun ha => absurd ha List.not_mem_nil, ?_⟩⟩
  rintro ⟨b, part, hpart, hrejects, -⟩
  exact absurd hrejects (h b part hpart)

theorem reports_of_single (hc : c.reportAsSingle)
    (h : ∃ a part, c.at? a = some part ∧ judge part = .ok (some false)) : Reports judge c [[]] := by
  refine ⟨List.pairwise_singleton _ _, fun a => ?_⟩
  simp only [List.mem_singleton, reporter_of_single hc]
  obtain ⟨b, part, hpart, hrejects⟩ := h
  exact ⟨fun ha => ⟨b, part, hpart, hrejects, ha.symm⟩, fun ⟨_, _, _, _, ha⟩ => ha.symm⟩

/-- The addresses in a list of parts, of which each has its number in front. -/
def inParts (parts : List Constraint) (f : Constraint → List (List Nat)) : List (List Nat) :=
  parts.zipIdx.flatMap fun (part, i) => (f part).map (i :: ·)

theorem cons_mem_inParts {parts : List Constraint} {f : Constraint → List (List Nat)} :
    i :: a ∈ inParts parts f ↔ ∃ part, parts[i]? = some part ∧ a ∈ f part := by
  simp only [inParts, List.mem_flatMap, List.mem_map, Prod.exists, List.mem_zipIdx_iff_getElem?]
  constructor
  · rintro ⟨part, j, hpart, b, hb, heq⟩
    cases heq
    exact ⟨part, hpart, hb⟩
  · rintro ⟨part, hpart, ha⟩
    exact ⟨part, i, hpart, a, ha, rfl⟩

theorem nil_notMem_inParts {parts : List Constraint} {f : Constraint → List (List Nat)} :
    [] ∉ inParts parts f := by simp [inParts]

theorem pairwise_inParts {parts : List Constraint} {f : Constraint → List (List Nat)}
    (h : ∀ part ∈ parts, (f part).Pairwise (· < ·)) : (inParts parts f).Pairwise (· < ·) := by
  have hnumbers : parts.zipIdx.Pairwise fun x y => x.2 < y.2 := by
    rw [← List.pairwise_map (f := Prod.snd), List.zipIdx_map_snd]
    exact List.pairwise_lt_range'
  refine List.pairwise_flatMap.2 ⟨fun ⟨part, i⟩ hpart => ?_, hnumbers.imp fun hlt a ha b hb => ?_⟩
  · have hmem := List.mem_of_getElem? (List.mem_zipIdx_iff_getElem?.1 hpart)
    exact List.pairwise_map.2 ((h part hmem).imp fun hab => List.cons_lt_cons_iff.2 (.inr ⟨rfl, hab⟩))
  · obtain ⟨a, -, rfl⟩ := List.mem_map.1 ha
    obtain ⟨b, -, rfl⟩ := List.mem_map.1 hb
    exact List.cons_lt_cons_iff.2 (.inl hlt)

/-- The declarations at the addresses in a list of parts are those at the addresses in each of them. -/
theorem map_at?_inParts {f : Constraint → List (List Nat)} :
    (inParts c.composing f).map c.at? = c.composing.flatMap fun part => (f part).map part.at? := by
  have hpart : ∀ x ∈ c.composing.zipIdx, ((f x.1).map (x.2 :: ·)).map c.at? =
      (f x.1).map x.1.at? := by
    intro x hx
    have hx := List.mem_zipIdx_iff_getElem?.1 hx
    simp [hx]
  unfold inParts
  rw [List.map_flatMap, List.flatMap_congr hpart]
  conv_rhs => rw [← List.zipIdx_map_fst 0 c.composing, List.flatMap_map]

/-- A constraint that does not report as single is in front of what its parts report. -/
theorem reports_of_parts (hc : c.reportAsSingle = false) {verdict : Option Bool}
    (hv : judge c = .ok verdict) {f : Constraint → List (List Nat)}
    (hf : ∀ part ∈ c.composing, Reports judge part (f part)) :
    Reports judge c ((if verdict = some false then [[]] else []) ++ inParts c.composing f) := by
  have hown : ∀ a, a ∈ (if verdict = some false then [[]] else [] : List (List Nat)) ↔
      a = [] ∧ judge c = .ok (some false) := by
    intro a
    rw [hv]
    split <;> simp_all
  refine ⟨List.pairwise_append.2 ⟨?_, pairwise_inParts fun part hpart => (hf part hpart).ascending, ?_⟩,
    fun a => ?_⟩
  · split <;> simp
  · intro a ha b hb
    obtain ⟨rfl, -⟩ := (hown a).1 ha
    cases b with
    | nil => exact absurd hb nil_notMem_inParts
    | cons i b => exact List.nil_lt_cons i b
  rw [List.mem_append, hown]
  constructor
  · rintro (⟨rfl, hrejects⟩ | ha)
    · exact ⟨[], c, at?_nil, hrejects, reporter_nil⟩
    · cases a with
      | nil => exact absurd ha nil_notMem_inParts
      | cons i a =>
        obtain ⟨part, hpart, ha⟩ := cons_mem_inParts.1 ha
        obtain ⟨b, failed, hb, hrejects, rfl⟩ :=
          ((hf part (List.mem_of_getElem? hpart)).mem_iff a).1 ha
        exact ⟨i :: b, failed, by simpa [hpart] using hb, hrejects, reporter_cons hc hpart⟩
  · rintro ⟨b, failed, hb, hrejects, rfl⟩
    cases b with
    | nil =>
      obtain rfl : c = failed := by simpa using hb
      exact .inl ⟨reporter_nil, hrejects⟩
    | cons i b =>
      obtain ⟨part, hpart, hb⟩ := Option.bind_eq_some_iff.1 (at?_cons.symm.trans hb)
      rw [reporter_cons hc hpart]
      refine .inr (cons_mem_inParts.2 ⟨part, hpart, ?_⟩)
      exact ((hf part (List.mem_of_getElem? hpart)).mem_iff _).2 ⟨b, failed, hb, hrejects, rfl⟩

/-- A constraint that reports as single is all that is reported if it or a part of it rejects the value,
for which it does not matter that the parts after the first one that fails are not looked at. -/
theorem exists_reports_of_single (hc : c.reportAsSingle) {verdict : Option Bool}
    (hv : judge c = .ok verdict) {f : Constraint → List (List Nat)} {ks : Constraint → List Constraint}
    (hfailing : ∀ part ∈ c.composing, part.failing judge = .ok (ks part))
    (hks : ∀ part ∈ c.composing, (ks part).map some = (f part).map part.at?)
    (hf : ∀ part ∈ c.composing, Reports judge part (f part)) :
    ∃ reported failed, c.failing judge = .ok failed ∧ failed.map some = reported.map c.at? ∧
      Reports judge c reported := by
  obtain ⟨found, hfound, hnone⟩ := failingParts_single hfailing
  have hparts : ∀ part ∈ c.composing, ((∀ a failed, part.at? a = some failed →
      judge failed ≠ .ok (some false)) ↔ ks part = []) := by
    intro part hpart
    rw [← (hf part hpart).eq_nil_iff, ← List.map_eq_nil_iff (f := part.at?), ← hks part hpart,
      List.map_eq_nil_iff]
  have haccepts : (∀ a part, c.at? a = some part → judge part ≠ .ok (some false)) ↔
      verdict ≠ some false ∧ found = [] := by
    rw [forall_at?_iff, hnone, forall₂_congr hparts, hv, ne_eq, Except.ok.injEq]
  have hfailed : c.failing judge = .ok (if verdict ≠ some false ∧ found = [] then [] else [c]) := by
    rw [failing_eq_ok]
    refine ⟨verdict, found, hv, hc ▸ hfound, ?_⟩
    cases found <;> simp [hc]
  by_cases hall : ∀ a part, c.at? a = some part → judge part ≠ .ok (some false)
  · refine ⟨[], [], ?_, rfl, reports_nil hall⟩
    rw [hfailed, if_pos (haccepts.1 hall)]
  · refine ⟨[[]], [c], ?_, by simp, reports_of_single hc ?_⟩
    · rw [hfailed, if_neg (mt haccepts.2 hall)]
    · push Not at hall
      exact hall

/-- Where each declaration in a constraint has a verdict, the constraint reports the declarations at the
addresses that report its failures. -/
theorem exists_reports (c : Constraint) :
    (∀ a part, c.at? a = some part → ∃ verdict, judge part = .ok verdict) →
    ∃ reported ks, c.failing judge = .ok ks ∧ ks.map some = reported.map c.at? ∧
      Reports judge c reported := by
  induction c using induction_parts with
  | h c ih =>
    intro hjudge
    obtain ⟨⟨verdict, hv⟩, hparts⟩ := forall_at?_iff.1 hjudge
    choose! reported ks hfailing hks hreports using fun part hpart => ih part hpart (hparts part hpart)
    -- What parts report is kept in full or only asked for its emptiness, and one failing part is enough
    -- just in the second case.
    cases hc : c.reportAsSingle with
    | false =>
      refine ⟨_, _, failing_eq_ok.2 ⟨verdict, _, hv, hc ▸ failingParts_eq_flatMap hfailing, rfl⟩, ?_,
        reports_of_parts hc hv hreports⟩
      have hown : (if verdict = some false then [c] else []).map some =
          (if verdict = some false then [[]] else [] : List (List Nat)).map c.at? := by
        split <;> simp
      rw [hc, Bool.false_and, if_neg Bool.false_ne_true, List.map_append, List.map_append, hown,
        map_at?_inParts, List.map_flatMap, List.flatMap_congr hks]
    | true => exact exists_reports_of_single hc hv hfailing hks hreports

theorem failing_of_failingParts_nil {single : Bool} : ∀ {parts : List Constraint},
    failingParts judge single parts = .ok [] → ∀ part ∈ parts, part.failing judge = .ok []
  | [], _ => by simp
  | part :: rest, h => by
    unfold failingParts at h
    obtain ⟨nested, hnested, h⟩ := bind_eq_ok.1 h
    split at h
    · next hfound =>
      cases h
      simp at hfound
    · obtain ⟨others, hothers, h⟩ := bind_eq_ok.1 h
      obtain ⟨rfl, rfl⟩ : nested = [] ∧ others = [] := by simpa [pure, Except.pure] using h
      exact List.forall_mem_cons.2 ⟨hnested, failing_of_failingParts_nil hothers⟩

/-- Nothing fails just where each declaration accepts the value, or is composed and has no verdict of
its own. -/
theorem failing_eq_nil_iff (c : Constraint) : c.failing judge = .ok [] ↔
    ∀ a part, c.at? a = some part → judge part = .ok none ∨ judge part = .ok (some true) := by
  constructor
  · induction c using induction_parts with
    | h c ih =>
      intro h
      obtain ⟨verdict, parts, hv, hparts, hnil⟩ := failing_eq_ok.1 h
      obtain ⟨hown, rfl⟩ : verdict ≠ some false ∧ parts = [] := by
        split at hnil
        · simp at hnil
        · simpa using hnil.symm
      refine forall_at?_iff.2 ⟨?_, fun part hpart =>
        ih part hpart (failing_of_failingParts_nil hparts part hpart)⟩
      obtain _ | _ | _ := verdict
      · exact .inl hv
      · exact absurd rfl hown
      · exact .inr hv
  · intro h
    have hverdicts : ∀ a part, c.at? a = some part → ∃ verdict, judge part = .ok verdict :=
      fun a part hpart => (h a part hpart).elim (fun hv => ⟨_, hv⟩) fun hv => ⟨_, hv⟩
    obtain ⟨reported, ks, hks, hmap, hreports⟩ := exists_reports c hverdicts
    have hnone : reported = [] := hreports.eq_nil_iff.2 fun a part hpart hrejects => by
      obtain hv | hv := h a part hpart <;> simp [hv] at hrejects
    rw [hnone, List.map_nil, List.map_eq_nil_iff] at hmap
    rw [hks, hmap]

end Constraint

namespace Call

variable {c : Call} {site : EvaluationSite} {value : Value} {k : Constraint}

/-- A constraint of which each declaration can be evaluated reports for a value, from the top down and
from the first part to the last, each declaration once that reports the rejection of the value by one:
nothing just if all that have an evaluator accept the value. All that it leaves behind in the call are
the consultations of evaluators. -/
theorem failing_reports
    (h : ∀ a part, k.at? a = some part → ∃ verdict, c.verdict site value part = .ok verdict)
    (p : Progress) :
    ∃ (reported : List (List Nat)) (ks : List Constraint) (es : List Event),
      (∀ e ∈ es, e.isConsulted) ∧
      (k.failing (c.judge site value)).exec p = (.ok ks, p.after es []) ∧
      ks.map some = reported.map k.at? ∧ reported.Pairwise (· < ·) ∧
      (∀ a, a ∈ reported ↔ ∃ b part, k.at? b = some part ∧
        c.verdict site value part = .ok (some false) ∧ k.reporter b = a) ∧
      (ks = [] ↔ ∀ a part valid, k.at? a = some part →
        c.verdict site value part = .ok (some valid) → valid = true) := by
  obtain ⟨reported, ks, hks, hmap, hreports⟩ := Constraint.exists_reports k h
  obtain ⟨q, hq⟩ := failing_exec k hks p
  obtain ⟨-, es, hes, rfl⟩ := failing_ok k hq
  refine ⟨reported, ks, es, hes, hq, hmap, hreports.ascending, hreports.mem_iff, ?_⟩
  rw [← List.map_eq_nil_iff (f := some), hmap, List.map_eq_nil_iff, hreports.eq_nil_iff]
  refine forall₂_congr fun a part => ⟨fun hpart valid ha hv => ?_, fun hvalid ha hv => ?_⟩
  · cases valid with
    | false => exact absurd hv (hpart ha)
    | true => rfl
  · cases hvalid false ha hv

/-- A call that validates values on their own. -/
def bare : Call where
  registry := .initial
  evaluators := Standard.evaluators
  config := {}
  store := ⟨[]⟩
  root := none
  rootType := ⟨"Product"⟩
  depth := 0

/-- A product code is not blank and is an article number, which counts as one demand: three characters
long and not empty. -/
def productCode : Constraint where
  kind := "ProductCode"
  composing := [
    { kind := "NotBlank" },
    { kind := "ArticleNumber", reportAsSingle := true, composing := [
      { kind := "NotEmpty" }, { kind := "Size", attributes := [("max", .int 3), ("min", .int 3)] }] },
    { kind := "NotNull" }]

/-- The empty text is reported as blank and as no article number. -/
theorem failing_reports_productCode :
    ∃ (reported : List (List Nat)) (ks : List Constraint),
      ((productCode.failing (bare.judge (bare.siteAt none .root) (.str ""))).exec
        { memory := {} }).1 = .ok ks ∧
      ks.map (·.kind) = ["NotBlank", "ArticleNumber"] ∧ ks.map some = reported.map productCode.at? ∧
      reported.Pairwise (· < ·) ∧ [0] ∈ reported ∧ [1] ∈ reported := by
  have hverdicts : ∀ a part, productCode.at? a = some part →
      ∃ verdict, bare.verdict (bare.siteAt none .root) (.str "") part = .ok verdict := by
    have hown : ∀ part : Constraint,
        (bare.verdict (bare.siteAt none .root) (.str "") part).toOption.isSome →
        ∃ verdict, bare.verdict (bare.siteAt none .root) (.str "") part = .ok verdict := by
      intro part h
      obtain ⟨verdict, hverdict⟩ := Option.isSome_iff_exists.1 h
      exact ⟨verdict, toOption_eq_some hverdict⟩
    have hplain : ∀ part : Constraint, part.composing = [] →
        (bare.verdict (bare.siteAt none .root) (.str "") part).toOption.isSome →
        ∀ a nested, part.at? a = some nested →
          ∃ verdict, bare.verdict (bare.siteAt none .root) (.str "") nested = .ok verdict :=
      fun part hparts h => Constraint.forall_at?_iff.2 ⟨hown part h, by simp [hparts]⟩
    refine Constraint.forall_at?_iff.2 ⟨hown _ (by decide +kernel), ?_⟩
    simp only [productCode, List.forall_mem_cons]
    refine ⟨hplain _ rfl (by decide +kernel), ?_, hplain _ rfl (by decide +kernel), by simp⟩
    refine Constraint.forall_at?_iff.2 ⟨hown _ (by decide +kernel), ?_⟩
    simp only [List.forall_mem_cons]
    exact ⟨hplain _ rfl (by decide +kernel), hplain _ rfl (by decide +kernel), by simp⟩
  have hkinds : (productCode.failing (bare.verdict (bare.siteAt none .root) (.str ""))).toOption.map
      (·.map (·.kind)) = some ["NotBlank", "ArticleNumber"] := by decide +kernel
  obtain ⟨reported, ks, es, -, hks, hmap, hascending, hreported, -⟩ :=
    failing_reports hverdicts { memory := {} }
  rw [(failing_ok _ hks).1] at hkinds
  refine ⟨reported, ks, by rw [hks], Option.some.inj hkinds, hmap, hascending, ?_, ?_⟩
  · exact (hreported [0]).2 ⟨[0], _, rfl, toOption_eq_some (by decide +kernel), rfl⟩
  · exact (hreported [1]).2 ⟨[1, 0], _, rfl, toOption_eq_some (by decide +kernel), rfl⟩

end Call

end ObjectValidation
