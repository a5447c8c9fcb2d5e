import ObjectValidation.Constraint.Message
/-!
# Messages, segment by segment

A template is written as a list of segments: literal text, in which a backslash stands in front of each
brace and each backslash, and placeholders. Its message is what the segments show, one after the other
(`Constraint.interpolate_written`). It is enough to see that filling in reads each segment to its end,
whatever follows it, and never looks at what it has put out (`fill_written`).
-/

namespace ObjectValidation.Template

/-- The name of a placeholder, which no brace ends early. -/
abbrev PlaceholderName := { name : String // ∀ c ∈ name.toList, c ≠ '{' ∧ c ≠ '}' }

/-- A piece of a template. -/
inductive Segment
  | literal (text : String)
  | placeholder (name : PlaceholderName)

/-- A character of a literal text as it is written in a template. -/
def escaped (c : Char) : List Char :=
  if c = '{' ∨ c = '}' ∨ c = '\\' then ['\\', c] else [c]

/-- A segment as it is written in a template. -/
def Segment.written : Segment → String
  | .literal text => String.ofList (text.toList.flatMap escaped)
  | .placeholder name => "\x7b" ++ name ++ "\x7d"

/-- The text of a segment in a message in which placeholders stand for what `resolve` gives for their
names. -/
def Segment.filled (resolve : String → Option String) : Segment → String
  | .literal text => text
  | .placeholder name => (resolve name).getD ("\x7b" ++ name ++ "\x7d")

/-! ### Reading one segment -/

theorem placeholder?_append {name : List Char} (h : ∀ c ∈ name, c ≠ '{' ∧ c ≠ '}')
    (rest : List Char) : placeholder? (name ++ '}' :: rest) = some (name, rest) := by
  induction name with
  | nil => rfl
  | cons c cs ih =>
    obtain ⟨hc, hcs⟩ := List.forall_mem_cons.1 h
    simp [placeholder?, hc, ih hcs]

section

variable (resolve : String → Option String)

theorem fill_special {c : Char} (h : isSpecial c) (rest : List Char) :
    fill resolve ('\\' :: c :: rest) = c :: fill resolve rest := by
  rw [fill]
  simp [h]

theorem fill_plain {c : Char} (h : ¬ isSpecial c) (rest : List Char) :
    fill resolve (c :: rest) = c :: fill resolve rest := by
  simp only [isSpecial, Bool.or_eq_true, beq_iff_eq, not_or] at h
  rw [fill]
  · rintro c cs rfl
    exact absurd rfl h.2
  · rintro rfl
    exact absurd rfl h.1.1

theorem fill_placeholder {cs name rest : List Char} (h : placeholder? cs = some (name, rest)) :
    fill resolve ('{' :: cs) =
      ((resolve (String.ofList name)).map String.toList).getD ('{' :: name ++ ['}']) ++
        fill resolve rest := by
  rw [fill]
  split
  · next name' rest' h' =>
    cases h.symm.trans h'
    split <;> simp [*]
  · next h' => simp [h] at h'

theorem fill_escaped (c : Char) (rest : List Char) :
    fill resolve (escaped c ++ rest) = c :: fill resolve rest := by
  unfold escaped
  split
  · next hc => exact fill_special resolve (by simpa [isSpecial, or_assoc] using hc) rest
  · next hc => exact fill_plain resolve (by simpa [isSpecial, or_assoc] using hc) rest

theorem fill_literal (text rest : List Char) :
    fill resolve (text.flatMap escaped ++ rest) = text ++ fill resolve rest := by
  induction text with
  | nil => rfl
  | cons c cs ih =>
    rw [List.flatMap_cons, List.append_assoc, fill_escaped, ih, List.cons_append]

/-- A segment is filled in to its end and no further, whatever follows it. -/
theorem fill_written (x : Segment) (rest : List Char) :
    fill resolve (x.written.toList ++ rest) = (x.filled resolve).toList ++ fill resolve rest := by
  cases x with
  | literal text => simpa [Segment.written, Segment.filled] using fill_literal resolve text.toList rest
  | placeholder name =>
    have htext : (Segment.placeholder name).written.toList ++ rest =
        '{' :: (name.1.toList ++ '}' :: rest) := by
      simp [Segment.written]
    rw [htext, fill_placeholder resolve (placeholder?_append name.2 rest), String.ofList_toList]
    cases hname : resolve name <;> simp [Segment.filled, hname]

/-- Segments are filled in one by one. -/
theorem fill_segments (xs : List Segment) :
    fill resolve (xs.flatMap (·.written.toList)) = xs.flatMap fun x => (x.filled resolve).toList := by
  induction xs with
  | nil => simp [fill]
  | cons x xs ih => rw [List.flatMap_cons, List.flatMap_cons, fill_written, ih]

end

end Template

namespace Constraint

open Template

/-- The text that a message of the constraint shows for a segment: a literal text as it is, and for a
placeholder the validated value, the attribute of the name that the constraint is given, the one that it
has without being given, or else the placeholder itself. -/
def shown (c : Constraint) (s : Store) (value : Value) : Segment → String
  | .literal text => text
  | .placeholder name =>
    if name.1 = "validatedValue" then s.text value
    else
      match c.attribute? name, Standard.attribute? c.kind name with
      | some given, _ => given.text
      | none, some standard => standard.text
      | none, none => "\x7b" ++ name ++ "\x7d"

theorem filled_eq_shown (c : Constraint) (s : Store) (value : Value) (x : Segment) :
    x.filled (c.resolve? s value) = c.shown s value x := by
  cases x with
  | literal text => rfl
  | placeholder name =>
    simp only [Segment.filled, resolve?, shown, effectiveAttribute?]
    split
    · rfl
    · cases c.attribute? name <;> cases Standard.attribute? c.kind name <;> rfl

/-- The message of a template that is written as segments is what the segments show, one after the
other. -/
theorem interpolate_written (c : Constraint) (s : Store) (value : Value) (xs : List Segment) :
    c.interpolate s value (String.join (xs.map (·.written))) =
      String.join (xs.map (c.shown s value)) := by
  have htext : String.toList (String.join (xs.map (·.written))) = xs.flatMap (·.written.toList) := by
    rw [String.toList_join, List.flatMap_map]
  refine String.toList_inj.1 ?_
  rw [interpolate, String.toList_ofList, htext, fill_segments, String.toList_join, List.flatMap_map]
  simp only [filled_eq_shown]

/-- Neither the value nor the attribute is taken for a template. -/
example : ({ kind := "Pattern", attributes := [("regexp", .str "\\\x7bvalue\x7d")] } : Constraint).interpolate
    .empty (.str "\x7bregexp\x7d") "\x7bvalidatedValue\x7d is not \\\x7b\x7bregexp\x7d\\\x7d" =
      "\x7bregexp\x7d is not \x7b\\\x7bvalue\x7d\x7d" := by cbv

end Constraint

end ObjectValidation
