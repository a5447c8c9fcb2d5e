import ObjectValidation.Constraint.Standard
/-!
# Messages

A message template is text with placeholders in braces. A placeholder stands for the validated value
or for an attribute of the constraint; one that stands for neither stays as it is. A backslash takes
the meaning from a brace or a backslash. What is filled in is never looked at again.
-/

namespace ObjectValidation.Template

/-- Whether a backslash in front of the character takes its meaning. -/
def isSpecial (c : Char) : Bool := c == '{' || c == '}' || c == '\\'

/-- The name of a placeholder and the text behind it, if the text, which follows an opening brace,
has a closing brace before any other opening one. -/
def placeholder? : List Char → Option (List Char × List Char)
  | [] => none
  | c :: cs =>
    if c = '}' then some ([], cs)
    else if c = '{' then none
    else (placeholder? cs).map fun (name, rest) => (c :: name, rest)

theorem length_of_placeholder? {cs name rest : List Char}
    (h : placeholder? cs = some (name, rest)) : rest.length < cs.length := by
  induction cs generalizing name rest with
  | nil => simp [placeholder?] at h
  | cons c cs ih =>
    simp only [placeholder?] at h
    split at h
    · simp_all
    · split at h
      · simp at h
      · obtain ⟨⟨n, r⟩, hr, he⟩ := Option.map_eq_some_iff.1 h
        have := ih hr
        simp_all
        omega

/-- The text of a template in which placeholders stand for what `resolve` gives for their names. -/
def fill (resolve : String → Option String) : List Char → List Char
  | [] => []
  | '\\' :: c :: cs => if isSpecial c then c :: fill resolve cs else '\\' :: fill resolve (c :: cs)
  | '{' :: cs =>
    match _h : placeholder? cs with
    | some (name, rest) =>
      match resolve (String.ofList name) with
      | some text => text.toList ++ fill resolve rest
      | none => '{' :: name ++ '}' :: fill resolve rest
    | none => '{' :: fill resolve cs
  | c :: cs => c :: fill resolve cs
termination_by cs => cs.length
decreasing_by
  · simp +arith
  · simp
  · have := length_of_placeholder? _h
    simp only [List.length_cons]
    omega
  · have := length_of_placeholder? _h
    simp only [List.length_cons]
    omega
  · simp
  · simp

end Template

namespace Constraint

/-- What a placeholder in a message of the constraint stands for. -/
def resolve? (c : Constraint) (s : Store) (value : Value) (name : String) : Option String :=
  if name = "validatedValue" then some (s.text value)
  else (c.effectiveAttribute? name).map (·.text)

/-- The message of a template for a value that violates the constraint. -/
def interpolate (c : Constraint) (s : Store) (value : Value) (template : String) : String :=
  String.ofList (Template.fill (c.resolve? s value) template.toList)

/-- The template of the message: the one that the constraint brings or that of its kind. -/
def messageTemplate (c : Constraint) : String := c.template.getD (Standard.template c.kind)

end Constraint

end ObjectValidation
