import Mathlib.Data.List.Forall2
import ObjectValidation.Proofs.Rendering
/-!
# The grammar of paths

A path is written as a name, followed by steps that lead on to a property, or to an element and a
property of it, and perhaps by an element at the end (`WrittenPath`). The text between the brackets of
an element stands for a position (`Stands`). These texts are read, each as the path that it shows, and
no others are. What is shown of a path that was read writes the same path, with its numbers in plain
digits, so it is read as that path again (`read_iff_written`).
-/

namespace ObjectValidation.Path

/-- The name of a property as paths write it. -/
abbrev Name := { name : String // IsName name }

/-- A text that may stand between brackets. -/
abbrev Inner := { text : String // ∀ c ∈ text.toList, c ≠ '[' ∧ c ≠ ']' }

/-- What leads on from a name to the next one. -/
inductive WrittenStep
  | property (name : Name)
  | element (inner : Inner) (name : Name)

/-- A path as it is written: a name, steps behind it and perhaps an element at the end. -/
structure WrittenPath where
  first : Name
  steps : List WrittenStep
  last : Option Inner

def WrittenStep.text : WrittenStep → String
  | .property name => "." ++ name
  | .element inner name => "[" ++ inner ++ "]." ++ name

/-- The text behind the first name. -/
def trail (steps : List WrittenStep) (last : Option Inner) : String :=
  String.join (steps.map (·.text)) ++ (last.map fun inner => "[" ++ inner.1 ++ "]").getD ""

def WrittenPath.text (w : WrittenPath) : String := w.first ++ trail w.steps w.last

/-! ### Positions -/

/-- Whether a text writes a number: in digits, perhaps with a plus sign in front. -/
def WritesNumber (text : String) (n : Nat) : Prop :=
  ∃ digits : List Char, digits ≠ [] ∧ (∀ c ∈ digits, c.isDigit) ∧
    (text.toList = digits ∨ text.toList = '+' :: digits) ∧ n = Nat.ofDigitChars 10 digits 0

/-- Which position a text between brackets stands for: an index if it writes a number of 64 bits, an
element without a position of its own if it is empty, and else a key. -/
inductive Stands (text : String) : Position → Prop
  | index {n : Nat} : WritesNumber text n → n < UInt64.size → Stands text (.index n)
  | iterable : text = "" → Stands text .iterable
  | key : text ≠ "" → (∀ n, WritesNumber text n → UInt64.size ≤ n) → Stands text (.key text)

/-- Which node of a path a step writes. -/
inductive WrittenStep.Shows : WrittenStep → PathNode → Prop
  | property (name : Name) : Shows (.property name) ⟨some name, none⟩
  | element {inner : Inner} {q : Position} (name : Name) : Stands inner q →
      Shows (.element inner name) ⟨some name, some q⟩

/-- Which path is written. The element at its end is a node without a name. -/
inductive WrittenPath.Shows : WrittenPath → Path → Prop
  | named {first : Name} {steps : List WrittenStep} {nodes : List PathNode} :
      List.Forall₂ WrittenStep.Shows steps nodes →
      Shows ⟨first, steps, none⟩ ⟨⟨some first, none⟩ :: nodes⟩
  | unnamed {first : Name} {steps : List WrittenStep} {nodes : List PathNode} {inner : Inner}
      {q : Position} : List.Forall₂ WrittenStep.Shows steps nodes → Stands inner q →
      Shows ⟨first, steps, some inner⟩ ⟨⟨some first, none⟩ :: (nodes ++ [⟨none, some q⟩])⟩

theorem readIndex?_plus {digits : List Char} (hne : digits ≠ []) (h : ∀ c ∈ digits, c.isDigit) :
    readIndex? ('+' :: digits) = readIndex? digits := by
  rw [readIndex?_of_digits hne h]
  unfold readIndex?
  simp only [Nat.ofDigitChars_eq_foldl, List.all_eq_true.2 h, List.isEmpty_eq_false_iff.2 hne]
  simp

theorem readIndex?_of_writesNumber {text : String} {n : Nat} (h : WritesNumber text n) :
    readIndex? text.toList = if n < UInt64.size then some n else none := by
  obtain ⟨digits, hne, hdigits, htext, rfl⟩ := h
  have hread := readIndex?_of_digits hne hdigits
  rcases htext with htext | htext
  · rw [htext, hread]
  · rw [htext, readIndex?_plus hne hdigits, hread]

theorem writesNumber_of_readIndex? {text : String} {n : Nat} (h : readIndex? text.toList = some n) :
    WritesNumber text n ∧ n < UInt64.size := by
  unfold readIndex? at h
  split at h
  all_goals
    simp only [Bool.and_eq_true, Bool.not_eq_true', List.isEmpty_eq_false_iff, List.all_eq_true,
      decide_eq_true_eq, Option.ite_none_right_eq_some, Option.some.injEq] at h
    obtain ⟨⟨⟨hne, hdigits⟩, hlt⟩, rfl⟩ := h
  · next rest htext => exact ⟨⟨rest, hne, hdigits, .inr htext, (Nat.ofDigitChars_eq_foldl ..).symm⟩, hlt⟩
  · exact ⟨⟨_, hne, hdigits, .inl rfl, (Nat.ofDigitChars_eq_foldl ..).symm⟩, hlt⟩

theorem stands_iff {text : String} {q : Position} : Stands text q ↔ q = readPosition text.toList := by
  constructor
  · rintro (⟨hn, hlt⟩ | rfl | ⟨hne, hn⟩)
    · rw [readPosition, readIndex?_of_writesNumber hn, if_pos hlt]
    · rfl
    · have hnone : readIndex? text.toList = none := by
        refine Option.eq_none_iff_forall_ne_some.2 fun n hread => ?_
        obtain ⟨hwrites, hlt⟩ := writesNumber_of_readIndex? hread
        exact absurd hlt (Nat.not_lt.2 (hn n hwrites))
      simp [readPosition, hnone, hne]
  · rintro rfl
    unfold readPosition
    cases hread : readIndex? text.toList with
    | some n => exact .index (writesNumber_of_readIndex? hread).1 (writesNumber_of_readIndex? hread).2
    | none =>
      by_cases htext : text = ""
      · subst htext
        exact .iterable rfl
      · have hkey : Stands text (.key text) := by
          refine .key htext fun n hn => Nat.not_lt.1 fun hlt => ?_
          rw [readIndex?_of_writesNumber hn, if_pos hlt] at hread
          cases hread
        simpa [htext] using hkey

/-- What a position shows, where it was read from a text, stands for the position again. -/
theorem readPosition_inner (text : String) :
    readPosition (readPosition text.toList).inner.toList = readPosition text.toList := by
  cases hq : readPosition text.toList with
  | index n =>
    obtain ⟨-, hlt⟩ | _ | _ := stands_iff.2 hq.symm
    rw [Position.inner, readPosition, readIndex?_toString hlt]
  | key k =>
    obtain _ | _ | _ := stands_iff.2 hq.symm
    exact hq
  | iterable => rfl

/-- What a position shows, where it was read from between brackets, may stand there again. -/
theorem inner_readPosition (inner : Inner) :
    ∀ c ∈ (readPosition inner.1.toList).inner.toList, c ≠ '[' ∧ c ≠ ']' := by
  cases hq : readPosition inner.1.toList with
  | index n => exact digits_inner n
  | key k =>
    obtain _ | _ | _ := stands_iff.2 hq.symm
    exact inner.2
  | iterable => simp [Position.inner]

/-! ### Reading what is written -/

/-- The node a step writes, with the text between brackets as a key. -/
def WrittenStep.node : WrittenStep → PathNode
  | .property name => ⟨some name, none⟩
  | .element inner name => ⟨some name, some (.key inner)⟩

/-- The path that is written, with the texts between brackets as keys. -/
def WrittenPath.path (w : WrittenPath) : Path :=
  ⟨⟨some w.first, none⟩ :: (w.steps.map (·.node) ++ unnamed (w.last.map (.key ·.1)))⟩

theorem WrittenStep.nodeText_node (x : WrittenStep) : nodeText false x.node = x.text := by
  cases x with
  | property name => simp [nodeText, node, text]
  | element inner name =>
    refine String.toList_inj.1 ?_
    simp [nodeText, node, text, Position.text]

theorem WrittenStep.clear_node (x : WrittenStep) : Clear x.node := by
  cases x with
  | property name => exact ⟨fun _ h => Option.some.inj h ▸ name.2, nofun⟩
  | element inner name =>
    exact ⟨fun _ h => Option.some.inj h ▸ name.2, fun _ h => Option.some.inj h ▸ inner.2⟩

theorem WrittenStep.name_node (x : WrittenStep) : x.node.name.isSome := by cases x <;> rfl

theorem WrittenStep.shows_iff {x : WrittenStep} {n : PathNode} : x.Shows n ↔ n = x.node.asRead := by
  constructor
  · rintro (_ | ⟨name, hq⟩)
    · rfl
    · rw [stands_iff.1 hq]
      rfl
  · rintro rfl
    cases x with
    | property name => exact .property name
    | element inner name => exact .element name (stands_iff.2 rfl)

theorem WrittenStep.forall₂_shows_iff {xs : List WrittenStep} {ns : List PathNode} :
    List.Forall₂ Shows xs ns ↔ ns = (xs.map (·.node)).map (·.asRead) := by
  have hshows : Shows = fun x n => x.node.asRead = n := by
    funext x n
    simp [shows_iff, eq_comm]
  rw [hshows, ← List.forall₂_map_left_iff (f := fun x : WrittenStep => x.node.asRead),
    List.forall₂_eq_eq_eq, List.map_map]
  exact eq_comm

theorem WrittenPath.shows_iff {w : WrittenPath} {p : Path} :
    w.Shows p ↔ p = ⟨w.path.nodes.map (·.asRead)⟩ := by
  constructor
  · rintro (hsteps | ⟨hsteps, hq⟩)
    · rw [WrittenStep.forall₂_shows_iff.1 hsteps]
      simp [path, unnamed, PathNode.asRead]
    · rw [WrittenStep.forall₂_shows_iff.1 hsteps, stands_iff.1 hq]
      simp [path, unnamed, PathNode.asRead, Position.asRead, Position.inner]
  · rintro rfl
    obtain ⟨first, steps, last⟩ := w
    have hsteps := WrittenStep.forall₂_shows_iff.2 (Eq.refl ((steps.map (·.node)).map (·.asRead)))
    cases last with
    | none =>
      have hshows : Shows ⟨first, steps, none⟩ _ := .named hsteps
      simpa [path, unnamed, PathNode.asRead] using hshows
    | some inner =>
      have hstands := stands_iff.2 (Eq.refl (readPosition inner.1.toList))
      have hshows : Shows ⟨first, steps, some inner⟩ _ := .unnamed hsteps hstands
      simpa [path, unnamed, PathNode.asRead, Position.asRead, Position.inner] using hshows

theorem WrittenPath.text_path (w : WrittenPath) : Path.text w.path = w.text := by
  obtain ⟨first, steps, last⟩ := w
  have hsteps : (steps.map (·.node)).map (nodeText false) = steps.map (·.text) := by
    simp [Function.comp_def, WrittenStep.nodeText_node]
  simp only [Path.text, path, text, trail, List.map_append, hsteps]
  refine String.toList_inj.1 ?_
  cases last <;> simp [unnamed, nodeText, Position.text]

theorem WrittenPath.read_text (w : WrittenPath) : read w.text = .ok ⟨w.path.nodes.map (·.asRead)⟩ := by
  rw [← w.text_path]
  refine read_text_of_clear rfl ?_ ?_ ?_
  · simp [WrittenStep.name_node]
  · intro n hn
    rcases List.mem_cons.1 hn with rfl | hn
    · exact ⟨fun _ h => Option.some.inj h ▸ w.first.2, nofun⟩
    · obtain ⟨x, -, rfl⟩ := List.mem_map.1 hn
      exact x.clear_node
  · intro n hn
    obtain ⟨q, hq, rfl⟩ := Option.map_eq_some_iff.1 (Option.mem_toList.1 hn)
    obtain ⟨inner, -, rfl⟩ := Option.map_eq_some_iff.1 hq
    exact ⟨nofun, fun _ h => Option.some.inj h ▸ inner.2⟩

/-! ### Writing what was read -/

/-- The texts that may follow the name of a property. -/
def FollowsName (cs : List Char) : Prop :=
  ∃ (steps : List WrittenStep) (last : Option Inner), cs = (trail steps last).toList

/-- The texts that may follow a point: a name, and what may follow it. -/
def FollowsPoint (letters cs : List Char) : Prop :=
  ∃ more rest, cs = more ++ rest ∧ letters ++ more ≠ [] ∧ (∀ c ∈ more, c ≠ '.' ∧ c ≠ '[' ∧ c ≠ ']') ∧
    FollowsName rest

/-- The texts that may follow the brackets of an element. -/
def FollowsElement (cs : List Char) : Prop := cs = [] ∨ ∃ rest, cs = '.' :: rest ∧ FollowsPoint [] rest

/-- The texts that may follow what a reader has read. -/
def Scan.Continues : Scan → List Char → Prop
  | .name _ _ letters, cs => FollowsPoint letters cs
  | .key _ _, cs =>
    ∃ more rest, cs = more ++ ']' :: rest ∧ (∀ c ∈ more, c ≠ '[' ∧ c ≠ ']') ∧ FollowsElement rest
  | .closed _ _, cs => FollowsElement cs

theorem followsName_nil : FollowsName [] := ⟨[], none, by simp [trail]⟩

theorem exists_name {letters : List Char} (hne : letters ≠ [])
    (h : ∀ c ∈ letters, c ≠ '.' ∧ c ≠ '[' ∧ c ≠ ']') : ∃ name : Name, name.1.toList = letters :=
  ⟨⟨String.ofList letters, by simpa using hne, by simpa using h⟩, by simp⟩

theorem exists_inner {letters : List Char} (h : ∀ c ∈ letters, c ≠ '[' ∧ c ≠ ']') :
    ∃ inner : Inner, inner.1.toList = letters :=
  ⟨⟨String.ofList letters, by simpa using h⟩, by simp⟩

theorem trail_cons (x : WrittenStep) (steps : List WrittenStep) (last : Option Inner) :
    (trail (x :: steps) last).toList = x.text.toList ++ (trail steps last).toList := by
  simp [trail]

theorem followsName_point {rest : List Char} (h : FollowsPoint [] rest) : FollowsName ('.' :: rest) := by
  obtain ⟨more, rest, rfl, hne, hmore, steps, last, rfl⟩ := h
  obtain ⟨name, rfl⟩ := exists_name hne hmore
  exact ⟨.property name :: steps, last, by simp [trail_cons, WrittenStep.text]⟩

theorem followsName_open {more rest : List Char} (hmore : ∀ c ∈ more, c ≠ '[' ∧ c ≠ ']')
    (h : FollowsElement rest) : FollowsName ('[' :: (more ++ ']' :: rest)) := by
  obtain ⟨inner, rfl⟩ := exists_inner hmore
  rcases h with rfl | ⟨rest, rfl, more, rest, rfl, hne, hmore, steps, last, rfl⟩
  · exact ⟨[], some inner, by simp [trail]⟩
  · obtain ⟨name, rfl⟩ := exists_name hne hmore
    exact ⟨.element inner name :: steps, last, by simp [trail_cons, WrittenStep.text]⟩

theorem map_endName_eq_ok {done : List PathNode} {position : Option Position} {letters : List Char}
    {next : List PathNode → Scan} {scan : Scan}
    (h : (endName done position letters).map next = .ok scan) :
    letters ≠ [] ∧ scan = next (done ++ [⟨some (String.ofList letters), position⟩]) := by
  cases letters with
  | nil => cases h
  | cons c cs => exact ⟨nofun, (Except.ok.inj h).symm⟩

/-- Reading a character keeps the texts that may follow: the character belongs to what is written. -/
theorem continues_of_step {scan next : Scan} {c : Char} {cs : List Char} (h : step scan c = .ok next)
    (hnext : next.Continues cs) : scan.Continues (c :: cs) := by
  cases scan with
  | name done position letters =>
    simp only [step] at h
    split_ifs at h with hclose hpoint hopen
    · subst hpoint
      obtain ⟨hne, rfl⟩ := map_endName_eq_ok h
      exact ⟨[], _, rfl, by simpa using hne, by simp, followsName_point hnext⟩
    · subst hopen
      obtain ⟨hne, rfl⟩ := map_endName_eq_ok h
      obtain ⟨more, rest, rfl, hmore, hrest⟩ := hnext
      exact ⟨[], _, rfl, by simpa using hne, by simp, followsName_open hmore hrest⟩
    · obtain rfl := Except.ok.inj h
      obtain ⟨more, rest, rfl, hne, hmore, hrest⟩ := hnext
      exact ⟨c :: more, rest, rfl, by simp, List.forall_mem_cons.2 ⟨⟨hpoint, hopen, hclose⟩, hmore⟩, hrest⟩
  | key done letters =>
    simp only [step] at h
    split_ifs at h with hclose hopen
    · subst hclose
      obtain rfl := Except.ok.inj h
      exact ⟨[], _, rfl, by simp, hnext⟩
    · obtain rfl := Except.ok.inj h
      obtain ⟨more, rest, rfl, hmore, hrest⟩ := hnext
      exact ⟨c :: more, rest, rfl, List.forall_mem_cons.2 ⟨⟨hopen, hclose⟩, hmore⟩, hrest⟩
  | closed done position =>
    simp only [step] at h
    split_ifs at h with hpoint
    subst hpoint
    obtain rfl := Except.ok.inj h
    exact .inr ⟨cs, rfl, hnext⟩

theorem continues_of_finish {scan : Scan} {nodes : List PathNode} (h : finish scan = .ok nodes) :
    scan.Continues [] := by
  cases scan with
  | name done position letters =>
    have hne : letters ≠ [] := by
      rintro rfl
      cases h
    exact ⟨[], [], rfl, by simpa using hne, by simp, followsName_nil⟩
  | key done letters => cases h
  | closed done position => exact .inl rfl

theorem continues_of_foldlM : ∀ {cs : List Char} {scan : Scan} {nodes : List PathNode},
    cs.foldlM step scan >>= finish = .ok nodes → scan.Continues cs
  | [], _, _, h => continues_of_finish h
  | c :: cs, scan, nodes, h => by
    rw [List.foldlM_cons, bind_assoc] at h
    cases hstep : step scan c with
    | error e =>
      rw [hstep] at h
      cases h
    | ok next =>
      rw [hstep] at h
      exact continues_of_step hstep (continues_of_foldlM h)

/-- What is read is written as a path. -/
theorem exists_written_of_read {s : String} {p : Path} (h : read s = .ok p) :
    ∃ w : WrittenPath, w.text = s := by
  have hempty : s.isEmpty = false := by
    refine Bool.eq_false_iff.2 fun hempty => ?_
    obtain rfl := String.isEmpty_iff.1 hempty
    cases h
  rw [read_eq hempty] at h
  obtain ⟨nodes, hscan⟩ : ∃ nodes, s.toList.foldlM step (.name [] none []) >>= finish = .ok nodes := by
    cases hscan : s.toList.foldlM step (.name [] none []) >>= finish with
    | error e =>
      rw [hscan] at h
      cases h
    | ok nodes => exact ⟨nodes, rfl⟩
  obtain ⟨more, rest, hs, hne, hmore, steps, last, rfl⟩ : FollowsPoint [] s.toList :=
    continues_of_foldlM hscan
  obtain ⟨name, rfl⟩ := exists_name hne hmore
  exact ⟨⟨name, steps, last⟩, String.toList_inj.1 (by simp [WrittenPath.text, hs])⟩

/-! ### Plain digits -/

def WrittenStep.inner? : WrittenStep → Option Inner
  | .property _ => none
  | .element inner _ => some inner

/-- The texts between brackets. -/
def WrittenPath.inners (w : WrittenPath) : List Inner :=
  w.steps.filterMap (·.inner?) ++ w.last.toList

/-- Whether the numbers that stand for indices are written in plain digits. -/
def WrittenPath.Plain (w : WrittenPath) : Prop :=
  ∀ inner ∈ w.inners, ∀ n < UInt64.size, WritesNumber inner n → inner.1 = toString n

/-- The text that is shown of the position that a text stands for. -/
def plainInner (inner : Inner) : Inner := ⟨_, inner_readPosition inner⟩

def WrittenStep.plain : WrittenStep → WrittenStep
  | .property name => .property name
  | .element inner name => .element (plainInner inner) name

/-- The path as it is written with its indices in plain digits. -/
def WrittenPath.plain (w : WrittenPath) : WrittenPath :=
  ⟨w.first, w.steps.map (·.plain), w.last.map plainInner⟩

theorem coe_plainInner (inner : Inner) :
    (plainInner inner).1 = (readPosition inner.1.toList).inner := rfl

theorem readPosition_plainInner (inner : Inner) :
    readPosition (plainInner inner).1.toList = readPosition inner.1.toList := readPosition_inner inner

theorem plainInner_eq {inner : Inner} {n : Nat} (hlt : n < UInt64.size)
    (h : WritesNumber (plainInner inner) n) : (plainInner inner).1 = toString n := by
  have hq := stands_iff.1 (.index h hlt)
  rw [readPosition_plainInner] at hq
  rw [coe_plainInner, ← hq, Position.inner]

theorem WrittenPath.plain_plain (w : WrittenPath) : w.plain.Plain := by
  have hinner : ∀ inner ∈ w.plain.inners, ∃ inner' : Inner, inner = plainInner inner' := by
    intro inner hinner
    rcases List.mem_append.1 hinner with hinner | hinner
    · obtain ⟨x, hx, hxinner⟩ := List.mem_filterMap.1 hinner
      obtain ⟨y, -, rfl⟩ := List.mem_map.1 hx
      cases y with
      | property name => cases hxinner
      | element inner' name => exact ⟨inner', (Option.some.inj hxinner).symm⟩
    · obtain ⟨inner', -, rfl⟩ := Option.map_eq_some_iff.1 (Option.mem_toList.1 hinner)
      exact ⟨inner', rfl⟩
  intro inner hmem n hlt hn
  obtain ⟨inner', rfl⟩ := hinner inner hmem
  exact plainInner_eq hlt hn

theorem WrittenStep.asRead_node_plain (x : WrittenStep) : x.plain.node.asRead = x.node.asRead := by
  cases x with
  | property name => rfl
  | element inner name =>
    simp only [plain, node, PathNode.asRead, Position.asRead, Position.inner, Option.map_some,
      readPosition_plainInner]

theorem WrittenPath.asRead_path_plain (w : WrittenPath) :
    w.plain.path.nodes.map (·.asRead) = w.path.nodes.map (·.asRead) := by
  obtain ⟨first, steps, last⟩ := w
  have hsteps : ((steps.map (·.plain)).map (·.node)).map (·.asRead) =
      (steps.map (·.node)).map (·.asRead) := by
    simp [Function.comp_def, WrittenStep.asRead_node_plain]
  simp only [plain, path, List.map_cons, List.map_append, hsteps]
  cases last <;>
    simp [unnamed, PathNode.asRead, Position.asRead, Position.inner, readPosition_plainInner]

theorem WrittenStep.nodeText_asRead (x : WrittenStep) : nodeText false x.node.asRead = x.plain.text := by
  cases x with
  | property name => simp [nodeText, node, plain, text, PathNode.asRead]
  | element inner name =>
    refine String.toList_inj.1 ?_
    simp [nodeText, node, plain, text, PathNode.asRead, Position.text_eq, Position.asRead, coe_plainInner,
      Position.inner]

/-- What is shown of the path that is read is the path as it is written with its indices in plain
digits. -/
theorem WrittenPath.text_asRead (w : WrittenPath) :
    Path.text ⟨w.path.nodes.map (·.asRead)⟩ = w.plain.text := by
  obtain ⟨first, steps, last⟩ := w
  have hsteps : ((steps.map (·.node)).map (·.asRead)).map (nodeText false) =
      (steps.map (·.plain)).map (·.text) := by
    simp [Function.comp_def, WrittenStep.nodeText_asRead]
  simp only [Path.text, path, plain, text, trail, List.map_cons, List.map_append, hsteps]
  refine String.toList_inj.1 ?_
  cases last <;>
    simp [unnamed, nodeText, PathNode.asRead, Position.text_eq, Position.asRead, Position.inner,
      coe_plainInner]

/-- The texts that are read are those that write a path, and the path that is read is the one that is
shown. Its text writes it in plain digits, and is read as the same path again. -/
theorem read_iff_written (s : String) :
    ((∃ p, read s = .ok p) ↔ ∃ w : WrittenPath, w.text = s) ∧
      ∀ p, read s = .ok p →
        (∀ w : WrittenPath, w.text = s → w.Shows p) ∧
        (∃ w : WrittenPath, w.text = p.text ∧ w.Shows p ∧ w.Plain) ∧ read p.text = .ok p := by
  refine ⟨⟨fun ⟨p, h⟩ => exists_written_of_read h, fun ⟨w, hw⟩ => ⟨_, hw ▸ w.read_text⟩⟩, ?_⟩
  intro p hp
  have hshows : ∀ w : WrittenPath, w.text = s → w.Shows p := by
    rintro w rfl
    exact WrittenPath.shows_iff.2 (Except.ok.inj (hp.symm.trans w.read_text))
  obtain ⟨w, hw⟩ := exists_written_of_read hp
  obtain rfl := WrittenPath.shows_iff.1 (hshows w hw)
  rw [w.text_asRead]
  refine ⟨hshows, ⟨w.plain, rfl, ?_, w.plain_plain⟩, ?_⟩
  · rw [WrittenPath.shows_iff, w.asRead_path_plain]
  · rw [w.plain.read_text, w.asRead_path_plain]

/-- A number with a sign and a leading zero is read as an index, and shown without them. -/
theorem read_signed_index :
    let p : Path := ⟨[⟨some "a", none⟩, ⟨some "b", some (.index 5)⟩, ⟨none, some .iterable⟩]⟩
    read "a[+05].b[]" = .ok p ∧ (∃ w : WrittenPath, w.text = "a[+05].b[]") ∧ p.text = "a[5].b[]" ∧
      read p.text = .ok p := by
  intro p
  have hread : read "a[+05].b[]" = .ok p := by decide
  obtain ⟨haccepts, hreads⟩ := read_iff_written "a[+05].b[]"
  exact ⟨hread, haccepts.1 ⟨p, hread⟩, by decide, (hreads p hread).2.2⟩

end ObjectValidation.Path
