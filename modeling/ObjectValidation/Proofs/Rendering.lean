import ObjectValidation.Path.Reading
/-!
# Reading what paths show

The text of a path is read back node by node: a point ends a name and begins the next one, and brackets
behind a name hold the position of the node that follows (`foldlM_step_node`). Names come back as they
are. A position comes back as what it shows stands for (`Position.asRead`): an index of 64 bits as
itself, a key as a key unless it reads as a number (`read_text`).
-/

namespace ObjectValidation

namespace Position

/-- What a position shows between its brackets. -/
def inner : Position → String
  | .index n => toString n
  | .key k => k
  | .iterable => ""

theorem text_eq (q : Position) : q.text = "[" ++ q.inner ++ "]" := by cases q <;> rfl

/-- The position that is read where one is shown. -/
def asRead (q : Position) : Position := Path.readPosition q.inner.toList

/-- The key, if the position is one. -/
def key? : Position → Option String
  | .key k => some k
  | _ => none

end Position

namespace PathNode

/-- The name of a node and the key that its position is. -/
def words (n : PathNode) : List String := n.name.toList ++ (n.position.bind (·.key?)).toList

/-- The node that is read where one is shown. -/
def asRead (n : PathNode) : PathNode := { n with position := n.position.map (·.asRead) }

end PathNode

namespace Path

/-! ### Names and numbers -/

/-- Whether a text names a property and does not lead on from it. -/
def IsName (name : String) : Prop := name ≠ "" ∧ ∀ c ∈ name.toList, c ≠ '.' ∧ c ≠ '[' ∧ c ≠ ']'

instance (name : String) : Decidable (IsName name) :=
  decidable_of_iff (name ≠ "" ∧ name.toList.all fun c => c != '.' && c != '[' && c != ']')
    (by simp [IsName, and_assoc])

/-- Whether the names and keys on a path are such that its text shows where they end. -/
def Legible (p : Path) : Prop := ∀ n ∈ p.nodes, ∀ word ∈ n.words, IsName word

instance (p : Path) : Decidable p.Legible :=
  inferInstanceAs (Decidable (∀ n ∈ p.nodes, ∀ word ∈ n.words, IsName word))

theorem toList_toString (n : Nat) : (toString n).toList = Nat.toDigits 10 n := Nat.toList_repr

theorem isDigit_of_mem_toString {n : Nat} {c : Char} (h : c ∈ (toString n).toList) : c.isDigit :=
  Nat.isDigit_of_mem_toDigits (by decide) (by decide) (toList_toString n ▸ h)

/-- Digits without a sign in front are read as the number that they write. -/
theorem readIndex?_of_digits {cs : List Char} (hne : cs ≠ []) (h : ∀ c ∈ cs, c.isDigit) :
    readIndex? cs = if Nat.ofDigitChars 10 cs 0 < UInt64.size then some (Nat.ofDigitChars 10 cs 0)
      else none := by
  unfold readIndex?
  split
  · next rest => simp at h
  · simp only [Nat.ofDigitChars_eq_foldl, List.all_eq_true.2 h, List.isEmpty_eq_false_iff.2 hne]
    simp

theorem readIndex?_toString {n : Nat} (h : n < UInt64.size) :
    readIndex? (toString n).toList = some n := by
  have hne : (toString n).toList ≠ [] := toList_toString n ▸ Nat.toDigits_ne_nil
  rw [readIndex?_of_digits hne fun c => isDigit_of_mem_toString, toList_toString]
  simp [Nat.ofDigitChars_ten_toDigits, h]

end Path

theorem Position.asRead_index {n : Nat} (h : n < UInt64.size) :
    (Position.index n).asRead = .index n := by
  simp only [asRead, inner, Path.readPosition, Path.readIndex?_toString h]

theorem Position.asRead_key {k : String} (h : k ≠ "") :
    (Position.key k).asRead = ((Path.readIndex? k.toList).map Position.index).getD (.key k) := by
  have hk : k.toList.isEmpty = false := by simpa using h
  unfold asRead inner Path.readPosition
  cases Path.readIndex? k.toList <;> simp [hk]

namespace Path

/-! ### Scanning -/

theorem ok_bind {ε α β : Type} (a : α) (f : α → Except ε β) : (Except.ok a >>= f) = f a := rfl

section

variable (done : List PathNode) (position : Option Position)

theorem foldlM_step_name : ∀ {cs : List Char} (letters : List Char),
    (∀ c ∈ cs, c ≠ '.' ∧ c ≠ '[' ∧ c ≠ ']') →
    cs.foldlM step (.name done position letters) = .ok (.name done position (letters ++ cs))
  | [], letters, _ => by simp [pure, Except.pure]
  | c :: cs, letters, h => by
    obtain ⟨hpoint, hopen, hclose⟩ := h c (by simp)
    have hstep : step (.name done position letters) c = .ok (.name done position (letters ++ [c])) := by
      simp [step, hpoint, hopen, hclose]
    rw [List.foldlM_cons, hstep]
    exact (foldlM_step_name _ fun d hd => h d (by simp [hd])).trans (by simp)

theorem foldlM_step_key : ∀ {cs : List Char} (letters : List Char), (∀ c ∈ cs, c ≠ '[' ∧ c ≠ ']') →
    cs.foldlM step (.key done letters) = .ok (.key done (letters ++ cs))
  | [], letters, _ => by simp [pure, Except.pure]
  | c :: cs, letters, h => by
    obtain ⟨hopen, hclose⟩ := h c (by simp)
    have hstep : step (.key done letters) c = .ok (.key done (letters ++ [c])) := by
      simp [step, hopen, hclose]
    rw [List.foldlM_cons, hstep]
    exact (foldlM_step_key _ fun d hd => h d (by simp [hd])).trans (by simp)

end

/-- Whether the name of a node does not lead on from it, and its position not out of its brackets. -/
structure Clear (n : PathNode) : Prop where
  name : ∀ name ∈ n.name, IsName name
  inner : ∀ q ∈ n.position, ∀ c ∈ q.inner.toList, c ≠ '[' ∧ c ≠ ']'

theorem digits_inner (n : Nat) : ∀ c ∈ (Position.index n).inner.toList, c ≠ '[' ∧ c ≠ ']' := by
  intro c hc
  have hdigit := isDigit_of_mem_toString hc
  constructor <;> (rintro rfl; simp [Char.isDigit] at hdigit)

theorem clear_of_words {n : PathNode} (h : ∀ word ∈ n.words, IsName word) : Clear n where
  name name hname := h name (by simp [PathNode.words, Option.mem_def.1 hname])
  inner q hq := by
    cases q with
    | index i => exact digits_inner i
    | key k =>
      exact fun c hc => ((h k (by simp [PathNode.words, Option.mem_def.1 hq, Position.key?])).2 c hc).2
    | iterable => simp [Position.inner]

/-- Brackets behind a name end it, and hold the position of the node that follows. -/
theorem foldlM_step_position {q : Position} (h : ∀ c ∈ q.inner.toList, c ≠ '[' ∧ c ≠ ']')
    (done : List PathNode) (position : Option Position) {letters : List Char} (hletters : letters ≠ []) :
    q.text.toList.foldlM step (.name done position letters) =
      .ok (.closed (done ++ [⟨some (String.ofList letters), position⟩]) q.asRead) := by
  have hletters : letters.isEmpty = false := by simpa using hletters
  have htext : q.text.toList = '[' :: (q.inner.toList ++ [']']) := by simp [Position.text_eq]
  generalize hdone : done ++ [(⟨some (String.ofList letters), position⟩ : PathNode)] = nodes
  have hopen : step (.name done position letters) '[' = .ok (.key nodes []) := by
    simp [step, endName, hletters, hdone, Except.map]
  have hclose : [']'].foldlM step (.key nodes q.inner.toList) = .ok (.closed nodes q.asRead) := by
    simp [step, Position.asRead, bind, Except.bind, pure, Except.pure]
  rw [htext, List.foldlM_cons, hopen, ok_bind, List.foldlM_append, foldlM_step_key nodes [] h, ok_bind,
    List.nil_append, hclose]

/-- The text of a node behind another one ends the name of that one and gives its own. -/
theorem foldlM_step_node {n : PathNode} {name : String} (hname : n.name = some name) (h : Clear n)
    (done : List PathNode) (position : Option Position) {letters : List Char} (hletters : letters ≠ []) :
    (nodeText false n).toList.foldlM step (.name done position letters) =
      .ok (.name (done ++ [⟨some (String.ofList letters), position⟩]) n.asRead.position
        name.toList) := by
  generalize hdone : done ++ [(⟨some (String.ofList letters), position⟩ : PathNode)] = nodes
  have hrest := foldlM_step_name nodes n.asRead.position [] (h.name name hname).2
  cases hq : n.position with
  | none =>
    have htext : (nodeText false n).toList = '.' :: name.toList := by
      simp [nodeText, hname, hq]
    have hpoint : step (.name done position letters) '.' = .ok (.name nodes n.asRead.position []) := by
      have hletters : letters.isEmpty = false := by simpa using hletters
      simp [step, endName, hletters, hdone, PathNode.asRead, hq, Except.map]
    rw [htext, List.foldlM_cons, hpoint]
    exact hrest
  | some q =>
    have htext : (nodeText false n).toList = q.text.toList ++ '.' :: name.toList := by
      simp [nodeText, hname, hq]
    have hpoint : step (.closed nodes q.asRead) '.' = .ok (.name nodes n.asRead.position []) := by
      simp [step, PathNode.asRead, hq]
    rw [htext, List.foldlM_append, foldlM_step_position (h.inner q hq) _ _ hletters, ok_bind, hdone,
      List.foldlM_cons, hpoint]
    exact hrest

/-- The node without a name that an element at the end of a path is. -/
def unnamed (last : Option Position) : List PathNode := (last.map fun q => ⟨none, some q⟩).toList

/-- The text of nodes behind a name is read back as these nodes. Only the last may lack its name. -/
theorem foldlM_step_nodes (last : Option Position) (hlast : ∀ n ∈ unnamed last, Clear n) :
    ∀ {ns : List PathNode} (done : List PathNode) (position : Option Position) {letters : List Char},
    letters ≠ [] → (∀ n ∈ ns, n.name.isSome) → (∀ n ∈ ns, Clear n) →
    ((ns ++ unnamed last).flatMap fun n => (nodeText false n).toList).foldlM step
        (.name done position letters) >>= finish =
      .ok (done ++ ⟨some (String.ofList letters), position⟩ :: (ns ++ unnamed last).map (·.asRead))
  | [], done, position, letters, hletters, _, _ => by
    cases last with
    | none =>
      have hletters : letters.isEmpty = false := by simpa using hletters
      simp [unnamed, finish, endName, hletters, bind, Except.bind, pure, Except.pure]
    | some q =>
      have hq : Clear ⟨none, some q⟩ := hlast _ (by simp [unnamed])
      have htext : (unnamed (some q)).flatMap (fun n => (nodeText false n).toList) = q.text.toList := by
        simp [unnamed, nodeText]
      rw [List.nil_append, htext, foldlM_step_position (hq.inner q rfl) _ _ hletters, ok_bind]
      simp [finish, unnamed, PathNode.asRead]
  | n :: ns, done, position, letters, hletters, hnamed, h => by
    obtain ⟨name, hname⟩ := Option.isSome_iff_exists.1 (hnamed n (by simp))
    have hn := h n (by simp)
    have hne : name.toList ≠ [] := by simpa using (hn.name name hname).1
    have hnode : (⟨some (String.ofList name.toList), n.asRead.position⟩ : PathNode) = n.asRead := by
      simp [PathNode.asRead, hname]
    have ih := foldlM_step_nodes last hlast (done ++ [⟨some (String.ofList letters), position⟩])
      n.asRead.position hne (fun m hm => hnamed m (List.mem_cons_of_mem n hm))
      (fun m hm => h m (List.mem_cons_of_mem n hm))
    rw [List.cons_append, List.flatMap_cons, List.foldlM_append, bind_assoc,
      foldlM_step_node hname hn _ _ hletters, ok_bind, ih, hnode]
    simp

theorem read_eq {s : String} (h : s.isEmpty = false) :
    read s = (s.toList.foldlM step (.name [] none []) >>= finish) >>= fun nodes => .ok ⟨nodes⟩ := by
  unfold read
  rw [h, bind_assoc]
  rfl

/-- The text of a path whose first node has no position, and of whose nodes only the last may lack its
name, is read back as the path, with its positions as they are read. -/
theorem read_text_of_clear {first : PathNode} {rest : List PathNode} {last : Option Position}
    (hfirst : first.position = none) (hnamed : ∀ n ∈ first :: rest, n.name.isSome)
    (h : ∀ n ∈ first :: rest, Clear n) (hlast : ∀ n ∈ unnamed last, Clear n) :
    read (text ⟨first :: (rest ++ unnamed last)⟩) =
      .ok ⟨(first :: (rest ++ unnamed last)).map (·.asRead)⟩ := by
  obtain ⟨name, hname⟩ := Option.isSome_iff_exists.1 (hnamed first (by simp))
  have hletters := (h first (by simp)).name name hname
  have hne : name.toList ≠ [] := by simpa using hletters.1
  have htext : (text ⟨first :: (rest ++ unnamed last)⟩).toList =
      name.toList ++ (rest ++ unnamed last).flatMap fun n => (nodeText false n).toList := by
    simp [text, nodeText, hname, hfirst, List.flatMap_map]
  have hempty : (text ⟨first :: (rest ++ unnamed last)⟩).isEmpty = false := by
    rw [Bool.eq_false_iff, ne_eq, String.isEmpty_iff, ← String.toList_eq_nil_iff, htext]
    simp [hletters.1]
  have hnode : (⟨some (String.ofList name.toList), none⟩ : PathNode) = first.asRead := by
    simp [PathNode.asRead, hname, hfirst]
  have hnodes := foldlM_step_nodes last hlast [] none hne
    (fun n hn => hnamed n (List.mem_cons_of_mem first hn))
    fun n hn => h n (List.mem_cons_of_mem first hn)
  rw [List.nil_append, hnode] at hnodes
  rw [read_eq hempty, htext, List.foldlM_append, foldlM_step_name [] none [] hletters.2, ok_bind,
    List.nil_append, hnodes]
  rfl

/-- The text of a path of named nodes, the first of which has no position, is read back as the path,
with its positions as they are read. -/
theorem read_text {first : PathNode} {rest : List PathNode} (hfirst : first.position = none)
    (hnamed : ∀ n ∈ first :: rest, n.name.isSome) (h : Legible ⟨first :: rest⟩) :
    read (text ⟨first :: rest⟩) = .ok ⟨(first :: rest).map (·.asRead)⟩ := by
  have hread : read (text ⟨first :: (rest ++ unnamed none)⟩) = _ :=
    read_text_of_clear hfirst hnamed (fun n hn => clear_of_words (h n hn)) (by simp [unnamed])
  rwa [show unnamed none = [] from rfl, List.append_nil] at hread

theorem read_name {name : String} (h : IsName name) : read name = .ok (root.property name) := by
  have htext : text ⟨[⟨some name, none⟩]⟩ = name := by simp [text, nodeText, String.join]
  have hnamed : ∀ n ∈ [(⟨some name, none⟩ : PathNode)], n.name.isSome := by simp
  have hlegible : Legible ⟨[⟨some name, none⟩]⟩ := by simpa [Legible, PathNode.words] using h
  have hread := read_text rfl hnamed hlegible
  rwa [htext] at hread

end Path

end ObjectValidation
