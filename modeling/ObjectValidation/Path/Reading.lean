import ObjectValidation.Path.Basic
/-!
# Reading property paths

A path is written as names with points between them. An element of a container is written in
brackets after the name of the container: `items[2].label`, `labels[home]`, `parts[].size`. The
position belongs to the node that follows it.
-/

namespace ObjectValidation.Path

/-- What can be wrong with the text of a path, and with a path that should lead to a property. -/
inductive Fault
  | empty
  | strayBracket
  | emptyName
  | unterminated
  | missingPoint
  | unnamedLeaf
  | unnamedStep
  deriving DecidableEq, Repr

/-- The fault in words. -/
def Fault.message : Fault → String
  | .empty => "path is empty"
  | .strayBracket => "unexpected ']'"
  | .emptyName => "empty property name"
  | .unterminated => "unterminated '['"
  | .missingPoint => "expected '.' after ']'"
  | .unnamedLeaf => "path must end with a property name"
  | .unnamedStep => "unnamed path element"

/-- The number that digits write, if it is a number of 64 bits. A plus sign may stand in front. -/
def readIndex? (cs : List Char) : Option Nat :=
  let digits := match cs with
    | '+' :: rest => rest
    | _ => cs
  let n := digits.foldl (fun n c => 10 * n + (c.toNat - '0'.toNat)) 0
  if !digits.isEmpty && digits.all Char.isDigit && n < UInt64.size then some n else none

/-- The position that the text between brackets stands for. -/
def readPosition (cs : List Char) : Position :=
  match readIndex? cs with
  | some n => .index n
  | none => if cs.isEmpty then .iterable else .key (String.ofList cs)

/-- Where a reader stands in the text of a path, after the nodes that are already complete. -/
inductive Scan
  /-- Within a name, whose node has the given position. -/
  | name (done : List PathNode) (position : Option Position) (letters : List Char)
  /-- Between brackets. -/
  | key (done : List PathNode) (letters : List Char)
  /-- Right behind a closing bracket. -/
  | closed (done : List PathNode) (position : Position)

/-- The complete nodes after the end of a name, which must not be empty. -/
def endName (done : List PathNode) (position : Option Position) (letters : List Char) :
    Except Fault (List PathNode) :=
  if letters.isEmpty then .error .emptyName
  else .ok (done ++ [⟨some (String.ofList letters), position⟩])

/-- Reading one more character. -/
def step : Scan → Char → Except Fault Scan
  | .name done position letters, c =>
    if c = ']' then .error .strayBracket
    else if c = '.' then (endName done position letters).map (.name · none [])
    else if c = '[' then (endName done position letters).map (.key · [])
    else .ok (.name done position (letters ++ [c]))
  | .key done letters, c =>
    if c = ']' then .ok (.closed done (readPosition letters))
    else if c = '[' then .error .unterminated
    else .ok (.key done (letters ++ [c]))
  | .closed done position, c =>
    if c = '.' then .ok (.name done (some position) []) else .error .missingPoint

/-- The nodes at the end of the text. A position at the end stands on a node without a name. -/
def finish : Scan → Except Fault (List PathNode)
  | .name done position letters => endName done position letters
  | .key _ _ => .error .unterminated
  | .closed done position => .ok (done ++ [⟨none, some position⟩])

/-- The path that a text writes. -/
def read (s : String) : Except Fault Path := do
  if s.isEmpty then throw .empty
  let scan ← s.toList.foldlM step (.name [] none [])
  return ⟨← finish scan⟩

end ObjectValidation.Path
