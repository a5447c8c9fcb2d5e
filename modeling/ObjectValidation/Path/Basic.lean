/-!
# Property paths

Where a value stands, seen from the object a validation starts at. A path is a list of nodes; a node
has the name of a property and, if the property belongs to an element of a container, the position
of that element. The last node may still lack its name.
-/

namespace ObjectValidation

/-- The position of an element in its container. -/
inductive Position
  | index (n : Nat)
  | key (k : String)
  | iterable
  deriving DecidableEq, Repr

/-- A position as paths show it. -/
def Position.text : Position → String
  | .index n => "[" ++ toString n ++ "]"
  | .key k => "[" ++ k ++ "]"
  | .iterable => "[]"

/-- One step of a path. -/
structure PathNode where
  name : Option String
  position : Option Position
  deriving DecidableEq, Repr

/-- A path from the object a validation starts at. -/
structure Path where
  nodes : List PathNode
  deriving DecidableEq, Repr, Inhabited

namespace Path

/-- The place of the starting object itself. -/
def root : Path := ⟨[]⟩

/-- Whether the path is that of the starting object itself. -/
def isRoot (p : Path) : Bool := p.nodes.isEmpty

/-- The nodes after naming a property: a last node without a name takes it, else a node is added. -/
def nameLast (name : String) : List PathNode → List PathNode
  | [] => [⟨some name, none⟩]
  | [n] => if n.name.isNone then [{ n with name := some name }] else [n, ⟨some name, none⟩]
  | n :: rest => n :: nameLast name rest

/-- The path of a property of what the path leads to. -/
def property (p : Path) (name : String) : Path := ⟨nameLast name p.nodes⟩

/-- The path of an element of what the path leads to. -/
def element (p : Path) (position : Option Position) : Path := ⟨p.nodes ++ [⟨none, position⟩]⟩

/-- The path of an executable, from which those of its parameters and its returned value start. -/
def executable (name : String) : Path := root.property name

/-- The path of the value an executable returns. -/
def returnValue (p : Path) : Path := p.property "<return value>"

/-- The path of all arguments of an executable together. -/
def crossParameter (p : Path) : Path := p.property "<cross-parameter>"

/-- Whether the first nodes are the beginning of the second, the last of them by its name only. -/
def leads : List PathNode → List PathNode → Bool
  | [], _ => true
  | [m], n :: _ => m.name == n.name
  | m :: ms, n :: ns => m == n && leads ms ns
  | _ :: _, [] => false

/-- Whether the path lies on the way to the other one. -/
def isSubPathOf (p q : Path) : Bool := leads p.nodes q.nodes

/-- The name of the last node that has one. -/
def leafName? (p : Path) : Option String := p.nodes.reverse.findSome? (·.name)

/-- The text of a node, which has a point before its name unless it is the first of the path. -/
def nodeText (first : Bool) (n : PathNode) : String :=
  (n.position.map Position.text).getD "" ++
    match n.name with
    | some name => if first then name else "." ++ name
    | none => ""

/-- The text of a path. -/
def text (p : Path) : String :=
  match p.nodes with
  | [] => ""
  | n :: rest => nodeText true n ++ String.join (rest.map (nodeText false))

instance : ToString Path := ⟨text⟩

end Path

end ObjectValidation
