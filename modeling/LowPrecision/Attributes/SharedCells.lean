import LowPrecision.Checked

/-!
Values shared by groups. Every member of a group names a cell; merging two groups leaves one value
that is seen from the members of both.
-/

namespace LowPrecision

abbrev GroupId := Nat

/-- Each cell has a parent, and a root is its own. Only roots hold a value. -/
structure SharedCells (β : Type) where
  parents : Array GroupId
  values : Array (Option β)

namespace SharedCells

variable {β : Type}

def empty : SharedCells β := ⟨#[], #[]⟩

def size (s : SharedCells β) : Nat := s.parents.size

def insert (s : SharedCells β) (value : β) : GroupId × SharedCells β :=
  (s.size, ⟨s.parents.push s.size, s.values.push (some value)⟩)

def climb (parents : Array GroupId) : Nat → GroupId → GroupId
  | 0, group => group
  | steps + 1, group =>
    match parents[group]? with
    | some parent => if parent = group then group else climb parents steps parent
    | none => group

def find (s : SharedCells β) (group : GroupId) : GroupId := climb s.parents s.size group

def sameGroup (s : SharedCells β) (a b : GroupId) : Bool := s.find a == s.find b

def get? (s : SharedCells β) (group : GroupId) : Option β := s.values[s.find group]?.join

def modify (s : SharedCells β) (group : GroupId) (f : β → β) : SharedCells β :=
  match s.get? group with
  | some value => { s with values := s.values.setIfInBounds (s.find group) (some (f value)) }
  | none => s

def take (values : Array (Option β)) (i : GroupId) : Checked (Option β × Array (Option β)) :=
  match values[i]? with
  | some value => .ok (value, values.setIfInBounds i none)
  | none => .error .outOfRange

/-- Joins two groups. The older root stays and holds its own value combined with the other one. -/
def merge (s : SharedCells β) (a b : GroupId) (combine : β → β → β) :
    Checked (GroupId × SharedCells β) := do
  let ra := s.find a
  let rb := s.find b
  if ra = rb then return (ra, s)
  let root := min ra rb
  let child := max ra rb
  let (x, values) ← take s.values root
  let (y, values) ← take values child
  let merged := match x, y with
    | some x, some y => some (combine x y)
    | x, y => x.or y
  return (root, ⟨s.parents.setIfInBounds child root, values.setIfInBounds root merged⟩)

def roots (s : SharedCells β) : List GroupId :=
  (List.range s.size).filter fun i => s.parents[i]? == some i

end SharedCells

end LowPrecision
