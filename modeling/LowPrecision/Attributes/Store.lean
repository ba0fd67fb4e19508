import LowPrecision.Attributes.SharedCells
import LowPrecision.Graph.Node

namespace LowPrecision

structure InputRestriction where
  index : Nat
  precisions : List ElementType
  deriving DecidableEq

structure SharedInterval (α : Type) where
  low : α
  high : α
  levels : Nat
  deriving DecidableEq

def SharedInterval.widen {α : Type} [Arithmetic α] (a b : SharedInterval α) : SharedInterval α :=
  ⟨Arithmetic.lesser a.low b.low, Arithmetic.greater a.high b.high, min a.levels b.levels⟩

inductive Target where
  | node (id : NodeId)
  | output (slot : Slot)
  deriving DecidableEq

namespace Target

def owner : Target → NodeId
  | node id => id
  | output slot => slot.node

def moveTo (id : NodeId) : Target → Target
  | node _ => node id
  | output slot => output ⟨id, slot.index⟩

end Target

inductive AttributeKind where
  | precisionRestriction | precisionPreserved | precisions | intervals | alignment
  deriving DecidableEq, Repr

namespace AttributeKind

def all : List AttributeKind :=
  [precisionRestriction, precisionPreserved, precisions, intervals, alignment]

def name : AttributeKind → String
  | precisionRestriction => "PrecisionRestriction"
  | precisionPreserved => "PrecisionPreserved"
  | precisions => "Precisions"
  | intervals => "IntervalsAlignment"
  | alignment => "QuantizationAlignment"

def ofName? (name : String) : Option AttributeKind := all.find? (·.name = name)

def position : AttributeKind → Nat
  | precisionRestriction => 0
  | precisionPreserved => 1
  | precisions => 2
  | intervals => 3
  | alignment => 4

end AttributeKind

inductive Attribute where
  | precisionRestriction (inputs : List InputRestriction)
  | precisionPreserved (flag : Bool)
  | precisions (group : GroupId)
  | intervals (group : GroupId)
  | alignment (group : GroupId)
  deriving DecidableEq

def Attribute.kind : Attribute → AttributeKind
  | precisionRestriction _ => .precisionRestriction
  | precisionPreserved _ => .precisionPreserved
  | precisions _ => .precisions
  | intervals _ => .intervals
  | alignment _ => .alignment

inductive AttributeValue (α : Type) where
  | restriction (inputs : List InputRestriction)
  | flag (value : Bool)
  | precisions (types : PrecisionSet)
  | interval (value : SharedInterval α)
  deriving DecidableEq

structure AttributeKey where
  target : Target
  kind : AttributeKind
  deriving DecidableEq

def AttributeKey.code (k : AttributeKey) : List Nat :=
  match k.target with
  | .node id => [0, id, k.kind.position]
  | .output slot => [1, slot.node, slot.index, k.kind.position]

structure AlignmentConflict where
  members : List String
  reason : String
  deriving DecidableEq

structure AttributeStore (α : Type) where
  entries : List (AttributeKey × Attribute)
  precisionCells : SharedCells PrecisionSet
  intervalCells : SharedCells (SharedInterval α)
  alignmentCells : SharedCells Bool
  conflicts : List AlignmentConflict

namespace AttributeStore

variable {α : Type}

def empty : AttributeStore α := ⟨[], .empty, .empty, .empty, []⟩

def lookup (entries : List (AttributeKey × Attribute)) (key : AttributeKey) : Option Attribute :=
  (entries.find? (·.1 = key)).map Prod.snd

def insertEntry (key : AttributeKey) (value : Attribute) :
    List (AttributeKey × Attribute) → List (AttributeKey × Attribute)
  | [] => [(key, value)]
  | entry :: rest =>
    if entry.1 = key then (key, value) :: rest
    else if key.code < entry.1.code then (key, value) :: entry :: rest
    else entry :: insertEntry key value rest

def get? (s : AttributeStore α) (target : Target) (kind : AttributeKind) : Option Attribute :=
  lookup s.entries ⟨target, kind⟩

def has (s : AttributeStore α) (target : Target) (kind : AttributeKind) : Bool :=
  (s.get? target kind).isSome

def set (s : AttributeStore α) (target : Target) (value : Attribute) : AttributeStore α :=
  { s with entries := insertEntry ⟨target, value.kind⟩ value s.entries }

def erase (s : AttributeStore α) (target : Target) (kind : AttributeKind) : AttributeStore α :=
  { s with entries := s.entries.filter (·.1 ≠ ⟨target, kind⟩) }

def clear (s : AttributeStore α) (kind : AttributeKind) : AttributeStore α :=
  let s := { s with entries := s.entries.filter (·.1.kind ≠ kind) }
  match kind with
  | .precisions => { s with precisionCells := .empty }
  | .intervals => { s with intervalCells := .empty }
  | .alignment => { s with alignmentCells := .empty, conflicts := [] }
  | .precisionRestriction | .precisionPreserved => s

/-- Gives `target` the attributes of `source` of which it has none of the same kind. -/
def copyNode (s : AttributeStore α) (source target : NodeId) : AttributeStore α :=
  let copied := s.entries.filter (·.1.target.owner = source)
  copied.foldl (fun s entry =>
    let moved := entry.1.target.moveTo target
    if s.has moved entry.1.kind then s else s.set moved entry.2) s

def forgetNode (s : AttributeStore α) (id : NodeId) : AttributeStore α :=
  { s with entries := s.entries.filter (·.1.target.owner ≠ id) }

def restriction? (s : AttributeStore α) (id : NodeId) : Option (List InputRestriction) :=
  match s.get? (.node id) .precisionRestriction with
  | some (.precisionRestriction inputs) => some inputs
  | _ => none

def precisionPreserved? (s : AttributeStore α) (id : NodeId) : Option Bool :=
  match s.get? (.node id) .precisionPreserved with
  | some (.precisionPreserved flag) => some flag
  | _ => none

def precisionGroup? (s : AttributeStore α) (slot : Slot) : Option GroupId :=
  match s.get? (.output slot) .precisions with
  | some (.precisions group) => some group
  | _ => none

def precisions? (s : AttributeStore α) (slot : Slot) : Option PrecisionSet :=
  s.precisionGroup? slot >>= s.precisionCells.get?

def newPrecisions (s : AttributeStore α) (types : PrecisionSet) : GroupId × AttributeStore α :=
  let (group, cells) := s.precisionCells.insert types
  (group, { s with precisionCells := cells })

def mergePrecisions (s : AttributeStore α) (a b : GroupId) :
    Checked (GroupId × AttributeStore α) := do
  let (group, cells) ← s.precisionCells.merge a b PrecisionSet.inter
  return (group, { s with precisionCells := cells })

def restrictPrecisions (s : AttributeStore α) (group : GroupId) (allowed : List ElementType) :
    AttributeStore α :=
  { s with precisionCells := s.precisionCells.modify group (PrecisionSet.inter · allowed) }

def intervalGroup? (s : AttributeStore α) (id : NodeId) : Option GroupId :=
  match s.get? (.node id) .intervals with
  | some (.intervals group) => some group
  | _ => none

def intervalRoot? (s : AttributeStore α) (id : NodeId) : Option GroupId :=
  (s.intervalGroup? id).map s.intervalCells.find

def interval? (s : AttributeStore α) (id : NodeId) : Option (SharedInterval α) :=
  s.intervalGroup? id >>= s.intervalCells.get?

def newInterval (s : AttributeStore α) (value : SharedInterval α) : GroupId × AttributeStore α :=
  let (group, cells) := s.intervalCells.insert value
  (group, { s with intervalCells := cells })

def mergeIntervals [Arithmetic α] (s : AttributeStore α) (a b : GroupId) :
    Checked (GroupId × AttributeStore α) := do
  let (group, cells) ← s.intervalCells.merge a b SharedInterval.widen
  return (group, { s with intervalCells := cells })

def newAlignment (s : AttributeStore α) (value : Bool) : GroupId × AttributeStore α :=
  let (group, cells) := s.alignmentCells.insert value
  (group, { s with alignmentCells := cells })

def isAligned (s : AttributeStore α) (id : NodeId) : Bool :=
  match s.get? (.node id) .alignment with
  | some (.alignment group) => (s.alignmentCells.get? group).getD false
  | _ => false

def addConflict (s : AttributeStore α) (conflict : AlignmentConflict) : AttributeStore α :=
  { s with conflicts := s.conflicts ++ [conflict] }

def value? (s : AttributeStore α) : Attribute → Option (AttributeValue α)
  | .precisionRestriction inputs => some (.restriction inputs)
  | .precisionPreserved flag => some (.flag flag)
  | .precisions group => (s.precisionCells.get? group).map .precisions
  | .intervals group => (s.intervalCells.get? group).map .interval
  | .alignment group => (s.alignmentCells.get? group).map .flag

def snapshot (s : AttributeStore α) : List (AttributeKey × Option (AttributeValue α)) :=
  s.entries.map fun (key, value) => (key, s.value? value)

end AttributeStore

end LowPrecision
