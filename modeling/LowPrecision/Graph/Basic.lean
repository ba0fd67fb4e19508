import LowPrecision.Attributes.Store

/-!
Dataflow graphs. A node keeps its number for as long as the graph exists; the place of a removed
node stays empty. Each input slot is listed among the readers of the output that it reads.
-/

namespace LowPrecision

inductive GraphError where
  | duplicateName (name : String)
  | unknownNode (id : NodeId)
  | invalidPort (node : NodeId) (index : Nat)
  | nodeInUse (id : NodeId)
  | portCountMismatch (old new : Nat)
  | cycle
  deriving DecidableEq

def GraphError.message : GraphError → String
  | duplicateName name => s!"node name {name} is already used"
  | unknownNode id => s!"node {id} does not exist"
  | invalidPort node index => s!"node {node} has no port {index}"
  | nodeInUse id => s!"node {id} still has consumers"
  | portCountMismatch old new =>
    s!"cannot replace a node with {old} outputs by a node with {new} outputs"
  | cycle => "graph is not acyclic"

structure Graph (α : Type) where
  nodes : Array (Option (Node α))
  names : List (String × NodeId)
  attributes : AttributeStore α

namespace Graph

variable {α : Type}

def empty : Graph α := ⟨#[], [], .empty⟩

def node? (g : Graph α) (id : NodeId) : Option (Node α) := g.nodes[id]?.join

def node (g : Graph α) (id : NodeId) : Except GraphError (Node α) :=
  match g.node? id with
  | some n => .ok n
  | none => .error (.unknownNode id)

def liveNodes (g : Graph α) : List (NodeId × Node α) :=
  (List.range g.nodes.size).filterMap fun id => (g.node? id).map (id, ·)

def nodeByName? (g : Graph α) (name : String) : Option NodeId :=
  (g.names.find? (·.1 = name)).map Prod.snd

def size (g : Graph α) : Nat := g.names.length

def kind? (g : Graph α) (id : NodeId) : Option OpKind := (g.node? id).map Node.kind

def ofKind (g : Graph α) (kind : OpKind) : List NodeId :=
  (g.liveNodes.filter (·.2.kind = kind)).map Prod.fst

def results (g : Graph α) : List NodeId := g.ofKind .result

def port (g : Graph α) (slot : Slot) : Except GraphError Port := do
  match (← g.node slot.node).output? slot.index with
  | some port => .ok port
  | none => .error (.invalidPort slot.node slot.index)

def port? (g : Graph α) (slot : Slot) : Option Port := (g.port slot).toOption

def input? (g : Graph α) (id : NodeId) (index : Nat) : Option Slot :=
  (g.node? id).bind (·.input? index)

def producer? (g : Graph α) (id : NodeId) (index : Nat) : Option NodeId :=
  (g.input? id index).map Slot.node

def inputKind? (g : Graph α) (id : NodeId) (index : Nat) : Option OpKind :=
  (g.producer? id index).bind g.kind?

def readers (g : Graph α) (slot : Slot) : List Slot :=
  ((g.node? slot.node).map (·.readers slot.index)).getD []

def insertSorted (id : NodeId) : List NodeId → List NodeId
  | [] => [id]
  | other :: rest =>
    if id < other then id :: other :: rest
    else if id = other then other :: rest
    else other :: insertSorted id rest

def readerNodes (g : Graph α) (id : NodeId) : List NodeId :=
  match g.node? id with
  | some n => n.allReaders.foldl (fun ids slot => insertSorted slot.node ids) []
  | none => []

def constant? (g : Graph α) (slot : Slot) : Option (Tensor α) :=
  match (g.node? slot.node).map Node.op with
  | some (.constant value) => some value
  | _ => none

def isFree (g : Graph α) (name : String) : Bool := (g.nodeByName? name).isNone

/-- `base` if it is free, else the first free one of `base_1`, `base_2` and so on. One more
candidate than there are names is enough. The numbers have no upper bound here. -/
def uniqueName (g : Graph α) (base : String) : String :=
  if g.isFree base then base
  else
    let candidates := (List.range (g.size + 1)).map fun i => s!"{base}_{i + 1}"
    (candidates.find? g.isFree).getD base

end Graph

end LowPrecision
