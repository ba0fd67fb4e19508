import LowPrecision.Graph.Basic

namespace LowPrecision

namespace Graph

variable {α β : Type}

def modifyNode (g : Graph α) (id : NodeId) (f : Node α → Node α) : Graph α :=
  { g with nodes := g.nodes.modify id (Option.map f) }

def modifyWire (g : Graph α) (slot : Slot) (f : Wire → Wire) : Graph α :=
  g.modifyNode slot.node fun n => { n with outputs := n.outputs.modify slot.index f }

def addReader (g : Graph α) (source reader : Slot) : Graph α :=
  g.modifyWire source fun w => { w with readers := w.readers ++ [reader] }

def removeReader (g : Graph α) (source reader : Slot) : Graph α :=
  g.modifyWire source fun w => { w with readers := w.readers.filter (· ≠ reader) }

def slotsOf (id : NodeId) (inputs : List Slot) : List (Slot × Slot) :=
  inputs.zipIdx.map fun (source, index) => (source, ⟨id, index⟩)

def push (g : Graph α) (n : Node α) : Graph α :=
  { g with nodes := g.nodes.push (some n), names := (n.name, g.nodes.size) :: g.names }

def setName (g : Graph α) (id : NodeId) (old new : String) : Graph α :=
  let g := g.modifyNode id fun n => { n with name := new }
  { g with names := (new, id) :: g.names.filter (·.1 ≠ old) }

def drop (g : Graph α) (id : NodeId) (name : String) : Graph α :=
  { nodes := g.nodes.setIfInBounds id none
    names := g.names.filter (·.1 ≠ name)
    attributes := g.attributes.forgetNode id }

abbrev Outcome (α β : Type) := Except GraphError β × Graph α

abbrev Update (α : Type) := ExceptT GraphError (StateM (Graph α))

namespace Update

def on (g : Graph α) (u : Update α β) : Outcome α β := Id.run (u.run.run g)

def look (f : Graph α → Except GraphError β) : Update α β := do
  match f (← get) with
  | .ok x => return x
  | .error e => throw e

def change (f : Graph α → Graph α) : Update α Unit := modify f

def link (f : Graph α → Slot → Slot → Graph α) (source reader : Slot) : Update α Unit := do
  discard (look (·.port source))
  change (f · source reader)

end Update

open Update

def addNode (g : Graph α) (name : String) (op : Op α) (inputs : List Slot) (outputs : List Port) :
    Outcome α NodeId := on g do
  if !g.isFree name then throw (.duplicateName name)
  inputs.forM fun input => discard (look (·.port input))
  (slotsOf g.nodes.size inputs).forM fun (source, reader) => link addReader source reader
  change (·.push ⟨name, op, inputs, outputs.map (⟨·, []⟩), none⟩)
  return g.nodes.size

def addUniqueNode (g : Graph α) (base : String) (op : Op α) (inputs : List Slot)
    (outputs : List Port) : Outcome α NodeId :=
  g.addNode (g.uniqueName base) op inputs outputs

def addConstant (g : Graph α) (base : String) (value : Tensor α) (type : ElementType) :
    Outcome α NodeId :=
  g.addUniqueNode base (.constant value) [] [⟨type, some value.shape⟩]

def setOutputType (g : Graph α) (slot : Slot) (type : ElementType) : Outcome α Unit := on g do
  discard (look (·.port slot))
  change (·.modifyWire slot fun w => { w with port := w.port.withType type })

def setRelaxed (g : Graph α) (id : NodeId) (types : RelaxedTypes) : Outcome α Unit := on g do
  discard (look (·.node id))
  change (·.modifyNode id fun n => { n with relaxed := some types })

def setInput (g : Graph α) (id : NodeId) (index : Nat) (source : Slot) : Outcome α Unit := on g do
  discard (look (·.port source))
  match (← look (·.node id)).input? index with
  | none => throw (.invalidPort id index)
  | some old =>
    link removeReader old ⟨id, index⟩
    link addReader source ⟨id, index⟩
    change (·.modifyNode id fun n => { n with inputs := n.inputs.set index source })

def rename (g : Graph α) (id : NodeId) (name : String) : Outcome α Unit := on g do
  match g.nodeByName? name with
  | some owner => if owner = id then return () else throw (.duplicateName name)
  | none =>
    let n ← look (·.node id)
    change (·.setName id n.name name)

def removeNode (g : Graph α) (id : NodeId) : Outcome α Unit := on g do
  let n ← look (·.node id)
  if 0 < n.readerCount then throw (.nodeInUse id)
  (slotsOf id n.inputs).forM fun (source, reader) => link removeReader source reader
  change (·.drop id n.name)

def detach (g : Graph α) (id : NodeId) (n : Node α) : Graph α :=
  let g := (slotsOf id n.inputs).foldl (fun g (source, reader) => g.removeReader source reader) g
  g.drop id n.name

end Graph

end LowPrecision
