import LowPrecision.Graph.Op

namespace LowPrecision

abbrev NodeId := Nat

structure Slot where
  node : NodeId
  index : Nat
  deriving DecidableEq, Repr

structure Port where
  elementType : ElementType
  shape : Option (List Nat)
  deriving DecidableEq

namespace Port

def rank (p : Port) : Option Nat := p.shape.map List.length

def withType (p : Port) (t : ElementType) : Port := { p with elementType := t }

end Port

structure Wire where
  port : Port
  readers : List Slot
  deriving DecidableEq

structure RelaxedTypes where
  inputs : List ElementType
  outputs : List ElementType
  deriving DecidableEq

def RelaxedTypes.float (inputs outputs : Nat) : RelaxedTypes :=
  ⟨List.replicate inputs .f32, List.replicate outputs .f32⟩

structure Node (α : Type) where
  name : String
  op : Op α
  inputs : List Slot
  outputs : List Wire
  relaxed : Option RelaxedTypes
  deriving DecidableEq

namespace Node

variable {α : Type}

def kind (n : Node α) : OpKind := n.op.kind

def input? (n : Node α) (index : Nat) : Option Slot := n.inputs[index]?

def output? (n : Node α) (index : Nat) : Option Port := n.outputs[index]?.map Wire.port

def readers (n : Node α) (index : Nat) : List Slot := (n.outputs[index]?.map Wire.readers).getD []

def allReaders (n : Node α) : List Slot := n.outputs.flatMap Wire.readers

def readerCount (n : Node α) : Nat := n.allReaders.length

/-- Whether the node can go. Parameters and results stay even when nothing reads them. -/
def isDead (n : Node α) : Bool :=
  n.kind != .parameter && n.kind != .result && n.readerCount == 0

def producers (n : Node α) : List NodeId := n.inputs.map Slot.node

end Node

end LowPrecision
