import LowPrecision.Graph.Basic

namespace LowPrecision

inductive Constraint where
  | staticShape
  | singleConsumer
  | constantInput (index : Nat)
  | inputKind (index : Nat) (kinds : List OpKind)
  | inputCount (count : Nat)
  deriving DecidableEq

structure NodeMatch where
  node : NodeId
  kind : OpKind
  producers : List NodeId
  consumers : List NodeId
  deriving DecidableEq

structure Pattern where
  kinds : List OpKind
  constraints : List Constraint

namespace Constraint

variable {α : Type}

def isStatic (port : Option Port) : Bool := (port.bind Port.shape).isSome

def holds (g : Graph α) (id : NodeId) (n : Node α) : Constraint → Bool
  | staticShape =>
    n.inputs.all (fun slot => isStatic (g.port? slot)) &&
      n.outputs.all (fun wire => isStatic wire.port)
  | singleConsumer => n.readerCount == 1
  | constantInput index => g.inputKind? id index == some .constant
  | inputKind index kinds => (g.inputKind? id index).any (· ∈ kinds)
  | inputCount count => n.inputs.length == count

end Constraint

def Pattern.matchAt {α : Type} (p : Pattern) (g : Graph α) (id : NodeId) : Option NodeMatch := do
  let n ← g.node? id
  if n.kind ∈ p.kinds && p.constraints.all (·.holds g id n) then
    return ⟨id, n.kind, n.producers, g.readerNodes id⟩
  else none

end LowPrecision
