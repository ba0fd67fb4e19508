import LowPrecision.Graph.Pattern
import LowPrecision.Rewrite.Basic
import LowPrecision.Tensor.Broadcast

namespace LowPrecision

variable {α : Type} [Arithmetic α]

namespace MatMul

def transposeIf (transpose : Bool) (scale : Tensor α) : Checked (Tensor α) :=
  if transpose then scale.transposeLastTwo else return scale

def rowScale (scale : Tensor α) (transpose : Bool) : Checked (Option (Tensor α)) := do
  let scale ← transposeIf transpose scale
  return if scale.size == 1 || scale.shape.getLast? == some 1 then some scale else none

def columnScale (scale : Tensor α) (transpose : Bool) : Checked (Option (Tensor α)) := do
  let scale ← transposeIf transpose scale
  let rows := scale.shape[scale.rank - 2]?
  return if scale.size == 1 || scale.rank ≤ 1 || rows == some 1 then some scale else none

structure Plan (α : Type) where
  operands : List Slot
  scale : Tensor α

def productScale? (a b : Dequantization α) (transposeA transposeB : Bool) :
    Checked (Option (Tensor α)) := do
  let some scaleA := a.scale? | return none
  let some rows ← rowScale scaleA transposeA | return none
  let some scaleB := b.scale? | return none
  let some columns ← columnScale scaleB transposeB | return none
  return ((← (rows.broadcastZip columns (· * ·)).run).toOption).map Tensor.toScalar

def plan? (g : Graph α) (id : NodeId) : Checked (Option (Plan α)) := do
  match (g.node? id).map Node.op, Dequantization.ofInput g id 0, Dequantization.ofInput g id 1 with
  | some (.matMul transposeA transposeB), some a, some b =>
    if a.hasZeroPoint || b.hasZeroPoint then return none
    return (← productScale? a b transposeA transposeB).map fun scale => ⟨[a.data, b.data], scale⟩
  | _, _, _ => return none

end MatMul

namespace Convolution

structure Plan (α : Type) where
  operands : List Slot
  scale : Tensor α

def activations? (g : Graph α) (id : NodeId) : Option (Dequantization α × Tensor α) := do
  let chain ← Dequantization.ofInput g id 0
  let scale ← chain.scale?
  if chain.hasZeroPoint || !scale.isUniform then none else return (chain, scale)

def weights? (g : Graph α) (id : NodeId) : Option (Dequantization α × Tensor α) := do
  let chain ← Dequantization.ofInput g id 1
  if g.kind? chain.data.node != some .constant || chain.hasZeroPoint then none
  else return (chain, ← chain.scale?)

def plan? (g : Graph α) (id : NodeId) : Checked (Option (Plan α)) := do
  let shape? := (g.port? ⟨id, 0⟩).bind Port.shape
  match shape?, shape?.bind (·[1]?), activations? g id, weights? g id with
  | some shape, some channels, some (data, dataScale), some (weights, weightScale) =>
    match ← weightScale.channelValues channels with
    | none => return none
    | some scales =>
      let factor ← Checked.get dataScale.data 0
      let scale ← Tensor.perChannel (scales.map (· * factor)) shape.length
      return some ⟨[data.data, weights.data], scale.toScalar⟩
  | _, _, _, _ => return none

end Convolution

end LowPrecision
