import LowPrecision.Graph.Pattern
import LowPrecision.Rewrite.Basic
import LowPrecision.Tensor.Broadcast

namespace LowPrecision

variable {α : Type}

namespace ConvertFusion

/-- The low precision value behind a conversion to float, if it is not a constant. -/
def source? (g : Graph α) (input : Slot) : Option Slot := do
  let n ← g.node? input.node
  match n.op with
  | .convert destination =>
    let source ← n.input? 0
    let port ← g.port? source
    if destination.isFloat && port.elementType.isLowPrecision &&
        g.kind? source.node != some .constant then return source
    else none
  | _ => none

def fusable? (g : Graph α) (id : NodeId) : Option (Nat × Slot) := do
  let n ← g.node? id
  let candidates := n.inputs.zipIdx.filterMap fun (input, slot) =>
    (source? g input).map (slot, ·)
  match candidates with
  | [candidate] => return candidate
  | _ => none

def otherSlot (slot : Nat) : Checked Nat :=
  if slot ≤ 1 then return 1 - slot else throw .overflow

def canApply [Arithmetic α] (g : Graph α) (m : NodeMatch) : Checked Bool := do
  let some (slot, source) := fusable? g m.node | return false
  if m.kind ≠ .subtract then return true
  let some port := g.port? source | return false
  let other ← otherSlot slot
  return ((g.input? m.node other).bind g.constantValue?).any fun value =>
    value.data.all port.elementType.represents

def apply (m : NodeMatch) : Edit α TransformError Bool := do
  let some (slot, source) ← Edit.read (fusable? · m.node) | return false
  let n ← Edit.node m.node
  let fused ← Edit.addNode s!"{n.name}/Fused" n.op (n.inputs.set slot source)
    (n.outputs.map Wire.port)
  Edit.ofGraph (Edit.step (·.setRelaxed fused (.float 2 1)))
  Edit.ofGraph (Graph.replaceNode m.node fused)
  return true

end ConvertFusion

namespace Sanitize

def constant? [Scalar α] (g : Graph α) (m : NodeMatch) : Option (Tensor α) := do
  let feedsQuantization := m.consumers.any fun id =>
    match g.kind? id with
    | some .fakeQuantize | some .subtract | some .multiply => true
    | _ => false
  if !feedsQuantization then none
  let value ← g.constant? ⟨m.node, 0⟩
  return ⟨value.shape, ← sanitize value.data⟩

def apply [Scalar α] (m : NodeMatch) : Edit α TransformError Bool := do
  let some value ← Edit.read (constant? · m) | return false
  let n ← Edit.node m.node
  let type := (← Edit.port ⟨m.node, 0⟩).elementType
  let constant ← Edit.addConstant s!"{n.name}/Sanitized" value type
  Edit.ofGraph (Graph.replaceNode m.node constant.node)
  return true

end Sanitize

namespace FoldConvert

def canApply (g : Graph α) (id : NodeId) : Bool :=
  let readers := g.readers ⟨id, 0⟩
  !readers.isEmpty && readers.all fun slot =>
    slot.index == 1 && g.kind? slot.node == some .subtract

def apply (id : NodeId) : Edit α TransformError Bool := do
  let n ← Edit.node id
  match n.op with
  | .convert destination =>
    let some value ← Edit.read fun g => (n.input? 0).bind g.constant? | return false
    let folded ← Edit.addConstant s!"{n.name}/Folded" value destination
    Edit.ofGraph (Graph.replaceNode id folded.node)
    return true
  | _ => return false

end FoldConvert

namespace RangeFusion

/-- The fake-quantize that a node reads, directly or through a conversion that nobody else reads,
with the constant that the node applies. -/
def source? (g : Graph α) (id : NodeId) : Option (NodeId × Tensor α) := do
  let value ← (g.input? id 1).bind g.constantValue?
  let feedsConvolution := (g.readerNodes id).any fun reader =>
    match g.kind? reader with
    | some .convolution | some .groupConvolution => true
    | _ => false
  if feedsConvolution then none
  let parent ← g.producer? id 0
  let parent ←
    if g.kind? parent = some .convert then
      if ((g.node? parent).map Node.readerCount) = some 1 then g.producer? parent 0 else none
    else some parent
  let n ← g.node? parent
  let isConstant (index : Nat) : Bool := ((n.input? index).bind g.constant?).isSome
  if n.kind = .fakeQuantize && n.readerCount == 1 && isConstant 3 && isConstant 4 then
    return (parent, value)
  else none

def apply (id : NodeId) (f : α → α → α) : Edit α TransformError Bool := do
  let some (fakeQuantize, value) ← Edit.read (source? · id) | return false
  let bound (index : Nat) : Edit α TransformError (Tensor α) := do
    match ← Edit.read fun g => (g.input? fakeQuantize index).bind g.constant? with
    | some bound => Edit.attempt fun _ => ExceptT.adapt .tensor (bound.broadcastZip value f)
    | none => throw (.notQuantizable fakeQuantize)
  let low ← bound 3
  let high ← bound 4
  let type := (← Edit.port ⟨id, 0⟩).elementType
  let n ← Edit.node fakeQuantize
  let fused ← addFakeQuantize fakeQuantize low high type
  Edit.ofGraph (Graph.replaceNode id fused)
  Edit.ofGraph (Edit.step (·.rename fused n.name))
  return true

end RangeFusion

end LowPrecision
