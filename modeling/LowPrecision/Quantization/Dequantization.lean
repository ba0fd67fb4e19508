import LowPrecision.Graph.Rewiring
import LowPrecision.Quantization.Ranges

/-!
Dequantization chains. Quantized values are converted to float, the zero point is subtracted, and
the result is multiplied by the scale. Each of the three steps may be missing.
-/

namespace LowPrecision

variable {α : Type}

structure AffineParams (α : Type) where
  scale : Tensor α
  zeroPoint : Option (Tensor α)
  deriving DecidableEq

namespace AffineParams

section Comparison

variable [Arithmetic α]

def ofChannels (scales zeroPoints : List α) (rank : Nat) : Checked (AffineParams α) := do
  let zeroPoint ←
    if zeroPoints.any fun z => !Arithmetic.equal z Arithmetic.zero then
      (some ∘ Tensor.toScalar) <$> Tensor.perChannel zeroPoints rank
    else pure none
  return ⟨(← Tensor.perChannel scales rank).toScalar, zeroPoint⟩

def isUniform (p : AffineParams α) : Bool :=
  p.scale.isUniform && p.zeroPoint.all Tensor.isUniform

def toScalar (p : AffineParams α) : AffineParams α :=
  ⟨p.scale.toScalar, p.zeroPoint.map Tensor.toScalar⟩

def channelValues (p : AffineParams α) (channels : Nat) :
    Checked (Option (List α × List α)) := do
  match ← p.scale.channelValues channels with
  | none => return none
  | some scales =>
    let zeroPoints ← match p.zeroPoint with
      | some zeroPoint => zeroPoint.channelValues channels
      | none => some <$> Checked.replicate Tensor.elementWidth channels Arithmetic.zero
    return zeroPoints.map (scales, ·)

end Comparison

end AffineParams

def Graph.constantValue? (g : Graph α) (slot : Slot) : Option (Tensor α) :=
  match g.constant? slot with
  | some value => some value
  | none => do
    let n ← g.node? slot.node
    match n.op with
    | .convert _ => (← n.input? 0) |> g.constant?
    | _ => none

/-- Float outputs whose values still lie on a quantized grid: a fake-quantize, or a kernel that
runs on low precision operands. -/
def Graph.isQuantizedDomain (g : Graph α) (id : NodeId) : Bool :=
  (g.node? id).any fun n =>
    match n.kind with
    | .fakeQuantize => true
    | .matMul | .convolution | .groupConvolution => n.relaxed.isSome
    | _ => false

structure Dequantization (α : Type) where
  data : Slot
  convert : Option NodeId
  subtract : Option (NodeId × Tensor α)
  multiply : Option (NodeId × Tensor α)
  deriving DecidableEq

namespace Dequantization

def readMultiply (g : Graph α) (output : Slot) : Option (Option (NodeId × Tensor α) × Slot) :=
  match g.node? output.node with
  | some n =>
    if n.kind = .multiply then do
      let a ← n.input? 0
      let b ← n.input? 1
      match g.constant? b, g.constant? a with
      | some scale, _ => return (some (output.node, scale), a)
      | none, some scale => return (some (output.node, scale), b)
      | none, none => return (none, output)
    else some (none, output)
  | none => some (none, output)

def readSubtract (g : Graph α) (output : Slot) : Option (Option (NodeId × Tensor α) × Slot) :=
  match g.node? output.node with
  | some n =>
    if n.kind = .subtract then do
      let a ← n.input? 0
      let b ← n.input? 1
      match g.constantValue? b with
      | some zeroPoint => return (some (output.node, zeroPoint), a)
      | none => return (none, output)
    else some (none, output)
  | none => some (none, output)

def readConvert (g : Graph α) (output : Slot) : Option (Option NodeId × Slot) :=
  match g.node? output.node with
  | some n =>
    match n.op with
    | .convert destination =>
      if destination.isFloat then (n.input? 0).map (some output.node, ·) else some (none, output)
    | _ => some (none, output)
  | none => some (none, output)

/-- The chain that ends at an output. Its steps are read backward, and what enters it must be
stored in a low precision type or, without a conversion, lie on a quantized grid. -/
def ofOutput (g : Graph α) (output : Slot) : Option (Dequantization α) := do
  let (multiply, current) ← readMultiply g output
  let (subtract, current) ← readSubtract g current
  let (convert, data) ← readConvert g current
  let type := (← g.port? data).elementType
  let quantized :=
    match convert with
    | some _ => type.isLowPrecision
    | none => (multiply.isSome || subtract.isSome) &&
        (type.isLowPrecision || g.isQuantizedDomain data.node)
  if quantized then some ⟨data, convert, subtract, multiply⟩ else none

def ofInput (g : Graph α) (id : NodeId) (index : Nat) : Option (Dequantization α) :=
  (g.input? id index).bind (ofOutput g)

def nodes (d : Dequantization α) : List NodeId :=
  d.convert.toList ++ d.subtract.toList.map Prod.fst ++ d.multiply.toList.map Prod.fst

def output (d : Dequantization α) : Slot :=
  match d.nodes.getLast? with
  | some id => ⟨id, 0⟩
  | none => d.data

def scale? (d : Dequantization α) : Option (Tensor α) := d.multiply.map Prod.snd

def zeroPoint? (d : Dequantization α) : Option (Tensor α) := d.subtract.map Prod.snd

section Comparison

variable [Arithmetic α]

def hasZeroPoint (d : Dequantization α) : Bool :=
  d.zeroPoint?.any fun t => t.data.any fun z => !Arithmetic.equal z Arithmetic.zero

def params (d : Dequantization α) : AffineParams α :=
  ⟨d.scale?.getD (Tensor.scalar Arithmetic.one), d.zeroPoint?⟩

end Comparison

end Dequantization

namespace Edit

variable {β : Type}

def ofGraph (e : Edit α GraphError β) : Edit α TransformError β :=
  ExceptT.adapt TransformError.graph e

def addNode (base : String) (op : Op α) (inputs : List Slot) (outputs : List Port) :
    Edit α TransformError NodeId :=
  ofGraph (answer (·.addUniqueNode base op inputs outputs))

def addConstant (base : String) (value : Tensor α) (type : ElementType) :
    Edit α TransformError Slot :=
  (⟨·, 0⟩) <$> ofGraph (answer (·.addConstant base value type))

def port (slot : Slot) : Edit α TransformError Port := ofGraph (ofExcept (·.port slot))

def node (id : NodeId) : Edit α TransformError (Node α) := ofGraph (ofExcept (·.node id))

end Edit

namespace Dequantization

variable [Arithmetic α]

def addZeroPoint (base : String) (zeroPoint : Tensor α) (precision : ElementType) :
    Edit α TransformError Slot := do
  let exact := precision.isLowPrecision && zeroPoint.data.all precision.represents
  let name := s!"{base}/DequantizationZeroPoint"
  if exact then
    let constant ← Edit.addConstant name zeroPoint precision
    let convert ← Edit.addNode s!"{base}/DequantizationZeroPointConvert" (.convert .f32)
      [constant] [⟨.f32, some zeroPoint.shape⟩]
    return ⟨convert, 0⟩
  else Edit.addConstant name zeroPoint .f32

def addConvert (source : Slot) (port : Port) (base : String) :
    Edit α TransformError (Option NodeId) :=
  if port.elementType = .f32 then return none
  else
    some <$> Edit.addNode s!"{base}/DequantizationConvert" (.convert .f32) [source]
      [port.withType .f32]

def addSubtract (current : Slot) (port : Port) (zeroPoint : Option (Tensor α)) (base : String) :
    Edit α TransformError (Option (NodeId × Tensor α)) :=
  match zeroPoint with
  | none => return none
  | some zeroPoint => do
    let constant ← addZeroPoint base zeroPoint port.elementType
    let id ← Edit.addNode s!"{base}/DequantizationSubtract" .subtract [current, constant]
      [port.withType .f32]
    return some (id, zeroPoint)

def addMultiply (current : Slot) (port : Port) (scale : Tensor α) (base : String) :
    Edit α TransformError (NodeId × Tensor α) := do
  let constant ← Edit.addConstant s!"{base}/DequantizationScale" scale .f32
  let id ← Edit.addNode s!"{base}/DequantizationMultiply" .multiply [current, constant]
    [port.withType .f32]
  return (id, scale)

def build (source : Slot) (params : AffineParams α) (base : String) :
    Edit α TransformError (Dequantization α) := do
  let port ← Edit.port source
  let convert ← addConvert source port base
  let current := (convert.map (⟨·, 0⟩)).getD source
  let subtract ← addSubtract current port params.zeroPoint base
  let current := (subtract.map (⟨·.1, 0⟩)).getD current
  let multiply ← addMultiply current port params.scale base
  return ⟨source, convert, subtract, some multiply⟩

def insert (source : Slot) (slots : List Slot) (params : AffineParams α) (base : String) :
    Edit α TransformError (Dequantization α) := do
  let chain ← build source params base
  Edit.ofGraph (Graph.rewire slots chain.output)
  return chain

end Dequantization

end LowPrecision
