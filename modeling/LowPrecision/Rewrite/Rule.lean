import LowPrecision.Rewrite.Decomposition
import LowPrecision.Rewrite.Fusion
import LowPrecision.Rewrite.Kernels
import LowPrecision.Rewrite.Layout

namespace LowPrecision

inductive Rule where
  | decomposition
  | convertFusion
  | matMul
  | convolution
  | concat
  | sanitization
  | depthToSpace
  | transparent
  | foldConvert
  | fuseSubtract
  | fuseMultiply
  deriving DecidableEq, Repr

namespace Rule

def all : List Rule :=
  [decomposition, convertFusion, matMul, convolution, concat, sanitization, depthToSpace,
    transparent, foldConvert, fuseSubtract, fuseMultiply]

def name : Rule → String
  | decomposition => "FakeQuantizeDecomposition"
  | convertFusion => "ConvertFusion"
  | matMul => "MatMul"
  | convolution => "Convolution"
  | concat => "Concat"
  | sanitization => "ConstantSanitization"
  | depthToSpace => "DepthToSpace"
  | transparent => "Transparent"
  | foldConvert => "FoldConvert"
  | fuseSubtract => "FuseSubtractToFakeQuantize"
  | fuseMultiply => "FuseMultiplyToFakeQuantize"

def ofName? (name : String) : Option Rule := all.find? (·.name = name)

def pattern : Rule → Pattern
  | decomposition => ⟨[.fakeQuantize],
      [.constantInput 1, .constantInput 2, .constantInput 3, .constantInput 4]⟩
  | convertFusion => ⟨[.add, .multiply, .subtract], [.inputCount 2]⟩
  | matMul => ⟨[.matMul], []⟩
  | convolution => ⟨[.convolution, .groupConvolution], []⟩
  | concat => ⟨[.concat], []⟩
  | sanitization => ⟨[.constant], []⟩
  | depthToSpace => ⟨[.depthToSpace], []⟩
  | transparent => ⟨[.maxPool, .avgPool, .reshape, .transpose, .squeeze, .unsqueeze,
      .stridedSlice, .split, .variadicSplit, .interpolate, .relu], []⟩
  | foldConvert => ⟨[.convert], [.constantInput 0]⟩
  | fuseSubtract => ⟨[.subtract], [.inputCount 2]⟩
  | fuseMultiply => ⟨[.multiply], [.inputCount 2]⟩

def forKind : OpKind → List Rule
  | .fakeQuantize => [decomposition]
  | .add | .multiply | .subtract => [convertFusion]
  | .matMul => [matMul]
  | .convolution | .groupConvolution => [convolution]
  | .concat => [concat]
  | .constant => [sanitization]
  | .depthToSpace => [depthToSpace]
  | .maxPool | .avgPool | .reshape | .transpose | .squeeze | .unsqueeze | .stridedSlice | .split
  | .variadicSplit | .interpolate | .relu => [transparent]
  | .parameter | .result | .convert | .pRelu | .mvn | .normalizeL2 | .clamp => []

def cleanup : List Rule := [foldConvert, fuseSubtract, fuseMultiply]

variable {α : Type} [Scalar α]

def canApply (c : Context) (g : Graph α) (m : NodeMatch) : Rule → Checked Bool
  | decomposition => Decomposition.canApply c g m.node
  | convertFusion => ConvertFusion.canApply g m
  | matMul => return (← MatMul.plan? g m.node).isSome
  | convolution => return (← Convolution.plan? g m.node).isSome
  | concat => return (← ConcatPlan.ofConcat? c g m.node).isSome
  | sanitization => return (Sanitize.constant? g m).isSome
  | depthToSpace => return (Layout.depthToSpace? g m.node).isSome
  | transparent => return (Layout.transparent? g m.node).isSome
  | foldConvert => return FoldConvert.canApply g m.node
  | fuseSubtract | fuseMultiply => return (RangeFusion.source? g m.node).isSome

def withPlan {β : Type} (plan? : Option β) (f : β → Rewrite α Unit) : Rewrite α Bool := do
  match plan? with
  | some plan => do
    f plan
    return true
  | none => return false

def apply (m : NodeMatch) (rule : Rule) : Rewrite α Bool := do
  let g ← Rewrite.graph
  let c ← Rewrite.context
  match rule with
  | decomposition => do
    discard (Decomposition.decompose (α := α) m.node)
    return true
  | convertFusion => Rewrite.edit (ConvertFusion.apply m)
  | matMul =>
    withPlan (← (MatMul.plan? g m.node : Checked _)) fun plan =>
      Rewrite.edit (lowerKernel m.node plan.operands plan.scale)
  | convolution =>
    withPlan (← (Convolution.plan? g m.node : Checked _)) fun plan =>
      Rewrite.edit (lowerKernel m.node plan.operands plan.scale)
  | concat => withPlan (← (ConcatPlan.ofConcat? c g m.node : Checked _)) ConcatPlan.apply
  | sanitization => Rewrite.edit (Sanitize.apply m)
  | depthToSpace =>
    withPlan (Layout.depthToSpace? g m.node) fun plan =>
      Rewrite.edit (moveDequantization m.node plan.chain plan.params c.params.updatePrecisions)
  | transparent =>
    withPlan (Layout.transparent? g m.node) fun plan =>
      let keepsType := Layout.keepsType g m.node m.kind c.params.updatePrecisions
      Rewrite.edit (moveDequantization m.node plan.chain plan.params keepsType)
  | foldConvert => Rewrite.edit (FoldConvert.apply m.node)
  | fuseSubtract => Rewrite.edit (RangeFusion.apply m.node (· - ·))
  | fuseMultiply => Rewrite.edit (RangeFusion.apply m.node (· * ·))

end Rule

end LowPrecision
