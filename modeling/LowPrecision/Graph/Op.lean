import LowPrecision.Graph.ElementType
import LowPrecision.Tensor.Basic

namespace LowPrecision

inductive OpKind where
  | parameter | result | constant | fakeQuantize | convert
  | add | multiply | subtract
  | convolution | groupConvolution | matMul
  | concat | reshape | transpose | split | variadicSplit | stridedSlice | squeeze | unsqueeze
  | avgPool | maxPool | interpolate
  | pRelu | relu | mvn | normalizeL2 | clamp | depthToSpace
  deriving DecidableEq, Repr

namespace OpKind

def all : List OpKind :=
  [parameter, result, constant, fakeQuantize, convert, add, multiply, subtract, convolution,
    groupConvolution, matMul, concat, reshape, transpose, split, variadicSplit, stridedSlice,
    squeeze, unsqueeze, avgPool, maxPool, interpolate, pRelu, relu, mvn, normalizeL2, clamp,
    depthToSpace]

def name : OpKind → String
  | parameter => "Parameter"
  | result => "Result"
  | constant => "Constant"
  | fakeQuantize => "FakeQuantize"
  | convert => "Convert"
  | add => "Add"
  | multiply => "Multiply"
  | subtract => "Subtract"
  | convolution => "Convolution"
  | groupConvolution => "GroupConvolution"
  | matMul => "MatMul"
  | concat => "Concat"
  | reshape => "Reshape"
  | transpose => "Transpose"
  | split => "Split"
  | variadicSplit => "VariadicSplit"
  | stridedSlice => "StridedSlice"
  | squeeze => "Squeeze"
  | unsqueeze => "Unsqueeze"
  | avgPool => "AvgPool"
  | maxPool => "MaxPool"
  | interpolate => "Interpolate"
  | pRelu => "PRelu"
  | relu => "Relu"
  | mvn => "Mvn"
  | normalizeL2 => "NormalizeL2"
  | clamp => "Clamp"
  | depthToSpace => "DepthToSpace"

def ofName? (name : String) : Option OpKind := all.find? (·.name = name)

end OpKind

inductive InterpolateMode where
  | nearest | linear
  deriving DecidableEq, Repr

namespace InterpolateMode

def name : InterpolateMode → String
  | nearest => "Nearest"
  | linear => "Linear"

def ofName? (name : String) : Option InterpolateMode :=
  [nearest, linear].find? (·.name = name)

end InterpolateMode

/-- A fake-quantize reads its data, then low and high of its input range, then of its output range.
Convolution weights have the output channels first, group convolution weights the groups before
them. -/
inductive Op (α : Type) where
  | parameter
  | result
  | constant (value : Tensor α)
  | fakeQuantize (levels : Nat)
  | convert (destination : ElementType)
  | add
  | multiply
  | subtract
  | convolution
  | groupConvolution
  | matMul (transposeA transposeB : Bool)
  | concat (axis : Nat)
  | reshape
  | transpose
  | split (axis : Nat)
  | variadicSplit (axis : Nat)
  | stridedSlice
  | squeeze
  | unsqueeze
  | avgPool
  | maxPool
  | interpolate (mode : InterpolateMode)
  | pRelu
  | relu
  | mvn
  | normalizeL2
  | clamp (low high : α)
  | depthToSpace (blockSize : Nat)
  deriving DecidableEq

namespace Op

variable {α : Type}

def kind : Op α → OpKind
  | parameter => .parameter
  | result => .result
  | constant _ => .constant
  | fakeQuantize _ => .fakeQuantize
  | convert _ => .convert
  | add => .add
  | multiply => .multiply
  | subtract => .subtract
  | convolution => .convolution
  | groupConvolution => .groupConvolution
  | matMul _ _ => .matMul
  | concat _ => .concat
  | reshape => .reshape
  | transpose => .transpose
  | split _ => .split
  | variadicSplit _ => .variadicSplit
  | stridedSlice => .stridedSlice
  | squeeze => .squeeze
  | unsqueeze => .unsqueeze
  | avgPool => .avgPool
  | maxPool => .maxPool
  | interpolate _ => .interpolate
  | pRelu => .pRelu
  | relu => .relu
  | mvn => .mvn
  | normalizeL2 => .normalizeL2
  | clamp _ _ => .clamp
  | depthToSpace _ => .depthToSpace

def plain : List (Op α) :=
  [parameter, result, add, multiply, subtract, convolution, groupConvolution, reshape, transpose,
    stridedSlice, squeeze, unsqueeze, avgPool, maxPool, pRelu, relu, mvn, normalizeL2]

def ofKind? (kind : OpKind) : Option (Op α) := plain.find? (·.kind = kind)

def describe : Op α → String
  | constant value => s!"Constant{Text.dimensions value.shape}"
  | fakeQuantize levels => s!"FakeQuantize(levels={levels})"
  | convert destination => s!"Convert(to {destination.name})"
  | matMul a b => s!"MatMul(ta={Text.flag a}, tb={Text.flag b})"
  | concat axis => s!"Concat(axis={axis})"
  | op => op.kind.name

def preservesPrecision : Op α → Bool
  | concat _ | maxPool | reshape | transpose | squeeze | unsqueeze | split _ | variadicSplit _
  | stridedSlice | depthToSpace _ | relu | interpolate .nearest => true
  | _ => false

end Op

end LowPrecision
