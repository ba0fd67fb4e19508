import LowPrecision.Quantization.Affine
import LowPrecision.TransformError

namespace LowPrecision

variable {α : Type}

structure Ranges (α : Type) where
  levels : Nat
  inputLow : Tensor α
  inputHigh : Tensor α
  outputLow : Tensor α
  outputHigh : Tensor α
  deriving DecidableEq

namespace Ranges

def make (levels : Nat) (inputLow inputHigh outputLow outputHigh : Tensor α) :
    Except TransformError (Ranges α) :=
  if inputLow.size ≠ inputHigh.size || outputLow.size ≠ outputHigh.size then
    .error (.invalidDetails (s!"input bounds have {inputLow.size} and {inputHigh.size} values, "
      ++ s!"output bounds {outputLow.size} and {outputHigh.size}"))
  else if isSupportedLevels levels then
    .ok ⟨levels, inputLow, inputHigh, outputLow, outputHigh⟩
  else .error (.unsupportedLevels levels)

def ofNode (g : Graph α) (id : NodeId) : Except TransformError (Ranges α) :=
  match g.node? id with
  | none => .error (.graph (.unknownNode id))
  | some n =>
    let bound (index : Nat) := (n.input? index).bind g.constant?
    match n.op, bound 1, bound 2, bound 3, bound 4 with
    | .fakeQuantize levels, some inputLow, some inputHigh, some outputLow, some outputHigh =>
      make levels inputLow inputHigh outputLow outputHigh
    | _, _, _, _, _ => .error (.notQuantizable id)

def tensors (r : Ranges α) : List (Tensor α) :=
  [r.inputLow, r.inputHigh, r.outputLow, r.outputHigh]

def channels (r : Ranges α) : Nat := max r.outputLow.size r.outputHigh.size

def outputBounds (r : Ranges α) : Checked (List α × List α) := do
  let low := (← r.outputLow.channelValues r.channels).getD r.outputLow.data
  let high := (← r.outputHigh.channelValues r.channels).getD r.outputHigh.data
  return (low, high)

def outputInterval [Scalar α] (r : Ranges α) : α × α :=
  ((r.outputLow.extremes.map Prod.fst).getD Arithmetic.zero,
    (r.outputHigh.extremes.map Prod.snd).getD Arithmetic.zero)

def boundsShape (r : Ranges α) : List Nat :=
  if r.outputHigh.size ≤ r.outputLow.size then r.outputLow.shape else r.outputHigh.shape

/-- Every range has one value, or one per channel of the output. Channels are the first axis of
weights and the second one of other data. -/
def hasSupportedLayout (r : Ranges α) (g : Graph α) (id : NodeId) : Bool :=
  match g.port? ⟨id, 0⟩ with
  | none => false
  | some ⟨_, none⟩ => r.tensors.all fun t => t.size == 1
  | some ⟨_, some shape⟩ =>
    let axis := if g.inputKind? id 0 = some .constant then 0 else 1
    let channels := shape[axis]?.getD 1
    r.tensors.all fun t => t.size == 1 || t.size == channels

end Ranges

structure Grid (α : Type) where
  precision : ElementType
  low : α
  high : α
  hasZeroPoint : Bool
  deriving DecidableEq

namespace Grid

def bounds [Arithmetic α] (type : ElementType) (levels : Nat) : Except TransformError (α × α) :=
  match type, levels with
  | .u8, 256 => .ok (Arithmetic.ofRat 0, Arithmetic.ofRat 255)
  | .u8, 255 => .ok (Arithmetic.ofRat 0, Arithmetic.ofRat 254)
  | .i8, 256 => .ok (Arithmetic.ofRat (-128), Arithmetic.ofRat 127)
  | .i8, 255 => .ok (Arithmetic.ofRat (-127), Arithmetic.ofRat 127)
  | .u8, _ | .i8, _ => .error (.unsupportedLevels levels)
  | _, _ => .error (.unsupportedPrecision type)

/-- The unsigned type when no low is negative, else the signed one; the first allowed type when
that one is not allowed. -/
def choose [Arithmetic α] (lows : List α) (allowed : PrecisionSet) : Option ElementType :=
  let preferred := if lows.all (Arithmetic.zero ≤ ·) then .u8 else .i8
  if preferred ∈ allowed then some preferred else allowed.head?

def select [Scalar α] (lows highs : List α) (levels : Nat) (allowed : PrecisionSet) :
    Attempt TransformError (Option (Grid α)) := do
  match choose lows allowed with
  | none => return none
  | some type =>
    let (low, high) ← (bounds type levels : Except TransformError (α × α))
    let hasZeroPoint ← (lows.zip highs).anyM fun (l, h) => do
      let p ← ScaleZeroPoint.ofInterval l h low high
      return !Arithmetic.equal p.zeroPoint Arithmetic.zero
    return some ⟨type, low, high, hasZeroPoint⟩

end Grid

end LowPrecision
