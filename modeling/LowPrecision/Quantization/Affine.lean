import LowPrecision.Checked
import LowPrecision.Numeric.Scalar

namespace LowPrecision

variable {α : Type}

def isSupportedLevels (levels : Nat) : Bool := levels == 255 || levels == 256

def Arithmetic.clamp [Arithmetic α] (x low high : α) : Checked α :=
  if low ≤ high then
    let raised := if x < low then low else x
    return if high < raised then high else raised
  else throw .invalidBounds

/-- The map `real = (quantized - zeroPoint) * scale`. It is degenerate when the interval had no
usable length and the scale was set to 1. -/
structure ScaleZeroPoint (α : Type) where
  scale : α
  zeroPoint : α
  degenerate : Bool
  deriving DecidableEq

namespace ScaleZeroPoint

/-- Scale and zero point, in the wider arithmetic, that map one interval onto another. The zero
point is rounded and kept inside the quantized interval. -/
def ofWideInterval [Arithmetic α] (low high qLow qHigh : α) : Checked (ScaleZeroPoint α) := do
  let length := (high - low) / (qHigh - qLow)
  let degenerate := Arithmetic.equal length Arithmetic.zero || !Arithmetic.isFinite length
  let scale := if degenerate then Arithmetic.one else length
  let zeroPoint ← Arithmetic.clamp (Arithmetic.round (qLow - low / scale)) qLow qHigh
  return ⟨scale, zeroPoint, degenerate⟩

variable [Scalar α]

def ofInterval (low high qLow qHigh : α) : Checked (ScaleZeroPoint α) := do
  let widen : α → Scalar.Wide α := Scalar.widen
  let wide ← ofWideInterval (widen low) (widen high) (widen qLow) (widen qHigh)
  return ⟨Scalar.narrow wide.scale, Scalar.narrow wide.zeroPoint, wide.degenerate⟩

def quantize (p : ScaleZeroPoint α) (value : α) : α :=
  Arithmetic.round (value / p.scale + p.zeroPoint)

def dequantize (p : ScaleZeroPoint α) (quantized : α) : α :=
  (quantized - p.zeroPoint) * p.scale

def same (p q : ScaleZeroPoint α) : Bool :=
  Arithmetic.equal p.scale q.scale && Arithmetic.equal p.zeroPoint q.zeroPoint &&
    p.degenerate == q.degenerate

end ScaleZeroPoint

/-- Value of a fake-quantize: the input range is cut into `levels` points, and the nearest one is
taken over to the output range. -/
def fakeQuantize [Arithmetic α] (value inputLow inputHigh outputLow outputHigh : α)
    (levels : Nat) : Checked α := do
  let steps : α := Arithmetic.ofNat (← Checked.pred levels)
  if value ≤ Arithmetic.lesser inputLow inputHigh then return outputLow
  if Arithmetic.greater inputHigh inputLow < value then return outputHigh
  let point := Arithmetic.round ((value - inputLow) / (inputHigh - inputLow) * steps)
  return point / steps * (outputHigh - outputLow) + outputLow

namespace Sanitize

def lowest : Rat := 1 / pow10 32

def highest : Rat := pow10 32

def replacement : Rat := 999

def replace? [Scalar α] (value : α) : Option α :=
  let magnitude : Scalar.Wide α := Arithmetic.abs (Scalar.widen value)
  if Arithmetic.zero < magnitude && magnitude < Arithmetic.ofRat lowest then some Arithmetic.zero
  else if Arithmetic.ofRat highest < magnitude then some (Arithmetic.ofRat replacement)
  else none

end Sanitize

def sanitize [Scalar α] (values : List α) : Option (List α) :=
  if values.any fun value => (Sanitize.replace? value).isSome then
    some (values.map fun value => (Sanitize.replace? value).getD value)
  else none

end LowPrecision
