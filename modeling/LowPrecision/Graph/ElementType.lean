import LowPrecision.Numeric.Scalar

namespace LowPrecision

inductive ElementType where
  | f32 | f16 | i32 | i8 | u8
  deriving DecidableEq, Repr

namespace ElementType

def all : List ElementType := [f32, f16, i32, i8, u8]

def name : ElementType → String
  | f32 => "F32"
  | f16 => "F16"
  | i32 => "I32"
  | i8 => "I8"
  | u8 => "U8"

def symbol : ElementType → String
  | f32 => "f32"
  | f16 => "f16"
  | i32 => "i32"
  | i8 => "i8"
  | u8 => "u8"

def ofSymbol? (symbol : String) : Option ElementType := all.find? (·.symbol = symbol)

def isLowPrecision : ElementType → Bool
  | i8 | u8 => true
  | f32 | f16 | i32 => false

def isFloat : ElementType → Bool
  | f32 | f16 => true
  | i32 | i8 | u8 => false

def integerBounds : ElementType → Option (Int × Int)
  | i8 => some (-128, 127)
  | u8 => some (0, 255)
  | i32 => some (-2147483648, 2147483647)
  | f32 | f16 => none

variable {α : Type} [Arithmetic α]

def integerRange (t : ElementType) : Option (α × α) :=
  t.integerBounds.map fun (low, high) => (Arithmetic.ofRat low, Arithmetic.ofRat high)

def represents (t : ElementType) (value : α) : Bool :=
  match t.integerRange (α := α) with
  | some (low, high) => Arithmetic.isWhole value && low ≤ value && value ≤ high
  | none => Arithmetic.isFinite value

end ElementType

abbrev PrecisionSet := List ElementType

namespace PrecisionSet

def ofList (types : List ElementType) : PrecisionSet :=
  ElementType.all.filter (· ∈ types)

def inter (a b : PrecisionSet) : PrecisionSet := a.filter (· ∈ b)

def eightBit : PrecisionSet := [.i8, .u8]

end PrecisionSet

end LowPrecision
