import LowPrecision.Numeric.Power

/-!
Binary floating-point numbers with correctly rounded arithmetic. Every finite number of a format
is a whole multiple of its smallest positive number, so sums are exact on whole numbers, and
products and quotients are quotients of whole numbers that are rounded once.
-/

namespace LowPrecision

structure BinaryFormat where
  exponentBits : Nat
  fractionBits : Nat
  deriving DecidableEq

namespace BinaryFormat

def binary32 : BinaryFormat := ⟨8, 23⟩

def binary64 : BinaryFormat := ⟨11, 52⟩

def fractions (f : BinaryFormat) : Nat := pow2 f.fractionBits

def unitPower (f : BinaryFormat) : Nat :=
  pow2 (f.exponentBits - 1) + f.fractionBits - 2

def one (f : BinaryFormat) : Nat := pow2 f.unitPower

def infinity (f : BinaryFormat) : Nat :=
  (pow2 f.exponentBits - 1) * f.fractions

def signBit (f : BinaryFormat) : Nat := pow2 (f.exponentBits + f.fractionBits)

end BinaryFormat

def halfEven (num den : Nat) : Nat :=
  let q := num / den
  let r := 2 * (num % den)
  if r < den then q else if den < r then q + 1 else q + q % 2

/-- A sign and a magnitude code, the bits below the sign read as a whole number. Codes are ordered
like the magnitudes that they stand for. -/
structure Binary (f : BinaryFormat) where
  negative : Bool
  magnitude : Nat
  deriving DecidableEq

abbrev Binary32 := Binary .binary32

abbrev Binary64 := Binary .binary64

namespace Binary

variable {f g : BinaryFormat}

def isNaN (x : Binary f) : Bool := f.infinity < x.magnitude

def isInfinite (x : Binary f) : Bool := x.magnitude = f.infinity

def isFinite (x : Binary f) : Bool := x.magnitude < f.infinity

def quiet (negative : Bool) : Binary f :=
  ⟨negative, f.infinity + pow2 (f.fractionBits - 1)⟩

def invalid : Binary f := quiet true

def infinite (negative : Bool) : Binary f := ⟨negative, f.infinity⟩

def units (x : Binary f) : Nat :=
  let exponent := x.magnitude / f.fractions
  let fraction := x.magnitude % f.fractions
  if exponent = 0 then fraction else (f.fractions + fraction) * pow2 (exponent - 1)

def signedUnits (x : Binary f) : Int :=
  if x.negative then -x.units else x.units

def toRat (x : Binary f) : Rat := x.signedUnits / f.one

def nearestMagnitude (f : BinaryFormat) (num den : Nat) : Nat :=
  let shift := (num / den).log2 - f.fractionBits
  min f.infinity (halfEven num (den * pow2 shift) + shift * f.fractions)

def nearest (negative : Bool) (num den : Nat) : Binary f :=
  ⟨negative, nearestMagnitude f num den⟩

def ofRat (q : Rat) : Binary f :=
  nearest (q.num < 0) (q.num.natAbs * f.one) q.den

def neg (x : Binary f) : Binary f := { x with negative := !x.negative }

def abs (x : Binary f) : Binary f := { x with negative := false }

def firstNaN (x y : Binary f) : Option (Binary f) :=
  if x.isNaN then some (quiet x.negative) else if y.isNaN then some (quiet y.negative) else none

def addNumbers (x y : Binary f) : Binary f :=
  if x.isInfinite then
    if y.isInfinite && x.negative != y.negative then invalid else x
  else if y.isInfinite then y
  else
    let sum := x.signedUnits + y.signedUnits
    if sum = 0 then ⟨x.negative && y.negative, 0⟩ else nearest (sum < 0) sum.natAbs 1

def add (x y : Binary f) : Binary f := (firstNaN x y).getD (addNumbers x y)

def sub (x y : Binary f) : Binary f := (firstNaN x y).getD (addNumbers x y.neg)

def mul (x y : Binary f) : Binary f :=
  (firstNaN x y).getD <|
    let negative := x.negative != y.negative
    if x.isInfinite || y.isInfinite then
      if x.magnitude = 0 || y.magnitude = 0 then invalid else infinite negative
    else nearest negative (x.units * y.units) f.one

def div (x y : Binary f) : Binary f :=
  (firstNaN x y).getD <|
    let negative := x.negative != y.negative
    if x.isInfinite then
      if y.isInfinite then invalid else infinite negative
    else if y.isInfinite then ⟨negative, 0⟩
    else if y.magnitude = 0 then
      if x.magnitude = 0 then invalid else infinite negative
    else nearest negative (x.units * f.one) y.units

def round (x : Binary f) : Binary f :=
  if x.isFinite then
    let whole := (2 * x.units + f.one) / (2 * f.one)
    nearest x.negative (whole * f.one) 1
  else if x.isNaN then quiet x.negative else x

def isWhole (x : Binary f) : Bool :=
  x.isFinite && x.units % f.one = 0

def convert (x : Binary f) : Binary g :=
  if x.isNaN then quiet x.negative
  else if x.isInfinite then infinite x.negative
  else nearest x.negative (x.units * g.one) f.one

def position (x : Binary f) : Int := if x.negative then -x.magnitude else x.magnitude

/-- Position in the total order of all codes, in which the negative zero precedes the positive one
and the codes that are not numbers lie at both ends. -/
def rank (x : Binary f) : Int := if x.negative then -x.magnitude - 1 else x.magnitude

def ordered (x y : Binary f) : Bool := !x.isNaN && !y.isNaN

def lt (x y : Binary f) : Bool := ordered x y && x.position < y.position

def le (x y : Binary f) : Bool := ordered x y && x.position ≤ y.position

def equal (x y : Binary f) : Bool := ordered x y && x.position = y.position

def toBits (x : Binary f) : Nat :=
  (if x.negative then f.signBit else 0) + x.magnitude

def ofBits (bits : Nat) : Binary f :=
  ⟨bits / f.signBit % 2 = 1, bits % f.signBit⟩

end Binary

end LowPrecision
