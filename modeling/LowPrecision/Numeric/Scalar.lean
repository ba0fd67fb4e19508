import LowPrecision.Numeric.Binary
import LowPrecision.Numeric.Shortest

namespace LowPrecision

class Arithmetic (α : Type) extends Add α, Sub α, Mul α, Div α, LT α, LE α where
  decidableLT : DecidableLT α
  decidableLE : DecidableLE α
  equal : α → α → Bool
  ofRat : Rat → α
  abs : α → α
  round : α → α
  isWhole : α → Bool
  isFinite : α → Bool

namespace Arithmetic

variable {α : Type} [Arithmetic α]

instance : DecidableLT α := decidableLT

instance : DecidableLE α := decidableLE

def zero : α := ofRat 0

def one : α := ofRat 1

def ofNat (n : Nat) : α := ofRat n

def isNumber (x : α) : Bool := equal x x

def lesser (x y : α) : α := if isNumber x then if y < x then y else x else y

def greater (x y : α) : α := if isNumber x then if x < y then y else x else y

end Arithmetic

class Scalar (α : Type) extends Arithmetic α where
  Wide : Type
  wide : Arithmetic Wide
  widen : α → Wide
  narrow : Wide → α
  precedes : α → α → Bool
  identical : α → α → Bool
  text : α → String

instance {α : Type} [Scalar α] : Arithmetic (Scalar.Wide α) := Scalar.wide

instance (f : BinaryFormat) : Arithmetic (Binary f) where
  add := Binary.add
  sub := Binary.sub
  mul := Binary.mul
  div := Binary.div
  lt x y := Binary.lt x y = true
  le x y := Binary.le x y = true
  decidableLT x y := inferInstanceAs (Decidable (Binary.lt x y = true))
  decidableLE x y := inferInstanceAs (Decidable (Binary.le x y = true))
  equal := Binary.equal
  ofRat := Binary.ofRat
  abs := Binary.abs
  round := Binary.round
  isWhole := Binary.isWhole
  isFinite := Binary.isFinite

instance : Scalar Binary32 where
  Wide := Binary64
  wide := inferInstance
  widen := Binary.convert
  narrow := Binary.convert
  precedes x y := x.rank ≤ y.rank
  identical x y := x = y
  text := Shortest.text

def roundHalfAway (q : Rat) : Int :=
  if q < 0 then -(1 / 2 - q).floor else (q + 1 / 2).floor

instance : Arithmetic Rat where
  decidableLT := inferInstance
  decidableLE := inferInstance
  equal x y := x = y
  ofRat := id
  abs x := if x < 0 then -x else x
  round x := roundHalfAway x
  isWhole x := x.den = 1
  isFinite _ := true

instance : Scalar Rat where
  Wide := Rat
  wide := inferInstance
  widen := id
  narrow := id
  precedes x y := x ≤ y
  identical x y := x = y
  text := toString

end LowPrecision
