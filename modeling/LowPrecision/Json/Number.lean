import LowPrecision.Json.Reader

namespace LowPrecision.Json

inductive Number where
  | natural (n : Nat)
  | negative (n : Nat)
  | decimal (negative : Bool) (significand : Nat) (exponent : Int)
  deriving DecidableEq

namespace Number

def gather (significand : Nat) : List Char → Nat × List Char
  | [] => (significand, [])
  | c :: rest =>
    let longer := 10 * significand + (c.toNat - '0'.toNat)
    if longer < Checked.wordSize then gather longer rest else (significand, c :: rest)

def valueOf (digits : List Char) : Nat :=
  digits.foldl (fun n c => 10 * n + (c.toNat - '0'.toNat)) 0

def ofWhole (negative : Bool) (n : Nat) : Number :=
  if !negative then .natural n
  else if 0 < n && n ≤ Checked.wordSize / 2 then .negative n
  else .decimal true n 0

def reader : Reader Number := do
  let negative ← Reader.accept '-'
  let (significand, dropped) := gather 0 (← Reader.wholeDigits)
  let fraction ← Reader.fractionDigits
  let exponent ← Reader.exponentDigits
  if fraction.isEmpty && exponent.isNone && dropped.isEmpty then
    return ofWhole negative significand
  let (significand, rest) := gather significand fraction
  let scale : Int := dropped.length - (fraction.length - rest.length : Nat)
  match exponent with
  | none => return .decimal negative significand scale
  | some (isNegative, digits) =>
    let shift : Int := valueOf digits
    return .decimal negative significand (if isNegative then scale - shift else scale + shift)

def largestPower : Nat := 308

def powerOfTen (n : Nat) : Binary64 := Binary.ofRat (pow10 n)

def divide (x : Binary64) (power : Nat) : Binary64 :=
  if power ≤ largestPower then x / powerOfTen power
  else if x.magnitude = 0 then x
  else divide (x / powerOfTen largestPower) (power - largestPower)
termination_by power
decreasing_by simp only [largestPower] at *; omega

def magnitude? (significand : Nat) : Int → Option Binary64
  | .ofNat power =>
    if significand = 0 then some (Binary.ofRat 0)
    else if largestPower < power then none
    else
      let x := Binary.ofRat significand * powerOfTen power
      if x.isInfinite then none else some x
  | .negSucc power => some (divide (Binary.ofRat significand) (power + 1))

def toBinary32 : Number → Option Binary32
  | natural n => some (Binary.ofRat n)
  | negative n => some (Binary.ofRat (-n))
  | decimal isNegative significand exponent =>
    (magnitude? significand exponent).map fun x => (if isNegative then x.neg else x).convert

end Number

namespace Reader

def natural : Reader Nat := do
  match ← Number.reader with
  | .natural n => return n
  | _ => malformed

def real : Reader Binary32 := do required (← Number.reader).toBinary32

end Reader

end LowPrecision.Json
