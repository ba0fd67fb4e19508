import LowPrecision.Numeric.Binary

namespace LowPrecision.Shortest

variable {f : BinaryFormat}

structure Neighbourhood where
  below : Nat
  value : Nat
  above : Nat
  den : Nat
  closed : Bool

def Neighbourhood.of (x : Binary f) : Neighbourhood :=
  let exponent := x.magnitude / f.fractions
  let gap := pow2 (exponent - 1)
  let narrower := x.magnitude % f.fractions = 0 && 1 < exponent
  { below := 4 * x.units - (if narrower then gap else 2 * gap)
    value := 4 * x.units
    above := 4 * x.units + 2 * gap
    den := 4 * f.one
    closed := x.magnitude % 2 = 0 }

def Neighbourhood.reads (n : Neighbourhood) (exponent : Int) (digits : Nat) : Bool :=
  let point := digits * pow10 exponent.toNat * n.den
  let unit := pow10 (-exponent).toNat
  if n.closed then n.below * unit ≤ point && point ≤ n.above * unit
  else n.below * unit < point && point < n.above * unit

def Neighbourhood.onGrid (n : Neighbourhood) (exponent : Int) : Option Nat :=
  let num := n.value * pow10 (-exponent).toNat
  let den := n.den * pow10 exponent.toNat
  let low := num / den
  let candidates := if 2 * (num % den) < den then [low, low + 1] else [low + 1, low]
  candidates.find? fun digits => digits != 0 && n.reads exponent digits

def Neighbourhood.search (n : Neighbourhood) : Nat → Int → Nat × Int
  | 0, exponent => (0, exponent)
  | tries + 1, exponent =>
    match n.onGrid exponent with
    | some digits => (digits, exponent)
    | none => n.search tries (exponent - 1)

/-- Digits and power of ten of the last digit. The finest grid is below the smallest gap between
numbers, so a finite number other than zero is always hit. -/
def decimal (x : Binary f) : Nat × Int :=
  (Neighbourhood.of x).search (2 * f.unitPower + 1) f.unitPower

structure Layout where
  lowest : Int
  highest : Int

def layout : Layout := ⟨-4, 15⟩

def positional (digits : List Char) (exponent : Int) : List Char :=
  let point := digits.length + exponent
  if point ≤ 0 then '0' :: '.' :: List.replicate (-point).toNat '0' ++ digits
  else if 0 ≤ exponent then digits ++ List.replicate exponent.toNat '0' ++ ['.', '0']
  else digits.take point.toNat ++ '.' :: digits.drop point.toNat

def scientific (digits : List Char) (exponent : Int) : List Char :=
  let leading := toString (digits.length + exponent - 1)
  match digits with
  | first :: rest@(_ :: _) => first :: '.' :: rest ++ 'e' :: leading.toList
  | _ => digits ++ 'e' :: leading.toList

def unsigned (x : Binary f) : List Char :=
  if x.isInfinite then "inf".toList
  else if x.magnitude = 0 then "0.0".toList
  else
    let (number, exponent) := decimal x
    let digits := (toString number).toList
    let leading := digits.length + exponent - 1
    if layout.lowest ≤ leading && leading ≤ layout.highest then positional digits exponent
    else scientific digits exponent

def text (x : Binary f) : String :=
  if x.isNaN then "NaN"
  else String.ofList (if x.negative then '-' :: unsigned x else unsigned x)

end LowPrecision.Shortest
