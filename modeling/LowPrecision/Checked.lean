namespace LowPrecision

inductive Fault where
  | overflow
  | outOfRange
  | invalidBounds
  | capacity
  | unbounded
  deriving DecidableEq, Repr

abbrev Checked := Except Fault

abbrev Attempt (ε : Type) := ExceptT ε Checked

namespace Checked

def wordSize : Nat := UInt64.size

def word (n : Nat) : Checked Nat :=
  if n < wordSize then .ok n else .error .overflow

def mul (m n : Nat) : Checked Nat := word (m * n)

def pred : Nat → Checked Nat
  | 0 => .error .overflow
  | n + 1 => .ok n

def product (sizes : List Nat) : Checked Nat := sizes.foldlM mul 1

def get {α : Type} (xs : List α) (i : Nat) : Checked α :=
  match xs[i]? with
  | some x => .ok x
  | none => .error .outOfRange

def reserve (count width : Nat) : Checked Unit :=
  if count * width < wordSize / 2 then .ok () else .error .capacity

def replicate {α : Type} (width count : Nat) (x : α) : Checked (List α) := do
  reserve count width
  return List.replicate count x

end Checked

end LowPrecision
