import LowPrecision.Checked
import LowPrecision.Numeric.Scalar
import LowPrecision.Text

namespace LowPrecision

inductive TensorError where
  | lengthMismatch (expected supplied : Nat)
  | axisMismatch (lhs rhs : List Nat) (axis left right : Nat)
  | notBroadcastable (shape target : List Nat)
  deriving DecidableEq

namespace TensorError

def reason : TensorError → String
  | lengthMismatch expected supplied =>
    s!"expected data length to be {expected}, supplied data had length: {supplied}"
  | axisMismatch lhs rhs axis left right =>
    s!"{Text.dimensions lhs} vs {Text.dimensions rhs}: axis {axis} has {left} and {right}"
  | notBroadcastable shape target =>
    s!"{Text.dimensions shape} does not broadcast to {Text.dimensions target}"

def message (e : TensorError) : String :=
  match e with
  | lengthMismatch .. => s!"Parameters to Tensor method were incorrect: {e.reason}"
  | axisMismatch .. | notBroadcastable .. => s!"Shapes cannot be broadcast: {e.reason}"

end TensorError

structure Tensor (α : Type) where
  shape : List Nat
  data : List α
  deriving DecidableEq

namespace Tensor

variable {α : Type}

def elementWidth : Nat := 4

def dimensionWidth : Nat := 8

def make (shape : List Nat) (data : List α) : Attempt TensorError (Tensor α) := do
  let size ← Checked.product shape
  if data.length = size then return ⟨shape, data⟩
  else throw (.lengthMismatch size data.length)

def scalar (value : α) : Tensor α := ⟨[], [value]⟩

def channelAxis (rank : Nat) : Nat := if 2 ≤ rank then 1 else 0

def perChannel (values : List α) (rank : Nat) : Checked (Tensor α) :=
  match values with
  | [value] => return scalar value
  | _ => do
    let ones ← Checked.replicate dimensionWidth (max rank 1) 1
    return ⟨ones.set (channelAxis rank) values.length, values⟩

def rank (t : Tensor α) : Nat := t.shape.length

def size (t : Tensor α) : Nat := t.data.length

def channelValues (t : Tensor α) (channels : Nat) : Checked (Option (List α)) :=
  match t.data with
  | [value] => some <$> Checked.replicate elementWidth channels value
  | data => return if data.length = channels then some data else none

def transposeLastTwo (t : Tensor α) : Checked (Tensor α) :=
  match t.shape.reverse with
  | cols :: rows :: outer => do
    let plane ← Checked.mul rows cols
    let data ← (List.range (t.size / max plane 1)).mapM fun batch =>
      (List.range cols).mapM fun c =>
        (List.range rows).mapM fun r =>
          Checked.get t.data (batch * plane + r * cols + c)
    return ⟨(rows :: cols :: outer).reverse, data.flatten.flatten⟩
  | _ => return t

section Comparison

variable [Arithmetic α]

def isUniform (t : Tensor α) : Bool :=
  match t.data with
  | [] => true
  | first :: rest => rest.all (Arithmetic.equal first)

def toScalar (t : Tensor α) : Tensor α :=
  match t.data with
  | first :: _ => if 0 < t.rank && t.isUniform then scalar first else t
  | [] => t

end Comparison

def extremes [Scalar α] (t : Tensor α) : Option (α × α) :=
  match t.data with
  | [] => none
  | first :: rest =>
    some (rest.foldl (fun low x => if Scalar.precedes low x then low else x) first,
      rest.foldl (fun high x => if Scalar.precedes x high then high else x) first)

end Tensor

end LowPrecision
