import LowPrecision.Tensor.Basic

namespace LowPrecision

def padShape (rank : Nat) (shape : List Nat) : List Nat :=
  List.replicate (rank - shape.length) 1 ++ shape

def joinAxes : List Nat → List Nat → Except (Nat × Nat × Nat) (List Nat)
  | a :: lhs, b :: rhs =>
    if a = b || b = 1 then (a :: ·) <$> (joinAxes lhs rhs).mapError (fun e => (e.1 + 1, e.2))
    else if a = 1 then (b :: ·) <$> (joinAxes lhs rhs).mapError (fun e => (e.1 + 1, e.2))
    else .error (0, a, b)
  | _, _ => .ok []

def broadcastShape (lhs rhs : List Nat) : Except TensorError (List Nat) :=
  let rank := max lhs.length rhs.length
  match joinAxes (padShape rank lhs) (padShape rank rhs) with
  | .ok shape => .ok shape
  | .error (axis, left, right) => .error (.axisMismatch lhs rhs axis left right)

def strides : List Nat → Checked (List Nat)
  | [] => return []
  | [_] => return [1]
  | _ :: next :: rest => do
    let tail ← strides (next :: rest)
    return (← Checked.mul (tail.headD 1) next) :: tail

/-- Data positions in row-major order of the given dimensions, each with its step. -/
def positions : List (Nat × Nat) → Nat → List Nat
  | [], base => [base]
  | (dim, step) :: rest, base =>
    (List.range dim).flatMap fun i => positions rest (base + i * step)

namespace Tensor

variable {α : Type}

def broadcastTo (t : Tensor α) (target : List Nat) : Attempt TensorError (Tensor α) := do
  if t.shape = target then return t
  let shape ← broadcastShape t.shape target
  if shape ≠ target then throw (.notBroadcastable t.shape target)
  let strides ← strides t.shape
  let total ← Checked.product target
  Checked.reserve total elementWidth
  if total = 0 then return ⟨target, []⟩
  let repeated := List.replicate (target.length - t.rank) 0
  let steps := List.zipWith (fun dim stride => if dim = 1 then 0 else stride) t.shape strides
  let cells := t.data.toArray
  let data ← (positions (target.zip (repeated ++ steps)) 0).mapM fun i =>
    match cells[i]? with
    | some x => pure x
    | none => throwThe Fault .outOfRange
  return ⟨target, data⟩

def broadcastZip (t u : Tensor α) (f : α → α → α) : Attempt TensorError (Tensor α) := do
  let shape ← broadcastShape t.shape u.shape
  let lhs ← t.broadcastTo shape
  let rhs ← u.broadcastTo shape
  return ⟨shape, List.zipWith f lhs.data rhs.data⟩

end Tensor

end LowPrecision
