import LowPrecision.Graph.Pattern
import LowPrecision.Rewrite.Basic

namespace LowPrecision.Layout

variable {α : Type} [Arithmetic α]

def keepsChannels : OpKind → Bool
  | .maxPool | .avgPool | .relu | .interpolate => true
  | _ => false

structure Plan (α : Type) where
  chain : Dequantization α
  params : AffineParams α

def hasPositiveScale (p : AffineParams α) : Bool := p.scale.data.all (Arithmetic.zero < ·)

def transparent? (g : Graph α) (id : NodeId) : Option (Plan α) := do
  let n ← g.node? id
  if let .interpolate mode := n.op then
    if mode != .nearest then none
  let chain ← Dequantization.ofInput g id 0
  let params := chain.params
  if n.kind = .relu && (!hasPositiveScale params || chain.hasZeroPoint) then none
  if keepsChannels n.kind then return ⟨chain, params⟩
  if params.isUniform then return ⟨chain, params.toScalar⟩ else none

def keepsType (g : Graph α) (id : NodeId) (kind : OpKind) (updatePrecisions : Bool) : Bool :=
  if kind = .avgPool then
    updatePrecisions && g.attributes.precisionPreserved? id == some true
  else updatePrecisions

def depthToSpace? (g : Graph α) (id : NodeId) : Option (Plan α) := do
  let n ← g.node? id
  match n.op with
  | .depthToSpace blockSize =>
    let chain ← Dequantization.ofInput g id 0
    if (g.readers chain.output).length ≠ 1 then none
    let rank ← (← g.port? chain.data).rank
    if rank < 3 then none
    if blockSize ≤ 1 then return ⟨chain, chain.params⟩
    if chain.params.isUniform then return ⟨chain, chain.params.toScalar⟩ else none
  | _ => none

end LowPrecision.Layout
