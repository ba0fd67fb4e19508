import LowPrecision.Graph.Basic

namespace LowPrecision.Graph

variable {α : Type}

structure Frontier where
  pending : Array Nat
  ready : List NodeId

def Frontier.start (g : Graph α) : Frontier where
  pending := g.nodes.map fun n => (n.map (·.inputs.length)).getD 0
  ready := (g.liveNodes.filter (·.2.inputs.isEmpty)).map Prod.fst

def Frontier.supply (f : Frontier) (id : NodeId) : Checked Frontier :=
  match f.pending[id]? with
  | none => throw .outOfRange
  | some count => do
    let count ← Checked.pred count
    let pending := f.pending.setIfInBounds id count
    return ⟨pending, if count = 0 then insertSorted id f.ready else f.ready⟩

def Frontier.supplyAll (f : Frontier) (ids : List NodeId) : Checked Frontier :=
  ids.foldlM supply f

def drain (g : Graph α) : Nat → Frontier → Attempt GraphError (List NodeId)
  | 0, _ => return []
  | count + 1, f =>
    match f.ready with
    | [] => return []
    | id :: ready => do
      let n ← g.node id
      let f ← Frontier.supplyAll ⟨f.pending, ready⟩ (n.allReaders.map Slot.node)
      return id :: (← g.drain count f)

def topologicalOrder (g : Graph α) : Attempt GraphError (List NodeId) := do
  let order ← g.drain g.size (.start g)
  if order.length = g.size then return order else throw .cycle

end LowPrecision.Graph
