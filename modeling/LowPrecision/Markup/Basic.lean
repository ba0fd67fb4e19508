import LowPrecision.Graph.Order
import LowPrecision.Graph.Region
import LowPrecision.Quantization.Dequantization
import LowPrecision.Settings

/-!
The first analyses of a graph: which inputs are restricted, which operations pass precision
through, and which types are left at each output.
-/

namespace LowPrecision.Markup

variable {α : Type}

def withStore (f : AttributeStore α → AttributeStore α) (g : Graph α) : Graph α :=
  { g with attributes := f g.attributes }

def precisions (restrictions : List OperationRestriction) (g : Graph α) : Graph α :=
  let mark (s : AttributeStore α) (entry : NodeId × Node α) : AttributeStore α :=
    let (id, n) := entry
    let s := match restrictions.find? (·.kind = n.kind) with
      | some restriction => s.set (.node id) (.precisionRestriction restriction.inputs)
      | none => s
    if n.op.preservesPrecision then s.set (.node id) (.precisionPreserved true) else s
  g |> withStore fun s =>
    g.liveNodes.foldl mark ((s.clear .precisionRestriction).clear .precisionPreserved)

def isTransparent (g : Graph α) (id : NodeId) : Bool :=
  g.kind? id == some .avgPool || g.preservesPrecision id

def isQuantizedAbove (g : Graph α) (pool : Node α) : Bool :=
  let next (id : NodeId) (n : Node α) : List NodeId :=
    if n.kind != .fakeQuantize && isTransparent g id then n.producers else []
  !pool.inputs.isEmpty && (g.reach next pool.producers).all fun id =>
    g.kind? id == some .fakeQuantize || isTransparent g id

def isConsumedBelow (g : Graph α) (pool : NodeId) : Bool :=
  let ends (id : NodeId) : Bool :=
    g.kind? id == some .fakeQuantize || g.kind? id == some .result
  let next (id : NodeId) (_ : Node α) : List NodeId :=
    if !ends id && isTransparent g id then g.readerNodes id else []
  (g.reach next (g.readerNodes pool)).any fun id => !ends id && !isTransparent g id

/-- Marks each average pooling as passing precision through or not. Pooling averages quantized
values, so it does only between a fake-quantize and an operation that computes on them. -/
def averagePooling (g : Graph α) : Graph α :=
  let pools := g.liveNodes.filter (·.2.kind = .avgPool)
  let marks := pools.map fun (id, n) => (id, isQuantizedAbove g n && isConsumedBelow g id)
  g |> withStore fun s =>
    marks.foldl (fun s (id, preserved) => s.set (.node id) (.precisionPreserved preserved)) s

def shareGroup (id : NodeId) (outputs : Nat) (group : GroupId) (s : AttributeStore α) :
    AttributeStore α :=
  (List.range outputs).foldl (fun s index => s.set (.output ⟨id, index⟩) (.precisions group)) s

def freshGroups (id : NodeId) (outputs : Nat) (s : AttributeStore α) : AttributeStore α :=
  (List.range outputs).foldl (fun s index =>
    let (group, s) := s.newPrecisions PrecisionSet.eightBit
    s.set (.output ⟨id, index⟩) (.precisions group)) s

/-- The precisions at the outputs of one node, when those of its inputs are known. A fake-quantize
starts a group, an operation that passes precision through joins the groups of its inputs, and any
other operation narrows them by its restriction. -/
def propagateNode (g : Graph α) (id : NodeId) (n : Node α) (s : AttributeStore α) :
    Checked (AttributeStore α) := do
  if n.kind = .fakeQuantize then return freshGroups id n.outputs.length s
  if g.preservesPrecision id then
    match n.inputs.filterMap s.precisionGroup? with
    | [] => return s
    | first :: rest =>
      let (merged, s) ← rest.foldlM (fun (acc, s) group => s.mergePrecisions acc group) (first, s)
      return shareGroup id n.outputs.length merged s
  return ((s.restriction? id).getD []).foldl (fun s restriction =>
    match (n.input? restriction.index).bind s.precisionGroup? with
    | some group => s.restrictPrecisions group restriction.precisions
    | none => s) s

def propagatePrecisions : Edit α TransformError Unit := do
  Edit.change (withStore (·.clear .precisions))
  let g ← getThe (Graph α)
  let order ← Edit.ofGraph (Edit.attempt Graph.topologicalOrder)
  let visit (s : AttributeStore α) (id : NodeId) : Checked (AttributeStore α) :=
    match g.node? id with
    | some n => propagateNode g id n s
    | none => return s
  let store ← (order.foldlM visit g.attributes : Checked (AttributeStore α))
  Edit.change (withStore fun _ => store)

end LowPrecision.Markup
