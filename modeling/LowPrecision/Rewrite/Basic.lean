import LowPrecision.Graph.Order
import LowPrecision.Quantization.Dequantization
import LowPrecision.Settings

namespace LowPrecision

variable {α : Type}

structure Context where
  params : Params
  handled : List String
  degenerate : Nat
  deriving DecidableEq

namespace Context

def start (params : Params) : Context := ⟨params, [], 0⟩

def isHandled (c : Context) (name : String) : Bool := name ∈ c.handled

def markHandled (c : Context) (name : String) : Context :=
  if c.isHandled name then c else { c with handled := name :: c.handled }

end Context

structure Session (α : Type) where
  graph : Graph α
  context : Context

abbrev Rewrite (α : Type) := ExceptT TransformError (StateT (Session α) Checked)

namespace Rewrite

variable {β : Type}

def edit (e : Edit α TransformError β) : Rewrite α β := ExceptT.mk do
  let s ← get
  let (answer, graph) ← (e.run.run s.graph : Checked _)
  set { s with graph }
  return answer

def editGraph (e : Edit α GraphError β) : Rewrite α β := edit (Edit.ofGraph e)

def graph : Rewrite α (Graph α) := do return (← get).graph

def context : Rewrite α Context := do return (← get).context

def changeContext (f : Context → Context) : Rewrite α Unit :=
  modify fun s => { s with context := f s.context }

def markHandled (name : String) : Rewrite α Unit := changeContext (·.markHandled name)

end Rewrite

def layOut (shape : List Nat) (values : List α) : Attempt TensorError (Tensor α) :=
  match values with
  | [value] => return Tensor.scalar value
  | _ => Tensor.make shape values

def quantizeBound [Scalar α] (grid : Grid α) (p : ScaleZeroPoint α) (value : α) : Checked α :=
  let widen : α → Scalar.Wide α := Scalar.widen
  let point := Arithmetic.round (widen value / widen p.scale + widen p.zeroPoint)
  Arithmetic.clamp (Scalar.narrow point) grid.low grid.high

def quantizeBounds [Scalar α] (grid : Grid α) (params : List (ScaleZeroPoint α))
    (values : List α) : Checked (List α) :=
  (values.zip params).mapM fun (value, p) => quantizeBound grid p value

def channelParams [Scalar α] (grid : Grid α) (lows highs : List α) :
    Checked (List (ScaleZeroPoint α)) :=
  (lows.zip highs).mapM fun (low, high) =>
    ScaleZeroPoint.ofInterval low high grid.low grid.high

def storageType (params : Params) (type : ElementType) : ElementType :=
  if params.updatePrecisions then type else .f32

def addFakeQuantize (fakeQuantize : NodeId) (low high : Tensor α) (type : ElementType) :
    Edit α TransformError NodeId := do
  let n ← Edit.node fakeQuantize
  match n.op with
  | .fakeQuantize levels =>
    match n.inputs with
    | data :: inputLow :: inputHigh :: _ =>
      let port ← Edit.port ⟨fakeQuantize, 0⟩
      let low ← Edit.addConstant s!"{n.name}/OutputLow" low .f32
      let high ← Edit.addConstant s!"{n.name}/OutputHigh" high .f32
      Edit.addNode s!"{n.name}/LowPrecision" (.fakeQuantize levels)
        [data, inputLow, inputHigh, low, high] [port.withType type]
    | _ => throwThe Fault .outOfRange
  | _ => throw (.notQuantizable fakeQuantize)

def lowerKernel [Arithmetic α] (kernel : NodeId) (operands : List Slot) (scale : Tensor α) :
    Edit α TransformError Unit := do
  let n ← Edit.node kernel
  let port ← Edit.port ⟨kernel, 0⟩
  let readers := n.readers 0
  let lowered ← Edit.addNode s!"{n.name}/LowPrecision" n.op operands [port.withType .f32]
  Edit.ofGraph (Edit.step (·.setRelaxed lowered (.float 2 1)))
  discard (Dequantization.insert ⟨lowered, 0⟩ readers ⟨scale, none⟩ n.name)
  Edit.ofGraph (Graph.replaceNode kernel lowered)

/-- Makes an operation read quantized data in place of the end of a dequantization, which is built
again after each of its outputs. -/
def moveDequantization [Arithmetic α] (id : NodeId) (chain : Dequantization α)
    (params : AffineParams α) (updatePrecision : Bool) : Edit α TransformError Unit := do
  let dataType := (← Edit.port chain.data).elementType
  let type := if updatePrecision then dataType else .f32
  let n ← Edit.node id
  Edit.ofGraph (Edit.step (·.setInput id 0 chain.data))
  if type ≠ dataType then
    Edit.ofGraph (Edit.step (·.setRelaxed id (.float n.inputs.length n.outputs.length)))
  (List.range n.outputs.length).forM fun index => do
    let readers ← Edit.read (·.readers ⟨id, index⟩)
    Edit.ofGraph (Edit.step (·.setOutputType ⟨id, index⟩ type))
    if !readers.isEmpty then
      discard (Dequantization.insert ⟨id, index⟩ readers params n.name)
  Edit.change (·.removeDead [chain.output.node])

end LowPrecision
