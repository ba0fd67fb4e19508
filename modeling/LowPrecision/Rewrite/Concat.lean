import LowPrecision.Markup.Alignment
import LowPrecision.Rewrite.Basic

/-!
Concatenation of quantized branches. The fake-quantizes that bound the region are lowered, and the
dequantization is built behind the region, for each reader outside. The branches either keep their
own scales or are all mapped onto the shared interval.
-/

namespace LowPrecision

variable {α : Type}

structure ChannelParams (α : Type) where
  scales : List α
  zeroPoints : List α
  deriving DecidableEq

namespace ChannelParams

def single (scale zeroPoint : α) : ChannelParams α := ⟨[scale], [zeroPoint]⟩

def isSingle (p : ChannelParams α) : Bool := p.scales.length == 1

def append (p q : ChannelParams α) : ChannelParams α :=
  ⟨p.scales ++ q.scales, p.zeroPoints ++ q.zeroPoints⟩

def expand (p : ChannelParams α) (channels : Nat) : Checked (Option (ChannelParams α)) :=
  match p.scales, p.zeroPoints with
  | [scale], [zeroPoint] => do
    let scales ← Checked.replicate Tensor.elementWidth channels scale
    let zeroPoints ← Checked.replicate Tensor.elementWidth channels zeroPoint
    return some ⟨scales, zeroPoints⟩
  | scales, _ => return if scales.length = channels then some p else none

variable [Arithmetic α]

def sameValues (xs ys : List α) : Bool :=
  xs.length == ys.length && (xs.zip ys).all fun (x, y) => Arithmetic.equal x y

def same (p q : ChannelParams α) : Bool :=
  sameValues p.scales q.scales && sameValues p.zeroPoints q.zeroPoints

def dequantization (p : ChannelParams α) (output : Port) : Checked (AffineParams α) :=
  AffineParams.ofChannels p.scales p.zeroPoints (output.rank.getD 0)

end ChannelParams

def ChannelParams.ofList? [Scalar α] (params : List (ScaleZeroPoint α)) :
    Option (ChannelParams α) :=
  match params with
  | [] => none
  | first :: _ =>
    if params.all (·.same first) then some (single first.scale first.zeroPoint)
    else some ⟨params.map (·.scale), params.map (·.zeroPoint)⟩

structure Branch (α : Type) where
  low : Tensor α
  high : Tensor α
  params : ChannelParams α
  degenerate : Nat
  deriving DecidableEq

structure ConcatPlan (α : Type) where
  region : Region
  ranges : List (Ranges α)
  grid : Grid α
  interval : α × α
  multiChannel : Bool
  branches : List (Branch α)
  layers : List (NodeId × ChannelParams α)

namespace ConcatPlan

/-- Whether the branches may keep their own scales: no convolution follows, and the concatenations
join channels of data with four dimensions or more. -/
def keepsScales (g : Graph α) (r : Region) : Bool :=
  Region.feedsNoConvolution g r && r.concats.all fun id =>
    match g.node? id with
    | some n =>
      match n.op with
      | .concat axis => axis == 1 && 4 ≤ (((g.port? ⟨id, 0⟩).bind Port.rank).getD 0)
      | _ => false
    | none => false

section Layers

variable [Arithmetic α]

def channelCount? (g : Graph α) (slot : Slot) : Option Nat := do
  let shape ← (← g.port? slot).shape
  shape[1]?

def joinParams (g : Graph α) (axis : Nat) (inputs : List (Slot × ChannelParams α)) :
    Checked (Option (ChannelParams α)) :=
  match inputs with
  | [] => return none
  | (_, first) :: _ =>
    if inputs.all fun (_, p) => p.isSingle && p.same first then return some first
    else if axis = 1 then
      inputs.foldlM (fun joined (slot, p) =>
        match joined, channelCount? g slot with
        | some joined, some channels => do return (← p.expand channels).map joined.append
        | _, _ => return none) (some ⟨[], []⟩)
    else return none

def inputParams (of : NodeId → Checked (Option (ChannelParams α))) :
    List Slot → Checked (Option (List (Slot × ChannelParams α)))
  | [] => return some []
  | slot :: rest => do
    match ← of slot.node with
    | none => return none
    | some p => return (← inputParams of rest).map ((slot, p) :: ·)

/-- Parameters of the output of a node, read off the nodes above it whose parameters are known.
The path to them has fewer than `depth` steps. -/
def paramsOf (g : Graph α) (known : List (NodeId × ChannelParams α)) :
    Nat → NodeId → Checked (Option (ChannelParams α))
  | 0, _ => throw .unbounded
  | depth + 1, id =>
    match known.find? (·.1 = id), g.node? id with
    | some (_, p), _ => return some p
    | none, none => return none
    | none, some n =>
      match n.op with
      | .concat axis => do
        match ← inputParams (paramsOf g known depth) n.inputs with
        | none => return none
        | some inputs => joinParams g axis inputs
      | _ =>
        match n.input? 0 with
        | some slot => paramsOf g known depth slot.node
        | none => return none

def layerParams (g : Graph α) (known : List (NodeId × ChannelParams α)) :
    List NodeId → Checked (Option (List (NodeId × ChannelParams α)))
  | [] => return some []
  | id :: rest => do
    match ← paramsOf g known (g.nodes.size + 1) id with
    | none => return none
    | some p => return (← layerParams g known rest).map ((id, p) :: ·)

end Layers

variable [Scalar α]

def cover (intervals : List (α × α)) : α × α :=
  let infinity : α := Arithmetic.one / Arithmetic.zero
  match intervals with
  | [] => (infinity, Arithmetic.zero - infinity)
  | first :: rest =>
    let low := rest.foldl (fun low i => Arithmetic.lesser low i.1) first.1
    let high := rest.foldl (fun high i => Arithmetic.greater high i.2) first.2
    (if Arithmetic.isNumber low then low else infinity,
      if Arithmetic.isNumber high then high else Arithmetic.zero - infinity)

/-- Maps the output range of a branch onto the grid, with a shared interval or channel by
channel. -/
def planBranch (grid : Grid α) (r : Ranges α) (shared : Option (α × α)) :
    Checked (Option (Branch α)) := do
  let (lows, highs) ← r.outputBounds
  let params ← match shared with
    | some (low, high) => do
      let p ← ScaleZeroPoint.ofInterval low high grid.low grid.high
      pure (List.replicate lows.length p)
    | none => channelParams grid lows highs
  let flagged := params.countP (·.degenerate)
  let lows ← (layOut r.boundsShape (← quantizeBounds grid params lows)).run
  let highs ← (layOut r.boundsShape (← quantizeBounds grid params highs)).run
  match lows, highs, ChannelParams.ofList? params with
  | .ok low, .ok high, some p =>
    return some ⟨low, high, p, if shared.isSome then min flagged 1 else flagged⟩
  | _, _, _ => return none

def planBranches (grid : Grid α) :
    List (Ranges α × Option (α × α)) → Checked (Option (List (Branch α)))
  | [] => return some []
  | (r, shared) :: rest => do
    match ← planBranch grid r shared with
    | none => return none
    | some branch => return (← planBranches grid rest).map (branch :: ·)

def readBoundary? (c : Context) (g : Graph α) (id : NodeId) :
    Option (Ranges α × PrecisionSet) := do
  let n ← g.node? id
  let port ← n.output? 0
  if c.isHandled n.name || !port.elementType.isFloat then none
  else
    let r ← (Ranges.ofNode g id).toOption
    if r.hasSupportedLayout g id then return (r, Markup.allowedPrecisions g id) else none

def ofRegion? (c : Context) (g : Graph α) (region : Region) (multiChannel : Bool) :
    Checked (Option (ConcatPlan α)) := do
  let some boundary := region.boundary.mapM (readBoundary? c g) | return none
  match boundary with
  | [] => return none
  | (first, firstAllowed) :: rest =>
    if rest.any fun (r, _) => r.levels != first.levels then return none
    let ranges := boundary.map Prod.fst
    let allowed := rest.foldl (fun allowed (_, here) => allowed.inter here) firstAllowed
    let interval := cover (ranges.map Ranges.outputInterval)
    let .ok (some grid) ← (Grid.select [interval.1] [interval.2] first.levels allowed).run
      | return none
    if grid.hasZeroPoint && !c.params.supportAsymmetric then return none
    let shared (id : NodeId) : Option (α × α) :=
      if multiChannel then none
      else some (((g.attributes.interval? id).map fun i => (i.low, i.high)).getD interval)
    let some branches ← planBranches grid (ranges.zip (region.boundary.map shared)) | return none
    let known := region.boundary.zip (branches.map Branch.params)
    let some layers ← layerParams g known region.layers | return none
    return some ⟨region, ranges, grid, interval, multiChannel, branches, layers⟩

def ofConcat? (c : Context) (g : Graph α) (concat : NodeId) : Checked (Option (ConcatPlan α)) := do
  let .ok region := Region.around g concat | return none
  ofRegion? c g region (keepsScales g region)

def lowerBoundary (type : ElementType) :
    List (NodeId × Branch α) → Rewrite α (List (String × NodeId × ChannelParams α))
  | [] => return []
  | (id, branch) :: rest => do
    let n ← Rewrite.edit (Edit.node id)
    let lowered ← Rewrite.edit (addFakeQuantize id branch.low branch.high type)
    Rewrite.editGraph (Graph.replaceNode id lowered)
    Rewrite.changeContext fun c => { c with degenerate := c.degenerate + branch.degenerate }
    return (n.name, lowered, branch.params) :: (← lowerBoundary type rest)

def retypeLayers (type : ElementType) (layers : List NodeId) : Edit α TransformError Unit :=
  layers.forM fun id => do
    let n ← Edit.node id
    (List.range n.outputs.length).forM fun index =>
      Edit.ofGraph (Edit.step (·.setOutputType ⟨id, index⟩ type))

def dequantizeBehind (inside : Region) (id : NodeId) (p : ChannelParams α) :
    Edit α TransformError Unit := do
  let n ← Edit.node id
  (List.range n.outputs.length).forM fun index => do
    let output : Slot := ⟨id, index⟩
    let readers ← Edit.read (Region.readersOutside · inside output)
    if !readers.isEmpty then
      let params ← (p.dequantization (← Edit.port output) : Checked (AffineParams α))
      discard (Dequantization.insert output readers params n.name)

def apply (plan : ConcatPlan α) : Rewrite α Unit := do
  let type := storageType (← Rewrite.context).params plan.grid.precision
  let lowered ← lowerBoundary type (plan.region.boundary.zip plan.branches)
  let known := plan.layers ++ lowered.map Prod.snd
  let order ← Rewrite.editGraph (Edit.attempt Graph.topologicalOrder)
  let rewritten := order.filter fun id => known.any (·.1 = id)
  Rewrite.edit (retypeLayers type (rewritten.filter (· ∈ plan.region.layers)))
  let inside : Region := { Region.empty with layers := known.map Prod.fst }
  rewritten.forM fun id => do
    if let some (_, p) := known.find? (·.1 = id) then
      Rewrite.edit (dequantizeBehind inside id p)
  lowered.forM fun (name, _) => Rewrite.markHandled name

end ConcatPlan

end LowPrecision
