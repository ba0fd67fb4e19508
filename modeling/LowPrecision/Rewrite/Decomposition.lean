import LowPrecision.Rewrite.Concat

namespace LowPrecision

variable {α : Type} [Scalar α]

namespace Decomposition

def alignedConcats (g : Graph α) (id : NodeId) : List NodeId :=
  match g.attributes.intervalRoot? id with
  | none => []
  | some root =>
    (g.ofKind .concat).filter fun concat => g.attributes.intervalRoot? concat == some root

def isDeferred (c : Context) (g : Graph α) (id : NodeId) : Checked Bool :=
  (alignedConcats g id).anyM fun concat => return (← ConcatPlan.ofConcat? c g concat).isSome

def canApply (c : Context) (g : Graph α) (id : NodeId) : Checked Bool := do
  let some n := g.node? id | return false
  if c.isHandled n.name || !(n.output? 0).any (·.elementType.isFloat) then return false
  let .ok r := Ranges.ofNode g id | return false
  if !r.hasSupportedLayout g id then return false
  let (lows, highs) ← r.outputBounds
  match ← (Grid.select lows highs r.levels (Markup.allowedPrecisions g id)).run with
  | .ok none => return false
  | .ok (some grid) =>
    if grid.hasZeroPoint && !c.params.supportAsymmetric then return false
    return !(← isDeferred c g id)
  | .error _ => return true

def affineParams (shape : List Nat) (params : List (ScaleZeroPoint α)) :
    Attempt TensorError (AffineParams α) := do
  let scale ← layOut shape (params.map (·.scale))
  let zeroPoint ←
    if params.any fun p => !Arithmetic.equal p.zeroPoint Arithmetic.zero then
      (some ∘ Tensor.toScalar) <$> layOut shape (params.map (·.zeroPoint))
    else pure none
  return ⟨scale.toScalar, zeroPoint⟩

structure WeightChannel (α : Type) where
  inputLow : α
  inputHigh : α
  outputLow : α
  outputHigh : α
  params : ScaleZeroPoint α

def channelOf (channels size position : Nat) : Nat :=
  if channels = 1 then 0 else position / max (size / max channels 1) 1

def foldWeight (grid : Grid α) (levels : Nat) (c : WeightChannel α) (weight : α) : Checked α := do
  let outputLow ← quantizeBound grid c.params c.outputLow
  let outputHigh ← quantizeBound grid c.params c.outputHigh
  return Arithmetic.round
    (← fakeQuantize weight c.inputLow c.inputHigh outputLow outputHigh levels)

def foldWeights (name : String) (r : Ranges α) (grid : Grid α) (lows highs : List α)
    (params : List (ScaleZeroPoint α)) (weights : Tensor α) :
    Attempt TransformError (Tensor α) := do
  let inputLow ← (r.inputLow.channelValues params.length : Checked _)
  let inputHigh ← (r.inputHigh.channelValues params.length : Checked _)
  match inputLow, inputHigh with
  | some inputLow, some inputHigh =>
    let folded ← weights.data.zipIdx.mapM fun (weight, position) => do
      let c := channelOf params.length weights.size position
      match lows[c]?, highs[c]?, params[c]?, inputLow[c]?, inputHigh[c]? with
      | some low, some high, some p, some inLow, some inHigh =>
        (foldWeight grid r.levels ⟨inLow, inHigh, low, high, p⟩ weight : Checked α)
      | _, _, _, _, _ =>
        throw (.invalidDetails s!"{name} has no range for channel {c} of its weights")
    ExceptT.adapt .tensor (Tensor.make weights.shape folded)
  | _, _ =>
    throw (.invalidDetails
      s!"input range of {name} does not match its {params.length} channels")

structure Lowering (α : Type) where
  ranges : Ranges α
  lows : List α
  highs : List α
  grid : Grid α
  params : List (ScaleZeroPoint α)

def addSource (id : NodeId) (name : String) (p : Lowering α) (type : ElementType)
    (weights : Option (Tensor α)) : Edit α TransformError Slot :=
  match weights with
  | some weights => do
    let folded ← Edit.attempt fun _ =>
      foldWeights name p.ranges p.grid p.lows p.highs p.params weights
    Edit.addConstant s!"{name}/Folded" folded type
  | none => do
    let bound (values : List α) : Edit α TransformError (Tensor α) := Edit.attempt fun _ =>
      ExceptT.adapt .tensor do
        layOut p.ranges.boundsShape (← quantizeBounds p.grid p.params values)
    let low ← bound p.lows
    let high ← bound p.highs
    return ⟨← addFakeQuantize id low high type, 0⟩

def successor (weights : Option (Tensor α)) (source : Slot) (chain : Dequantization α) : NodeId :=
  match weights, chain.multiply with
  | some _, some (multiply, _) => multiply
  | _, _ => source.node

def place (id : NodeId) (n : Node α) (weights : Option (Tensor α)) (affine : AffineParams α)
    (source : Slot) : Edit α TransformError (Dequantization α) := do
  let chain ← Dequantization.insert source (n.readers 0) affine n.name
  Edit.ofGraph (Graph.replaceNode id (successor weights source chain))
  return chain

def lower (id : NodeId) (p : Lowering α) (affine : AffineParams α) (type : ElementType) :
    Edit α TransformError (String × Dequantization α) := do
  let n ← Edit.node id
  let some data := n.input? 0 | throw (.notQuantizable id)
  let weights ← Edit.read (·.constant? data)
  let source ← addSource id n.name p type weights
  return (n.name, ← place id n weights affine source)

def gridOf (id : NodeId) (r : Ranges α) (lows highs : List α) : Edit α TransformError (Grid α) := do
  let grid ← Edit.attempt fun g => Grid.select lows highs r.levels (Markup.allowedPrecisions g id)
  match grid with
  | some grid => return grid
  | none => throw (.notQuantizable id)

def decompose (id : NodeId) : Rewrite α (Dequantization α) := do
  let r ← Rewrite.edit (Edit.ofExcept fun g => Ranges.ofNode g id)
  let (lows, highs) ← (r.outputBounds : Checked _)
  let grid ← Rewrite.edit (gridOf id r lows highs)
  let params ← (channelParams grid lows highs : Checked _)
  Rewrite.changeContext fun c =>
    { c with degenerate := c.degenerate + params.countP (·.degenerate) }
  let affine ← Rewrite.edit (Edit.attempt fun _ =>
    ExceptT.adapt .tensor (affineParams r.boundsShape params))
  let type := storageType (← Rewrite.context).params grid.precision
  let (name, chain) ← Rewrite.edit (lower id ⟨r, lows, highs, grid, params⟩ affine type)
  Rewrite.markHandled name
  return chain

end Decomposition

end LowPrecision
