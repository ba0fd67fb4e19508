import LowPrecision.Markup.Basic

namespace LowPrecision.Markup

variable {α : Type} [Scalar α]

def readRanges (g : Graph α) (ids : List NodeId) : Option (List (Ranges α)) :=
  ids.mapM fun id => (Ranges.ofNode g id).toOption

def intervalOf (r : Ranges α) : SharedInterval α :=
  let (low, high) := r.outputInterval
  ⟨low, high, r.levels⟩

def regionInterval? (g : Graph α) (concat : NodeId) :
    Option (SharedInterval α × List NodeId) := do
  let region ← (Region.behind g concat).toOption
  match ← readRanges g region.boundary with
  | [] => none
  | first :: rest =>
    let hull := rest.foldl (fun hull r => hull.widen (intervalOf r)) (intervalOf first)
    return (hull, region.boundary ++ region.layers)

def shareInterval (interval : SharedInterval α) (members : List NodeId) (s : AttributeStore α) :
    Checked (AttributeStore α) := do
  let (group, s) ← members.foldlM (fun (group, s) member =>
    match s.intervalGroup? member with
    | some existing => s.mergeIntervals existing group
    | none => return (group, s)) (s.newInterval interval)
  return members.foldl (fun s member =>
    if s.has (.node member) .intervals then s else s.set (.node member) (.intervals group)) s

def alignIntervals (g : Graph α) : Checked (Graph α) := do
  let s ← (g.ofKind .concat).foldlM (fun s concat =>
    match regionInterval? g concat with
    | some (interval, members) => shareInterval interval members s
    | none => return s) (g.attributes.clear .intervals)
  return withStore (fun _ => s) g

structure AlignedGroup where
  fakeQuantizes : List NodeId
  others : List NodeId

def alignedGroups (g : Graph α) : List AlignedGroup :=
  let members := g.liveNodes.filterMap fun (id, n) =>
    (g.attributes.intervalRoot? id).map fun root => (root, id, n.kind == .fakeQuantize)
  let roots := members.foldl (fun roots member => Graph.insertSorted member.1 roots) []
  roots.map fun root =>
    let group := members.filter (·.1 == root)
    ⟨(group.filter (·.2.2)).map (·.2.1), (group.filter (!·.2.2)).map (·.2.1)⟩

def allowedPrecisions (g : Graph α) (id : NodeId) : PrecisionSet :=
  (g.attributes.precisions? ⟨id, 0⟩).getD PrecisionSet.eightBit

structure MemberParams (α : Type) where
  precision : ElementType
  scale : α
  zeroPoint : α

namespace MemberParams

def same (a b : MemberParams α) : Bool :=
  a.precision == b.precision && Scalar.identical a.scale b.scale &&
    Scalar.identical a.zeroPoint b.zeroPoint

def text (p : MemberParams α) : String :=
  s!"({p.precision.name}, {Scalar.text p.scale}, {Scalar.text p.zeroPoint})"

end MemberParams

def memberParams (g : Graph α) (interval : SharedInterval α) (id : NodeId) :
    Attempt String (MemberParams α) := do
  let grid ← ExceptT.adapt TransformError.message <|
    Grid.select [interval.low] [interval.high] interval.levels (allowedPrecisions g id)
  match grid with
  | none => throw s!"no precision left for node {id}"
  | some grid =>
    let p ← ScaleZeroPoint.ofInterval interval.low interval.high grid.low grid.high
    return ⟨grid.precision, p.scale, p.zeroPoint⟩

def checkGroup (g : Graph α) (group : AlignedGroup) : Attempt String Unit := do
  match group.fakeQuantizes.head?.bind g.attributes.interval? with
  | none => return
  | some interval =>
    let readable := group.fakeQuantizes.filterMap fun id => (Ranges.ofNode g id).toOption
    let levels := (readable.map Ranges.levels).eraseDups
    if 1 < levels.length then
      throw s!"members use different level counts {Text.dimensions levels}"
    match ← group.fakeQuantizes.mapM (memberParams g interval) with
    | [] => return
    | first :: rest =>
      if !rest.all first.same then
        let texts := (first :: rest).map MemberParams.text
        throw s!"decomposition parameters differ: {Text.bracketed texts}"

def alignParameters (g : Graph α) : Checked (Graph α) := do
  let g := withStore (·.clear .alignment) g
  let s ← (alignedGroups g).foldlM (fun s group => do
    let conflict ← (checkGroup g group).run
    let (cell, s) := s.newAlignment conflict.isOk
    let s := (group.fakeQuantizes ++ group.others).foldl (fun s member =>
      s.set (.node member) (.alignment cell)) s
    match conflict with
    | .ok () => return s
    | .error reason =>
      let members := group.fakeQuantizes.filterMap fun id => (g.node? id).map Node.name
      return s.addConflict ⟨members, reason⟩) g.attributes
  return withStore (fun _ => s) g

end LowPrecision.Markup
