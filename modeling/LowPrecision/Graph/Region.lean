import LowPrecision.Graph.Walk

/-!
The region around a concatenation: the operations that pass precision through, and the
fake-quantizes that bound them.
-/

namespace LowPrecision

def Graph.preservesPrecision {α : Type} (g : Graph α) (id : NodeId) : Bool :=
  match g.attributes.precisionPreserved? id with
  | some flag => flag
  | none => (g.node? id).any (·.op.preservesPrecision)

inductive RegionError where
  | openBoundary (name : String) (kind : OpKind)
  | notConcat (id : NodeId)
  deriving DecidableEq

def RegionError.message : RegionError → String
  | openBoundary name kind =>
    s!"node {name} of kind {kind.name} bounds the subgraph but is not a FakeQuantize"
  | notConcat id => s!"node {id} is not a concatenation"

/-- Concatenations and bounding fake-quantizes in the order of discovery; the operations in
between, concatenations included, in the order of their ids. -/
structure Region where
  concats : List NodeId
  layers : List NodeId
  boundary : List NodeId
  deriving DecidableEq

namespace Region

variable {α : Type}

def empty : Region := ⟨[], [], []⟩

def isEmpty (r : Region) : Bool := r.boundary.isEmpty

def members (r : Region) : List NodeId := r.layers ++ r.boundary

def contains (r : Region) (id : NodeId) : Bool := id ∈ r.members

def addConcat (r : Region) (id : NodeId) : Region :=
  { r with concats := r.concats ++ [id], layers := Graph.insertSorted id r.layers }

def addLayer (r : Region) (id : NodeId) (kind : OpKind) : Region :=
  if kind = .concat then r.addConcat id
  else { r with layers := Graph.insertSorted id r.layers }

def addBoundary (r : Region) (id : NodeId) : Region := { r with boundary := r.boundary ++ [id] }

def concatsBelow (g : Graph α) (id : NodeId) : List NodeId :=
  let next (reader : NodeId) (n : Node α) : List NodeId :=
    if n.kind != .concat && g.preservesPrecision reader then g.readerNodes reader else []
  (g.reach next (g.readerNodes id)).filter fun reader => g.kind? reader == some .concat

def firstConsumers (g : Graph α) (id : NodeId) : List NodeId :=
  let next (reader : NodeId) (_ : Node α) : List NodeId :=
    if g.preservesPrecision reader then g.readerNodes reader else []
  (g.reach next (g.readerNodes id)).filter fun reader => !g.preservesPrecision reader

theorem mem_insertSorted {id other : NodeId} {ids : List NodeId} :
    other ∈ Graph.insertSorted id ids ↔ other = id ∨ other ∈ ids := by
  induction ids with
  | nil => simp [Graph.insertSorted]
  | cons x xs ih =>
    simp only [Graph.insertSorted]
    split
    · simp
    · split
      · next h => simp [h]
      · simp only [List.mem_cons, ih, or_left_comm]

theorem mem_members_addConcat {r : Region} {id other : NodeId} :
    other ∈ (r.addConcat id).members ↔ other = id ∨ other ∈ r.members := by
  simp [members, addConcat, mem_insertSorted, or_assoc]

theorem mem_members_addLayer {r : Region} {id other : NodeId} {kind : OpKind} :
    other ∈ (r.addLayer id kind).members ↔ other = id ∨ other ∈ r.members := by
  unfold addLayer
  split
  · exact mem_members_addConcat
  · simp [members, mem_insertSorted, or_assoc]

theorem mem_members_addBoundary {r : Region} {id other : NodeId} :
    other ∈ (r.addBoundary id).members ↔ other = id ∨ other ∈ r.members := by
  simp only [members, addBoundary, List.mem_append, List.mem_singleton]
  rw [← or_assoc, or_comm]

def pendingCost (g : Graph α) (concat : NodeId) : Nat := g.inputCount concat + 1

def memberCost (g : Graph α) (id : NodeId) : Nat :=
  g.inputCount id + 1 + weigh (pendingCost g) (fun _ => true) (concatsBelow g id)

/-- Grows a region backward over the queue, then over the concatenations that are pending. With
`fanOut`, the concatenations below a bounding fake-quantize are pending too. -/
def grow (g : Graph α) (fanOut : Bool) (r : Region) (pending : List NodeId) :
    List NodeId → Except RegionError Region
  | [] =>
    match pending with
    | [] => return r
    | concat :: pending =>
      match _h : g.node? concat with
      | none => grow g fanOut r pending []
      | some n =>
        if concat ∈ r.concats then grow g fanOut r pending []
        else grow g fanOut (r.addConcat concat) pending n.producers
  | id :: queue =>
    match _h : g.node? id with
    | none => grow g fanOut r pending queue
    | some n =>
      if _hv : id ∈ r.members then grow g fanOut r pending queue
      else if n.kind = .fakeQuantize then
        let below := if fanOut then concatsBelow g id else []
        grow g fanOut (r.addBoundary id) (pending ++ below) queue
      else if g.preservesPrecision id then
        grow g fanOut (r.addLayer id n.kind) pending (queue ++ n.producers)
      else throw (.openBoundary n.name n.kind)
  termination_by queue =>
    g.unvisited (memberCost g) r.members + weigh (pendingCost g) (fun _ => true) pending +
      queue.length
  decreasing_by
    · simp [weigh_cons, pendingCost]
    · simp [weigh_cons, pendingCost]
    · have hle : g.unvisited (memberCost g) (r.addConcat concat).members ≤
          g.unvisited (memberCost g) r.members :=
        Graph.unvisited_le _ fun i hi => mem_members_addConcat.mpr (.inr hi)
      simp only [weigh_cons, ↓reduceIte, pendingCost, Graph.inputCount, _h, Node.producers,
        Option.map_some, Option.getD_some, List.length_map, List.length_nil]
      omega
    · simp
    · simp
    · have hle : g.unvisited (memberCost g) (r.addBoundary id).members + memberCost g id ≤
          g.unvisited (memberCost g) r.members :=
        Graph.unvisited_add_le _ (fun i hi => mem_members_addBoundary.mpr (.inr hi))
          (by simp [Graph.isLive, _h]) _hv (mem_members_addBoundary.mpr (.inl rfl))
      have hbelow : weigh (pendingCost g) (fun _ => true) (if fanOut then concatsBelow g id else []) ≤
          weigh (pendingCost g) (fun _ => true) (concatsBelow g id) := by
        split
        · exact Nat.le_refl _
        · exact Nat.zero_le _
      rw [memberCost] at hle
      simp only [dite_eq_ite, weigh_append, List.length_cons]
      omega
    · have hle : g.unvisited (memberCost g) (r.addLayer id n.kind).members + memberCost g id ≤
          g.unvisited (memberCost g) r.members :=
        Graph.unvisited_add_le _ (fun i hi => mem_members_addLayer.mpr (.inr hi))
          (by simp [Graph.isLive, _h]) _hv (mem_members_addLayer.mpr (.inl rfl))
      simp only [memberCost, Graph.inputCount, _h, Option.map_some, Option.getD_some] at hle
      simp only [Node.producers, List.length_append, List.length_map, List.length_cons]
      omega

def collect (g : Graph α) (fanOut : Bool) (concat : NodeId) : Except RegionError Region :=
  if g.kind? concat = some .concat then grow g fanOut .empty [concat] []
  else throw (.notConcat concat)

def around (g : Graph α) (concat : NodeId) : Except RegionError Region :=
  collect g true concat

def behind (g : Graph α) (concat : NodeId) : Except RegionError Region :=
  collect g false concat

/-- Whether the branches may keep their own scales: no convolution reads a concatenation, not even
through operations that pass precision through. -/
def feedsNoConvolution (g : Graph α) (r : Region) : Bool :=
  r.concats.all fun concat =>
    (firstConsumers g concat).all fun reader => g.kind? reader != some .convolution

def readersOutside (g : Graph α) (r : Region) (output : Slot) : List Slot :=
  (g.readers output).filter fun reader => !r.contains reader.node

end Region

end LowPrecision
