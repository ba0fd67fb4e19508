import LowPrecision.Graph.Region
import LowPrecision.Proofs.Graph.Views

namespace LowPrecision

variable {α : Type} {g : Graph α}

def Graph.walkWithin (g : Graph α) (next : NodeId → Node α → List NodeId) :
    Nat → List NodeId → List NodeId → Option (List NodeId)
  | 0, _, _ => none
  | _ + 1, visited, [] => some visited
  | fuel + 1, visited, id :: queue =>
    match g.node? id with
    | none => g.walkWithin next fuel visited queue
    | some n =>
      if id ∈ visited then g.walkWithin next fuel visited queue
      else g.walkWithin next fuel (id :: visited) (queue ++ next id n)

theorem Graph.walk_of_walkWithin {next : NodeId → Node α → List NodeId} {fuel : Nat}
    {visited queue ids : List NodeId} (h : g.walkWithin next fuel visited queue = some ids) :
    g.walk next visited queue = ids := by
  fun_induction Graph.walkWithin g next fuel visited queue with
  | case1 => cases h
  | case2 fuel visited =>
    rw [walk]
    exact Option.some.inj h
  | case3 fuel visited id queue hn ih =>
    rw [walk]
    split
    · exact ih h
    · next hsome => simp [hn] at hsome
  | case4 fuel visited id queue n hn hmem ih =>
    rw [walk]
    split
    · next hnone => simp [hn] at hnone
    · rw [dif_pos hmem]
      exact ih h
  | case5 fuel visited id queue n hn hmem ih =>
    rw [walk]
    split
    · next hnone => simp [hn] at hnone
    · next m hm =>
      obtain rfl := Option.some.inj (hn.symm.trans hm)
      rw [dif_neg hmem]
      exact ih h

namespace Region

def concatsBelowWithin (g : Graph α) (fuel : Nat) (id : NodeId) : Option (List NodeId) :=
  let next (reader : NodeId) (n : Node α) : List NodeId :=
    if n.kind != .concat && g.preservesPrecision reader then g.readerNodes reader else []
  (g.walkWithin next fuel [] (g.readerNodes id)).map fun ids =>
    ids.reverse.filter fun reader => g.kind? reader == some .concat

theorem concatsBelow_of_within {fuel : Nat} {id : NodeId} {ids : List NodeId}
    (h : concatsBelowWithin g fuel id = some ids) : concatsBelow g id = ids := by
  obtain ⟨visited, hvisited, rfl⟩ := Option.map_eq_some_iff.mp h
  rw [concatsBelow, Graph.reach, Graph.walk_of_walkWithin hvisited]

def growWithin (g : Graph α) (fanOut : Bool) :
    Nat → Region → List NodeId → List NodeId → Option Region
  | 0, _, _, _ => none
  | fuel + 1, r, pending, [] =>
    match pending with
    | [] => some r
    | concat :: pending =>
      match g.node? concat with
      | none => growWithin g fanOut fuel r pending []
      | some n =>
        if concat ∈ r.concats then growWithin g fanOut fuel r pending []
        else growWithin g fanOut fuel (r.addConcat concat) pending n.producers
  | fuel + 1, r, pending, id :: queue =>
    match g.node? id with
    | none => growWithin g fanOut fuel r pending queue
    | some n =>
      if id ∈ r.members then growWithin g fanOut fuel r pending queue
      else if n.kind = .fakeQuantize then
        match if fanOut then concatsBelowWithin g fuel id else some [] with
        | some below => growWithin g fanOut fuel (r.addBoundary id) (pending ++ below) queue
        | none => none
      else if g.preservesPrecision id then
        growWithin g fanOut fuel (r.addLayer id n.kind) pending (queue ++ n.producers)
      else none

theorem grow_of_growWithin {fanOut : Bool} {fuel : Nat} {r r' : Region}
    {pending queue : List NodeId} (h : growWithin g fanOut fuel r pending queue = some r') :
    grow g fanOut r pending queue = .ok r' := by
  -- The bounded walk makes the same choices, so each case opens one step of the walk without a
  -- bound.
  fun_induction growWithin g fanOut fuel r pending queue with
  | case1 => cases h
  | case2 fuel r =>
    rw [grow]
    exact congrArg Except.ok (Option.some.inj h)
  | case3 fuel r concat pending hn ih =>
    rw [grow, hn]
    exact ih h
  | case4 fuel r concat pending n hn hmem ih =>
    rw [grow, hn]
    exact (if_pos hmem).trans (ih h)
  | case5 fuel r concat pending n hn hmem ih =>
    rw [grow, hn]
    exact (if_neg hmem).trans (ih h)
  | case6 fuel r pending id queue hn ih =>
    rw [grow]
    split
    · exact ih h
    · next hsome => simp [hn] at hsome
  | case7 fuel r pending id queue n hn hmem ih =>
    rw [grow]
    split
    · next hnone => simp [hn] at hnone
    · rw [dif_pos hmem]
      exact ih h
  | case8 fuel r pending id queue n hn hmem hkind below hbelow ih =>
    have hfound : (if fanOut then concatsBelow g id else []) = below := by
      cases fanOut with
      | false => exact Option.some.inj hbelow
      | true => exact concatsBelow_of_within hbelow
    rw [grow]
    split
    · next hnone => simp [hn] at hnone
    · next m hm =>
      obtain rfl := Option.some.inj (hn.symm.trans hm)
      rw [dif_neg hmem, if_pos hkind, hfound]
      exact ih h
  | case9 => cases h
  | case10 fuel r pending id queue n hn hmem hkind hpass ih =>
    rw [grow]
    split
    · next hnone => simp [hn] at hnone
    · next m hm =>
      obtain rfl := Option.some.inj (hn.symm.trans hm)
      rw [dif_neg hmem, if_neg hkind, if_pos hpass]
      exact ih h
  | case11 => cases h

theorem collect_of_growWithin {fanOut : Bool} {fuel : Nat} {concat : NodeId} {r : Region}
    (hkind : g.kind? concat = some .concat)
    (h : growWithin g fanOut fuel .empty [concat] [] = some r) :
    collect g fanOut concat = .ok r := by
  rw [collect, if_pos hkind]
  exact grow_of_growWithin h

theorem feedsNoConvolution_of_kinds (r : Region)
    (h : ∀ entry ∈ g.liveNodes, entry.2.kind ≠ .convolution) : feedsNoConvolution g r = true := by
  simp only [feedsNoConvolution, List.all_eq_true]
  intro concat _ reader _
  rw [bne_iff_ne]
  intro hkind
  obtain ⟨n, hn, hconv⟩ := Option.map_eq_some_iff.mp hkind
  refine h (reader, n) ?_ hconv
  simp only [Graph.liveNodes, List.mem_filterMap, List.mem_range]
  exact ⟨reader, Graph.lt_size_of_node? hn, by rw [hn]; rfl⟩

end Region

end LowPrecision
