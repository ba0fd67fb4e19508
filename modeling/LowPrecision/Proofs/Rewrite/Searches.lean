import LowPrecision.Proofs.Graph.Backward
import LowPrecision.Proofs.Rewrite.ConfinedRegions

/-!
The search for the parameters of the layers of a region. It keeps no list of the nodes that it has seen.
It comes to an end because the region is closed and the graph has no cycle: each chain of questions stays
in the region, comes to no node twice, and stops at the boundary or where an input is missing.
-/

namespace LowPrecision

variable {α : Type}

namespace Checked

theorem product_stops (sizes : List Nat) : Stops (· = .overflow) (product sizes) := by
  unfold product
  generalize 1 = base
  induction sizes generalizing base with
  | nil => exact .pure base
  | cons size sizes ih =>
    rw [List.foldlM_cons]
    refine Stops.bind (fun fault hfault => ?_) fun next _ => ih next
    rw [mul, word] at hfault
    split at hfault <;> cases hfault
    rfl

theorem reserve_stops (count width : Nat) : Stops (· = .capacity) (reserve count width) := by
  intro fault hfault
  rw [reserve] at hfault
  split at hfault <;> cases hfault
  rfl

end Checked

def Graph.Oversized (g : Graph α) : Fault → Prop
  | .overflow => ∃ s t, g.constant? s = some t ∧ Checked.product t.shape = .error .overflow
  | .capacity => ∃ s channels, ConcatPlan.channelCount? g s = some channels ∧
      Checked.reserve channels Tensor.elementWidth = .error .capacity
  | .outOfRange | .invalidBounds | .unbounded => False

namespace Region

variable {g : Graph α} {r : Region} {u v : NodeId}

noncomputable def sources (g : Graph α) (r : Region) (v : NodeId) : Finset NodeId :=
  r.members.toFinset ∩ g.sources v

theorem card_sources_le (r : Region) (v : NodeId) : (sources g r v).card ≤ g.nodes.size :=
  (Finset.card_le_card Finset.inter_subset_right).trans (g.card_sources_le v)

theorem card_sources_lt (hg : g.WellFormed) (hacyclic : g.Acyclic) (hu : u ∈ r.members)
    (hread : g.Reads v u) : (sources g r u).card < (sources g r v).card := by
  have hsub : sources g r u ⊆ sources g r v :=
    Finset.inter_subset_inter_left (Graph.sources_subset hread)
  refine Finset.card_lt_card ((Finset.ssubset_iff_of_subset hsub).mpr ⟨u, ?_, fun hmem => ?_⟩)
  · exact Finset.mem_inter.mpr ⟨List.mem_toFinset.mpr hu, Graph.mem_sources_of_reads hg hread⟩
  · exact Graph.not_mem_sources hacyclic.not_hasCycle (Finset.mem_inter.mp hmem).2

theorem card_sources_lt_length (hacyclic : g.Acyclic) (hv : v ∈ r.members) :
    (sources g r v).card < r.members.length := by
  have hsub : sources g r v ⊆ r.members.toFinset := Finset.inter_subset_left
  refine Nat.lt_of_lt_of_le (Finset.card_lt_card ?_) (List.toFinset_card_le r.members)
  exact (Finset.ssubset_iff_of_subset hsub).mpr ⟨v, List.mem_toFinset.mpr hv,
    fun hmem => Graph.not_mem_sources hacyclic.not_hasCycle (Finset.mem_inter.mp hmem).2⟩

end Region

namespace ConcatPlan

variable {g g' : Graph α} {known : List (NodeId × ChannelParams α)} {id u v : NodeId}

inductive Asks (g : Graph α) (known : List (NodeId × ChannelParams α)) : NodeId → NodeId → Prop
  | joined {v : NodeId} {n : Node α} {axis : Nat} {s : Slot}
      (hknown : known.find? (·.1 = v) = none) (hn : g.node? v = some n) (hop : n.op = .concat axis)
      (hs : s ∈ n.inputs) : Asks g known v s.node
  | passed {v : NodeId} {n : Node α} {s : Slot}
      (hknown : known.find? (·.1 = v) = none) (hn : g.node? v = some n)
      (hop : ∀ axis, n.op ≠ .concat axis) (hs : n.input? 0 = some s) : Asks g known v s.node

theorem Asks.unknown (h : Asks g known v u) : known.find? (·.1 = v) = none := by
  cases h with
  | joined hknown => exact hknown
  | passed hknown => exact hknown

theorem Asks.reads (h : Asks g known v u) : g.Reads v u := by
  cases h with
  | joined _ hn _ hs =>
    obtain ⟨i, hi⟩ := List.getElem?_of_mem hs
    exact ⟨i, _, Graph.input?_eq_some.mpr ⟨_, hn, hi⟩, rfl⟩
  | passed _ hn _ hs => exact ⟨0, _, Graph.input?_eq_some.mpr ⟨_, hn, hs⟩, rfl⟩

theorem Asks.rank_lt {rank : NodeId → Nat} (h : Asks g known v u) (hrank : g.Ranked rank) :
    rank u < rank v := by
  obtain ⟨i, s, hs, rfl⟩ := h.reads
  exact hrank v i s hs

theorem find?_eq_none_iff : known.find? (·.1 = v) = none ↔ v ∉ known.map Prod.fst := by
  simp only [List.find?_eq_none, decide_eq_true_eq, List.mem_map, not_exists, not_and]

section Chains

variable {r : Region} {rank : NodeId → Nat} {path : List NodeId}

theorem Asks.member (h : Asks g known v u) (hg : g.WellFormed) (hclosed : r.Closed g)
    (hkeys : known.map Prod.fst = r.boundary) (hv : v ∈ r.members) : u ∈ r.members := by
  have hbound : v ∉ r.boundary := hkeys ▸ find?_eq_none_iff.mp h.unknown
  exact hclosed.mem_of_reads hg ((List.mem_append.mp hv).resolve_right hbound) h.reads

theorem members_of_chain (hg : g.WellFormed) (hclosed : r.Closed g)
    (hkeys : known.map Prod.fst = r.boundary) (hv : v ∈ r.members)
    (h : List.IsChain (Asks g known) (v :: path)) : ∀ u ∈ v :: path, u ∈ r.members := by
  induction path generalizing v with
  | nil => exact List.forall_mem_singleton.mpr hv
  | cons u path ih =>
    obtain ⟨hask, hrest⟩ := List.isChain_cons_cons.mp h
    exact List.forall_mem_cons.mpr ⟨hv, ih (hask.member hg hclosed hkeys hv) hrest⟩

theorem nodup_of_chain (hrank : g.Ranked rank) (h : List.IsChain (Asks g known) path) :
    path.Nodup := by
  have hdown : List.IsChain (fun v u => rank u < rank v) path :=
    h.imp fun v u hask => hask.rank_lt hrank
  have htrans : IsTrans NodeId fun v u => rank u < rank v := ⟨fun _ _ _ h h' => Nat.lt_trans h' h⟩
  refine (List.isChain_iff_pairwise.mp hdown).imp fun hlt he => ?_
  rw [he] at hlt
  exact Nat.lt_irrefl _ hlt

theorem asks_nothing_iff (hclosed : r.Closed g) (hkeys : known.map Prod.fst = r.boundary)
    (hv : v ∈ r.members) :
    (∀ u, ¬ Asks g known v u) ↔
      v ∈ r.boundary ∧ g.kind? v = some .fakeQuantize ∨ v ∈ r.layers ∧ g.input? v 0 = none := by
  constructor
  · intro hnone
    rcases List.mem_append.mp hv with hlayer | hbound
    · refine .inr ⟨hlayer, Option.eq_none_iff_forall_ne_some.mpr fun s hs => ?_⟩
      obtain ⟨n, hn, hi⟩ := Graph.input?_eq_some.mp hs
      have hknown : known.find? (·.1 = v) = none :=
        find?_eq_none_iff.mpr (hkeys ▸ hclosed.not_boundary_of_layer hlayer)
      by_cases hop : ∃ axis, n.op = .concat axis
      · obtain ⟨axis, hop⟩ := hop
        exact hnone s.node (.joined hknown hn hop (List.mem_of_getElem? hi))
      · exact hnone s.node (.passed hknown hn (not_exists.mp hop) hi)
    · exact .inl ⟨hbound, hclosed.kind_of_boundary hbound⟩
  · rintro (⟨hbound, -⟩ | ⟨-, hinput⟩) u hask
    · exact find?_eq_none_iff.mp hask.unknown (hkeys ▸ hbound)
    · cases hask with
      | joined _ hn _ hs =>
        rw [Graph.input?, hn, Option.bind_some, Node.input?, List.getElem?_eq_none_iff] at hinput
        exact absurd hs (List.eq_nil_of_length_eq_zero (Nat.le_zero.mp hinput) ▸ List.not_mem_nil)
      | passed _ hn _ hs =>
        rw [Graph.input?, hn, Option.bind_some, hs] at hinput
        cases hinput

end Chains

section Congruence

variable {inputs : List (Slot × ChannelParams α)}

theorem channelCount?_congr {s : Slot} (h : g'.node? s.node = g.node? s.node) :
    channelCount? g' s = channelCount? g s := by
  rw [channelCount?, channelCount?, Graph.port?, Graph.port?, Graph.port, Graph.port, Graph.node,
    Graph.node, h]

theorem inputParams_congr {of of' : NodeId → Checked (Option (ChannelParams α))} {slots : List Slot}
    (h : ∀ s ∈ slots, of' s.node = of s.node) : inputParams of' slots = inputParams of slots := by
  induction slots with
  | nil => rfl
  | cons s slots ih =>
    obtain ⟨hfirst, hrest⟩ := List.forall_mem_cons.mp h
    rw [inputParams, inputParams, hfirst, ih hrest]

theorem appended_congr (h : ∀ i ∈ inputs, channelCount? g' i.1 = channelCount? g i.1)
    (start : Option (ChannelParams α)) :
    inputs.foldlM (appendInput g') start = inputs.foldlM (appendInput g) start := by
  induction inputs generalizing start with
  | nil => rfl
  | cons input inputs ih =>
    obtain ⟨hfirst, hrest⟩ := List.forall_mem_cons.mp h
    have hstep : appendInput g' start input = appendInput g start input := by
      unfold appendInput
      rw [hfirst]
    rw [List.foldlM_cons, List.foldlM_cons, hstep]
    exact bind_congr fun joined => ih hrest joined

variable [Arithmetic α]

theorem joinParams_congr (h : ∀ i ∈ inputs, channelCount? g' i.1 = channelCount? g i.1) (axis : Nat) :
    joinParams g' axis inputs = joinParams g axis inputs := by
  cases inputs with
  | nil => rfl
  | cons input inputs =>
    have hfold := appended_congr h (some ⟨[], []⟩)
    rw [joinParams, joinParams]
    split
    · rfl
    · split
      · exact hfold
      · rfl

theorem paramsOf_congr {depth depth' : Nat} (hnode : g'.node? id = g.node? id)
    (hasked : ∀ u, Asks g known id u →
      g'.node? u = g.node? u ∧ paramsOf g' known depth' u = paramsOf g known depth u) :
    paramsOf g' known (depth' + 1) id = paramsOf g known (depth + 1) id := by
  rw [paramsOf, paramsOf, hnode]
  split
  · rfl
  · rfl
  next n hknown hn =>
  split
  · next axis hop =>
    have hinputs : ∀ s ∈ n.inputs, g'.node? s.node = g.node? s.node ∧
        paramsOf g' known depth' s.node = paramsOf g known depth s.node :=
      fun s hs => hasked s.node (.joined hknown hn hop hs)
    rw [inputParams_congr fun s hs => (hinputs s hs).2]
    cases hfound : inputParams (paramsOf g known depth) n.inputs with
    | error fault => rfl
    | ok found =>
      cases found with
      | none => rfl
      | some inputs =>
        obtain ⟨hslots, -⟩ := inputParams_eq_ok hfound
        refine joinParams_congr (fun i hi => channelCount?_congr ?_) axis
        exact (hinputs i.1 (hslots ▸ List.mem_map_of_mem hi)).1
  · next hop =>
    split
    · next s hs => exact (hasked s.node (.passed hknown hn hop hs)).2
    · rfl

end Congruence

section Faults

variable {q : Fault → Prop}

theorem expand_stops {s : Slot} {channels : Nat} (h : channelCount? g s = some channels)
    (p : ChannelParams α) : (p.expand channels).Stops g.Oversized := by
  have hreplicate : ∀ x : α, (Checked.replicate Tensor.elementWidth channels x).Stops g.Oversized := by
    refine fun x => .bind (fun fault hfault => ?_) fun _ _ => .pure _
    obtain rfl := Checked.reserve_stops channels Tensor.elementWidth fault hfault
    exact ⟨s, channels, h, hfault⟩
  rw [ChannelParams.expand]
  split
  · apply (hreplicate _).bind
    intro _ _
    apply (hreplicate _).bind
    intro _ _
    exact .pure _
  · exact .pure _

theorem appended_stops (inputs : List (Slot × ChannelParams α)) (start : Option (ChannelParams α)) :
    (inputs.foldlM (appendInput g) start).Stops g.Oversized := by
  induction inputs generalizing start with
  | nil => exact .pure start
  | cons input inputs ih =>
    rw [List.foldlM_cons]
    refine .bind ?_ fun joined _ => ih joined
    unfold appendInput
    split
    · next channels _ hcount => exact (expand_stops hcount input.2).bind fun _ _ => .pure _
    · exact .pure none

theorem inputParams_stops {of : NodeId → Checked (Option (ChannelParams α))} {slots : List Slot}
    (h : ∀ s ∈ slots, (of s.node).Stops q) : (inputParams of slots).Stops q := by
  induction slots with
  | nil => exact .pure _
  | cons s slots ih =>
    obtain ⟨hfirst, hrest⟩ := List.forall_mem_cons.mp h
    apply hfirst.bind
    intro found _
    cases found with
    | none => exact .pure none
    | some p => exact (ih hrest).bind fun _ _ => .pure _

variable [Arithmetic α]

theorem joinParams_stops (axis : Nat) (inputs : List (Slot × ChannelParams α)) :
    (joinParams g axis inputs).Stops g.Oversized := by
  cases inputs with
  | nil => exact .pure none
  | cons input inputs =>
    rw [joinParams]
    split
    · exact .pure _
    · split
      · exact appended_stops (input :: inputs) (some ⟨[], []⟩)
      · exact .pure none

theorem paramsOf_stops_succ {depth : Nat}
    (hasked : ∀ u, Asks g known id u → (paramsOf g known depth u).Stops g.Oversized) :
    (paramsOf g known (depth + 1) id).Stops g.Oversized := by
  rw [paramsOf]
  split
  · exact .pure _
  · exact .pure none
  next n hknown hn =>
  split
  · next axis hop =>
    apply (inputParams_stops fun s hs => hasked s.node (.joined hknown hn hop hs)).bind
    intro found _
    cases found with
    | none => exact .pure none
    | some inputs => exact joinParams_stops axis inputs
  · next hop =>
    split
    · next s hs => exact hasked s.node (.passed hknown hn hop hs)
    · exact .pure none

end Faults

section Runs

variable [Arithmetic α] {r : Region} {depth depth' : Nat}

theorem paramsOf_stops {rank : NodeId → Nat} (hrank : g.Ranked rank) (hdepth : rank id < depth) :
    (paramsOf g known depth id).Stops g.Oversized := by
  induction depth generalizing id with
  | zero => exact absurd hdepth (Nat.not_lt_zero _)
  | succ depth ih =>
    refine paramsOf_stops_succ fun u hask => ih ?_
    exact Nat.lt_of_lt_of_le (hask.rank_lt hrank) (Nat.le_of_lt_succ hdepth)

theorem paramsOf_settled (rank : NodeId → Nat) (hg : g.WellFormed) (hclosed : r.Closed g)
    (hkeys : known.map Prod.fst = r.boundary)
    (hlower : ∀ v u, u ∈ r.members → Asks g known v u → rank u < rank v)
    (hsame : ∀ v ∈ r.members, g'.node? v = g.node? v) (hid : id ∈ r.members)
    (hdepth : rank id < depth) (hdepth' : rank id < depth') :
    paramsOf g' known depth' id = paramsOf g known depth id := by
  induction depth generalizing depth' id with
  | zero => exact absurd hdepth (Nat.not_lt_zero _)
  | succ depth ih =>
    cases depth' with
    | zero => exact absurd hdepth' (Nat.not_lt_zero _)
    | succ depth' =>
      refine paramsOf_congr (hsame id hid) fun u hask => ?_
      have hu : u ∈ r.members := hask.member hg hclosed hkeys hid
      have hlt : rank u < rank id := hlower id u hu hask
      exact ⟨hsame u hu, ih hu (by omega) (by omega)⟩

end Runs

section Planning

variable [Scalar α] {r : Region} {grid : Grid α}

omit [Scalar α] in
theorem layOut_stops {s : Slot} {t : Tensor α} (ht : g.constant? s = some t) (values : List α) :
    (layOut t.shape values).run.Stops g.Oversized := by
  have hmake : (Tensor.make t.shape values).run.Stops g.Oversized := by
    intro fault hfault
    have hproduct : Checked.product t.shape = .error fault := by
      cases hproduct : Checked.product t.shape with
      | error fault' =>
        rw [Tensor.make, attempt_bind_fault (attempt_lift_fault hproduct)] at hfault
        exact congrArg Except.error (Except.error.inj hfault)
      | ok size =>
        rw [Tensor.make, hproduct, attempt_checked_bind] at hfault
        split at hfault <;> cases hfault
    obtain rfl := Checked.product_stops t.shape fault hproduct
    exact ⟨s, t, ht, hproduct⟩
  unfold layOut
  split
  · exact .pure _
  · exact hmake

theorem laidOut_stops {s : Slot} {t : Tensor α} (ht : g.constant? s = some t)
    (hgrid : grid.low ≤ grid.high) (params : List (ScaleZeroPoint α)) (lows highs : List α) (flagged : Nat) :
    Checked.Stops g.Oversized (do
      let lows ← (layOut t.shape (← quantizeBounds grid params lows)).run
      let highs ← (layOut t.shape (← quantizeBounds grid params highs)).run
      match lows, highs, ChannelParams.ofList? params with
      | .ok low, .ok high, some p => return some ⟨low, high, p, flagged⟩
      | _, _, _ => return none : Checked (Option (Branch α))) := by
  refine (Checked.Stops.of_ok (quantizeBounds_ok hgrid params lows)).bind fun _ _ => ?_
  apply (layOut_stops ht _).bind
  intro _ _
  refine (Checked.Stops.of_ok (quantizeBounds_ok hgrid params highs)).bind fun _ _ => ?_
  apply (layOut_stops ht _).bind
  intro _ _
  split <;> exact .pure _

theorem planBranch_stops (hgrid : grid.low ≤ grid.high)
    (hwide : (Scalar.widen grid.low : Scalar.Wide α) ≤ Scalar.widen grid.high) {ranges : Ranges α}
    (hr : Ranges.ofNode g id = .ok ranges) (shared : Option (α × α)) :
    (planBranch grid ranges shared).Stops g.Oversized := by
  obtain ⟨_, _, _, _, outLow, outHigh, _, -, -, -, -, -, hlow, hhigh, -, hsize, -⟩ :=
    Ranges.ofNode_eq_ok.mp hr
  obtain ⟨s, t, ht, hshape⟩ : ∃ s t, g.constant? s = some t ∧ ranges.boundsShape = t.shape := by
    rw [Ranges.boundsShape]
    split
    · exact ⟨outLow, _, hlow, rfl⟩
    · exact ⟨outHigh, _, hhigh, rfl⟩
  rw [planBranch, Ranges.outputBounds_eq hsize, hshape]
  cases shared with
  | none =>
    exact (Checked.Stops.of_ok (channelParams_ok hwide _ _)).bind fun params _ =>
      laidOut_stops ht hgrid params _ _ _
  | some interval =>
    exact (Checked.Stops.of_ok (ofInterval_ok hwide interval.1 interval.2)).bind fun p _ =>
      laidOut_stops ht hgrid (List.replicate _ p) _ _ _

theorem planBranches_stops {entries : List (Ranges α × Option (α × α))} {q : Fault → Prop}
    (h : ∀ entry ∈ entries, (planBranch grid entry.1 entry.2).Stops q) :
    (planBranches grid entries).Stops q := by
  induction entries with
  | nil => exact .pure _
  | cons entry entries ih =>
    obtain ⟨hfirst, hrest⟩ := List.forall_mem_cons.mp h
    apply Checked.Stops.bind hfirst
    intro found _
    cases found with
    | none => exact .pure none
    | some branch => exact (ih hrest).bind fun _ _ => .pure _

theorem layerParams_stops {ids : List NodeId} {q : Fault → Prop}
    (h : ∀ id ∈ ids, (paramsOf g known (g.nodes.size + 1) id).Stops q) :
    (layerParams g known ids).Stops q := by
  induction ids with
  | nil => exact .pure _
  | cons id ids ih =>
    obtain ⟨hfirst, hrest⟩ := List.forall_mem_cons.mp h
    apply Checked.Stops.bind hfirst
    intro found _
    cases found with
    | none => exact .pure none
    | some p => exact (ih hrest).bind fun _ _ => .pure _

theorem ofRegion?_stops (hordered : OrderedGrids α) (hg : g.WellFormed) (hacyclic : g.Acyclic)
    (c : Context) (r : Region) (multiChannel : Bool) :
    (ofRegion? c g r multiChannel).Stops g.Oversized := by
  rw [ofRegion?]
  split
  rotate_left
  · exact .pure none
  next boundary hboundary =>
  split
  · exact .pure none
  next first firstAllowed rest =>
  have hread := option_mapM_eq_some hboundary
  split
  · exact .pure none
  refine (Checked.Stops.of_ok (Markup.select_answers hordered _ _ _ _)).bind fun found hselect => ?_
  split
  rotate_left
  · exact .pure none
  next grid =>
  split
  · exact .pure none
  obtain ⟨hgrid, hwide⟩ := hordered _ _ _ _ (bounds_of_select hselect)
  refine (planBranches_stops fun entry hentry => ?_).bind fun found _ => ?_
  · obtain ⟨read, hread', hr⟩ := List.mem_map.mp (List.of_mem_zip hentry).1
    obtain ⟨i, hi⟩ := List.mem_iff_getElem?.mp hread'
    obtain ⟨id, -, hbound⟩ := forall₂_getElem? hread.flip hi
    obtain ⟨n, -, -, hnode, -⟩ := readBoundary?_eq_some hbound
    exact planBranch_stops hgrid hwide (hr ▸ hnode) entry.2
  split
  rotate_left
  · exact .pure none
  refine (layerParams_stops fun id _ => ?_).bind fun found _ => ?_
  · exact paramsOf_stops (Graph.ranked_card_sources hg hacyclic.not_hasCycle)
      (Nat.lt_succ_of_le (Graph.card_sources_le g id))
  split <;> exact .pure _

theorem ofConcat?_stops (hordered : OrderedGrids α) (hg : g.WellFormed) (hacyclic : g.Acyclic)
    (c : Context) (concat : NodeId) : (ofConcat? c g concat).Stops g.Oversized := by
  rw [ofConcat?]
  split
  · exact ofRegion?_stops hordered hg hacyclic c _ _
  · exact .pure none

/-- The search for the parameters of a layer of the region comes to an end. -/
structure SearchEnds (g : Graph α) (r : Region) (known : List (NodeId × ChannelParams α))
    (layer : NodeId) : Prop where
  chain (path : List NodeId) : List.IsChain (Asks g known) (layer :: path) →
    (∀ v ∈ path, v ∈ r.members) ∧ path.length < r.members.length
  last (v : NodeId) : Relation.ReflTransGen (Asks g known) layer v →
    ((∀ u, ¬ Asks g known v u) ↔
      v ∈ r.boundary ∧ g.kind? v = some .fakeQuantize ∨ v ∈ r.layers ∧ g.input? v 0 = none)
  settled (g' : Graph α) (depth : Nat) : (∀ v ∈ r.members, g'.node? v = g.node? v) →
    r.members.length ≤ depth →
      paramsOf g' known depth layer = paramsOf g known (g.nodes.size + 1) layer
  fits (fault : Fault) : paramsOf g known (g.nodes.size + 1) layer = .error fault → g.Oversized fault

theorem searchEnds (hg : g.WellFormed) (hacyclic : g.Acyclic) (hclosed : r.Closed g)
    (hkeys : known.map Prod.fst = r.boundary) {layer : NodeId} (hlayer : layer ∈ r.layers) :
    SearchEnds g r known layer := by
  have hrank := Graph.ranked_card_sources hg hacyclic.not_hasCycle
  have hmember : layer ∈ r.members := List.mem_append_left _ hlayer
  refine ⟨fun path hpath => ?_, fun v hv => ?_, fun g' depth hsame hdepth => ?_, ?_⟩
  · have hinside := members_of_chain hg hclosed hkeys hmember hpath
    exact ⟨(List.forall_mem_cons.mp hinside).2,
      ((nodup_of_chain hrank hpath).subperm hinside).length_le⟩
  · refine asks_nothing_iff hclosed hkeys ?_
    induction hv with
    | refl => exact hmember
    | tail _ hask ih => exact hask.member hg hclosed hkeys ih
  · refine paramsOf_settled (fun v => (Region.sources g r v).card) hg hclosed hkeys
      (fun v u hu hask => Region.card_sources_lt hg hacyclic hu hask.reads) hsame hmember
      (Nat.lt_succ_of_le (Region.card_sources_le r layer))
      (Nat.lt_of_lt_of_le (Region.card_sources_lt_length hacyclic hmember) hdepth)
  · exact paramsOf_stops hrank (Nat.lt_succ_of_le (Graph.card_sources_le g layer))

theorem Accepted.keys {c : Context} {concat : NodeId} {plan : ConcatPlan α}
    (h : Accepted c g concat plan) :
    (plan.region.boundary.zip (plan.branches.map Branch.params)).map Prod.fst = plan.region.boundary := by
  refine List.map_fst_zip ?_
  rw [List.length_map, ← h.branches.length_eq, ← h.ranges.length_eq]

theorem Accepted.balanced {c : Context} {concat : NodeId} {plan : ConcatPlan α}
    (h : Accepted c g concat plan) {e : NodeId × ChannelParams α} (he : e ∈ plan.layers) :
    e.2.Balanced := by
  refine (derives_of_paramsOf ((layerParams_eq_ok h.layers).2 e he)).balanced fun b hb => ?_
  obtain ⟨branch, hbranch, hparams⟩ := List.mem_map.mp (List.of_mem_zip hb).2
  obtain ⟨i, hi⟩ := List.mem_iff_getElem?.mp hbranch
  obtain ⟨_, -, _, hplan⟩ := forall₂_getElem? h.branches.flip hi
  exact hparams ▸ (planBranch_eq_ok hplan).1

end Planning

/-- Planning a concatenation answers unless a size is beyond the machine. The search for the parameters of
each layer ends in the region, and a plan has parameters for each of its layers, with as many scales as
zero points. -/
theorem planning_ends {g : Graph Binary32} (hg : g.WellFormed) (hacyclic : g.Acyclic) (c : Context)
    (concat : NodeId) :
    ((∃ found, ofConcat? c g concat = .ok found) ∨
      ∃ fault, ofConcat? c g concat = .error fault ∧ g.Oversized fault) ∧
    (∀ r, Region.around g concat = .ok r → ∀ known : List (NodeId × ChannelParams Binary32),
      known.map Prod.fst = r.boundary → ∀ layer ∈ r.layers, SearchEnds g r known layer) ∧
    ∀ plan, ofConcat? c g concat = .ok (some plan) →
      Region.around g concat = .ok plan.region ∧
      plan.layers.map Prod.fst = plan.region.layers ∧
      ∃ known, known.map Prod.fst = plan.region.boundary ∧ known.map Prod.snd = plan.branches.map Branch.params ∧
        ∀ e ∈ plan.layers, paramsOf g known (g.nodes.size + 1) e.1 = .ok (some e.2) ∧
          e.2.scales.length = e.2.zeroPoints.length := by
  refine ⟨?_, fun r hr known hkeys layer hlayer => ?_, fun plan hplan => ?_⟩
  · cases hrun : ofConcat? c g concat with
    | ok found => exact .inl ⟨found, rfl⟩
    | error fault =>
      exact .inr ⟨fault, rfl, ofConcat?_stops orderedGrids_binary hg hacyclic c concat fault hrun⟩
  · exact searchEnds hg hacyclic (Region.closed_of_around hr) hkeys hlayer
  · have haccepted := accepted_of_ofConcat? hplan
    obtain ⟨hids, hparams⟩ := layerParams_eq_ok haccepted.layers
    refine ⟨haccepted.region, hids, _, haccepted.keys, ?_,
      fun e he => ⟨hparams e he, haccepted.balanced he⟩⟩
    refine List.map_snd_zip ?_
    rw [List.length_map, ← haccepted.branches.length_eq, ← haccepted.ranges.length_eq]

def nested : Graph Binary32 :=
  let scalar (x : Rat) : Op Binary32 := .constant (Tensor.scalar (Arithmetic.ofRat x))
  let channels (n : Nat) : List Port := [⟨.f32, some [1, n, 1, 1]⟩]
  Graph.assemble [("x", .parameter, [], channels 1), ("low", scalar 0, [], [⟨.f32, some []⟩]),
    ("high", scalar (51 / 20), [], [⟨.f32, some []⟩]), ("half", scalar (51 / 40), [], [⟨.f32, some []⟩]),
    ("wide", .fakeQuantize 256, [⟨0, 0⟩, ⟨1, 0⟩, ⟨2, 0⟩, ⟨1, 0⟩, ⟨2, 0⟩], channels 1),
    ("narrow", .fakeQuantize 256, [⟨0, 0⟩, ⟨1, 0⟩, ⟨3, 0⟩, ⟨1, 0⟩, ⟨3, 0⟩], channels 1),
    ("inner", .concat 1, [⟨4, 0⟩, ⟨5, 0⟩], channels 2), ("pool", .maxPool, [⟨6, 0⟩], channels 2),
    ("outer", .concat 1, [⟨7, 0⟩, ⟨4, 0⟩, ⟨5, 0⟩], channels 4), ("y", .result, [⟨8, 0⟩], [])]

theorem planning_ends_of_nested :
    nested.WellFormed ∧ nested.Acyclic ∧
      ∃ plan, ofConcat? (.start .default) nested 8 = .ok (some plan) ∧
        plan.region = ⟨[8, 6], [6, 7, 8], [4, 5]⟩ ∧
        plan.layers.map (fun e => (e.1, e.2.scales.length)) = [(6, 2), (7, 2), (8, 4)] ∧
        (∀ e ∈ plan.layers, e.2.scales.length = e.2.zeroPoints.length) ∧
        ∀ known : List (NodeId × ChannelParams Binary32), known.map Prod.fst = [4, 5] →
          ∀ layer ∈ [6, 7, 8], SearchEnds nested ⟨[8, 6], [6, 7, 8], [4, 5]⟩ known layer := by
  have hg : nested.WellFormed := (Graph.assemble_ordered _).1
  have hacyclic : nested.Acyclic := Graph.assemble_acyclic _
  have hanswer : (ofConcat? (.start .default) nested 8).map (Option.map fun plan =>
      (plan.region, plan.layers.map fun e => (e.1, e.2.scales.length))) =
        .ok (some (⟨[8, 6], [6, 7, 8], [4, 5]⟩, [(6, 2), (7, 2), (8, 4)])) := by
    decide +kernel
  obtain ⟨found, hplan, hfound⟩ := except_map_eq_ok.mp hanswer
  obtain ⟨plan, rfl, hfacts⟩ := Option.map_eq_some_iff.mp hfound
  obtain ⟨hregion, hlayers⟩ := Prod.mk.inj hfacts
  obtain ⟨-, hends, hplans⟩ := planning_ends hg hacyclic (.start .default) 8
  obtain ⟨haround, -, known, -, -, hparams⟩ := hplans plan hplan
  exact ⟨hg, hacyclic, plan, hplan, hregion, hlayers, fun e he => (hparams e he).2,
    hends _ (hregion ▸ haround)⟩

end ConcatPlan

end LowPrecision
