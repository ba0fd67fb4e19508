import LowPrecision.Proofs.Markup.Outcomes
import LowPrecision.Proofs.Rewrite.ConfinedPlans

namespace LowPrecision

variable {α : Type} {l : Limits} {g₀ g : Graph α} {id : NodeId}

namespace ChannelParams

structure Within (l : Limits) (p : ChannelParams α) : Prop where
  balanced : p.Balanced
  least : l.least ≤ p.scales.length
  extent : p.scales.length ≤ l.extent

theorem Within.dequantization_ok [Arithmetic α] {p : ChannelParams α} (h : p.Within l) {port : Port}
    (hport : port.Within l) : ∃ a, p.dequantization port = .ok a ∧ a.Within l := by
  refine AffineParams.ofChannels_ok ⟨h.least, h.extent⟩ h.balanced.symm ?_
  rw [Port.rank]
  cases hshape : port.shape with
  | none => exact Nat.zero_le _
  | some shape => exact hport shape hshape

theorem within_of_ofList? [Scalar α] {params : List (ScaleZeroPoint α)} {p : ChannelParams α}
    (h : ofList? params = some p) (hlength : l.least ≤ params.length ∧ params.length ≤ l.extent) :
    p.Within l := by
  cases params with
  | nil => cases h
  | cons first rest =>
    rw [ofList?] at h
    split at h <;> cases h
    · exact ⟨rfl, l.least_le, l.extent_pos⟩
    · refine ⟨?_, ?_, ?_⟩
      · rw [Balanced, List.length_map, List.length_map]
      · rw [List.length_map]
        exact hlength.1
      · rw [List.length_map]
        exact hlength.2

theorem expand_finds {p : ChannelParams α} (hp : p.Balanced) {channels : Nat} (h : channels ≤ l.extent) :
    Checked.Finds (fun q => q.Balanced ∧ q.scales.length = channels) (p.expand channels) := by
  have hreserve := Limits.reserve_ok (Nat.le_trans h l.extent_le)
  rw [expand]
  split
  · rw [Checked.replicate, hreserve, Checked.replicate, hreserve]
    refine .some ⟨?_, List.length_replicate⟩
    rw [Balanced, List.length_replicate, List.length_replicate]
  · split
    · next hlength => exact .some ⟨hp, hlength⟩
    · exact .none

end ChannelParams

structure Branch.Within (l : Limits) (b : Branch α) : Prop where
  low : b.low.Within l
  high : b.high.Within l
  params : b.params.Within l

namespace ConcatPlan

section Branches

variable [Scalar α] {grid : Grid α} {r : Ranges α}

theorem laidOut_finds {shape : List Nat} (hshape : l.Allows shape) (hgrid : grid.low ≤ grid.high)
    {params : List (ScaleZeroPoint α)} (hparams : l.least ≤ params.length ∧ params.length ≤ l.extent)
    (lows highs : List α) (flagged : Nat) :
    Checked.Finds (Branch.Within l) (do
      let lows ← (layOut shape (← quantizeBounds grid params lows)).run
      let highs ← (layOut shape (← quantizeBounds grid params highs)).run
      match lows, highs, ChannelParams.ofList? params with
      | .ok low, .ok high, some p => return some ⟨low, high, p, flagged⟩
      | _, _, _ => return none : Checked (Option (Branch α))) := by
  have hquantized : ∀ values, ∃ quantized, quantizeBounds grid params values = .ok quantized ∧ True :=
    fun values => (quantizeBounds_ok hgrid params values).imp fun _ h => ⟨h, trivial⟩
  refine .step (hquantized lows) fun lows _ => .step (layOut_yields hshape lows) fun low hlow => ?_
  refine .step (hquantized highs) fun highs _ => .step (layOut_yields hshape highs) fun high hhigh => ?_
  split
  · next p hp => exact .some ⟨hlow _ rfl, hhigh _ rfl, ChannelParams.within_of_ofList? hp hparams⟩
  · exact .none

theorem planBranch_finds (h : Confined l g₀ g) (hgrid : grid.low ≤ grid.high)
    (hwide : (Scalar.widen grid.low : Scalar.Wide α) ≤ Scalar.widen grid.high)
    (hr : Ranges.ofNode g id = .ok r) (hlayout : r.hasSupportedLayout g id = true) (shared : Option (α × α)) :
    Checked.Finds (Branch.Within l) (planBranch grid r shared) := by
  obtain ⟨_, _, _, _, _, _, _, -, -, -, -, -, -, -, -, hsize, -⟩ := Ranges.ofNode_eq_ok.mp hr
  have hcount : l.least ≤ r.outputLow.data.length ∧ r.outputLow.data.length ≤ l.extent :=
    (h.size_of_layout hr hlayout (by simp [Ranges.tensors])).imp_right fun hle => hle.trans l.channels_le
  rw [planBranch, Ranges.outputBounds_eq hsize]
  cases shared with
  | none =>
    obtain ⟨params, hparams⟩ := channelParams_ok hwide r.outputLow.data r.outputHigh.data
    have hlength : params.length = r.outputLow.data.length := by
      rw [← (except_mapM_eq_ok.mp hparams).length_eq, List.length_zip]
      exact Nat.min_eq_left hsize.le
    change Checked.Finds _ (channelParams grid r.outputLow.data r.outputHigh.data >>= _)
    rw [hparams]
    exact laidOut_finds (h.boundsShape hr) hgrid (hlength ▸ hcount) _ _ _
  | some interval =>
    obtain ⟨p, hp⟩ := ofInterval_ok hwide interval.1 interval.2
    change Checked.Finds _ (ScaleZeroPoint.ofInterval interval.1 interval.2 grid.low grid.high >>= _)
    rw [hp]
    refine laidOut_finds (h.boundsShape hr) hgrid ?_ _ _ _
    rw [List.length_replicate]
    exact hcount

theorem planBranches_finds {entries : List (Ranges α × Option (α × α))}
    (h : ∀ entry ∈ entries, Checked.Finds (Branch.Within l) (planBranch grid entry.1 entry.2)) :
    Checked.Finds (fun branches => branches.length = entries.length ∧ ∀ b ∈ branches, b.Within l)
      (planBranches grid entries) := by
  induction entries with
  | nil => exact .some ⟨rfl, fun _ hb => absurd hb List.not_mem_nil⟩
  | cons entry entries ih =>
    refine (h entry List.mem_cons_self).bind .none fun branch hbranch => ?_
    refine (ih fun e he => h e (List.mem_cons_of_mem entry he)).map fun branches ⟨hlength, hbranches⟩ => ?_
    exact ⟨by rw [List.length_cons, hlength, List.length_cons],
      List.forall_mem_cons.mpr ⟨hbranch, hbranches⟩⟩

end Branches

section Layers

theorem channels_of_member (h : Confined l g₀ g) {r : Region} (hclosed : r.Closed g) {slot : Slot}
    (hid : slot.node ∈ r.members) {channels : Nat} (hcount : channelCount? g slot = some channels) :
    l.least ≤ channels ∧ channels ≤ l.channels := by
  obtain ⟨p, hp, hcount⟩ := Option.bind_eq_some_iff.mp hcount
  obtain ⟨shape, hshape, hchannels⟩ := Option.bind_eq_some_iff.mp hcount
  obtain ⟨f, hf, -⟩ := Option.bind_eq_some_iff.mp (Graph.port?_eq_face g slot ▸ hp)
  refine (h.within slot.node f hf).channels p shape ?_ (Graph.mem_ports hf hp) hshape channels
    (List.mem_of_getElem? hchannels)
  rcases List.mem_append.mp hid with hlayer | hbound
  · obtain ⟨n, hn, -, hpasses, -⟩ := hclosed.layer slot.node hlayer
    cases (Graph.face?_eq_some.mpr ⟨n, hn, rfl⟩).symm.trans hf
    rcases hpasses with hconcat | hpreserves
    · exact .inr (.inr (.inr (show n.kind.Passes from hconcat ▸ by decide)))
    · exact .inr (.inr (.inr (h.passes_of_preserves hf hpreserves)))
  · obtain ⟨n, hn, hkind⟩ := hclosed.bound slot.node hbound
    cases (Graph.face?_eq_some.mpr ⟨n, hn, rfl⟩).symm.trans hf
    exact .inl hkind

def appendInput (g : Graph α) (joined : Option (ChannelParams α)) (input : Slot × ChannelParams α) :
    Checked (Option (ChannelParams α)) :=
  match joined, channelCount? g input.1 with
  | some joined, some channels => do return (← input.2.expand channels).map joined.append
  | _, _ => return none

theorem appended_none {q : ChannelParams α → Prop} (inputs : List (Slot × ChannelParams α)) :
    Checked.Finds q (inputs.foldlM (appendInput g) none) := by
  induction inputs with
  | nil => exact .none
  | cons _ _ ih => exact ih

theorem appendInput_finds {input : Slot × ChannelParams α} (hinput : input.2.Balanced)
    (hchannels : ∀ c, channelCount? g input.1 = some c → l.least ≤ c ∧ c ≤ l.channels)
    {start : ChannelParams α} (hstart : start.Balanced) :
    Checked.Finds (fun p => p.Balanced ∧ start.scales.length + l.least ≤ p.scales.length ∧
      p.scales.length ≤ start.scales.length + l.channels) (appendInput g (some start) input) := by
  unfold appendInput
  split
  · next joined channels hjoined hcount =>
    obtain rfl := Option.some.inj hjoined
    have hbound := hchannels channels hcount
    refine (ChannelParams.expand_finds hinput (hbound.2.trans l.channels_le)).map
      fun piece ⟨hpiece, hlength⟩ => ?_
    rw [ChannelParams.Balanced] at hstart hpiece
    rw [ChannelParams.Balanced, ChannelParams.append, List.length_append, List.length_append]
    exact ⟨by rw [hstart, hpiece], by omega, by omega⟩
  · exact .none

theorem appended_finds {inputs : List (Slot × ChannelParams α)}
    (h : ∀ i ∈ inputs, i.2.Balanced ∧ ∀ c, channelCount? g i.1 = some c → l.least ≤ c ∧ c ≤ l.channels)
    {start : ChannelParams α} (hstart : start.Balanced) :
    Checked.Finds (fun p => p.Balanced ∧ start.scales.length + inputs.length * l.least ≤ p.scales.length ∧
        p.scales.length ≤ start.scales.length + inputs.length * l.channels)
      (inputs.foldlM (appendInput g) (some start)) := by
  induction inputs generalizing start with
  | nil => exact .some ⟨hstart, by simp, by simp⟩
  | cons input inputs ih =>
    obtain ⟨hbalanced, hchannels⟩ := h input List.mem_cons_self
    rw [List.foldlM_cons]
    refine (appendInput_finds hbalanced hchannels hstart).bind (appended_none inputs)
      fun q ⟨hq, hlow, hup⟩ => ?_
    refine (ih (fun i hi => h i (List.mem_cons_of_mem input hi)) hq).imp fun p ⟨hp, hlow', hup'⟩ => ?_
    rw [List.length_cons, Nat.succ_mul, Nat.succ_mul]
    exact ⟨hp, by omega, by omega⟩

theorem inputParams_finds {of : NodeId → Checked (Option (ChannelParams α))} {slots : List Slot}
    (h : ∀ s ∈ slots, Checked.Finds (ChannelParams.Within l) (of s.node)) :
    Checked.Finds (fun inputs => inputs.map Prod.fst = slots ∧ ∀ i ∈ inputs, i.2.Within l)
      (inputParams of slots) := by
  induction slots with
  | nil => exact .some ⟨rfl, fun _ hi => absurd hi List.not_mem_nil⟩
  | cons slot slots ih =>
    refine (h slot List.mem_cons_self).bind .none fun p hp => ?_
    refine (ih fun s hs => h s (List.mem_cons_of_mem slot hs)).map fun inputs ⟨hslots, hinputs⟩ => ?_
    exact ⟨by rw [List.map_cons, hslots], List.forall_mem_cons.mpr ⟨hp, hinputs⟩⟩

variable [Arithmetic α]

theorem joinParams_finds {inputs : List (Slot × ChannelParams α)} (hinputs : ∀ i ∈ inputs, i.2.Within l)
    (hchannels : ∀ i ∈ inputs, ∀ c, channelCount? g i.1 = some c → l.least ≤ c ∧ c ≤ l.channels)
    (hcount : inputs.length * l.channels ≤ l.extent) (axis : Nat) :
    Checked.Finds (ChannelParams.Within l) (joinParams g axis inputs) := by
  cases inputs with
  | nil => exact .none
  | cons head rest =>
    obtain ⟨slot, first⟩ := head
    rw [joinParams]
    split
    · exact .some (hinputs _ List.mem_cons_self)
    · split
      · change Checked.Finds _ (((slot, first) :: rest).foldlM (appendInput g) (some ⟨[], []⟩))
        have hall := appended_finds (g := g) (fun i hi => ⟨(hinputs i hi).balanced, hchannels i hi⟩)
          (show (⟨[], []⟩ : ChannelParams α).Balanced from rfl)
        refine hall.imp fun p hp => ⟨hp.1, Nat.le_trans ?_ hp.2.1, Nat.le_trans hp.2.2 ?_⟩
        · rw [List.length_cons, Nat.succ_mul]
          omega
        · simpa using hcount
      · exact .none

variable {r : Region} {known : List (NodeId × ChannelParams α)} {rank : NodeId → Nat}

theorem paramsOf_finds (h : Confined l g₀ g) (hclosed : r.Closed g) (hrank : g.Ranked rank)
    (hknown : ∀ id ∈ r.boundary, ∃ p, known.find? (·.1 = id) = some p) (hwithin : ∀ e ∈ known, e.2.Within l)
    {depth : Nat} {id : NodeId} (hid : id ∈ r.members) (hdepth : rank id < depth) :
    Checked.Finds (ChannelParams.Within l) (paramsOf g known depth id) := by
  induction depth generalizing id with
  | zero => exact absurd hdepth (Nat.not_lt_zero _)
  | succ depth ih =>
    rw [paramsOf]
    split
    · next b p _ hfind => exact .some (hwithin _ (List.mem_of_find?_eq_some hfind))
    · exact .none
    · next n hfind hn =>
      have hlayer : id ∈ r.layers := (List.mem_append.mp hid).resolve_right fun hb => by
        obtain ⟨p, hp⟩ := hknown id hb
        cases hfind.symm.trans hp
      have hface : g.face? id = some n.face := Graph.face?_eq_some.mpr ⟨n, hn, rfl⟩
      -- The search goes up from a member to others, and each of them has a smaller rank.
      have habove : ∀ s ∈ n.inputs, s.node ∈ r.members ∧ rank s.node < depth := fun s hs => by
        obtain ⟨i, hi⟩ := List.mem_iff_getElem?.mp hs
        have hinput : g.input? id i = some s := Graph.input?_eq_some.mpr ⟨n, hn, hi⟩
        obtain ⟨m, hm⟩ := h.wellFormed.live_of_input hinput
        have hlt := hrank id i s hinput
        exact ⟨hclosed.mem_of_input hlayer hn hs (hm ▸ rfl), by omega⟩
      split
      · next axis hop =>
        have hconcat : n.face.kind = .concat := congrArg Op.kind hop
        refine (inputParams_finds fun s hs => ih (habove s hs).1 (habove s hs).2).bind .none
          fun inputs hread => ?_
        obtain ⟨hslots, hinputs⟩ := hread
        refine joinParams_finds hinputs (fun i hi c hc => ?_) ?_ axis
        · exact channels_of_member h hclosed (habove i.1 (hslots ▸ List.mem_map_of_mem hi)).1 hc
        · rw [← List.length_map (f := Prod.fst), hslots]
          exact (h.within id n.face hface).joined hconcat
      · split
        · next slot hslot =>
          obtain ⟨hmember, hlt⟩ := habove slot (List.mem_of_getElem? hslot)
          exact ih hmember hlt
        · exact .none

theorem layerParams_finds {ids : List NodeId}
    (h : ∀ id ∈ ids, Checked.Finds (ChannelParams.Within l) (paramsOf g known (g.nodes.size + 1) id)) :
    Checked.Finds (fun layers => ∀ e ∈ layers, e.2.Within l) (layerParams g known ids) := by
  induction ids with
  | nil => exact .some fun _ he => absurd he List.not_mem_nil
  | cons id ids ih =>
    refine (h id List.mem_cons_self).bind .none fun p hp => ?_
    refine (ih fun i hi => h i (List.mem_cons_of_mem id hi)).map fun layers hlayers => ?_
    exact List.forall_mem_cons.mpr ⟨hp, hlayers⟩

end Layers

structure Within (l : Limits) (plan : ConcatPlan α) : Prop where
  branches (b : Branch α) : b ∈ plan.branches → b.Within l
  layers (e : NodeId × ChannelParams α) : e ∈ plan.layers → e.2.Within l

theorem exists_known {boundary : List NodeId} {branches : List (Branch α)}
    (h : branches.length = boundary.length) {id : NodeId} (hid : id ∈ boundary) :
    ∃ p, (boundary.zip (branches.map Branch.params)).find? (·.1 = id) = some p := by
  obtain ⟨i, hi, rfl⟩ := List.mem_iff_getElem.mp hid
  have hlt : i < (boundary.zip (branches.map Branch.params)).length := by
    rw [List.length_zip, List.length_map, h, Nat.min_self]
    exact hi
  exact Option.isSome_iff_exists.mp (List.find?_isSome.mpr ⟨_, List.getElem_mem hlt, by simp⟩)

section Search

variable [Scalar α]

theorem ofRegion?_finds (hordered : OrderedGrids α) (h : Confined l g₀ g) (hacyclic : g.Acyclic) {r : Region}
    (hclosed : r.Closed g) (c : Context) (multiChannel : Bool) :
    Checked.Finds (Within l) (ofRegion? c g r multiChannel) := by
  rw [ofRegion?]
  split
  rotate_left
  · exact .none
  next boundary hboundary =>
  split
  · exact .none
  next first firstAllowed rest =>
  have hread := option_mapM_eq_some hboundary
  split
  · exact .none
  refine .step ((Markup.select_answers hordered _ _ _ _).imp fun _ h => ⟨h, h⟩) fun found hselect => ?_
  split
  rotate_left
  · exact .none
  next grid =>
  split
  · exact .none
  obtain ⟨hgrid, hwide⟩ := hordered _ _ _ _ (bounds_of_select hselect)
  dsimp only
  refine (planBranches_finds (l := l) fun entry hentry => ?_).bind .none
    fun branches hplanned => ?_
  · obtain ⟨found, hfound, hr⟩ := List.mem_map.mp (List.of_mem_zip hentry).1
    obtain ⟨i, hi⟩ := List.mem_iff_getElem?.mp hfound
    obtain ⟨id, -, hboundary⟩ := forall₂_getElem? hread.flip hi
    obtain ⟨n, -, -, hnode, hlayout, -⟩ := readBoundary?_eq_some hboundary
    exact planBranch_finds h hgrid hwide (hr ▸ hnode) (hr ▸ hlayout) entry.2
  obtain ⟨hlength, hbranches⟩ := hplanned
  have hcount : branches.length = r.boundary.length := by
    rw [hlength, List.length_zip, List.length_map, List.length_map, ← hread.length_eq, Nat.min_self]
  have hknown : ∀ e ∈ r.boundary.zip (branches.map Branch.params), e.2.Within l := fun e he => by
    obtain ⟨b, hb, hparams⟩ := List.mem_map.mp (List.of_mem_zip he).2
    exact hparams ▸ (hbranches b hb).params
  refine (layerParams_finds fun id hid => ?_).bind .none fun layers hlayers => .some ⟨hbranches, hlayers⟩
  exact paramsOf_finds h hclosed (Graph.ranked_card_sources h.wellFormed hacyclic.not_hasCycle)
    (fun id hid => exists_known hcount hid) hknown (List.mem_append_left _ hid)
    (Nat.lt_succ_of_le (Graph.card_sources_le g id))

theorem ofConcat?_finds (hordered : OrderedGrids α) (h : Confined l g₀ g) (hacyclic : g.Acyclic) (c : Context)
    (concat : NodeId) : Checked.Finds (Within l) (ofConcat? c g concat) := by
  rw [ofConcat?]
  split
  · next region hregion =>
    exact ofRegion?_finds hordered h hacyclic (Region.closed_of_around hregion) c _
  · exact .none

end Search

end ConcatPlan

section Checks

variable [Scalar α]

theorem Decomposition.canApply_ok (hordered : OrderedGrids α) (h : Confined l g₀ g) (hacyclic : g.Acyclic)
    (c : Context) (id : NodeId) : ∃ b, canApply c g id = .ok b := by
  have hdeferred : ∃ deferred, isDeferred c g id = .ok deferred := by
    refine except_anyM_ok (fun concat => ?_) _
    obtain ⟨plan, hplan, -⟩ := ConcatPlan.ofConcat?_finds hordered h hacyclic c concat
    exact ⟨plan.isSome, by rw [hplan]; rfl⟩
  rw [canApply]
  split
  rotate_left
  · exact ⟨_, rfl⟩
  split
  · exact ⟨_, rfl⟩
  split
  rotate_left
  · exact ⟨_, rfl⟩
  next r hr =>
  split
  · exact ⟨_, rfl⟩
  obtain ⟨_, _, _, _, _, _, _, -, -, -, -, -, -, -, -, hsize, -⟩ := Ranges.ofNode_eq_ok.mp hr
  obtain ⟨found, hselect⟩ := Markup.select_answers hordered r.outputLow.data r.outputHigh.data r.levels
    (Markup.allowedPrecisions g id)
  rw [Ranges.outputBounds_eq hsize]
  change ∃ b, ((Grid.select r.outputLow.data r.outputHigh.data r.levels _).run >>= _) = .ok b
  rw [hselect]
  rcases found with _ | _ | grid
  case ok.some =>
    change ∃ b, (if grid.hasZeroPoint && !c.params.supportAsymmetric then pure false
      else do return !(← isDeferred c g id) : Checked Bool) = .ok b
    split
    · exact ⟨_, rfl⟩
    · obtain ⟨deferred, hdeferred⟩ := hdeferred
      exact ⟨!deferred, by rw [hdeferred]; rfl⟩
  all_goals exact ⟨_, rfl⟩

theorem Rule.canApply_ok (hordered : OrderedGrids α) (h : Confined l g₀ g) (hacyclic : g.Acyclic)
    (c : Context) {m : NodeMatch} {rule : Rule} (hm : rule.pattern.matchAt g id = some m) :
    ∃ b, rule.canApply c g m = .ok b := by
  have hsome : ∀ {β : Type} {p : β → Prop} {x : Checked (Option β)}, Checked.Finds p x →
      ∃ b, (do return (← x).isSome : Checked Bool) = .ok b := fun ⟨r, hr, _⟩ => ⟨r.isSome, by rw [hr]; rfl⟩
  obtain ⟨n, hn, hkind, rfl⟩ := Pattern.matchAt_eq_some hm
  cases rule with
  | decomposition => exact Decomposition.canApply_ok hordered h hacyclic c id
  | convertFusion => exact ConvertFusion.canApply_ok hm
  | matMul => exact hsome (MatMul.plan?_finds h id)
  | convolution =>
    have hkernel : n.kind = .convolution ∨ n.kind = .groupConvolution := by simpa [pattern] using hkind
    exact hsome (Convolution.plan?_finds h (Graph.face?_eq_some.mpr ⟨n, hn, rfl⟩) hkernel)
  | concat => exact hsome (ConcatPlan.ofConcat?_finds hordered h hacyclic c id)
  | sanitization | depthToSpace | transparent | foldConvert | fuseSubtract | fuseMultiply => exact ⟨_, rfl⟩

end Checks

end LowPrecision
