import LowPrecision.Proofs.Rewrite.ConfinedRegions

namespace LowPrecision

variable {α β : Type} {l : Limits} {g₀ g : Graph α} {id : NodeId}

theorem Confined.of_constants (h : Confined l g₀ g) {slot : Option Slot} {t : Tensor α}
    (ht : slot.bind g.constant? = some t) : t.Within l := by
  obtain ⟨s, -, ht⟩ := Option.bind_eq_some_iff.mp ht
  exact h.value ht

theorem Face.not_passes_of_fakeQuantize {f : Face α} {levels : Nat} (hop : f.op = .fakeQuantize levels) :
    ¬ f.kind.Passes := by
  rw [show f.kind = .fakeQuantize from congrArg Op.kind hop]
  decide

namespace Edit

section Kernels

variable [Arithmetic α]

theorem ends_lowerKernel {f : Face α} (hf : g₀.face? id = some f)
    (hkind : f.kind = .matMul ∨ f.kind = .convolution ∨ f.kind = .groupConvolution) (operands : List Slot)
    {scale : Tensor α} (hscale : scale.Within l) :
    Ends (Confined l g₀) (fun _ => Confined l g₀) (lowerKernel id operands scale) := by
  have hpasses : ¬ f.kind.Passes := by rcases hkind with hk | hk | hk <;> rw [hk] <;> decide
  have hconcat : f.kind ≠ .concat := by rcases hkind with hk | hk | hk <;> rw [hk] <;> decide
  rw [lowerKernel]
  apply (ends_node id).bind
  intro n
  apply (ends_port ⟨id, 0⟩).bind
  intro port
  have hface : ∀ g, (Confined l g₀ g ∧ g.node? id = some n) ∧ g.port? ⟨id, 0⟩ = some port →
      Confined l g₀ g ∧ (Face.mk n.op operands [port.withType .f32] none).Within l := by
    rintro g ⟨⟨hg, hn⟩, hport⟩
    have hnode : g.face? id = some n.face := Graph.face?_eq_some.mpr ⟨n, hn, rfl⟩
    refine ⟨hg, (hg.within id n.face hnode).of_ports rfl
      (fun p hp => ⟨port, Graph.mem_ports hnode hport, ?_⟩) ?_⟩
    · obtain rfl := List.mem_singleton.mp hp
      rfl
    · exact fun hk => absurd ((congrArg Op.kind (hg.alike hf hnode).op).symm.trans hk) hconcat
  refine Ends.given hface fun hwithin => ?_
  apply (ends_addNode hwithin).bind
  intro lowered
  apply (ends_setRelaxed _ _).bind
  intro _
  apply ((ends_insert _ _ ⟨hscale, fun _ h => by cases h⟩ _).discard fun _ _ h => h).bind
  intro _
  exact ends_replaceNode hf hpasses _

theorem ends_moveDequantization (id : NodeId) (chain : Dequantization α) {params : AffineParams α}
    (hparams : params.Within l) (updatePrecision : Bool) :
    Ends (Confined l g₀) (fun _ => Confined l g₀) (moveDequantization id chain params updatePrecision) := by
  have houtputs : ∀ (n : Node α) (type : ElementType), Ends (Confined l g₀) (fun _ => Confined l g₀) (do
      (List.range n.outputs.length).forM fun index => do
        let readers ← Edit.read (·.readers ⟨id, index⟩)
        Edit.ofGraph (Edit.step (·.setOutputType ⟨id, index⟩ type))
        if !readers.isEmpty then
          discard (Dequantization.insert ⟨id, index⟩ readers params n.name)
      Edit.change (·.removeDead [chain.output.node])) := by
    intro n type
    refine Ends.bind (.forM fun index _ => ?_) fun _ => ends_removeDead [chain.output.node]
    apply (ends_read _).left.bind
    intro readers
    apply (ends_setOutputType _ type).bind
    intro _
    split
    · exact (ends_insert _ _ hparams _).discard fun _ _ h => h
    · exact .pure fun _ h => h
  rw [moveDequantization]
  apply (ends_port chain.data).left.bind
  intro port
  dsimp only
  generalize (if updatePrecision then port.elementType else .f32) = type
  apply (ends_node id).left.bind
  intro n
  apply (ends_setInput id 0 chain.data).bind
  intro _
  split
  · exact (ends_setRelaxed _ _).bind fun _ => houtputs n type
  · exact houtputs n type

end Kernels

section Fusions

theorem ends_convertFusion {m : NodeMatch} {f : Face α} (hf : g₀.face? m.node = some f)
    (hkind : f.kind = .add ∨ f.kind = .multiply ∨ f.kind = .subtract) :
    Ends (Confined l g₀) (fun _ => Confined l g₀) (ConvertFusion.apply m) := by
  have hpasses : ¬ f.kind.Passes := by rcases hkind with hk | hk | hk <;> rw [hk] <;> decide
  apply (ends_read _).left.bind
  intro found
  cases found with
  | none => exact .pure fun _ h => h
  | some candidate =>
    apply (ends_node m.node).bind
    intro n
    have hface : ∀ g, Confined l g₀ g ∧ g.node? m.node = some n → Confined l g₀ g ∧
        (Face.mk n.op (n.inputs.set candidate.1 candidate.2) (n.outputs.map Wire.port) none).Within l :=
      fun g ⟨hg, hn⟩ => ⟨hg, (hg.within m.node n.face (Graph.face?_eq_some.mpr ⟨n, hn, rfl⟩)).of_ports rfl
        (fun p hp => ⟨p, hp, rfl⟩) fun _ => List.length_set⟩
    refine Ends.given hface fun hwithin => ?_
    apply (ends_addNode hwithin).bind
    intro fused
    apply (ends_setRelaxed _ _).bind
    intro _
    apply (ends_replaceNode hf hpasses _).bind
    intro _
    exact .pure fun _ h => h

theorem ends_sanitization [Scalar α] {m : NodeMatch} {f : Face α} (hf : g₀.face? m.node = some f)
    (hkind : f.kind = .constant) :
    Ends (Confined l g₀) (fun _ => Confined l g₀) (Sanitize.apply m) := by
  have hpasses : ¬ f.kind.Passes := by rw [hkind]; decide
  apply (ends_read _).bind
  intro found
  cases found with
  | none => exact .pure fun _ h => h.1
  | some value =>
    have hvalue : ∀ g, Confined l g₀ g ∧ some value = Sanitize.constant? g m →
        Confined l g₀ g ∧ value.Within l := by
      rintro g ⟨hg, hfound⟩
      obtain ⟨old, data, hold, hdata, rfl⟩ := Sanitize.constant?_eq_some hfound.symm
      refine ⟨hg, (hg.value hold).of_data ?_⟩
      rw [sanitize] at hdata
      split at hdata <;> cases hdata
      exact List.length_map _
    refine Ends.given hvalue fun hwithin => ?_
    apply (ends_node m.node).left.bind
    intro n
    apply (ends_port ⟨m.node, 0⟩).left.bind
    intro port
    apply (ends_addConstant hwithin _).bind
    intro constant
    apply (ends_replaceNode hf hpasses _).bind
    intro _
    exact .pure fun _ h => h

theorem ends_foldConvert {f : Face α} (hf : g₀.face? id = some f) (hkind : f.kind = .convert) :
    Ends (Confined l g₀) (fun _ => Confined l g₀) (FoldConvert.apply id) := by
  have hpasses : ¬ f.kind.Passes := by rw [hkind]; decide
  rw [FoldConvert.apply]
  apply (ends_node id).left.bind
  intro n
  split
  · apply (ends_read _).bind
    intro found
    cases found with
    | none => exact .pure fun _ h => h.1
    | some value =>
      refine Ends.given (fun g h => ⟨h.1, h.1.of_constants h.2.symm⟩) fun hwithin => ?_
      apply (ends_addConstant hwithin _).bind
      intro folded
      apply (ends_replaceNode hf hpasses _).bind
      intro _
      exact .pure fun _ h => h
  · exact .pure fun _ h => h

theorem ends_bound (hg : Confined l g₀ g₀) {value : Tensor α} (hvalue : value.Within l)
    (fakeQuantize : NodeId) (index : Nat) (f : α → α → α) :
    Ends (· = g₀) (fun bound g => g = g₀ ∧ bound.Within l) (do
      match ← Edit.read fun g => (g.input? fakeQuantize index).bind g.constant? with
      | some bound => Edit.attempt fun _ => ExceptT.adapt .tensor (bound.broadcastZip value f)
      | none => throw (.notQuantizable fakeQuantize) : Edit α TransformError (Tensor α)) := by
  apply (ends_read _).bind
  intro bound
  cases bound with
  | none => exact .throw _
  | some bound =>
    have hbound : ∀ g, g = g₀ ∧ some bound = (g.input? fakeQuantize index).bind g.constant? →
        g = g₀ ∧ bound.Within l := by
      rintro g ⟨rfl, hread⟩
      exact ⟨rfl, hg.of_constants hread.symm⟩
    refine Ends.given hbound fun hwithin => ends_attempt fun _ _ => ?_
    exact (Tensor.broadcastZip_yields hwithin hvalue f).adapt

theorem ends_rangeFusion (hg : Confined l g₀ g₀) {k : Face α} (hk : g₀.face? id = some k)
    (hkind : k.kind = .subtract ∨ k.kind = .multiply) (f : α → α → α) :
    Ends (· = g₀) (fun _ => Confined l g₀) (RangeFusion.apply id f) := by
  have hpasses : ¬ k.kind.Passes := by rcases hkind with hk | hk <;> rw [hk] <;> decide
  apply (ends_read _).bind
  intro found
  cases found with
  | none => exact .pure fun _ h => h.1 ▸ hg
  | some source =>
    obtain ⟨fakeQuantize, value⟩ := source
    have hsource : ∀ g, g = g₀ ∧ some (fakeQuantize, value) = RangeFusion.source? g id →
        g = g₀ ∧ RangeFusion.source? g₀ id = some (fakeQuantize, value) := by
      rintro g ⟨rfl, hfound⟩
      exact ⟨rfl, hfound.symm⟩
    refine Ends.given hsource fun hfound => ?_
    obtain ⟨s, -, hs⟩ := Option.bind_eq_some_iff.mp (RangeFusion.value_of_source? hfound)
    obtain ⟨n, -, hn, hquantizer, -, ⟨low, hlow⟩, -⟩ := RangeFusion.source?_eq_some hfound
    obtain ⟨levels, hop⟩ := Op.exists_levels hquantizer
    obtain ⟨slot, hslot, -⟩ := Option.bind_eq_some_iff.mp hlow
    have hinputs : 3 ≤ n.inputs.length := Nat.le_of_lt (List.getElem?_eq_some_iff.mp hslot).1
    refine (ends_bound hg (hg.constantValue hs) fakeQuantize 3 f).bind fun low => .of_fact fun hlow => ?_
    refine (ends_bound hg (hg.constantValue hs) fakeQuantize 4 f).bind fun high => .of_fact fun hhigh => ?_
    refine Ends.weaken (p := Confined l g₀) ?_ (fun _ hsame => hsame ▸ hg) fun _ _ h => h
    apply (ends_port ⟨id, 0⟩).left.bind
    intro port
    apply (ends_node fakeQuantize).left.bind
    intro m
    have hface : g₀.face? fakeQuantize = some n.face := Graph.face?_eq_some.mpr ⟨n, hn, rfl⟩
    apply (ends_addFakeQuantize hface hop hinputs hlow hhigh _).bind
    intro fused
    apply (ends_replaceNode hk hpasses fused).bind
    intro _
    apply (ends_rename fused m.name).bind
    intro _
    exact .pure fun _ h => h

end Fusions

end Edit

namespace Rewrite

variable {p : Graph α → Prop} {post : β → Graph α → Prop}

theorem ends_edit {e : Edit α TransformError β} (h : Ends p post e) :
    Ends (fun s : Session α => p s.graph) (fun b s => post b s.graph) (edit e) := by
  intro s hs
  obtain ⟨r, g', hexec, hpost⟩ := h s.graph hs
  exact ⟨r, { s with graph := g' }, exec_edit_eq.mpr ⟨hexec, rfl⟩, hpost⟩

theorem ends_context : Ends (fun s : Session α => p s.graph) (fun _ s => p s.graph) context :=
  fun s hs => ⟨_, s, rfl, fun _ _ => hs⟩

theorem ends_changeContext {f : Context → Context} :
    Ends (fun s : Session α => p s.graph) (fun _ s => p s.graph) (changeContext f) :=
  fun _ hs => ⟨_, _, rfl, fun _ _ => hs⟩

theorem ends_order (hp : ∀ g, p g → g.WellFormed) :
    Ends (fun s : Session α => p s.graph) (fun _ s => p s.graph)
      (editGraph (Edit.attempt Graph.topologicalOrder)) := by
  have hanswers : ∀ g : Graph α, p g → g.topologicalOrder.Yields fun _ => True := fun g hg =>
    (Graph.topologicalOrder_answers (hp g hg)).elim (fun ⟨_, h⟩ => ⟨_, h, fun _ _ => trivial⟩)
      fun h => ⟨_, h, fun _ _ => trivial⟩
  exact ends_edit (Edit.ends_attempt hanswers).adapt.left

end Rewrite

section Decomposition

open Decomposition

variable [Scalar α]

theorem affineParams_yields {shape : List Nat} (h : l.Allows shape) (params : List (ScaleZeroPoint α)) :
    (affineParams shape params).Yields (AffineParams.Within l) := by
  apply (layOut_yields h _).bind
  intro scale hscale
  dsimp only
  split
  · refine Attempt.Yields.bind (p := fun zeroPoint : Option (Tensor α) =>
        ∀ z, zeroPoint = some z → z.Within l)
      (.map ((layOut_yields h _).imp fun laid hlaid z hz => ?_)) fun zeroPoint hzero =>
        .pure ⟨hscale.toScalar, hzero⟩
    exact Option.some.inj hz ▸ hlaid.toScalar
  · exact .pure ⟨hscale.toScalar, fun _ hnone => by cases hnone⟩

theorem foldWeights_yields {grid : Grid α} (hgrid : grid.low ≤ grid.high) {r : Ranges α}
    (hlevels : isSupportedLevels r.levels = true) {params : List (ScaleZeroPoint α)}
    (hparams : params.length ≤ l.extent) {weights : Tensor α} (hweights : weights.Within l) (name : String)
    (lows highs : List α) :
    (foldWeights name r grid lows highs params weights).Yields (Tensor.Within l) := by
  have hchannels := Nat.le_trans hparams l.extent_le
  rw [foldWeights]
  refine .bind (.lift (Tensor.channelValues_finds r.inputLow hchannels)) fun inputLow _ => ?_
  refine .bind (.lift (Tensor.channelValues_finds r.inputHigh hchannels)) fun inputHigh _ => ?_
  split
  · refine .bind (.mapM fun entry _ => ?_) fun folded _ => (Tensor.make_yields hweights.shape folded).adapt
    dsimp only
    split
    · exact .lift ((foldWeight_ok hgrid hlevels _ _).imp fun _ h => ⟨h, trivial⟩)
    · exact .throw _
  · exact .throw _

namespace Edit

structure Lowers (l : Limits) (g₀ : Graph α) (id : NodeId) (p : Decomposition.Lowering α) : Prop where
  face : ∃ f, g₀.face? id = some f ∧ f.op = .fakeQuantize p.ranges.levels ∧ 3 ≤ f.inputs.length
  levels : isSupportedLevels p.ranges.levels = true
  grid : p.grid.low ≤ p.grid.high
  params : p.params.length ≤ l.extent
  shape : l.Allows p.ranges.boundsShape

theorem ends_addSource {p : Decomposition.Lowering α} (h : Lowers l g₀ id p) (name : String)
    (type : ElementType) {weights : Option (Tensor α)} (hweights : ∀ w, weights = some w → w.Within l) :
    Ends (Confined l g₀) (fun _ => Confined l g₀) (addSource id name p type weights) := by
  cases weights with
  | some weights =>
    refine (ends_attempt fun _ _ => ?_).bind fun folded => .of_fact fun hfolded =>
      ends_addConstant hfolded type
    exact foldWeights_yields h.grid h.levels h.params (hweights weights rfl) _ _ _
  | none =>
    obtain ⟨f, hf, hop, hinputs⟩ := h.face
    have hbound : ∀ values : List α, Ends (Confined l g₀) (fun t g => Confined l g₀ g ∧ t.Within l)
        (Edit.attempt fun _ => ExceptT.adapt .tensor do
          layOut p.ranges.boundsShape (← quantizeBounds p.grid p.params values) :
            Edit α TransformError (Tensor α)) := fun values => ends_attempt fun _ _ =>
      (Attempt.Yields.bind (.lift ((quantizeBounds_ok h.grid p.params values).imp fun _ h => ⟨h, trivial⟩))
        fun quantized _ => layOut_yields h.shape quantized).adapt
    refine (hbound p.lows).bind fun low => .of_fact fun hlow => ?_
    refine (hbound p.highs).bind fun high => .of_fact fun hhigh => ?_
    exact .map (ends_addFakeQuantize hf hop hinputs hlow hhigh type)

theorem ends_lower {p : Decomposition.Lowering α} (h : Lowers l g₀ id p) {affine : AffineParams α}
    (haffine : affine.Within l) (type : ElementType) :
    Ends (Confined l g₀) (fun _ => Confined l g₀) (lower id p affine type) := by
  obtain ⟨f, hf, hop, -⟩ := h.face
  have hpasses := Face.not_passes_of_fakeQuantize hop
  apply (ends_node id).left.bind
  intro n
  split
  · next data _ =>
    apply (ends_read (·.constant? data)).bind
    intro weights
    have hconstant : ∀ g, Confined l g₀ g ∧ weights = g.constant? data →
        Confined l g₀ g ∧ ∀ w, weights = some w → w.Within l :=
      fun g ⟨hg, hread⟩ => ⟨hg, fun w hw => hg.value (hread.symm.trans hw)⟩
    refine Ends.given hconstant fun hweights => ?_
    apply (ends_addSource h n.name type hweights).bind
    intro source
    refine Ends.bind ?_ fun chain => .pure fun _ h => h
    apply (ends_insert source _ haffine n.name).bind
    intro chain
    apply (ends_replaceNode hf hpasses _).bind
    intro _
    exact .pure fun _ h => h
  · exact .throw _

end Edit

theorem ends_gridOf (hordered : OrderedGrids α) (r : Ranges α) (lows highs : List α) :
    Ends (· = g₀) (fun grid g => g = g₀ ∧ grid.low ≤ grid.high ∧
      (Scalar.widen grid.low : Scalar.Wide α) ≤ Scalar.widen grid.high) (gridOf id r lows highs) := by
  have hselect : Ends (· = g₀) (fun found g => g = g₀ ∧
      (Grid.select lows highs r.levels (Markup.allowedPrecisions g₀ id)).run = .ok (.ok found))
      (Edit.attempt fun g => Grid.select lows highs r.levels (Markup.allowedPrecisions g id)) := by
    refine Edit.ends_attempt fun g hg => ?_
    obtain ⟨found, hfound⟩ :=
      Markup.select_answers hordered lows highs r.levels (Markup.allowedPrecisions g id)
    subst hg
    exact ⟨found, hfound, fun b hb => hfound.trans (congrArg Except.ok hb)⟩
  refine hselect.bind fun found => .of_fact fun hfound => ?_
  cases found with
  | none => exact .throw _
  | some grid => exact .pure fun _ hsame => ⟨hsame, hordered _ _ _ _ (bounds_of_select hfound)⟩

theorem ends_decompose (hordered : OrderedGrids α) (hg : Confined l g₀ g₀) {r : Ranges α}
    (hr : Ranges.ofNode g₀ id = .ok r) (hlayout : r.hasSupportedLayout g₀ id = true) :
    Ends (fun s : Session α => s.graph = g₀) (fun _ s => Confined l g₀ s.graph) (decompose id) := by
  obtain ⟨n, _, _, _, _, _, _, hn, hop, hin, -, -, -, -, -, hsize, hlevels⟩ := Ranges.ofNode_eq_ok.mp hr
  have hcount : r.outputLow.size ≤ l.extent :=
    (hg.size_of_layout hr hlayout (by simp [Ranges.tensors])).2.trans l.channels_le
  rintro s rfl
  rw [decompose, exec_bind_ok (Rewrite.exec_edit_ofExcept_eq_ok.mpr ⟨hr, rfl⟩),
    exec_bind_ok (exec_lift_eq_ok.mpr ⟨Ranges.outputBounds_eq hsize, rfl⟩)]
  refine (?_ : Ends (fun t : Session α => t.graph = s.graph) (fun _ t => Confined l s.graph t.graph) _) s rfl
  refine (Rewrite.ends_edit (ends_gridOf hordered r _ _)).bind fun grid =>
    .of_fact fun hselected => ?_
  obtain ⟨hgrid, hwide⟩ := hselected
  obtain ⟨params, hparams⟩ := channelParams_ok hwide r.outputLow.data r.outputHigh.data
  have hlength : params.length ≤ l.extent := by
    rw [← (except_mapM_eq_ok.mp hparams).length_eq, List.length_zip]
    exact Nat.le_trans (Nat.min_le_left _ _) hcount
  refine (Ends.lift (q := fun params => params.length ≤ l.extent) ⟨params, hparams, hlength⟩).bind
    fun params => .of_fact fun hlength => ?_
  apply (Rewrite.ends_changeContext (p := (· = s.graph))).bind
  intro _
  have haffine : Ends (· = s.graph) (fun affine g => g = s.graph ∧ affine.Within l) (Edit.attempt fun _ =>
      ExceptT.adapt TransformError.tensor (affineParams r.boundsShape params)) :=
    Edit.ends_attempt fun _ _ => (affineParams_yields (hg.boundsShape hr) params).adapt
  refine (Rewrite.ends_edit haffine).bind fun affine => .of_fact fun hwithin => ?_
  apply (Rewrite.ends_context (p := (· = s.graph))).bind
  intro c
  have hlowers : Edit.Lowers l s.graph id ⟨r, r.outputLow.data, r.outputHigh.data, grid, params⟩ :=
    ⟨⟨n.face, Graph.face?_eq_some.mpr ⟨n, hn, rfl⟩, hop, by simp [Node.face, hin]⟩, hlevels, hgrid,
      hlength, hg.boundsShape hr⟩
  refine Ends.weaken (p := fun t : Session α => Confined l s.graph t.graph) ?_ (fun t ht => ht ▸ hg)
    fun _ _ h => h
  apply (Rewrite.ends_edit (Edit.ends_lower hlowers hwithin _)).bind
  intro _
  exact (Rewrite.ends_changeContext (p := Confined l s.graph)).bind fun _ => .pure fun _ h => h

end Decomposition

namespace ConcatPlan

variable {type : ElementType}

theorem ends_lowerBoundary {branches : List (NodeId × Branch α)}
    (h : ∀ b ∈ branches, IsBoundary g₀ b.1 ∧ b.2.Within l) :
    Ends (fun s : Session α => Confined l g₀ s.graph)
      (fun lowered s => Confined l g₀ s.graph ∧ ∀ e ∈ lowered, e.2.2.Within l)
      (lowerBoundary type branches) := by
  induction branches with
  | nil => exact .pure fun _ hs => ⟨hs, fun _ he => absurd he List.not_mem_nil⟩
  | cons b rest ih =>
    obtain ⟨id, branch⟩ := b
    obtain ⟨⟨f, levels, hf, hop, hinputs⟩, hbranch⟩ := h (id, branch) List.mem_cons_self
    have hpasses := Face.not_passes_of_fakeQuantize hop
    rw [lowerBoundary]
    apply (Rewrite.ends_edit (Edit.ends_node id).left).bind
    intro n
    refine (Rewrite.ends_edit (Edit.ends_addFakeQuantize hf hop hinputs hbranch.low hbranch.high type)).bind
      fun lowered => ?_
    apply (Rewrite.ends_edit (Edit.ends_replaceNode hf hpasses lowered)).bind
    intro _
    apply (Rewrite.ends_changeContext (p := Confined l g₀)).bind
    intro _
    refine (ih fun c hc => h c (List.mem_cons_of_mem _ hc)).bind fun others => .pure fun _ hs => ?_
    exact ⟨hs.1, List.forall_mem_cons.mpr ⟨hbranch.params, hs.2⟩⟩

theorem ends_retypeLayers (type : ElementType) (layers : List NodeId) :
    Ends (Confined l g₀) (fun _ => Confined l g₀) (retypeLayers (α := α) type layers) := by
  refine .forM fun id _ => ?_
  apply (Edit.ends_node id).left.bind
  intro _
  refine .forM fun _ _ => ?_
  exact Edit.ends_setOutputType _ type

variable [Scalar α]

theorem ends_dequantizeBehind (inside : Region) (id : NodeId) {p : ChannelParams α} (hp : p.Within l) :
    Ends (Confined l g₀) (fun _ => Confined l g₀) (dequantizeBehind inside id p) := by
  refine (Edit.ends_node id).left.bind fun n => .forM fun index _ => ?_
  apply (Edit.ends_read _).left.bind
  intro readers
  split
  · refine (Edit.ends_port_within _).bind fun port => .of_fact fun hport => ?_
    refine (Ends.lift (hp.dequantization_ok hport)).bind fun params => .of_fact fun hparams => ?_
    exact (Edit.ends_insert _ _ hparams _).discard fun _ _ h => h
  · exact .pure fun _ h => h

theorem ends_apply {plan : ConcatPlan α} (hplan : plan.Within l)
    (hboundary : ∀ id ∈ plan.region.boundary, IsBoundary g₀ id) :
    Ends (fun s : Session α => Confined l g₀ s.graph) (fun _ s => Confined l g₀ s.graph) (apply plan) := by
  rw [apply]
  apply (Rewrite.ends_context (p := Confined l g₀)).bind
  intro c
  have hbranches : ∀ b ∈ plan.region.boundary.zip plan.branches, IsBoundary g₀ b.1 ∧ b.2.Within l :=
    fun b hb => ⟨hboundary b.1 (List.of_mem_zip hb).1, hplan.branches b.2 (List.of_mem_zip hb).2⟩
  refine (ends_lowerBoundary hbranches).bind fun lowered => .of_fact fun hlowered => ?_
  have hknown : ∀ e ∈ plan.layers ++ lowered.map Prod.snd, e.2.Within l := by
    intro e he
    rcases List.mem_append.mp he with hlayer | hbound
    · exact hplan.layers e hlayer
    · obtain ⟨entry, hentry, rfl⟩ := List.mem_map.mp hbound
      exact hlowered entry hentry
  apply (Rewrite.ends_order fun _ hg => hg.wellFormed).bind
  intro order
  apply (Rewrite.ends_edit (ends_retypeLayers _ _)).bind
  intro _
  refine Ends.bind (.forM fun id _ => ?_) fun _ => .forM fun entry _ => ?_
  · split
    · next p hfind =>
      exact Rewrite.ends_edit (ends_dequantizeBehind _ id (hknown _ (List.mem_of_find?_eq_some hfind)))
    · exact .pure fun _ hs => hs
  · exact Rewrite.ends_changeContext (p := Confined l g₀)

end ConcatPlan

namespace Rule

variable {s : Session α} {rule : Rule} {m : NodeMatch}

theorem ends_withPlan {p : Graph α → Prop} {plan : β} {f : β → Rewrite α Unit}
    (h : Ends (fun s : Session α => p s.graph) (fun _ s => p s.graph) (f plan)) :
    Ends (fun s : Session α => p s.graph) (fun _ s => p s.graph) (withPlan (some plan) f) := by
  apply h.bind
  intro _
  exact .pure fun _ hs => hs

theorem exists_plan {p : β → Prop} {x : Checked (Option β)} (h : Checked.Finds p x)
    (hcheck : (do return (← x).isSome : Checked Bool) = .ok true) :
    ∃ plan, x = .ok (some plan) ∧ p plan := by
  obtain ⟨plan, hplan⟩ := checked_isSome hcheck
  obtain ⟨found, hfound, hall⟩ := h
  cases hplan.symm.trans hfound
  exact ⟨plan, hplan, hall plan rfl⟩

theorem apply_ends [Scalar α] (hordered : OrderedGrids α) (hs : Confined l s.graph s.graph)
    (hacyclic : s.graph.Acyclic) (hm : rule.pattern.matchAt s.graph id = some m)
    (hcan : rule.canApply s.context s.graph m = .ok true) :
    ∃ r s', exec (rule.apply m) s = .ok (r, s') ∧ ∀ b, r = .ok b → Confined l s.graph s'.graph := by
  obtain ⟨n, hn, hkind, rfl⟩ := Pattern.matchAt_eq_some hm
  have hface : s.graph.face? id = some n.face := Graph.face?_eq_some.mpr ⟨n, hn, rfl⟩
  rw [apply, exec_bind_ok (Rewrite.exec_graph s), exec_bind_ok (Rewrite.exec_context s)]
  cases rule with
  | decomposition =>
    obtain ⟨r, hr, hlayout, -⟩ := Decomposition.canApply_eq_true hcan
    exact (((ends_decompose hordered hs hr hlayout).discard fun _ _ h => h).bind
      fun _ => .pure fun _ h => h) s rfl
  | convertFusion =>
    have harithmetic : n.kind = .add ∨ n.kind = .multiply ∨ n.kind = .subtract := by
      simpa [pattern] using hkind
    exact Rewrite.ends_edit (Edit.ends_convertFusion (f := n.face) hface harithmetic) s hs
  | matMul =>
    obtain ⟨plan, hplan, hwithin⟩ := exists_plan (MatMul.plan?_finds hs id) hcan
    rw [exec_bind_ok (exec_lift_eq_ok.mpr ⟨hplan, rfl⟩)]
    exact ends_withPlan (Rewrite.ends_edit (Edit.ends_lowerKernel hface
      (.inl (List.mem_singleton.mp hkind)) plan.operands hwithin)) s hs
  | convolution =>
    have hkernel : n.kind = .convolution ∨ n.kind = .groupConvolution := by simpa [pattern] using hkind
    obtain ⟨plan, hplan, hwithin⟩ := exists_plan (Convolution.plan?_finds hs hface hkernel) hcan
    rw [exec_bind_ok (exec_lift_eq_ok.mpr ⟨hplan, rfl⟩)]
    exact ends_withPlan (Rewrite.ends_edit
      (Edit.ends_lowerKernel hface (.inr hkernel) plan.operands hwithin)) s hs
  | concat =>
    obtain ⟨plan, hplan, hwithin⟩ :=
      exists_plan (ConcatPlan.ofConcat?_finds hordered hs hacyclic s.context id) hcan
    rw [exec_bind_ok (exec_lift_eq_ok.mpr ⟨hplan, rfl⟩)]
    exact ends_withPlan (ConcatPlan.ends_apply hwithin fun b hb =>
      (ConcatPlan.accepted_of_ofConcat? hplan).isBoundary hb) s hs
  | sanitization =>
    exact Rewrite.ends_edit (Edit.ends_sanitization (f := n.face) hface (List.mem_singleton.mp hkind)) s hs
  | depthToSpace =>
    obtain ⟨plan, hplan⟩ := Option.isSome_iff_exists.mp (Except.ok.inj hcan)
    have hwithin := (Layout.of_depthToSpace hplan).within hs (Layout.chain_of_depthToSpace hplan)
    rw [hplan]
    exact ends_withPlan (Rewrite.ends_edit
      (Edit.ends_moveDequantization id plan.chain hwithin _)) s hs
  | transparent =>
    obtain ⟨plan, hplan⟩ := Option.isSome_iff_exists.mp (Except.ok.inj hcan)
    have hwithin := (Layout.of_transparent hplan).within hs (Layout.chain_of_transparent hplan)
    rw [hplan]
    exact ends_withPlan (Rewrite.ends_edit
      (Edit.ends_moveDequantization id plan.chain hwithin _)) s hs
  | foldConvert => exact Rewrite.ends_edit (Edit.ends_foldConvert hface (List.mem_singleton.mp hkind)) s hs
  | fuseSubtract =>
    exact Rewrite.ends_edit (Edit.ends_rangeFusion hs hface (.inl (List.mem_singleton.mp hkind)) _) s rfl
  | fuseMultiply =>
    exact Rewrite.ends_edit (Edit.ends_rangeFusion hs hface (.inr (List.mem_singleton.mp hkind)) _) s rfl

end Rule

end LowPrecision
