import LowPrecision.Proofs.Graph.Succession
import LowPrecision.Proofs.Rewrite.ConfinedRules
import LowPrecision.Proofs.Rewrite.Representation

namespace LowPrecision

open LowPrecision.Graph Decomposition

variable {g₀ g g' : Graph Rat} {s s' : Session Rat} {id : NodeId}

section Elements

variable {grid : Grid Rat} {levels : Nat} {r : Ranges Rat} {params : List (ScaleZeroPoint Rat)}
  {weights folded : Tensor Rat} {name : String}

theorem foldWeight_on_grid (hgrid : Grid.bounds grid.precision levels = .ok (grid.low, grid.high))
    {range : ChannelRange} {q : ScaleZeroPoint Rat} {x v : Rat}
    (h : foldWeight grid levels
      ⟨range.inputLow, range.inputHigh, range.outputLow, range.outputHigh, q⟩ x = .ok v) :
    grid.low ≤ v ∧ v ≤ grid.high ∧ grid.precision.represents v = true := by
  obtain ⟨a, n, first, last, rfl, hn, hstart, hend, hbounds, hfirst, hlast, -⟩ :=
    Grid.bounds_cases hgrid
  have hpoint (y : Rat) : ∃ m : Int, quantizeBound grid q y = .ok (m : Rat) ∧ a ≤ m ∧ m ≤ a + n :=
    ⟨_, quantizeBound_rat hstart hend q y, by rw [nearest, clampInt]; omega,
      by rw [nearest, clampInt]; omega⟩
  obtain ⟨low, hlow, hal, hln⟩ := hpoint range.outputLow
  obtain ⟨high, hhigh, hah, hhn⟩ := hpoint range.outputHigh
  obtain ⟨w, hw, hmin, hmax⟩ := (range.withOutput low high).value_between (by omega : 1 ≤ n) x
  rw [foldWeight_eq hlow hhigh, hw] at h
  obtain rfl : (roundHalfAway w : Rat) = v := Except.ok.inj h
  have hround : a ≤ roundHalfAway w ∧ roundHalfAway w ≤ a + n := by
    refine ⟨le_roundHalfAway (le_trans (le_min ?_ ?_) hmin),
      roundHalfAway_le (le_trans hmax (max_le ?_ ?_))⟩
    · exact Int.cast_le.mpr hal
    · exact Int.cast_le.mpr hah
    · exact Int.cast_le.mpr hln
    · exact Int.cast_le.mpr hhn
  refine ⟨hstart ▸ by exact_mod_cast hround.1, hend ▸ by exact_mod_cast hround.2,
    (ElementType.represents_iff hbounds).mpr ⟨⟨_, rfl⟩, ?_, ?_⟩⟩
  · exact_mod_cast (le_trans hfirst hround.1 : first ≤ roundHalfAway w)
  · exact_mod_cast (le_trans hround.2 hlast : roundHalfAway w ≤ last)

structure Ranges.Covers (r : Ranges Rat) (weights : Tensor Rat) : Prop where
  input : r.inputLow.size = 1 ∨ r.inputLow.size = r.outputLow.size
  channel (i : Nat) : i < weights.size →
    channelOf r.outputLow.size weights.size i < r.outputLow.size

/-- Each weight is folded with the ranges, the scale and the zero point of its channel, and its
integer is one of the grid, which the type of the grid represents. -/
structure FoldsOnto (grid : Grid Rat) (r : Ranges Rat) (affine : AffineParams Rat)
    (weights folded : Tensor Rat) : Prop where
  shape : folded.shape = weights.shape
  size : folded.size = weights.size
  element (i : Nat) (weight : Rat) : weights.data[i]? = some weight → ∃ range q v,
    r.channel (channelOf r.outputLow.size weights.size i) = some range ∧
    ScaleZeroPoint.ofInterval range.outputLow range.outputHigh grid.low grid.high = .ok q ∧
    affine.channel (channelOf r.outputLow.size weights.size i) = some (q.scale, q.zeroPoint) ∧
    foldWeight grid r.levels
      ⟨range.inputLow, range.inputHigh, range.outputLow, range.outputHigh, q⟩ weight = .ok v ∧
    folded.data[i]? = some v ∧ grid.low ≤ v ∧ v ≤ grid.high ∧ grid.precision.represents v = true

theorem FoldsOnto.represents {affine : AffineParams Rat} (h : FoldsOnto grid r affine weights folded) :
    ∀ x ∈ folded.data, grid.precision.represents x = true := by
  intro x hx
  obtain ⟨i, hi⟩ := List.getElem?_of_mem hx
  have hlt : i < weights.size := h.size ▸ (List.getElem?_eq_some_iff.mp hi).1
  obtain ⟨-, -, v, -, -, -, -, hv, -, -, hrepresents⟩ := h.element i _ (List.getElem?_eq_getElem hlt)
  exact Option.some.inj (hv.symm.trans hi) ▸ hrepresents

theorem channelOf_lt_of_atChannel {size i : Nat} {q : ScaleZeroPoint Rat}
    (h : atChannel params (channelOf params.length size i) = some q) :
    channelOf params.length size i < params.length := by
  by_cases hone : params.length = 1
  · rw [channelOf, if_pos hone, hone]
    exact Nat.one_pos
  · rw [atChannel, if_neg hone] at h
    exact (List.getElem?_eq_some_iff.mp h).1

theorem size_of_channelValues {t : Tensor Rat} {count : Nat} {values : List Rat}
    (h : t.channelValues count = .ok (some values)) : t.size = 1 ∨ t.size = count := by
  rcases Tensor.channelValues_eq_ok h with ⟨v, hdata, -⟩ | ⟨hlength, -⟩
  · exact .inl (by rw [Tensor.size, hdata]; rfl)
  · exact .inr hlength

theorem length_of_foldWeights {lows highs : List Rat}
    (h : (foldWeights name r grid lows highs params weights).run = .ok (.ok folded)) :
    folded.size = weights.size := by
  rw [foldWeights] at h
  obtain ⟨inputLow, -, h⟩ := attempt_bind_eq_ok.mp h
  obtain ⟨inputHigh, -, h⟩ := attempt_bind_eq_ok.mp h
  split at h
  · obtain ⟨values, hvalues, h⟩ := attempt_bind_eq_ok.mp h
    obtain ⟨-, rfl⟩ := Tensor.make_eq_ok.mp (attempt_adapt_eq_ok.mp h)
    rw [Tensor.size, ← (attempt_mapM_eq_ok.mp hvalues).length_eq, List.length_zipIdx]
    rfl
  · cases h

theorem covers_of_foldWeights (hlength : params.length = r.outputLow.size)
    (h : (foldWeights name r grid r.outputLow.data r.outputHigh.data params weights).run =
      .ok (.ok folded)) : r.Covers weights := by
  refine ⟨?_, fun i hi => ?_⟩
  · rw [foldWeights] at h
    obtain ⟨inputLow, hlow, h⟩ := attempt_bind_eq_ok.mp h
    obtain ⟨inputHigh, -, h⟩ := attempt_bind_eq_ok.mp h
    split at h
    · exact hlength ▸ size_of_channelValues (attempt_lift_eq_ok.mp hlow)
    · cases h
  · obtain ⟨-, hdata⟩ := foldWeights_run h
    obtain ⟨range, q, v, -, hq, -⟩ := hdata i _ (List.getElem?_eq_getElem hi)
    exact hlength ▸ channelOf_lt_of_atChannel hq

theorem foldsOnto_of_run {p : Decomposition.Lowering Rat} {affine : AffineParams Rat} (hfits : p.Fits affine)
    (hgrid : Grid.bounds p.grid.precision p.ranges.levels = .ok (p.grid.low, p.grid.high))
    (h : (foldWeights name p.ranges p.grid p.lows p.highs p.params weights).run = .ok (.ok folded)) :
    p.ranges.Covers weights ∧ FoldsOnto p.grid p.ranges affine weights folded := by
  have hlength := length_params hfits
  rw [hfits.lows, hfits.highs] at h
  obtain ⟨hshape, hdata⟩ := foldWeights_run h
  refine ⟨covers_of_foldWeights hlength h, hshape, length_of_foldWeights h, fun i weight hi => ?_⟩
  obtain ⟨range, q, v, hrange, hq, hv, hfolded⟩ := hdata i weight hi
  rw [hlength] at hrange hq
  obtain ⟨q', hq', haffine, hinterval⟩ := hfits.channel hrange
  obtain rfl := Option.some.inj (hq.symm.trans hq')
  exact ⟨range, q, v, hrange, hinterval, haffine, hv, hfolded, foldWeight_on_grid hgrid hv⟩

theorem channelValues_answers (t : Tensor Rat) {channels : Nat}
    (h : Checked.reserve channels Tensor.elementWidth = .ok ()) :
    ∃ values, t.channelValues channels = .ok values := by
  rw [Tensor.channelValues]
  split
  · rw [Checked.replicate, h]
    exact ⟨_, rfl⟩
  · exact ⟨_, rfl⟩

theorem foldWeights_answers (hgrid : grid.low ≤ grid.high)
    (hlevels : isSupportedLevels r.levels = true)
    (hreserve : Checked.reserve params.length Tensor.elementWidth = .ok ())
    (hcount : Checked.product weights.shape = .ok weights.size) (name : String) (lows highs : List Rat) :
    ∃ out, (foldWeights name r grid lows highs params weights).run = .ok out := by
  have hyields : (foldWeights name r grid lows highs params weights).Yields fun _ => True := by
    rw [foldWeights]
    refine .bind (.lift ((channelValues_answers r.inputLow hreserve).imp fun _ h => ⟨h, trivial⟩))
      fun inputLow _ => ?_
    refine .bind (.lift ((channelValues_answers r.inputHigh hreserve).imp fun _ h => ⟨h, trivial⟩))
      fun inputHigh _ => ?_
    split
    · refine .bind (.mapM fun entry _ => ?_) fun values _ => ?_
      · dsimp only
        split
        · exact .lift ((foldWeight_ok hgrid hlevels _ _).imp fun _ h => ⟨h, trivial⟩)
        · exact .throw _
      · refine .adapt ?_
        rw [Tensor.make]
        refine .bind (p := fun _ => True) (.lift ⟨_, hcount, trivial⟩) fun size _ => ?_
        split
        · exact .pure trivial
        · exact .throw _
    · exact .throw _
  obtain ⟨out, hout, -⟩ := hyields
  exact ⟨out, hout⟩

theorem foldWeights_fails_of_uncovered (hgrid : grid.low ≤ grid.high) (hlevels : isSupportedLevels r.levels = true)
    (hlength : params.length = r.outputLow.size)
    (hreserve : Checked.reserve r.outputLow.size Tensor.elementWidth = .ok ())
    (hcount : Checked.product weights.shape = .ok weights.size) (huncovered : ¬ r.Covers weights)
    (name : String) :
    ∃ e, (foldWeights name r grid r.outputLow.data r.outputHigh.data params weights).run =
      .ok (.error e) := by
  obtain ⟨out, hout⟩ := foldWeights_answers (r := r) hgrid hlevels (hlength ▸ hreserve) hcount name
    r.outputLow.data r.outputHigh.data
  cases out with
  | error e => exact ⟨e, hout⟩
  | ok folded => exact absurd (covers_of_foldWeights hlength hout) huncovered

end Elements

section Constants

def Face.Storable (f : Face Rat) : Prop :=
  ∀ t p, f.op = .constant t → f.ports[0]? = some p → p.elementType.isLowPrecision = true →
    ∀ x ∈ t.data, p.elementType.represents x = true

theorem Face.stable_storable : Face.Stable Face.Storable := fun _ _ hop hports h t p ht hp =>
  h t p (hop ▸ ht) (hports ▸ hp)

theorem Face.storable_of_kind {f : Face Rat} (h : f.kind ≠ .constant) : f.Storable :=
  fun _ _ ht => absurd (congrArg Op.kind ht) h

theorem Face.storable_constant {t : Tensor Rat} {type : ElementType}
    (h : type.isLowPrecision = true → ∀ x ∈ t.data, type.represents x = true) :
    Face.Storable ⟨.constant t, [], [⟨type, some t.shape⟩], none⟩ := by
  rintro _ p ⟨⟩ ⟨⟩
  exact h

namespace Dequantization

theorem ensures_addZeroPoint (base : String) (zeroPoint : Tensor Rat) (type : ElementType) :
    Ensures (Lineage g₀ Face.Storable) (fun _ => Lineage g₀ Face.Storable) Fatal
      (addZeroPoint base zeroPoint type) := by
  rw [addZeroPoint]
  split
  · next hexact =>
    rw [Bool.and_eq_true, List.all_eq_true] at hexact
    refine (Edit.ensures_addConstant Face.stable_storable (Face.storable_constant
      fun _ => hexact.2)).left.bind fun _ => ?_
    refine (Edit.ensures_addNode Face.stable_storable (Face.storable_of_kind (by rintro ⟨⟩))).left.bind
      fun _ => ?_
    exact .pure fun _ h => h
  · exact (Edit.ensures_addConstant Face.stable_storable (Face.storable_constant (by rintro ⟨⟩))).left

theorem ensures_build_storable (source : Slot) (params : AffineParams Rat) (base : String) :
    Ensures (Lineage g₀ Face.Storable) (fun _ => Lineage g₀ Face.Storable) Fatal
      (build source params base) := by
  have hadd {name : String} {op : Op Rat} {inputs : List Slot} {ports : List Port}
      (hkind : op.kind ≠ .constant) : Ensures (Lineage g₀ Face.Storable)
        (fun _ => Lineage g₀ Face.Storable) Fatal (Edit.addNode name op inputs ports) :=
    (Edit.ensures_addNode Face.stable_storable (Face.storable_of_kind hkind)).left
  apply (Edit.ensures_port source).left.bind
  intro port
  have hconvert : Ensures (Lineage g₀ Face.Storable) (fun _ => Lineage g₀ Face.Storable) Fatal
      (addConvert source port base) := by
    rw [addConvert]
    split
    · exact .pure fun _ h => h
    · exact .map (hadd (by rintro ⟨⟩))
  have hsubtract : ∀ current, Ensures (Lineage g₀ Face.Storable) (fun _ => Lineage g₀ Face.Storable)
      Fatal (addSubtract current port params.zeroPoint base) := by
    intro current
    cases params.zeroPoint with
    | none => exact .pure fun _ h => h
    | some zeroPoint =>
      apply (ensures_addZeroPoint _ _ _).bind
      intro constant
      apply (hadd (by rintro ⟨⟩)).bind
      intro subtract
      exact .pure fun _ h => h
  have hmultiply : ∀ current, Ensures (Lineage g₀ Face.Storable) (fun _ => Lineage g₀ Face.Storable)
      Fatal (addMultiply current port params.scale base) := by
    intro current
    have hscale : Face.Storable ⟨.constant params.scale, [], [⟨.f32, some params.scale.shape⟩], none⟩ :=
      Face.storable_constant (by rintro ⟨⟩)
    apply (Edit.ensures_addConstant Face.stable_storable hscale).left.bind
    intro constant
    apply (hadd (by rintro ⟨⟩)).bind
    intro multiply
    exact .pure fun _ h => h
  apply hconvert.bind
  intro convert
  apply (hsubtract _).bind
  intro subtract
  apply (hmultiply _).bind
  intro multiply
  exact .pure fun _ h => h

theorem ensures_insert_storable (source : Slot) (slots : List Slot) (params : AffineParams Rat)
    (base : String) :
    Ensures (Lineage g₀ Face.Storable) (fun _ => Lineage g₀ Face.Storable) Fatal
      (insert source slots params base) := by
  apply (ensures_build_storable source params base).bind
  intro chain
  apply (Edit.ensures_rewire Face.stable_storable slots chain.output).bind
  intro _
  exact .pure fun _ h => h

end Dequantization

end Constants

section Placing

theorem Graph.Rerouted.live_of_mem {old new v : NodeId} {f : Face Rat} {t : Slot}
    (h : Rerouted (Swap old new) g g') (hf : g.face? v = some f) (ht : t ∈ f.inputs)
    (hne : t.node ≠ old) (hlive : g'.isLive v = true) : g'.isLive t.node = true := by
  obtain ⟨f', hf'⟩ := isLive_iff_face.mp hlive
  obtain ⟨k, hk, hsame⟩ := h.face v f' (lt_size_of_face? hf) hf'
  obtain rfl := Option.some.inj (hk.symm.trans hf)
  obtain ⟨i, hi⟩ := List.getElem?_of_mem ht
  obtain ⟨t', hi', rfl | ⟨hold, -⟩⟩ := hsame.input_old hi
  · obtain ⟨n, hn⟩ := h.wellFormed.live_of_input (by rw [input?_eq_face, hf']; exact hi')
    exact isLive_of_node? hn
  · exact absurd hold hne

theorem Dequantization.Stands.live_data {d : Dequantization Rat} {old new : NodeId} (h : d.Stands g)
    (hr : Rerouted (Swap old new) g g') (hdata : d.data.node ≠ old) (hsteps : ∀ v ∈ d.nodes, v ≠ old)
    (hlive : g'.isLive d.output.node = true) : g'.isLive d.data.node = true := by
  have hconverted : d.converted.node ≠ old := by
    rw [converted]
    cases hc : d.convert with
    | none => exact hdata
    | some c => exact hsteps c (by simp [nodes, hc])
  have hshifted : d.shifted.node ≠ old := by
    rw [shifted]
    cases hz : d.subtract with
    | none => exact hconverted
    | some z => exact hsteps z.1 (by simp [nodes, hz])
  rw [output_eq] at hlive
  have hlive₁ : g'.isLive d.shifted.node = true := by
    cases hm : d.multiply with
    | none => rwa [hm] at hlive
    | some m =>
      obtain ⟨f, b, hf, -, hin, -⟩ := h.multiply m.1 m.2 hm
      rw [hm] at hlive
      exact hr.live_of_mem hf (hin ▸ List.mem_cons_self) hshifted hlive
  have hlive₂ : g'.isLive d.converted.node = true := by
    cases hz : d.subtract with
    | none => rwa [shifted, hz] at hlive₁
    | some z =>
      obtain ⟨f, b, hf, -, hin, -⟩ := h.subtract z.1 z.2 hz
      rw [shifted, hz] at hlive₁
      exact hr.live_of_mem hf (hin ▸ List.mem_cons_self) hconverted hlive₁
  cases hc : d.convert with
  | none => rwa [converted, hc] at hlive₂
  | some c =>
    obtain ⟨f, hf, -, hin⟩ := h.convert c hc
    rw [converted, hc] at hlive₂
    exact hr.live_of_mem hf (hin ▸ List.mem_cons_self) hdata hlive₂

variable {g₁ : Graph Rat} {n : Node Rat} {weights folded : Tensor Rat} {type : ElementType}
  {affine : AffineParams Rat} {d : Dequantization Rat}

theorem folded_of_place (hg : g.WellFormed) (hn : g.node? id = some n)
    (hadded : Added g g₁ ⟨.constant folded, [], [⟨type, some folded.shape⟩], none⟩)
    (hstorable : Face.Storable ⟨.constant folded, [], [⟨type, some folded.shape⟩], none⟩)
    (hrun : exec (place id n (some weights) affine ⟨g.nodes.size, 0⟩) g₁ = .ok (.ok d, g')) :
    d.params = affine ∧ g'.constant? d.data = some folded ∧
      g'.port? d.data = some ⟨type, some folded.shape⟩ ∧ Lineage g Face.Storable g' := by
  have hlineage := (Lineage.refl hg).added Face.stable_storable hadded hstorable
  have hid : id < g.nodes.size := lt_size_of_node? hn
  obtain ⟨g₂, hinsert, hreplace⟩ := place_run hrun
  obtain ⟨-, mid, -, hinserted⟩ := Dequantization.insert_done hadded.wellFormed hinsert
  have hbuilt := hinserted.built
  obtain ⟨⟨m, z⟩, hm, hz⟩ := Option.map_eq_some_iff.mp hbuilt.scale
  have hnew : successor (some weights) ⟨g.nodes.size, 0⟩ d = d.output.node := by
    simp only [successor, hm, Dequantization.output_of_multiply hm]
  rw [hnew] at hreplace
  have hslots : ∀ r ∈ n.readers 0, r.node < g₁.nodes.size := fun r hr => by
    have hread := hg.input_of_readers hn hr
    rw [input?_eq_face] at hread
    obtain ⟨f, hf, -⟩ := Option.bind_eq_some_iff.mp hread
    exact lt_size_of_face? (hadded.old hf)
  have hlineage₂ := (Dequantization.ensures_insert_storable _ _ _ _ g₁ _ g₂ hlineage hinsert).1 d rfl
  have hlineage' := ((Edit.ensures_replaceNode Face.stable_storable id
    (Nat.le_trans hlineage.size hbuilt.new)) g₂ _ g' hlineage₂
      (exec_adapt_eq_ok.mpr hreplace)).1 () rfl
  have hlive := (displaced_of_replaceNode hlineage₂.wellFormed hreplace).stays
  obtain ⟨-, hrerouted, -, -⟩ := replaceNode_rerouted hlineage₂.wellFormed hreplace
  have hstands : d.Stands g₂ := hbuilt.stands g₂ fun v hv _ => hinserted.face_new hslots hv
  have hdata := hstands.live_data hrerouted (by rw [hbuilt.data]; exact Nat.ne_of_gt hid)
    (fun v hv => Nat.ne_of_gt (Nat.lt_of_lt_of_le hid (Nat.le_trans hlineage.size (hbuilt.steps v hv))))
    hlive
  have hface : g₂.face? d.data.node =
      some ⟨.constant folded, [], [⟨type, some folded.shape⟩], none⟩ := by
    rw [hbuilt.data, hinserted.face_old (hadded.size ▸ Nat.lt_succ_self _), hadded.new]
    rfl
  obtain ⟨f', hf'⟩ := isLive_iff_face.mp hdata
  obtain ⟨f, hf, hsame⟩ := hrerouted.face _ f' (lt_size_of_face? hface) hf'
  obtain rfl := Option.some.inj (hface.symm.trans hf)
  refine ⟨?_, ?_, ?_, hlineage'⟩
  · rw [Dequantization.params, hbuilt.scale, hbuilt.zeroPoint]
    rfl
  · exact constant?_eq_some.mpr ⟨f', hf', hsame.op⟩
  · rw [port?_eq_face, hf', Option.bind_some, hsame.ports, hbuilt.data]
    rfl

end Placing

section Decompose

variable {d : Dequantization Rat} {r : Ranges Rat} {weights : Tensor Rat}

structure Tensor.Sized (t : Tensor Rat) : Prop where
  count : Checked.product t.shape = .ok t.size
  fits : Checked.reserve t.size Tensor.elementWidth = .ok ()

theorem decompose_folds (hg : s.graph.WellFormed) (hr : Ranges.ofNode s.graph id = .ok r)
    (hweights : (s.graph.input? id 0).bind s.graph.constant? = some weights)
    (hrun : exec (decompose id) s = .ok (.ok d, s')) :
    r.Covers weights ∧ ∃ grid folded,
      (Grid.select r.outputLow.data r.outputHigh.data r.levels
        (Markup.allowedPrecisions s.graph id)).run = .ok (.ok (some grid)) ∧
      FoldsOnto grid r d.params weights folded ∧ s'.graph.constant? d.data = some folded ∧
      s'.graph.port? d.data =
        some ⟨storageType s.context.params grid.precision, some weights.shape⟩ ∧
      Lineage s.graph Face.Storable s'.graph := by
  obtain ⟨p, affine, type, name, hranges, hbounds, hselect, hparams, haffine, rfl, hlower⟩ :=
    decompose_run hrun
  obtain rfl := Except.ok.inj (hranges.symm.trans hr)
  obtain ⟨n, data, low, high, outLow, outHigh, rest, hn, hop, hin, -, -, -, -, -, houtput, -⟩ :=
    Ranges.ofNode_eq_ok.mp hranges
  have hfits := fits_of_run houtput hbounds hselect hparams haffine
  have hdata : n.input? 0 = some data := by simp [Node.input?, hin]
  rw [Graph.input?, hn, Option.bind_some, hdata, Option.bind_some] at hweights
  obtain ⟨source, g₁, hsource, hplace⟩ := lower_run hn hdata hlower
  rw [hweights] at hsource hplace
  obtain ⟨folded, hfold, rfl, hadded⟩ := addSource_some hg hsource
  rw [hfits.lows, hfits.highs] at hselect
  obtain ⟨hcovers, hfolds⟩ := foldsOnto_of_run hfits (bounds_of_select hselect) hfold
  have hstorable : (storageType s.context.params p.grid.precision).isLowPrecision = true →
      ∀ x ∈ folded.data, (storageType s.context.params p.grid.precision).represents x = true :=
    fun hlow => (storageType_of_low hlow).symm ▸ hfolds.represents
  obtain ⟨hparams', hconstant, hport, hlineage⟩ :=
    folded_of_place hg hn hadded (Face.storable_constant hstorable) hplace
  exact ⟨hcovers, p.grid, folded, hselect, hparams' ▸ hfolds, hconstant, hfolds.shape ▸ hport, hlineage⟩

theorem decompose_of_foldWeights_error {n : Node Rat} {data : Slot} {grid : Grid Rat}
    {params : List (ScaleZeroPoint Rat)} {affine : AffineParams Rat} {e : TransformError}
    (hr : Ranges.ofNode s.graph id = .ok r) (hsize : r.outputLow.size = r.outputHigh.size)
    (hn : s.graph.node? id = some n) (hdata : n.input? 0 = some data)
    (hweights : s.graph.constant? data = some weights)
    (hgrid : exec (gridOf id r r.outputLow.data r.outputHigh.data) s.graph = .ok (.ok grid, s.graph))
    (hparams : channelParams grid r.outputLow.data r.outputHigh.data = .ok params)
    (haffine : (affineParams r.boundsShape params).run = .ok (.ok affine))
    (hfold : (foldWeights n.name r grid r.outputLow.data r.outputHigh.data params weights).run =
      .ok (.error e)) : ∃ s', exec (decompose id) s = .ok (.error e, s') ∧ s'.graph = s.graph := by
  let p : Decomposition.Lowering Rat := ⟨r, r.outputLow.data, r.outputHigh.data, grid, params⟩
  let c : Context :=
    { s.context with degenerate := s.context.degenerate + params.countP (·.degenerate) }
  have hlower : exec (lower id p affine (storageType c.params grid.precision)) s.graph =
      .ok (.error e, s.graph) := by
    rw [lower_eq hn hdata, hweights]
    refine exec_bind_error (exec_bind_error ?_ _) _
    rw [Edit.exec_attempt, hfold]
    rfl
  have hlay : exec (Rewrite.edit (Edit.attempt fun _ =>
      ExceptT.adapt .tensor (affineParams r.boundsShape params))) ⟨s.graph, c⟩ =
        .ok (.ok affine, ⟨s.graph, c⟩) :=
    Rewrite.exec_edit_attempt_eq_ok.mpr ⟨attempt_adapt_eq_ok.mpr haffine, rfl⟩
  have hlowered : exec (Rewrite.edit (lower id p affine (storageType c.params grid.precision)))
      ⟨s.graph, c⟩ = .ok (.error e, ⟨s.graph, c⟩) := Rewrite.exec_edit_eq.mpr ⟨hlower, rfl⟩
  refine ⟨⟨s.graph, c⟩, ?_, rfl⟩
  rw [decompose, exec_bind_ok (Rewrite.exec_edit_ofExcept_eq_ok.mpr ⟨hr, rfl⟩),
    exec_bind_ok (exec_lift_eq_ok.mpr ⟨Ranges.outputBounds_eq hsize, rfl⟩)]
  dsimp only
  rw [exec_bind_ok (Rewrite.exec_edit_eq.mpr ⟨hgrid, rfl⟩), exec_bind_ok (exec_lift_eq_ok.mpr ⟨hparams, rfl⟩),
    exec_bind_ok (Rewrite.exec_changeContext _ _), exec_bind_ok hlay,
    exec_bind_ok (Rewrite.exec_context _), exec_bind_error hlowered]

theorem decompose_fails (hr : Ranges.ofNode s.graph id = .ok r)
    (hweights : (s.graph.input? id 0).bind s.graph.constant? = some weights)
    (huncovered : ¬ r.Covers weights) (hbounds : r.outputLow.Sized)
    (hsized : Checked.product weights.shape = .ok weights.size) :
    ∃ e s', exec (decompose id) s = .ok (.error e, s') ∧ s'.graph = s.graph := by
  obtain ⟨n, data, low, high, outLow, outHigh, rest, hn, hop, hin, -, -, -, -, -, houtput, hlevels⟩ :=
    Ranges.ofNode_eq_ok.mp hr
  have hdata : n.input? 0 = some data := by simp [Node.input?, hin]
  rw [Graph.input?, hn, Option.bind_some, hdata, Option.bind_some] at hweights
  obtain ⟨found, g₁, hfound, hgrid⟩ :=
    ends_gridOf orderedGrids_rat r r.outputLow.data r.outputHigh.data s.graph rfl
  obtain rfl := silent_gridOf _ _ _ _ _ _ hfound
  cases found with
  | error e =>
    refine ⟨e, s, ?_, rfl⟩
    rw [decompose, exec_bind_ok (Rewrite.exec_edit_ofExcept_eq_ok.mpr ⟨hr, rfl⟩),
      exec_bind_ok (exec_lift_eq_ok.mpr ⟨Ranges.outputBounds_eq houtput, rfl⟩)]
    exact exec_bind_error (Rewrite.exec_edit_eq.mpr ⟨hfound, rfl⟩) _
  | ok grid =>
    obtain ⟨-, hordered, hwide⟩ := hgrid grid rfl
    obtain ⟨params, hparams⟩ := channelParams_ok hwide r.outputLow.data r.outputHigh.data
    have hlength : params.length = r.outputLow.size := by
      rw [← (except_mapM_eq_ok.mp hparams).length_eq, List.length_zip]
      exact Nat.min_eq_left (Nat.le_of_eq houtput)
    have hshape : Checked.product r.boundsShape = .ok params.length := by
      rw [Ranges.boundsShape, if_pos (Nat.le_of_eq houtput.symm), hlength, hbounds.count]
    obtain ⟨affine, haffine⟩ := affineParams_ok hshape
    obtain ⟨e, hfold⟩ :=
      foldWeights_fails_of_uncovered hordered hlevels hlength hbounds.fits hsized huncovered n.name
    exact ⟨e, decompose_of_foldWeights_error hr houtput hn hdata hweights hfound hparams haffine hfold⟩

/-- Weights are folded into integers that the selected type represents, each with what belongs to its
channel, and no other value is stored as an integer either. Weights without a channel make the
decomposition fail, which leaves the graph as it was. -/
theorem folded_weights_represented (hg : s.graph.WellFormed)
    (hr : Ranges.ofNode s.graph id = .ok r)
    (hweights : (s.graph.input? id 0).bind s.graph.constant? = some weights)
    (hupdate : s.context.params.updatePrecisions = true) :
    (∀ d s', exec (decompose id) s = .ok (.ok d, s') → r.Covers weights ∧ ∃ grid folded,
      (Grid.select r.outputLow.data r.outputHigh.data r.levels
        (Markup.allowedPrecisions s.graph id)).run = .ok (.ok (some grid)) ∧
      Grid.bounds grid.precision r.levels = .ok (grid.low, grid.high) ∧
      s'.graph.constant? d.data = some folded ∧
      s'.graph.port? d.data = some ⟨grid.precision, some weights.shape⟩ ∧
      FoldsOnto grid r d.params weights folded ∧
      ∀ v t port, s.graph.nodes.size ≤ v → s'.graph.constant? ⟨v, 0⟩ = some t →
        s'.graph.port? ⟨v, 0⟩ = some port → port.elementType.isLowPrecision = true →
        ∀ x ∈ t.data, port.elementType.represents x = true) ∧
    (¬ r.Covers weights → r.outputLow.Sized → weights.Sized →
      ∃ e s', exec (decompose id) s = .ok (.error e, s') ∧ s'.graph = s.graph) := by
  refine ⟨fun d s' hrun => ?_, fun huncovered hbounds hsized =>
    decompose_fails hr hweights huncovered hbounds hsized.count⟩
  obtain ⟨hcovers, grid, folded, hselect, hfolds, hconstant, hport, hlineage⟩ :=
    decompose_folds hg hr hweights hrun
  rw [storageType, if_pos hupdate] at hport
  refine ⟨hcovers, grid, folded, hselect, bounds_of_select hselect, hconstant, hport, hfolds, ?_⟩
  intro v t port hv ht hp hlow
  obtain ⟨f, hf, hop⟩ := constant?_eq_some.mp ht
  rw [port?_eq_face, hf] at hp
  exact hlineage.fresh v f hv hf t port hop hp hlow

def pairedWeights (values : List Rat) : Session Rat where
  graph := Graph.assemble [
    ("weights", .constant ⟨[values.length], values⟩, [], [⟨.f32, some [values.length]⟩]),
    ("low", .constant ⟨[2], [-127 / 100, 127 / 50]⟩, [], [⟨.f32, some [2]⟩]),
    ("high", .constant ⟨[2], [127 / 100, -127 / 50]⟩, [], [⟨.f32, some [2]⟩]),
    ("fq", .fakeQuantize 255, [⟨0, 0⟩, ⟨1, 0⟩, ⟨2, 0⟩, ⟨1, 0⟩, ⟨2, 0⟩],
      [⟨.f32, some [values.length]⟩]),
    ("y", .result, [⟨3, 0⟩], [])]
  context := .start .default

theorem folded_weights_represented_of_pairedWeights :
    (∃ d s' folded, exec (decompose 3) (pairedWeights [1, -1 / 2, 2, 0]) = .ok (.ok d, s') ∧
      s'.graph.constant? d.data = some folded ∧
      s'.graph.port? d.data = some ⟨.i8, some [4]⟩ ∧ folded.data = [100, -50, -100, 0] ∧
      ∀ x ∈ folded.data, ElementType.i8.represents x = true) ∧
    ∃ e s', exec (decompose 3) (pairedWeights [1, -1 / 2, 2]) = .ok (.error e, s') ∧
      s'.graph = (pairedWeights [1, -1 / 2, 2]).graph := by
  let bounds : Ranges Rat := ⟨255, ⟨[2], [-127 / 100, 127 / 50]⟩, ⟨[2], [127 / 100, -127 / 50]⟩,
    ⟨[2], [-127 / 100, 127 / 50]⟩, ⟨[2], [127 / 100, -127 / 50]⟩⟩
  constructor
  · have hrun : (exec (decompose 3) (pairedWeights [1, -1 / 2, 2, 0])).map (fun out =>
        (out.1.toOption.bind fun d => out.2.graph.port? d.data,
          out.1.toOption.bind fun d => (out.2.graph.constant? d.data).map (·.data))) =
        .ok (some ⟨.i8, some [4]⟩, some [100, -50, -100, 0]) := by decide +kernel
    obtain ⟨⟨outcome, s'⟩, hexec, hout⟩ := except_map_eq_ok.mp hrun
    obtain ⟨hport, hvalues⟩ := Prod.mk.inj hout
    have hbounds : Ranges.ofNode (pairedWeights [1, -1 / 2, 2, 0]).graph 3 = .ok bounds := by decide +kernel
    have hweights : ((pairedWeights [1, -1 / 2, 2, 0]).graph.input? 3 0).bind
        (pairedWeights [1, -1 / 2, 2, 0]).graph.constant? = some ⟨[4], [1, -1 / 2, 2, 0]⟩ := by
      decide +kernel
    cases outcome with
    | error e => cases hport
    | ok d =>
      obtain ⟨-, grid, folded, -, -, hconstant, hport', hfolds, -⟩ :=
        (folded_weights_represented (Graph.assemble_ordered _).1 hbounds hweights
          (by decide +kernel)).1 d s' hexec
      obtain ⟨htype, -⟩ := Port.mk.inj (Option.some.inj (hport'.symm.trans hport))
      change (s'.graph.constant? d.data).map (·.data) = _ at hvalues
      rw [hconstant, Option.map_some, Option.some.injEq] at hvalues
      exact ⟨d, s', folded, hexec, hconstant, hport, hvalues, htype ▸ hfolds.represents⟩
  · have hbounds : Ranges.ofNode (pairedWeights [1, -1 / 2, 2]).graph 3 = .ok bounds := by decide +kernel
    have hweights : ((pairedWeights [1, -1 / 2, 2]).graph.input? 3 0).bind
        (pairedWeights [1, -1 / 2, 2]).graph.constant? = some ⟨[3], [1, -1 / 2, 2]⟩ := by
      decide +kernel
    refine (folded_weights_represented (Graph.assemble_ordered _).1 hbounds hweights
      (by decide +kernel)).2 (fun h => ?_) ⟨by decide +kernel, by decide +kernel⟩
        ⟨by decide +kernel, by decide +kernel⟩
    exact absurd (h.channel 2 (by decide)) (by decide)

end Decompose

end LowPrecision
