import LowPrecision.Proofs.Quantization.WholeValues
import LowPrecision.Proofs.Rewrite.Symmetry

namespace LowPrecision

open LowPrecision.Graph Decomposition

structure QuantizedChannel (type : ElementType) (levels : Nat) (through : Rat × Rat)
    (old new : ChannelRange) : Prop where
  inputLow : new.inputLow = old.inputLow
  inputHigh : new.inputHigh = old.inputHigh
  values : ValuesIn type levels new
  own : through = (old.outputLow, old.outputHigh) → min old.outputLow old.outputHigh ≤ 0 →
    0 ≤ max old.outputLow old.outputHigh →
    (type = .u8 → ¬ ZeroPointTie old.outputLow old.outputHigh levels) →
    ∀ x v, new.value levels x = .ok v → type.represents v = true

/-- Each new fake-quantize of an integer type is made of an old one, of which `source` also says by
which interval its channels are mapped when they share one. -/
def Graph.Quantizes (source : NodeId → Option (Rat × Rat) → Prop) (g g' : Graph Rat) : Prop :=
  ∀ v port, g.nodes.size ≤ v → g'.kind? v = some .fakeQuantize → g'.port? ⟨v, 0⟩ = some port →
    port.elementType.isLowPrecision = true →
    ∃ id shared old new, source id shared ∧ Ranges.ofNode g id = .ok old ∧
      Ranges.ofNode g' v = .ok new ∧ new.levels = old.levels ∧
      ∀ c after, new.channel c = some after → ∃ before, old.channel c = some before ∧
        QuantizedChannel port.elementType new.levels
          (shared.getD (before.outputLow, before.outputHigh)) before after

section Channels

variable {grid : Grid Rat} {shared : Option (Rat × Rat)} {lows highs : List Rat}
  {params : List (ScaleZeroPoint Rat)} {old new : Ranges Rat} {c : Nat}

theorem ConcatPlan.Mapped.length (h : ConcatPlan.Mapped grid shared lows highs params)
    (hlength : lows.length = highs.length) : params.length = lows.length := by
  cases shared with
  | none =>
    rw [← (except_mapM_eq_ok.mp h).length_eq, List.length_zip, ← hlength, Nat.min_self]
  | some interval =>
    obtain ⟨p, -, rfl⟩ := h
    exact List.length_replicate

theorem ConcatPlan.Mapped.channel (h : ConcatPlan.Mapped grid shared lows highs params)
    (hlength : lows.length = highs.length) {low high : Rat} {p : ScaleZeroPoint Rat}
    (hlow : atChannel lows c = some low) (hhigh : atChannel highs c = some high)
    (hp : atChannel params c = some p) :
    ScaleZeroPoint.ofInterval (shared.getD (low, high)).1 (shared.getD (low, high)).2
      grid.low grid.high = .ok p := by
  cases shared with
  | none =>
    obtain ⟨q, hq, hmapped⟩ :=
      atChannel_of_forall₂ (except_mapM_eq_ok.mp h) (atChannel_zip hlength hlow hhigh)
    obtain rfl := Option.some.inj (hq.symm.trans hp)
    exact hmapped
  | some interval =>
    obtain ⟨q, hq, rfl⟩ := h
    rw [List.eq_of_mem_replicate (List.mem_of_getElem? hp)]
    exact hq

theorem length_quantizeBounds {values bounds : List Rat}
    (h : quantizeBounds grid params values = .ok bounds) :
    bounds.length = min values.length params.length := by
  rw [← (except_mapM_eq_ok.mp h).length_eq, List.length_zip]

theorem channel_of_quantizeBounds {values bounds : List Rat}
    (h : quantizeBounds grid params values = .ok bounds) (hlength : params.length = values.length)
    {bound : Rat} (hc : atChannel bounds c = some bound) :
    ∃ value p, atChannel values c = some value ∧ atChannel params c = some p ∧
      quantizeBound grid p value = .ok bound := by
  obtain ⟨⟨value, p⟩, hzip, hbound⟩ := atChannel_of_forall₂ (except_mapM_eq_ok.mp h).flip hc
  obtain ⟨hvalue, hp⟩ := atChannel_unzip hlength.symm hzip
  exact ⟨value, p, hvalue, hp, hbound⟩

theorem quantizedChannel_of_mapped
    (hgrid : Grid.bounds grid.precision new.levels = .ok (grid.low, grid.high))
    (hsize : old.outputLow.size = old.outputHigh.size) (hinputLow : new.inputLow = old.inputLow)
    (hinputHigh : new.inputHigh = old.inputHigh) (hbounds : old.outputBounds = .ok (lows, highs))
    (hmapped : ConcatPlan.Mapped grid shared lows highs params)
    (hlow : quantizeBounds grid params lows = .ok new.outputLow.data)
    (hhigh : quantizeBounds grid params highs = .ok new.outputHigh.data) {after : ChannelRange}
    (hc : new.channel c = some after) :
    ∃ before, old.channel c = some before ∧ QuantizedChannel grid.precision new.levels
      (shared.getD (before.outputLow, before.outputHigh)) before after := by
  rw [Ranges.outputBounds_eq hsize, Except.ok.injEq, Prod.mk.injEq] at hbounds
  obtain ⟨rfl, rfl⟩ := hbounds
  have hparams := hmapped.length hsize
  obtain ⟨hinLow, hinHigh, houtLow, houtHigh⟩ := Ranges.channel_eq_some.mp hc
  obtain ⟨low, p, hvalueLow, hp, hquantizedLow⟩ := channel_of_quantizeBounds hlow hparams houtLow
  obtain ⟨high, q, hvalueHigh, hq, hquantizedHigh⟩ :=
    channel_of_quantizeBounds hhigh (hparams.trans hsize) houtHigh
  obtain rfl := Option.some.inj (hp.symm.trans hq)
  have hvalues := valuesIn_of_bounds hgrid hquantizedLow hquantizedHigh
  refine ⟨⟨after.inputLow, after.inputHigh, low, high⟩, Ranges.channel_eq_some.mpr
    ⟨hinputLow ▸ hinLow, hinputHigh ▸ hinHigh, hvalueLow, hvalueHigh⟩, rfl, rfl, hvalues, ?_⟩
  intro hthrough hmin hmax htie
  refine hvalues.represented.mpr ?_
  by_cases hne : low = high
  · subst hne
    exact .inr (.inl (Except.ok.inj (hquantizedLow.symm.trans hquantizedHigh)))
  · have hinterval := hmapped.channel hsize hvalueLow hvalueHigh hp
    rw [hthrough] at hinterval
    exact .inr (.inr (spans_of_own hgrid hne hmin hmax htie hinterval hquantizedLow hquantizedHigh))

end Channels

section Rewrites

variable {g g' : Graph Rat} {s : Session Rat} {id v : NodeId}

theorem ofNode_of_ranged {f : Face Rat} {r : Ranges Rat} (hf : g.face? v = some f)
    (hop : f.op = .fakeQuantize r.levels) (hr : g.Ranged f r)
    (hinput : r.inputLow.size = r.inputHigh.size) (houtput : r.outputLow.size = r.outputHigh.size)
    (hlevels : isSupportedLevels r.levels = true) : Ranges.ofNode g v = .ok r := by
  obtain ⟨n, hn, rfl⟩ := face?_eq_some.mp hf
  obtain ⟨hinLow, hinHigh, houtLow, houtHigh⟩ := hr
  simp only [Node.face] at hop hinLow hinHigh houtLow houtHigh
  rw [Ranges.ofNode, hn]
  simp only [Node.input?, hop, hinLow, hinHigh, houtLow, houtHigh]
  exact Ranges.make_eq_ok.mpr ⟨hinput, houtput, hlevels, rfl⟩

theorem storageType_of_low {params : Params} {type : ElementType}
    (h : (storageType params type).isLowPrecision = true) : storageType params type = type := by
  rw [storageType] at h ⊢
  split
  · rfl
  · next hno =>
    rw [if_neg hno] at h
    cases h

theorem quantizes_of_emits {q : Recipe Rat} {source : NodeId → Option (Rat × Rat) → Prop}
    (h : Emits q g g')
    (hq : ∀ r type, q.quantizer r type → type.isLowPrecision = true →
      ∃ id shared old grid lows highs params, source id shared ∧ Ranges.ofNode g id = .ok old ∧
        type = grid.precision ∧ r.levels = old.levels ∧
        Grid.bounds grid.precision r.levels = .ok (grid.low, grid.high) ∧
        r.inputLow = old.inputLow ∧ r.inputHigh = old.inputHigh ∧
        old.outputBounds = .ok (lows, highs) ∧ ConcatPlan.Mapped grid shared lows highs params ∧
        quantizeBounds grid params lows = .ok r.outputLow.data ∧
        quantizeBounds grid params highs = .ok r.outputHigh.data) :
    g.Quantizes source g' := by
  intro v port hv hk hport hlow
  obtain ⟨f, hf, hfk⟩ := face_of_kind hk
  obtain ⟨levels, hop⟩ := Op.exists_levels hfk
  obtain ⟨new, p, rfl, hports, hranged, hquantizer⟩ := (h.meets v f hv hf).quantizer levels hop
  obtain rfl : p = port := by
    rw [port?_eq_face, hf, Option.bind_some, hports] at hport
    exact Option.some.inj hport
  obtain ⟨id, shared, old, grid, lows, highs, params, hsource, hold, htype, hlevels, hgrid, hinputLow,
    hinputHigh, hbounds, hmapped, hquantizedLow, hquantizedHigh⟩ := hq new _ hquantizer hlow
  obtain ⟨_, _, _, _, _, _, _, -, -, -, -, -, -, -, hinput, houtput, hsupported⟩ :=
    Ranges.ofNode_eq_ok.mp hold
  have hsize : new.outputLow.size = new.outputHigh.size := by
    rw [Ranges.outputBounds_eq houtput, Except.ok.injEq, Prod.mk.injEq] at hbounds
    rw [Tensor.size, Tensor.size, length_quantizeBounds hquantizedLow,
      length_quantizeBounds hquantizedHigh, ← hbounds.1, ← hbounds.2]
    exact congrArg (min · params.length) houtput
  refine ⟨id, shared, old, new, hsource, hold, ofNode_of_ranged hf hop hranged ?_ hsize ?_, hlevels,
    fun c after hc => ?_⟩
  · rw [hinputLow, hinputHigh, hinput]
  · rw [hlevels, hsupported]
  · rw [htype]
    exact quantizedChannel_of_mapped hgrid houtput hinputLow hinputHigh hbounds hmapped hquantizedLow
      hquantizedHigh hc

/-- Every channel of a fake-quantize that a rewrite adds with an 8-bit type stays inside the type. Its
values are whole exactly when its input range is one point, its bounds are equal, or they are as far
apart as there are steps between the levels. This is so for each interval around 0 that the grid
stands for, except for a tie of the zero point on the unsigned grid. -/
theorem integer_quantizers (hg : s.graph.WellFormed) :
    (∀ id d s', exec (decompose id) s = .ok (.ok d, s') →
      s.graph.Quantizes (fun v shared => v = id ∧ shared = none) s'.graph) ∧
    ∀ concat plan s', ConcatPlan.ofConcat? s.context s.graph concat = .ok (some plan) →
      exec plan.apply s = .ok (.ok (), s') →
      s.graph.Quantizes (fun v shared => v ∈ plan.region.boundary ∧
        shared = plan.sharedInterval s.graph v) s'.graph := by
  constructor
  · intro id d s' hrun
    obtain ⟨p, affine, hr, hbounds, hselect, hparams, -, -, hemits⟩ := decompose_emits hg hrun
    refine quantizes_of_emits hemits fun r type hq hlow => ?_
    obtain ⟨rfl, hlevels, hinputLow, hinputHigh, hquantizedLow, hquantizedHigh⟩ := hq
    refine ⟨id, none, p.ranges, p.grid, p.lows, p.highs, p.params, ⟨rfl, rfl⟩, hr, ?_, hlevels, ?_,
      hinputLow, hinputHigh, hbounds, hparams, hquantizedLow, hquantizedHigh⟩
    · exact storageType_of_low hlow
    · rw [hlevels]
      exact bounds_of_select hselect
  · intro concat plan s' hplan hrun
    obtain ⟨haccepted, hchosen⟩ := ConcatPlan.planned_of_ofConcat? hplan
    refine quantizes_of_emits (ConcatPlan.apply_emits hg haccepted hrun) fun r type hq hlow => ?_
    obtain ⟨rfl, r₀, branch, hmem, rfl⟩ := hq
    obtain ⟨k, hk⟩ := List.mem_iff_getElem?.mp hmem
    obtain ⟨hr₀, hbranch⟩ := List.getElem?_zip_eq_some.mp hk
    obtain ⟨id, r, allowed, hid, hr, hread, hplanned, hgrid⟩ := hchosen.branch hbranch
    obtain rfl := Option.some.inj (hr₀.symm.trans hr)
    replace hid := List.mem_of_getElem? hid
    obtain ⟨n, -, -, hr, -⟩ := ConcatPlan.readBoundary?_eq_some hread
    obtain ⟨lows, highs, params, hbounds, hmapped, hquantizedLow, hquantizedHigh, -⟩ :=
      ConcatPlan.planBranch_run hplanned
    exact ⟨id, _, r₀, plan.grid, lows, highs, params, ⟨hid, rfl⟩, hr, storageType_of_low hlow, rfl,
      hgrid, rfl, rfl, hbounds, hmapped, hquantizedLow, hquantizedHigh⟩

end Rewrites

def exactPair (low high : Rat) : Session Rat :=
  ⟨joinedPair [1, 2] [1, 4] low high, .start .default⟩

theorem integer_quantizers_of_exactPair :
    (exactPair 0 (51 / 20)).graph.WellFormed ∧
      (∃ d s', exec (decompose 6) (exactPair 0 (51 / 20)) = .ok (.ok d, s') ∧
        ∀ x v, (⟨0, 51 / 20, 0, 255⟩ : ChannelRange).value 256 x = .ok v →
          ElementType.u8.represents v = true) ∧
      ∃ plan s', ConcatPlan.ofConcat? (exactPair 0 (51 / 20)).context (exactPair 0 (51 / 20)).graph 7 =
          .ok (some plan) ∧
        exec plan.apply (exactPair 0 (51 / 20)) = .ok (.ok (), s') ∧
        (exactPair 0 (51 / 20)).graph.Quantizes (fun v shared => v ∈ plan.region.boundary ∧
          shared = plan.sharedInterval (exactPair 0 (51 / 20)).graph v) s'.graph := by
  have hg : (exactPair 0 (51 / 20)).graph.WellFormed := (Graph.assemble_ordered _).1
  have hrun : (exec (decompose 6) (exactPair 0 (51 / 20))).map (fun out =>
      (out.1.toOption.isSome, out.2.graph.port? ⟨11, 0⟩,
        (Ranges.ofNode out.2.graph 11).toOption.map fun r => (r.levels, r.channel 0))) =
      .ok (true, some ⟨.u8, some [1, 2]⟩, some (256, some ⟨0, 51 / 20, 0, 255⟩)) := by decide +kernel
  have hkind : (exec (decompose 6) (exactPair 0 (51 / 20))).map (·.2.graph.kind? 11) =
      .ok (some .fakeQuantize) := by decide +kernel
  have hold : (Ranges.ofNode (exactPair 0 (51 / 20)).graph 6).toOption.map (·.channel 0) =
      some (some ⟨0, 51 / 20, 0, 51 / 20⟩) := by decide +kernel
  have hjoined : (do
      match ← ConcatPlan.ofConcat? (exactPair 0 (51 / 20)).context (exactPair 0 (51 / 20)).graph 7 with
      | some plan =>
        let out ← exec plan.apply (exactPair 0 (51 / 20))
        return some out.1
      | none => return none : Checked _) = .ok (some (.ok ())) := by decide +kernel
  refine ⟨hg, ?_, ?_⟩
  · obtain ⟨⟨d, s'⟩, hexec, hout⟩ := except_map_eq_ok.mp hrun
    simp only [Prod.mk.injEq] at hout
    obtain ⟨hsome, hport, hranges⟩ := hout
    rw [hexec] at hkind
    cases d with
    | error e => cases hsome
    | ok d =>
      refine ⟨d, s', hexec, ?_⟩
      obtain ⟨id, shared, old, new, ⟨rfl, rfl⟩, hr, hnew, -, hchannels⟩ :=
        (integer_quantizers hg).1 6 d s' hexec 11 _ (by decide +kernel) (Except.ok.inj hkind)
          hport rfl
      rw [hr] at hold
      rw [hnew] at hranges
      obtain ⟨hlevels, hchannel⟩ := Prod.mk.inj (Option.some.inj hranges)
      obtain ⟨before, hbefore, hquantized⟩ := hchannels 0 _ hchannel
      obtain rfl := Option.some.inj (hbefore.symm.trans (Option.some.inj hold))
      rw [hlevels] at hquantized
      exact hquantized.own rfl (by decide +kernel) (by decide +kernel) fun _ =>
        not_zeroPointTie_zero _ _
  · obtain ⟨found, hplan, hrest⟩ := except_bind_eq_ok.mp hjoined
    cases found with
    | none => cases hrest
    | some plan =>
      obtain ⟨⟨r, s'⟩, hexec, hout⟩ := except_bind_eq_ok.mp hrest
      obtain rfl := Option.some.inj (Except.ok.inj hout)
      exact ⟨plan, s', hplan, hexec, (integer_quantizers hg).2 7 plan s' hplan hexec⟩

theorem shared_and_offset_values_not_whole :
    (exactPair (-16 / 25) (16 / 25)).graph.WellFormed ∧
      (exec (Rule.concat.apply ⟨7, .concat, [5, 6], [8]⟩) (exactPair (-16 / 25) (16 / 25))).map
        (fun out => (out.1, out.2.graph.port? ⟨14, 0⟩,
          (Ranges.ofNode out.2.graph 14).toOption.map fun r => (r.levels, r.channel 0))) =
        .ok (.ok true, some ⟨.i8, some [1, 2]⟩, some (256, some ⟨-16 / 25, 16 / 25, -64, 64⟩)) ∧
      (⟨-16 / 25, 16 / 25, -64, 64⟩ : ChannelRange).value 256 0 = .ok (64 / 255) ∧
      ElementType.i8.represents (64 / 255 : Rat) = false ∧
      (exactPair 1 (71 / 20)).graph.WellFormed ∧
      (exec (decompose 6) (exactPair 1 (71 / 20))).map (fun out =>
        (out.1.toOption.isSome, out.2.graph.port? ⟨11, 0⟩,
          (Ranges.ofNode out.2.graph 11).toOption.map fun r => (r.levels, r.channel 0))) =
        .ok (true, some ⟨.u8, some [1, 2]⟩, some (256, some ⟨1, 71 / 20, 100, 255⟩)) ∧
      (⟨1, 71 / 20, 100, 255⟩ : ChannelRange).value 256 2 = .ok (8200 / 51) ∧
      ElementType.u8.represents (8200 / 51 : Rat) = false := by
  refine ⟨(Graph.assemble_ordered _).1, ?_, ?_, ?_, (Graph.assemble_ordered _).1, ?_, ?_, ?_⟩ <;>
    decide +kernel

end LowPrecision
