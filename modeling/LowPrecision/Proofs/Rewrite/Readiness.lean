import LowPrecision.Proofs.Quantization.Broadcasting
import LowPrecision.Proofs.Rewrite.Failures

namespace LowPrecision

variable {α : Type} {g : Graph α} {id : NodeId} {m : NodeMatch}

namespace Rule

variable [Scalar α] {s : Session α}

/-- What a rule does not check itself: the layout of the ranges of constant weights, the inputs of
the nodes around a concatenation, and whether bounds can be combined with a constant. -/
def Ready (g : Graph α) (id : NodeId) : Rule → Prop
  | decomposition => (∀ type ∈ Markup.allowedPrecisions g id, type = .u8 ∨ type = .i8) ∧
      ∀ r, Ranges.ofNode g id = .ok r → Decomposition.Fitting g id r
  | concat => g.Plain ∧ g.Sized
  | fuseSubtract | fuseMultiply => ∀ fakeQuantize value,
      RangeFusion.source? g id = some (fakeQuantize, value) → ∀ index bound, index = 3 ∨ index = 4 →
        (g.input? fakeQuantize index).bind g.constant? = some bound → bound.Joins value
  | _ => True

omit [Scalar α] in
theorem exec_withPlan {β : Type} {f : β → Rewrite α Unit} {plan : β} {t : Session α}
    (h : exec (f plan) s = .ok (.ok (), t)) :
    exec (withPlan (some plan) f) s = .ok (.ok true, t) :=
  exec_bind_ok h _

theorem decomposition_ready (hordered : OrderedGrids α) (hg : s.graph.Regular)
    (hready : Ready s.graph id decomposition) (hm : decomposition.pattern.matchAt s.graph id = some m)
    (hcan : decomposition.canApply s.context s.graph m = .ok true) :
    ∃ s', exec (decomposition.apply m) s = .ok (.ok true, s') := by
  obtain ⟨n, hn, hkind, rfl⟩ := Pattern.matchAt_eq_some hm
  obtain ⟨r, hr, -⟩ := Decomposition.canApply_eq_true hcan
  have hone : ∀ k, s.graph.node? id = some k → k.outputs.length = 1 := by
    intro k hk
    obtain rfl := Option.some.inj (hn.symm.trans hk)
    exact hg.length_outputs hn (calm (by simp) hkind).2
  obtain ⟨d, s', hrun⟩ := Decomposition.decompose_ok hordered hg.wellFormed hg.acyclic hone hready.1
    hcan hr (hready.2 r hr)
  refine ⟨s', ?_⟩
  rw [apply, exec_bind_ok (Rewrite.exec_graph s), exec_bind_ok (Rewrite.exec_context s)]
  exact exec_bind_ok (exec_discard_ok hrun) _

theorem convertFusion_ready (hg : s.graph.Regular)
    (hm : convertFusion.pattern.matchAt s.graph id = some m)
    (hcan : convertFusion.canApply s.context s.graph m = .ok true) :
    ∃ s', exec (convertFusion.apply m) s = .ok (.ok true, s') := by
  obtain ⟨rank, hr⟩ := hg.acyclic
  obtain ⟨n, hn, hkind, rfl⟩ := Pattern.matchAt_eq_some hm
  rw [canApply, ConvertFusion.canApply] at hcan
  split at hcan
  · next slot source hfusable =>
    obtain ⟨t, hexec, -⟩ := convertFusion_done
      (m := ⟨id, n.kind, n.producers, s.graph.readerNodes id⟩) hg hr hn hkind rfl hfusable
    exact ⟨t, hexec⟩
  · cases hcan

theorem lowered_ready {β : Type} {rule : Rule} {find : Checked (Option β)} {plan : β} {n : Node α}
    {a b : Dequantization α} (operands : β → List Slot) (scale : β → Tensor α)
    (hrule : rule = .matMul ∨ rule = .convolution) (hg : s.graph.Regular)
    (hn : s.graph.node? id = some n) (hkind : n.kind ∈ rule.pattern.kinds)
    (hfind : find = .ok (some plan)) (hoperands : operands plan = [a.data, b.data])
    (ha : Dequantization.ofInput s.graph id 0 = some a)
    (hb : Dequantization.ofInput s.graph id 1 = some b) :
    ∃ s', exec (do
        withPlan (← (find : Checked _)) fun plan =>
          Rewrite.edit (lowerKernel id (operands plan) (scale plan)) : Rewrite α Bool) s =
            .ok (.ok true, s') ∧
      exec (lowerKernel id (operands plan) (scale plan)) s.graph = .ok (.ok (), s'.graph) := by
  obtain ⟨rank, hr⟩ := hg.acyclic
  obtain ⟨t, hexec, -⟩ := lowered_done hrule hg hr hn hkind hoperands ha hb (scale plan)
  exact ⟨t, (exec_bind_ok (exec_lift_eq_ok.mpr ⟨hfind, rfl⟩) _).trans (exec_withPlan hexec),
    (Rewrite.exec_edit_eq.mp hexec).1⟩

theorem lowers_matMul (hg : s.graph.Regular) (hm : matMul.pattern.matchAt s.graph id = some m)
    (hcan : matMul.canApply s.context s.graph m = .ok true) :
    ∃ plan s', MatMul.plan? s.graph id = .ok (some plan) ∧
      exec (matMul.apply m) s = .ok (.ok true, s') ∧
      exec (lowerKernel id plan.operands plan.scale) s.graph = .ok (.ok (), s'.graph) := by
  obtain ⟨n, hn, hkind, rfl⟩ := Pattern.matchAt_eq_some hm
  obtain ⟨plan, hplan⟩ := checked_isSome hcan
  obtain ⟨a, b, hoperands, ha, hb⟩ := MatMul.operands_of_plan hplan
  obtain ⟨s', hrun, hlower⟩ := lowered_ready MatMul.Plan.operands MatMul.Plan.scale (.inl rfl) hg
    hn hkind hplan hoperands ha hb
  refine ⟨plan, s', hplan, ?_, hlower⟩
  rw [apply, exec_bind_ok (Rewrite.exec_graph s), exec_bind_ok (Rewrite.exec_context s)]
  exact hrun

theorem lowers_convolution (hg : s.graph.Regular) (hm : convolution.pattern.matchAt s.graph id = some m)
    (hcan : convolution.canApply s.context s.graph m = .ok true) :
    ∃ plan s', Convolution.plan? s.graph id = .ok (some plan) ∧
      exec (convolution.apply m) s = .ok (.ok true, s') ∧
      exec (lowerKernel id plan.operands plan.scale) s.graph = .ok (.ok (), s'.graph) := by
  obtain ⟨n, hn, hkind, rfl⟩ := Pattern.matchAt_eq_some hm
  obtain ⟨plan, hplan⟩ := checked_isSome hcan
  obtain ⟨a, b, hoperands, ha, hb⟩ := Convolution.operands_of_plan hplan
  obtain ⟨s', hrun, hlower⟩ := lowered_ready Convolution.Plan.operands Convolution.Plan.scale
    (.inr rfl) hg hn hkind hplan hoperands ha hb
  refine ⟨plan, s', hplan, ?_, hlower⟩
  rw [apply, exec_bind_ok (Rewrite.exec_graph s), exec_bind_ok (Rewrite.exec_context s)]
  exact hrun

theorem matMul_ready (hg : s.graph.Regular) (hm : matMul.pattern.matchAt s.graph id = some m)
    (hcan : matMul.canApply s.context s.graph m = .ok true) :
    ∃ s', exec (matMul.apply m) s = .ok (.ok true, s') := by
  obtain ⟨_, s', -, hrun, -⟩ := lowers_matMul hg hm hcan
  exact ⟨s', hrun⟩

theorem convolution_ready (hg : s.graph.Regular) (hm : convolution.pattern.matchAt s.graph id = some m)
    (hcan : convolution.canApply s.context s.graph m = .ok true) :
    ∃ s', exec (convolution.apply m) s = .ok (.ok true, s') := by
  obtain ⟨_, s', -, hrun, -⟩ := lowers_convolution hg hm hcan
  exact ⟨s', hrun⟩

theorem concat_ready (hg : s.graph.Regular) (hready : Ready s.graph id concat)
    (hm : concat.pattern.matchAt s.graph id = some m)
    (hcan : concat.canApply s.context s.graph m = .ok true) :
    ∃ s', exec (concat.apply m) s = .ok (.ok true, s') := by
  obtain ⟨n, hn, hkind, rfl⟩ := Pattern.matchAt_eq_some hm
  obtain ⟨plan, hplan⟩ := checked_isSome hcan
  obtain ⟨t, hexec⟩ : ∃ t, exec plan.apply s = .ok (.ok (), t) := by
    rcases ConcatPlan.apply_completes False hg hready.1
      (ConcatPlan.accepted_of_ofConcat? hplan) (.inr hready.2) with ⟨hfalse, -⟩ | hok
    · exact hfalse.elim
    · exact hok
  refine ⟨t, ?_⟩
  rw [apply, exec_bind_ok (Rewrite.exec_graph s), exec_bind_ok (Rewrite.exec_context s)]
  exact (exec_bind_ok (exec_lift_eq_ok.mpr ⟨hplan, rfl⟩) _).trans (exec_withPlan hexec)

theorem sanitization_ready (hg : s.graph.Regular)
    (hm : sanitization.pattern.matchAt s.graph id = some m)
    (hcan : sanitization.canApply s.context s.graph m = .ok true) :
    ∃ s', exec (sanitization.apply m) s = .ok (.ok true, s') := by
  obtain ⟨rank, hr⟩ := hg.acyclic
  obtain ⟨n, hn, hkind, rfl⟩ := Pattern.matchAt_eq_some hm
  obtain ⟨value, hvalue⟩ := Option.isSome_iff_exists.mp (Except.ok.inj hcan)
  obtain ⟨t, hexec, -⟩ := sanitization_done hg hr hn hkind rfl hvalue
  exact ⟨t, hexec⟩

theorem depthToSpace_ready (hg : s.graph.Regular)
    (hm : depthToSpace.pattern.matchAt s.graph id = some m)
    (hcan : depthToSpace.canApply s.context s.graph m = .ok true) :
    ∃ s', exec (depthToSpace.apply m) s = .ok (.ok true, s') := by
  obtain ⟨rank, hr⟩ := hg.acyclic
  obtain ⟨n, hn, hkind, rfl⟩ := Pattern.matchAt_eq_some hm
  obtain ⟨plan, hplan⟩ := Option.isSome_iff_exists.mp (Except.ok.inj hcan)
  obtain ⟨t, hexec, -⟩ := moved_done (.inl rfl) hg hr hn hkind (Layout.chain_of_depthToSpace hplan)
    plan.params s.context.params.updatePrecisions
  refine ⟨t, ?_⟩
  rw [apply, exec_bind_ok (Rewrite.exec_graph s), exec_bind_ok (Rewrite.exec_context s)]
  dsimp only at hplan ⊢
  rw [hplan]
  exact exec_withPlan hexec

theorem transparent_ready (hg : s.graph.Regular)
    (hm : transparent.pattern.matchAt s.graph id = some m)
    (hcan : transparent.canApply s.context s.graph m = .ok true) :
    ∃ s', exec (transparent.apply m) s = .ok (.ok true, s') := by
  obtain ⟨rank, hr⟩ := hg.acyclic
  obtain ⟨n, hn, hkind, rfl⟩ := Pattern.matchAt_eq_some hm
  obtain ⟨plan, hplan⟩ := Option.isSome_iff_exists.mp (Except.ok.inj hcan)
  obtain ⟨t, hexec, -⟩ := moved_done (.inr rfl) hg hr hn hkind (Layout.chain_of_transparent hplan)
    plan.params (Layout.keepsType s.graph id n.kind s.context.params.updatePrecisions)
  refine ⟨t, ?_⟩
  rw [apply, exec_bind_ok (Rewrite.exec_graph s), exec_bind_ok (Rewrite.exec_context s)]
  dsimp only at hplan ⊢
  rw [hplan]
  exact exec_withPlan hexec

theorem foldConvert_ready (hg : s.graph.Regular)
    (hm : foldConvert.pattern.matchAt s.graph id = some m) :
    ∃ s', exec (foldConvert.apply m) s = .ok (.ok true, s') := by
  obtain ⟨rank, hr⟩ := hg.acyclic
  obtain ⟨n, hn, hkind, rfl⟩ := Pattern.matchAt_eq_some hm
  have hconstant := Pattern.holds_of_matchAt hm hn (.constantInput 0) (by simp [pattern])
  obtain ⟨value, hvalue⟩ := Constraint.constant_of_holds hconstant
  rw [Graph.input?, hn] at hvalue
  obtain ⟨destination, hop⟩ := Op.exists_destination (List.mem_singleton.mp hkind)
  obtain ⟨t, hexec, -⟩ := foldConvert_done hg hr hn hop hvalue
  exact ⟨t, hexec⟩

theorem ranged_ready {f : α → α → α} {rule : Rule} {n : Node α}
    (hrule : rule = .fuseSubtract ∨ rule = .fuseMultiply) (hg : s.graph.Regular)
    (hready : Ready s.graph id rule) (hn : s.graph.node? id = some n)
    (hkind : n.kind ∈ rule.pattern.kinds) (hcan : (RangeFusion.source? s.graph id).isSome) :
    ∃ s', exec (Rewrite.edit (RangeFusion.apply id f)) s = .ok (.ok true, s') := by
  obtain ⟨rank, hr⟩ := hg.acyclic
  obtain ⟨⟨fakeQuantize, value⟩, hsource⟩ := Option.isSome_iff_exists.mp hcan
  obtain ⟨k, -, hk, -, -, ⟨low, hlow⟩, ⟨high, hhigh⟩, -⟩ := RangeFusion.source?_eq_some hsource
  have hbound : ∀ index, (s.graph.input? fakeQuantize index) = k.input? index := by
    intro index
    rw [Graph.input?, hk]
    rfl
  rw [← hbound] at hlow hhigh
  have hjoins : ∀ index bound, index = 3 ∨ index = 4 →
      (s.graph.input? fakeQuantize index).bind s.graph.constant? = some bound → bound.Joins value := by
    rcases hrule with rfl | rfl <;> exact hready fakeQuantize value hsource
  obtain ⟨outLow, hl⟩ := Tensor.broadcastZip_ok (hjoins 3 low (.inl rfl) hlow) f
  obtain ⟨outHigh, hh⟩ := Tensor.broadcastZip_ok (hjoins 4 high (.inr rfl) hhigh) f
  obtain ⟨t, hexec, -⟩ := ranged_done hrule hg hr hn hkind hsource hlow hhigh hl hh
  exact ⟨t, hexec⟩

/-- A rule whose check succeeds rewrites the graph. -/
theorem done_if_ready (rule : Rule) {s : Session Binary32} (hg : s.graph.Regular)
    (hready : rule.Ready s.graph id) (hm : rule.pattern.matchAt s.graph id = some m)
    (hcan : rule.canApply s.context s.graph m = .ok true) :
    ∃ s', exec (rule.apply m) s = .ok (.ok true, s') := by
  cases rule with
  | decomposition => exact decomposition_ready orderedGrids_binary hg hready hm hcan
  | convertFusion => exact convertFusion_ready hg hm hcan
  | matMul => exact matMul_ready hg hm hcan
  | convolution => exact convolution_ready hg hm hcan
  | concat => exact concat_ready hg hready hm hcan
  | sanitization => exact sanitization_ready hg hm hcan
  | depthToSpace => exact depthToSpace_ready hg hm hcan
  | transparent => exact transparent_ready hg hm hcan
  | foldConvert => exact foldConvert_ready hg hm
  | fuseSubtract =>
    obtain ⟨n, hn, hkind, rfl⟩ := Pattern.matchAt_eq_some hm
    exact ranged_ready (.inl rfl) hg hready hn hkind (Except.ok.inj hcan)
  | fuseMultiply =>
    obtain ⟨n, hn, hkind, rfl⟩ := Pattern.matchAt_eq_some hm
    exact ranged_ready (.inr rfl) hg hready hn hkind (Except.ok.inj hcan)

def evenRanges : Graph Binary32 :=
  Graph.assemble [("weights", .constant ⟨[2, 1], [Arithmetic.ofRat 1, Arithmetic.ofRat 2]⟩, [],
      [⟨.f32, some [2, 1]⟩]),
    ("low", .constant (Tensor.scalar (Arithmetic.ofRat 0)), [], [⟨.f32, some []⟩]),
    ("high", .constant (Tensor.scalar (Arithmetic.ofRat (51 / 20))), [], [⟨.f32, some []⟩]),
    ("fq", .fakeQuantize 256, [⟨0, 0⟩, ⟨1, 0⟩, ⟨2, 0⟩, ⟨1, 0⟩, ⟨2, 0⟩], [⟨.f32, some [2, 1]⟩]),
    ("out", .result, [⟨3, 0⟩], [])]

theorem evenRanges_ready : Ready evenRanges 3 decomposition := by
  have htypes : Markup.allowedPrecisions evenRanges 3 = .eightBit := by decide +kernel
  refine ⟨fun type htype => ?_, fun r hr => ?_⟩
  · rw [htypes, PrecisionSet.eightBit] at htype
    simpa [or_comm] using htype
  · let low : Tensor Binary32 := Tensor.scalar (Arithmetic.ofRat 0)
    let high : Tensor Binary32 := Tensor.scalar (Arithmetic.ofRat (51 / 20))
    have hranges : (Ranges.ofNode evenRanges 3).toOption = some ⟨256, low, high, low, high⟩ := by
      decide +kernel
    rw [hr] at hranges
    obtain rfl := Option.some.inj hranges
    refine ⟨by decide +kernel, fun w hw => ?_⟩
    have hweights : (evenRanges.input? 3 0).bind evenRanges.constant? =
        some ⟨[2, 1], [Arithmetic.ofRat 1, Arithmetic.ofRat 2]⟩ := by decide +kernel
    obtain rfl := Option.some.inj (hweights.symm.trans hw)
    exact ⟨.inl rfl, by decide +kernel, by decide +kernel, 2, by decide +kernel⟩

theorem done_if_ready_of_evenRanges :
    evenRanges.Regular ∧ Ready evenRanges 3 decomposition ∧
      decomposition.pattern.matchAt evenRanges 3 = some ⟨3, .fakeQuantize, [0, 1, 2, 1, 2], [4]⟩ ∧
      ∃ s', exec (decomposition.apply ⟨3, .fakeQuantize, [0, 1, 2, 1, 2], [4]⟩)
        (⟨evenRanges, .start .default⟩ : Session Binary32) = .ok (.ok true, s') := by
  have hg : evenRanges.Regular := Graph.assemble_regular (by decide)
  have hm : decomposition.pattern.matchAt evenRanges 3 =
      some ⟨3, .fakeQuantize, [0, 1, 2, 1, 2], [4]⟩ := by decide +kernel
  exact ⟨hg, evenRanges_ready, hm, done_if_ready decomposition
    (s := ⟨evenRanges, .start .default⟩) hg evenRanges_ready hm (by decide +kernel)⟩

theorem unevenRanges_accepted_and_failed :
    unevenRanges.Regular ∧ Markup.allowedPrecisions unevenRanges 5 = .eightBit ∧
      decomposition.pattern.matchAt unevenRanges 5 =
        some ⟨5, .fakeQuantize, [0, 1, 2, 3, 4], [6]⟩ ∧
      decomposition.canApply (.start .default) unevenRanges
        ⟨5, .fakeQuantize, [0, 1, 2, 3, 4], [6]⟩ = .ok true ∧
      (exec (decomposition.apply ⟨5, .fakeQuantize, [0, 1, 2, 3, 4], [6]⟩)
        (⟨unevenRanges, .start .default⟩ : Session Binary32)).map Prod.fst = .ok (.error
          (.invalidDetails "input range of fq does not match its 1 channels")) :=
  ⟨Graph.assemble_regular (by decide), by decide +kernel, by decide +kernel, by decide +kernel,
    by decide +kernel⟩

end Rule

end LowPrecision
