import LowPrecision.Proofs.Pipeline.FixedPoints

namespace LowPrecision

variable {α : Type} [Scalar α] {c : Context} {g : Graph α} {id : NodeId}

namespace Decomposition

structure Eligible (c : Context) (g : Graph α) (id : NodeId) : Prop where
  pending : ∃ n p, g.node? id = some n ∧ n.kind = .fakeQuantize ∧ c.isHandled n.name = false ∧
    n.output? 0 = some p ∧ p.elementType.isFloat = true
  constants : ∀ index ∈ [1, 2, 3, 4], g.inputKind? id index = some .constant
  grid : ∃ r lows highs grid, Ranges.ofNode g id = .ok r ∧ r.hasSupportedLayout g id = true ∧
    r.outputBounds = .ok (lows, highs) ∧
    (Grid.select lows highs r.levels (Markup.allowedPrecisions g id)).run = .ok (.ok (some grid)) ∧
    (grid.hasZeroPoint = true → c.params.supportAsymmetric = true)

theorem Eligible.matches (h : Eligible c g id) :
    ∃ m, Rule.decomposition.pattern.matchAt g id = some m ∧ m.node = id := by
  obtain ⟨n, p, hn, hkind, -⟩ := h.pending
  have hholds : ∀ constraint ∈ Rule.decomposition.pattern.constraints,
      constraint.holds g id n = true := by
    simpa [Rule.pattern, Constraint.holds] using h.constants
  refine ⟨⟨id, n.kind, n.producers, g.readerNodes id⟩, ?_, rfl⟩
  have hmem : n.kind ∈ Rule.decomposition.pattern.kinds := by simp [hkind, Rule.pattern]
  simpa [Pattern.matchAt, hn, hmem] using hholds

theorem Eligible.canApply_eq (h : Eligible c g id) {deferred : Bool}
    (hdeferred : isDeferred c g id = .ok deferred) : canApply c g id = .ok !deferred := by
  obtain ⟨n, p, hn, -, hopen, hport, hfloat⟩ := h.pending
  obtain ⟨r, lows, highs, grid, hr, hlayout, hbounds, hselect, hzero⟩ := h.grid
  have hfree : (c.isHandled n.name || !(n.output? 0).any (·.elementType.isFloat)) = false := by
    simp [hopen, hport, hfloat]
  have hzeroPoint : (grid.hasZeroPoint && !c.params.supportAsymmetric) = false := by
    cases hz : grid.hasZeroPoint <;> simp_all
  simp only [canApply, hn, hfree, hr, hlayout, hbounds, bind, Except.bind]
  simp only [hselect, hzeroPoint, hdeferred]
  rfl

end Decomposition

namespace Pipeline

variable {s : Session α}

theorem ofConcat?_of_quiet (hquiet : Quiet s id) (hkind : s.graph.kind? id = some .concat) :
    ConcatPlan.ofConcat? s.context s.graph id = .ok none := by
  obtain ⟨n, hn, hconcat⟩ := Option.map_eq_some_iff.mp hkind
  have hm : Rule.concat.pattern.matchAt s.graph id =
      some ⟨id, n.kind, n.producers, s.graph.readerNodes id⟩ := by
    simp [Pattern.matchAt, hn, Rule.pattern, hconcat]
  have hdeclines := hquiet .concat hkind .concat (by simp [Rule.forKind]) _ hm
  obtain ⟨plan, hplan, hnone⟩ := except_bind_eq_ok.mp hdeclines
  cases plan with
  | none => exact hplan
  | some plan => cases hnone

theorem not_deferred_of_quiet (hquiet : ∀ id, Quiet s id) (id : NodeId) :
    Decomposition.isDeferred s.context s.graph id = .ok false := by
  have hconcats : ∀ concat ∈ Decomposition.alignedConcats s.graph id,
      s.graph.kind? concat = some .concat := by
    intro concat hconcat
    rw [Decomposition.alignedConcats] at hconcat
    split at hconcat
    · cases hconcat
    · obtain ⟨⟨v, n⟩, hn, rfl⟩ := List.mem_map.mp (List.mem_filter.mp hconcat).1
      obtain ⟨hlive, hkind⟩ := List.mem_filter.mp hn
      rw [Graph.kind?, Graph.WellFormed.mem_liveNodes.mp hlive]
      exact congrArg some (of_decide_eq_true hkind)
  rw [Decomposition.isDeferred]
  generalize Decomposition.alignedConcats s.graph id = concats at hconcats
  induction concats with
  | nil => rfl
  | cons concat concats ih =>
    obtain ⟨hkind, hrest⟩ := List.forall_mem_cons.mp hconcats
    rw [List.anyM, ofConcat?_of_quiet (hquiet concat) hkind]
    exact ih hrest

/-- Where rule matching has converged, no fake-quantize waits for a concatenation, and none is left
that can be decomposed. -/
theorem no_eligible_left (settings : Settings) (g : Graph α) (report : Report) (s : Session α)
    (hg : g.WellFormed) (hmatched : Matched settings g report s) (hconverged : report.converged = true)
    (id : NodeId) : Decomposition.isDeferred s.context s.graph id = .ok false ∧
      ¬ Decomposition.Eligible s.context s.graph id := by
  have hquiet := ((hmatched.answer hg).2 hconverged).2
  have hdeferred := not_deferred_of_quiet hquiet id
  refine ⟨hdeferred, fun heligible => ?_⟩
  obtain ⟨m, hm, rfl⟩ := heligible.matches
  obtain ⟨n, p, hn, hkind, -⟩ := heligible.pending
  have hdeclines := hquiet _ .fakeQuantize (by rw [Graph.kind?, hn]; exact congrArg some hkind)
    .decomposition (by simp [Rule.forKind]) m hm
  cases hdeclines.symm.trans (heligible.canApply_eq hdeferred)

def joined : Graph Binary32 :=
  Graph.assemble [("x", .parameter, [], [⟨.f32, some [1, 3]⟩]),
    ("low", .constant (Tensor.scalar (Arithmetic.ofRat 0)), [], [⟨.f32, some []⟩]),
    ("high", .constant (Tensor.scalar (Arithmetic.ofRat (51 / 20))), [], [⟨.f32, some []⟩]),
    ("left", .fakeQuantize 256, [⟨0, 0⟩, ⟨1, 0⟩, ⟨2, 0⟩, ⟨1, 0⟩, ⟨2, 0⟩], [⟨.f32, some [1, 3]⟩]),
    ("right", .fakeQuantize 256, [⟨0, 0⟩, ⟨1, 0⟩, ⟨2, 0⟩, ⟨1, 0⟩, ⟨2, 0⟩], [⟨.f32, some [1, 3]⟩]),
    ("both", .concat 1, [⟨3, 0⟩, ⟨4, 0⟩], [⟨.f32, some [1, 6]⟩]),
    ("y", .result, [⟨5, 0⟩], [])]

theorem no_eligible_left_of_joined :
    ((exec (analyses Settings.default) ⟨joined, .start .default⟩).map fun out =>
      [3, 4].map (Decomposition.isDeferred out.2.context out.2.graph)) =
        .ok [.ok true, .ok true] ∧
    joined.WellFormed ∧ ∃ report s, Matched (Settings.default.bounded 3) joined report s ∧
      report.converged = true ∧ ∀ id,
        Decomposition.isDeferred s.context s.graph id = .ok false ∧
          ¬ Decomposition.Eligible s.context s.graph id := by
  have hg : joined.WellFormed := (Graph.assemble_regular (by decide) : joined.Regular).wellFormed
  have hrun : ((run (Settings.default.bounded 3) joined).map fun out =>
      out.1.map Report.converged) = .ok (.ok true) := by decide +kernel
  obtain ⟨⟨outcome, g'⟩, hrun, houtcome⟩ := except_map_eq_ok.mp hrun
  obtain ⟨report, rfl, hconverged⟩ := except_map_eq_ok.mp houtcome
  obtain ⟨swept, s, counts, s', hmatched, -, -, rfl⟩ := matched_of_run hrun
  exact ⟨by decide +kernel, hg, swept, s, hmatched, hconverged,
    no_eligible_left _ joined swept s hg hmatched hconverged⟩

end Pipeline

end LowPrecision
