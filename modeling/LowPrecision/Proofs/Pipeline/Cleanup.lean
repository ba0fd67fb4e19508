import LowPrecision.Proofs.Pipeline.FixedPoints

namespace LowPrecision

variable {α : Type} [Scalar α] {id : NodeId} {rule : Rule} {s s' : Session α}

theorem Rule.mem_forKind {kind : OpKind} (hrule : rule ∉ cleanup) (hkind : kind ∈ rule.pattern.kinds) :
    rule ∈ forKind kind := by
  cases rule <;> first | exact absurd (by decide) hrule | (revert kind; decide)

theorem Rule.declines_of_kind
    (h : ∀ kind ∈ rule.pattern.kinds, s.graph.kind? id ≠ some kind) :
    rule.Declines s.context s.graph id := by
  intro m hm
  obtain ⟨n, hn, hkind, -⟩ := Pattern.matchAt_eq_some hm
  exact absurd (by rw [Graph.kind?, hn]; rfl) (h n.kind hkind)

namespace Pipeline

theorem Quiet.declines (h : Quiet s id) (hrule : rule ∉ Rule.cleanup) :
    rule.Declines s.context s.graph id := by
  by_cases hkind : ∃ kind ∈ rule.pattern.kinds, s.graph.kind? id = some kind
  · obtain ⟨kind, hmem, hkind⟩ := hkind
    exact h kind hkind rule (Rule.mem_forKind hrule hmem)
  · exact Rule.declines_of_kind fun kind hmem hk => hkind ⟨kind, hmem, hk⟩

theorem cleanupSweep_answer {count : Nat} (hg : s.graph.WellFormed)
    (hrun : exec (cleanupSweep rule) s = .ok (.ok count, s')) :
    s.graph.Descends s'.graph ∧
      (count = 0 → s' = s ∧ ∀ id, rule.Declines s.context s.graph id) := by
  obtain ⟨hfires, hidle⟩ := passes_sweep hg hrun
  refine ⟨descends_of_fires hfires hg, fun hzero => ?_⟩
  obtain ⟨hsame, hdeclines⟩ := hidle hzero
  refine ⟨hsame, fun id => ?_⟩
  by_cases hkind : ∃ kind ∈ rule.pattern.kinds, s.graph.kind? id = some kind
  · obtain ⟨kind, hmem, hkind⟩ := hkind
    exact hdeclines id kind hkind rule (by simp [hmem])
  · exact Rule.declines_of_kind fun kind hmem hk => hkind ⟨kind, hmem, hk⟩

theorem stages_answer {rules : List Rule} {counts : List Nat} (hg : s.graph.WellFormed)
    (hrun : exec (rules.mapM fun rule => ExceptT.adapt (RunError.cleanup rule) (cleanupSweep rule)) s =
      .ok (.ok counts, s')) :
    ((∀ rewrites ∈ counts, rewrites = 0) → s' = s) ∧
      ∀ stage, (∀ rewrites ∈ counts.drop stage, rewrites = 0) →
        ∀ rule ∈ rules.drop stage, ∀ id, rule.Declines s'.context s'.graph id := by
  induction rules generalizing s counts with
  | nil =>
    cases hrun
    exact ⟨fun _ => rfl, by simp⟩
  | cons rule rules ih =>
    rw [List.mapM_cons] at hrun
    obtain ⟨count, t, hstage, hrun⟩ := exec_bind_eq_answer.mp hrun
    obtain ⟨rest, t', hrest, hpure⟩ := exec_bind_eq_answer.mp hrun
    cases hpure
    rw [exec_adapt_eq_ok] at hstage
    obtain ⟨hdescends, hidle⟩ := cleanupSweep_answer hg hstage
    obtain ⟨hsame, hlater⟩ := ih hdescends.wellFormed hrest
    refine ⟨fun hzero => ?_, fun stage hzero => ?_⟩
    · obtain ⟨hcount, hzero⟩ := List.forall_mem_cons.mp hzero
      exact (hsame hzero).trans (hidle hcount).1
    · cases stage with
      | zero =>
        obtain ⟨hcount, hzero⟩ := List.forall_mem_cons.mp hzero
        obtain rfl := hsame hzero
        obtain ⟨rfl, hdeclines⟩ := hidle hcount
        exact List.forall_mem_cons.mpr ⟨hdeclines, hlater 0 hzero⟩
      | succ stage => exact hlater stage hzero

/-- Cleanup rules decline every node of the final graph from the stage on from which nothing is rewritten
any more. A run that converges and whose cleanup rewrites nothing ends in a normal form of all rules. -/
theorem idle_cleanup_is_normal_form (settings : Settings) (g : Graph α) (report : Report)
    (s' : Session α) (hg : g.WellFormed)
    (hrun : exec (transform settings) ⟨g, .start settings.params⟩ = .ok (.ok report, s')) :
    (∃ swept s counts, Matched settings g swept s ∧ exec tidying s = .ok (.ok counts, s') ∧
      report.cleanupRewrites = counts.sum ∧
      ∀ stage, (∀ rewrites ∈ counts.drop stage, rewrites = 0) →
        ∀ rule ∈ Rule.cleanup.drop stage, ∀ id, rule.Declines s'.context s'.graph id) ∧
    (report.converged = true → report.cleanupRewrites = 0 →
      ∀ (rule : Rule) id, rule.Declines s'.context s'.graph id) := by
  obtain ⟨swept, s, counts, hmatched, htidying, rfl⟩ := matched_of_transform hrun
  obtain ⟨⟨s₁, -, hg₁, hevolves⟩, hquiet⟩ := hmatched.answer hg
  obtain ⟨hsame, hstages⟩ := stages_answer (hevolves.descends hg₁).wellFormed htidying
  refine ⟨⟨swept, s, counts, hmatched, htidying, List.sum_eq_foldl.symm, hstages⟩,
    fun hconverged hidle rule id => ?_⟩
  have hzero : ∀ rewrites ∈ counts, rewrites = 0 :=
    List.sum_eq_zero_iff.mp (List.sum_eq_foldl.trans hidle)
  by_cases hrule : rule ∈ Rule.cleanup
  · exact hstages 0 hzero rule hrule id
  · obtain rfl := hsame hzero
    exact ((hquiet hconverged).2 id).declines hrule

def convolved (low high : Rat) : Graph Binary32 :=
  Graph.assemble [("x", .parameter, [], [⟨.f32, some [1, 1, 1, 1]⟩]),
    ("low", .constant (Tensor.scalar (Arithmetic.ofRat low)), [], [⟨.f32, some []⟩]),
    ("high", .constant (Tensor.scalar (Arithmetic.ofRat high)), [], [⟨.f32, some []⟩]),
    ("data", .fakeQuantize 256, [⟨0, 0⟩, ⟨1, 0⟩, ⟨2, 0⟩, ⟨1, 0⟩, ⟨2, 0⟩],
      [⟨.f32, some [1, 1, 1, 1]⟩]),
    ("kernel", .constant ⟨[1, 1, 1, 1], [Arithmetic.ofRat 1]⟩, [], [⟨.f32, some [1, 1, 1, 1]⟩]),
    ("lowest", .constant (Tensor.scalar (Arithmetic.ofRat (-127 / 100))), [], [⟨.f32, some []⟩]),
    ("highest", .constant (Tensor.scalar (Arithmetic.ofRat (127 / 100))), [], [⟨.f32, some []⟩]),
    ("weights", .fakeQuantize 255, [⟨4, 0⟩, ⟨5, 0⟩, ⟨6, 0⟩, ⟨5, 0⟩, ⟨6, 0⟩],
      [⟨.f32, some [1, 1, 1, 1]⟩]),
    ("layer", .convolution, [⟨3, 0⟩, ⟨7, 0⟩], [⟨.f32, some [1, 1, 1, 1]⟩]),
    ("y", .result, [⟨8, 0⟩], [])]

theorem convolved_wellFormed (low high : Rat) : (convolved low high).WellFormed :=
  (Graph.assemble_ordered _).1

theorem idle_cleanup_of_convolved :
    (convolved 0 (51 / 20)).WellFormed ∧ ∃ report s',
      exec (transform .default) ⟨convolved 0 (51 / 20), .start Settings.default.params⟩ =
        .ok (.ok report, s') ∧ report.converged = true ∧ report.cleanupRewrites = 0 ∧
      report.rewrites = 3 ∧ ∀ (rule : Rule) id, rule.Declines s'.context s'.graph id := by
  have hrun : ((exec (transform .default)
      ⟨convolved 0 (51 / 20), .start Settings.default.params⟩).map fun out =>
        out.1.map fun report => (report.converged, report.cleanupRewrites, report.rewrites)) =
      .ok (.ok (true, 0, 3)) := by decide +kernel
  obtain ⟨⟨outcome, s'⟩, hrun, houtcome⟩ := except_map_eq_ok.mp hrun
  obtain ⟨report, rfl, hreport⟩ := except_map_eq_ok.mp houtcome
  obtain ⟨hconverged, hcleanup, hrewrites⟩ := Prod.mk.inj hreport |>.imp_right Prod.mk.inj
  exact ⟨convolved_wellFormed _ _, report, s', hrun, hconverged, hcleanup, hrewrites,
    (idle_cleanup_is_normal_form .default _ report s' (convolved_wellFormed _ _) hrun).2 hconverged
      hcleanup⟩

theorem cleanup_reopens_convolved :
    (convolved (-1) (31 / 20)).WellFormed ∧ ∃ report s',
      exec (transform .default) ⟨convolved (-1) (31 / 20), .start Settings.default.params⟩ =
        .ok (.ok report, s') ∧ report.converged = true ∧
      ∃ m, Rule.convolution.pattern.matchAt s'.graph 8 = some m ∧
        Rule.convolution.canApply s'.context s'.graph m = .ok true := by
  have hrun : ((exec (transform .default)
      ⟨convolved (-1) (31 / 20), .start Settings.default.params⟩).map fun out =>
        (out.1.map Report.converged, (Rule.convolution.pattern.matchAt out.2.graph 8).map
          (Rule.convolution.canApply out.2.context out.2.graph))) =
      .ok (.ok true, some (.ok true)) := by decide +kernel
  obtain ⟨⟨outcome, s'⟩, hrun, houtcome⟩ := except_map_eq_ok.mp hrun
  obtain ⟨houtcome, hmatch⟩ := Prod.mk.inj houtcome
  obtain ⟨report, rfl, hconverged⟩ := except_map_eq_ok.mp houtcome
  obtain ⟨m, hm, hcan⟩ := Option.map_eq_some_iff.mp hmatch
  exact ⟨convolved_wellFormed _ _, report, s', hrun, hconverged, m, hm, hcan⟩

end Pipeline

end LowPrecision
