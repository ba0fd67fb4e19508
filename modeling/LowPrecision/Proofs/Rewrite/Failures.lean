import LowPrecision.Proofs.Rewrite.Completion

namespace LowPrecision

namespace Rule

variable {α : Type} [Scalar α] {id : NodeId} {m : NodeMatch} {s s' : Session α}

theorem concat_error_free (hg : s.graph.Regular) (hplain : s.graph.Plain)
    (hm : concat.pattern.matchAt s.graph id = some m) (e : TransformError) :
    exec (concat.apply m) s ≠ .ok (.error e, s') := by
  obtain ⟨n, hn, -, rfl⟩ := Pattern.matchAt_eq_some hm
  rw [apply, exec_bind_ok (Rewrite.exec_graph s), exec_bind_ok (Rewrite.exec_context s)]
  intro hrun
  rcases exec_bind_eq_ok.mp hrun with ⟨plan?, t, hplan, hrest⟩ | ⟨e', hplan, -⟩
  rotate_left
  · exact exec_lift_ne_error _ _ _ _ hplan
  obtain ⟨hplan, rfl⟩ := exec_lift_eq_ok.mp hplan
  rcases withPlan_cases hrest with ⟨-, hfalse, -⟩ | ⟨plan, r, rfl, happly, herror⟩
  · cases hfalse
  · rcases ConcatPlan.apply_completes _ hg hplain (ConcatPlan.accepted_of_ofConcat? hplan)
      (.inl trivial) with ⟨-, fault, hfault⟩ | ⟨t', hok⟩
    · rw [hfault] at happly
      cases happly
    · rw [hok] at happly
      cases happly
      cases herror

/-- A rule that answers that it did nothing, or with an error, has not touched the graph. A
concatenation can only stop midway when fake-quantizes or constants have inputs besides their own. -/
theorem graph_unchanged_unless_done (rule : Rule) {r : Except TransformError Bool}
    (hg : s.graph.Regular) (hplain : rule = .concat → s.graph.Plain)
    (hm : rule.pattern.matchAt s.graph id = some m) (hrun : exec (rule.apply m) s = .ok (r, s'))
    (hr : r ≠ .ok true) : s'.graph = s.graph := by
  obtain ⟨rank, hrank⟩ := hg.acyclic
  cases apply_cases hg hrank hm hrun with
  | done heffect => exact absurd rfl hr
  | skipped hr hgraph hhandled => exact hgraph
  | stopped hrule he hgraph hhandled =>
    subst hrule
    exact absurd hrun (concat_error_free hg (hplain rfl) hm _)

def unevenRanges : Graph Binary32 :=
  Graph.assemble [("weights", .constant ⟨[2, 1], [Arithmetic.ofRat 1, Arithmetic.ofRat 2]⟩, [],
      [⟨.f32, some [2, 1]⟩]),
    ("input_low", .constant ⟨[2, 1], [Arithmetic.ofRat 0, Arithmetic.ofRat 0]⟩, [],
      [⟨.f32, some [2, 1]⟩]),
    ("input_high", .constant ⟨[2, 1], [Arithmetic.ofRat (51 / 20), Arithmetic.ofRat (51 / 10)]⟩, [],
      [⟨.f32, some [2, 1]⟩]),
    ("low", .constant (Tensor.scalar (Arithmetic.ofRat 0)), [], [⟨.f32, some []⟩]),
    ("high", .constant (Tensor.scalar (Arithmetic.ofRat (51 / 20))), [], [⟨.f32, some []⟩]),
    ("fq", .fakeQuantize 256, [⟨0, 0⟩, ⟨1, 0⟩, ⟨2, 0⟩, ⟨3, 0⟩, ⟨4, 0⟩], [⟨.f32, some [2, 1]⟩]),
    ("joined", .concat 1, [⟨0, 0⟩, ⟨5, 0⟩], [⟨.f32, some [2, 2]⟩]),
    ("out", .result, [⟨6, 0⟩], [])]

theorem graph_unchanged_of_unevenRanges :
    unevenRanges.Regular ∧ unevenRanges.Plain ∧
      (∃ e s', exec (decomposition.apply ⟨5, .fakeQuantize, [0, 1, 2, 3, 4], [6]⟩)
        (⟨unevenRanges, .start .default⟩ : Session Binary32) = .ok (.error e, s') ∧
          s'.graph = unevenRanges) ∧
      ∃ s', exec (concat.apply ⟨6, .concat, [0, 5], [7]⟩)
        (⟨unevenRanges, .start .default⟩ : Session Binary32) = .ok (.ok false, s') ∧
          s'.graph = unevenRanges := by
  have hg : unevenRanges.Regular := Graph.assemble_regular (by decide)
  have hplain : unevenRanges.Plain := Graph.assemble_plain (by decide) (by decide)
  have hfailed : (exec (decomposition.apply ⟨5, .fakeQuantize, [0, 1, 2, 3, 4], [6]⟩)
      (⟨unevenRanges, .start .default⟩ : Session Binary32)).map Prod.fst = .ok (.error
        (.invalidDetails "input range of fq does not match its 1 channels")) := by decide +kernel
  have hskipped : (exec (concat.apply ⟨6, .concat, [0, 5], [7]⟩)
      (⟨unevenRanges, .start .default⟩ : Session Binary32)).map Prod.fst = .ok (.ok false) := by
    decide +kernel
  obtain ⟨⟨_, s₁⟩, hrun₁, rfl⟩ := except_map_eq_ok.mp hfailed
  obtain ⟨⟨_, s₂⟩, hrun₂, rfl⟩ := except_map_eq_ok.mp hskipped
  have hm₁ : decomposition.pattern.matchAt unevenRanges 5 =
      some ⟨5, .fakeQuantize, [0, 1, 2, 3, 4], [6]⟩ := by decide +kernel
  have hm₂ : concat.pattern.matchAt unevenRanges 6 = some ⟨6, .concat, [0, 5], [7]⟩ := by
    decide +kernel
  exact ⟨hg, hplain,
    ⟨_, s₁, hrun₁, graph_unchanged_unless_done decomposition hg (by simp) hm₁ hrun₁ (by simp)⟩,
    s₂, hrun₂, graph_unchanged_unless_done concat hg (fun _ => hplain) hm₂ hrun₂ (by simp)⟩

def sixthInput : Graph Binary32 :=
  Graph.assemble [("x", .parameter, [], [⟨.f32, some [1, 3, 4, 4]⟩]),
    ("lo", .constant (Tensor.scalar (Arithmetic.ofRat 0)), [], [⟨.f32, some []⟩]),
    ("hi", .constant (Tensor.scalar (Arithmetic.ofRat (51 / 20))), [], [⟨.f32, some []⟩]),
    ("fq_b", .fakeQuantize 256, [⟨0, 0⟩, ⟨1, 0⟩, ⟨2, 0⟩, ⟨1, 0⟩, ⟨2, 0⟩],
      [⟨.f32, some [1, 3, 4, 4]⟩]),
    ("fq_c", .fakeQuantize 256, [⟨0, 0⟩, ⟨1, 0⟩, ⟨2, 0⟩, ⟨1, 0⟩, ⟨2, 0⟩],
      [⟨.f32, some [1, 3, 4, 4]⟩]),
    ("concat2", .concat 1, [⟨4, 0⟩, ⟨3, 0⟩], [⟨.f32, some [1, 6, 4, 4]⟩]),
    ("fq_a", .fakeQuantize 256, [⟨0, 0⟩, ⟨1, 0⟩, ⟨2, 0⟩, ⟨1, 0⟩, ⟨2, 0⟩, ⟨5, 0⟩],
      [⟨.f32, some [1, 3, 4, 4]⟩]),
    ("concat1", .concat 1, [⟨6, 0⟩, ⟨4, 0⟩], [⟨.f32, some [1, 6, 4, 4]⟩]),
    ("out", .result, [⟨7, 0⟩], [])]

theorem sixthInput_partly_rewritten :
    sixthInput.Regular ∧ concat.pattern.matchAt sixthInput 7 = some ⟨7, .concat, [6, 4], [8]⟩ ∧
      ∃ s', exec (concat.apply ⟨7, .concat, [6, 4], [8]⟩)
        (⟨sixthInput, .start .default⟩ : Session Binary32) =
          .ok (.error (.graph (.unknownNode 3)), s') ∧ s'.graph ≠ sixthInput := by
  have hrun : (exec (concat.apply ⟨7, .concat, [6, 4], [8]⟩)
      (⟨sixthInput, .start .default⟩ : Session Binary32)).map
        (fun out => (out.1, out.2.graph.nodes.size)) =
      .ok (.error (.graph (.unknownNode 3)), 15) := by decide +kernel
  obtain ⟨⟨_, s'⟩, hexec, hout⟩ := except_map_eq_ok.mp hrun
  obtain ⟨rfl, hsize⟩ := Prod.mk.inj hout
  refine ⟨Graph.assemble_regular (by decide), by decide +kernel, s', hexec, fun hsame => ?_⟩
  have hnine : sixthInput.nodes.size = 9 := by decide +kernel
  rw [hsame, hnine] at hsize
  cases hsize

end Rule

end LowPrecision
