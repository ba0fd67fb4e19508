import LowPrecision.Proofs.Markup.Independence
import LowPrecision.Proofs.Pipeline.CleanupSweeps
import LowPrecision.Proofs.Pipeline.Recording
import LowPrecision.Proofs.Rewrite.Readiness
import LowPrecision.Proofs.Rewrite.Unquantized

namespace LowPrecision

open LowPrecision.Graph

variable {α : Type} [Scalar α] {g₀ : Graph α} {id : NodeId} {rule : Rule} {s s' : Session α}
  {log : List Firing}

namespace Pipeline

theorem declines_of_unquantized (hg : s.graph.Unquantized) (hsanitization : rule ≠ .sanitization)
    (hfold : rule ≠ .foldConvert) : rule.Declines s.context s.graph id :=
  fun _ hm => Rule.canApply_of_unquantized hg hm hsanitization hfold

theorem declines_or_fires (hg : s.graph.Regular) (hrule : rule = .sanitization ∨ rule = .foldConvert) :
    rule.Declines s.context s.graph id ∨ ∃ s', Fires rule id s s' := by
  cases hm : rule.pattern.matchAt s.graph id with
  | none => exact .inl fun m hm' => by cases hm.symm.trans hm'
  | some m =>
    have hcan : ∃ b, rule.canApply s.context s.graph m = .ok b := by
      rcases hrule with rfl | rfl <;> exact ⟨_, rfl⟩
    obtain ⟨b, hcan⟩ := hcan
    cases b with
    | false =>
      refine .inl fun m' hm' => ?_
      cases hm.symm.trans hm'
      exact hcan
    | true =>
      have hready : ∃ s', exec (rule.apply m) s = .ok (.ok true, s') := by
        rcases hrule with rfl | rfl
        · exact Rule.sanitization_ready hg hm hcan
        · exact Rule.foldConvert_ready hg hm
      obtain ⟨s', hrun⟩ := hready
      exact .inr ⟨s', m, hm, hcan, hrun⟩

theorem Fires.sanitizes (hg : s.graph.Regular) (h : Fires .sanitization id s s') :
    s.graph.kind? id = some .constant ∧ ∃ value p, s.graph.port? ⟨id, 0⟩ = some p ∧
      Valued s.graph s'.graph id value p.elementType := by
  obtain ⟨m, hm, -, hrun⟩ := h
  obtain ⟨n, hn, hkind, rfl⟩ := Pattern.matchAt_eq_some hm
  have hconstant : n.kind = .constant := List.mem_singleton.mp hkind
  rw [Rule.apply, exec_bind_ok (Rewrite.exec_graph s), exec_bind_ok (Rewrite.exec_context s)] at hrun
  refine ⟨by rw [kind?, hn, Option.map_some, hconstant], ?_⟩
  exact Sanitize.valued_of_apply hg hn hconstant (Rewrite.exec_edit_eq.mp hrun).1

end Pipeline

namespace Recording

open Pipeline

structure Progress (g₀ : Graph α) (s : Session α × List Firing) : Prop where
  graph : s.1.graph.QuantizerFree
  renewed : g₀.Renewed s.1.graph fun v => ⟨.foldConvert, v⟩ ∈ s.2
  rules (e : Firing) : e ∈ s.2 → e.rule = .sanitization ∨ e.rule = .foldConvert

omit [Scalar α] in
theorem Progress.add (h : Progress g₀ (s, log)) (hg : s'.graph.QuantizerFree)
    (hrule : rule = .sanitization ∨ rule = .foldConvert)
    (hrenewed : g₀.Renewed s'.graph fun v =>
      (⟨.foldConvert, v⟩ : Firing) ∈ log ∨ (⟨.foldConvert, v⟩ : Firing) = ⟨rule, id⟩) :
    Progress g₀ (s', log ++ [⟨rule, id⟩]) where
  graph := hg
  renewed := hrenewed.congr fun v => by rw [List.mem_append, List.mem_singleton]
  rules e he := by
    rcases List.mem_append.mp he with he | he
    · exact h.rules e he
    · exact List.mem_singleton.mp he ▸ hrule

theorem Progress.fold (hg₀ : g₀.WellFormed) (h : Progress g₀ (s, log)) (hfires : Fires .foldConvert id s s') :
    Progress g₀ (s', log ++ [⟨.foldConvert, id⟩]) := by
  have hg := h.graph.toRegularArity
  obtain ⟨hfolds, hrun⟩ := hfires.folds hg.wellFormed
  obtain ⟨value, type, hvalued⟩ := FoldConvert.valued_of_apply hg.toRegular hrun
  have hrenewed := h.renewed.step hg₀ hg hvalued (.inr hfolds.kind) fun _ => hfolds.source_of_reads hg
  exact h.add (h.graph.of_valued hvalued) (.inr rfl) (hrenewed.congr fun v => by simp [hfolds.kind])

theorem Progress.sanitize (hg₀ : g₀.WellFormed) (h : Progress g₀ (s, log)) (hg : s.graph.Unquantized)
    (hfires : Fires .sanitization id s s') :
    Progress g₀ (s', log ++ [⟨.sanitization, id⟩]) ∧ s'.graph.Unquantized := by
  obtain ⟨hkind, value, p, hp, hvalued⟩ := hfires.sanitizes hg.toRegular
  have hrenewed := h.renewed.step hg₀ hg.toRegularArity hvalued (.inl hkind) fun u hread =>
    absurd hread (hg.toRegularArity.not_reads hkind)
  have hg' := hg.of_valued hvalued (hg.float_of_port hp)
  exact ⟨h.add hg'.toQuantizerFree (.inl rfl) (hrenewed.congr fun v => by simp [hkind]), hg'⟩

section Completes

variable {p : Session α × List Firing → Prop}

omit [Scalar α] in
theorem completes_silently {ε β : Type} {x : ExceptT ε (StateT (Session α) Checked) β}
    (h : ∀ log, Completes False (fun s => p (s, log)) x) : Completes False p (silently x) := by
  rintro ⟨s, log⟩ hs
  obtain ⟨b, s', hexec, hs'⟩ := (h log).returns hs
  exact .inr ⟨b, (s', log), by rw [exec_silently, hexec]; rfl, hs'⟩

theorem completes_applyRule (h : ∀ s log, p (s, log) → rule.Declines s.context s.graph id ∨
      ∃ s', Fires rule id s s' ∧ p (s', log ++ [⟨rule, id⟩])) : Completes False p (applyRule id rule) := by
  rintro ⟨s, log⟩ hs
  have hexec : ∀ {b : Bool} {s'}, exec (Pipeline.applyRule id rule) s = .ok (.ok b, s') →
      exec (silently (Pipeline.applyRule id rule)) (s, log) = .ok (.ok b, (s', log)) := by
    intro b s' hrun
    rw [exec_silently, hrun]
    rfl
  rcases h s log hs with hdeclines | ⟨s', hfires, hs'⟩
  · exact .inr ⟨false, (s, log), by
      rw [applyRule, exec_bind_ok (hexec (exec_applyRule_of_declines hdeclines))]; rfl, hs⟩
  · exact .inr ⟨true, (s', log ++ [⟨rule, id⟩]), by
      rw [applyRule, exec_bind_ok (hexec (exec_applyRule_of_fires hfires))]; rfl, hs'⟩

variable (hregular : ∀ s, p s → s.1.graph.Regular)

include hregular

theorem completes_sweep {rules : OpKind → List Rule}
    (h : ∀ id kind, ∀ rule ∈ rules kind, Completes False p (applyRule id rule)) :
    Completes False p (sweep rules) := by
  have horder : ∀ log, Completes False (fun s : Session α => p (s, log))
      (Rewrite.editGraph (Edit.attempt Graph.topologicalOrder)) := fun log s hs => by
    obtain ⟨order, hexec⟩ := exec_order (hregular _ hs)
    exact .inr ⟨order, s, hexec, hs⟩
  have hgraph : ∀ log, Completes False (fun s : Session α => p (s, log)) Rewrite.graph :=
    fun log s hs => .inr ⟨s.graph, s, Rewrite.exec_graph s, hs⟩
  apply (completes_silently horder).bind
  intro order
  refine .foldlM fun rewrites id => ?_
  apply (completes_silently hgraph).bind
  intro g
  cases g.kind? id with
  | none => exact .pure _
  | some kind =>
    apply (Completes.anyM (h id kind)).bind
    intro rewritten
    split <;> exact .pure _

theorem completes_sweeps (h : ∀ id kind, ∀ rule ∈ Rule.forKind kind, Completes False p (applyRule id rule))
    (count : Nat) (report : Report) : Completes False p (sweeps count report) := by
  induction count generalizing report with
  | zero => exact .pure _
  | succ count ih =>
    apply (completes_sweep hregular h).adapt.bind
    intro rewrites
    dsimp only
    split
    · exact .pure _
    · exact ih _

theorem completes_tidying (h : ∀ id, ∀ rule ∈ Rule.cleanup, Completes False p (applyRule id rule)) :
    Completes False p tidying := by
  refine .mapM fun rule hrule => (completes_sweep hregular fun id kind rule' hrule' => ?_).adapt
  split at hrule'
  · exact List.mem_singleton.mp hrule' ▸ h id rule hrule
  · cases hrule'

end Completes

def Matching (g₀ : Graph α) (s : Session α × List Firing) : Prop := Progress g₀ s ∧ s.1.graph.Unquantized

theorem matching_applyRule (hg₀ : g₀.WellFormed) (hrule : rule ∉ Rule.cleanup) :
    Completes False (Matching g₀) (applyRule id rule) := by
  refine completes_applyRule ?_
  rintro s log ⟨h, hg⟩
  by_cases hsanitization : rule = .sanitization
  · subst hsanitization
    refine (declines_or_fires hg.toRegular (.inl rfl)).imp_right ?_
    rintro ⟨s', hfires⟩
    exact ⟨s', hfires, h.sanitize hg₀ hg hfires⟩
  · exact .inl (declines_of_unquantized hg hsanitization fun hfold => hrule (hfold ▸ by decide))

theorem progress_applyRule (hg₀ : g₀.WellFormed) (hrule : rule ∈ Rule.cleanup) :
    Completes False (Progress g₀) (applyRule id rule) := by
  refine completes_applyRule fun s log h => ?_
  simp only [Rule.cleanup, List.mem_cons, List.not_mem_nil, or_false] at hrule
  rcases hrule with rfl | hfuse
  · refine (declines_or_fires h.graph.toRegular (.inr rfl)).imp_right ?_
    rintro ⟨s', hfires⟩
    exact ⟨s', hfires, h.fold hg₀ hfires⟩
  · exact .inl fun _ _ => Rule.canApply_of_quantizerFree h.graph hfuse

theorem matching_analyses (hordered : OrderedGrids α) (settings : Settings) :
    Completes False (Matching g₀) (silently (analyses settings)) := by
  refine completes_silently fun log => .forM fun pass _ => Completes.adapt ?_
  rintro s ⟨h, hg⟩
  obtain ⟨a, hrun, -⟩ := pass.run_ok hordered hg.wellFormed hg.acyclic settings.restrictions
  have hg' := hg.of_attributes a
  refine .inr ⟨(), { s with graph := { s.graph with attributes := a } }, ?_, ?_, hg'⟩
  · rw [Rewrite.exec_edit, hrun]
    rfl
  · exact ⟨hg'.toQuantizerFree, h.renewed.of_attributes a, h.rules⟩

theorem transform_returns (hordered : OrderedGrids α) (settings : Settings) (hg : g₀.Unquantized) :
    ∃ report s', exec (transform settings) (⟨g₀, .start settings.params⟩, []) = .ok (.ok report, s') ∧
      Progress g₀ s' := by
  have hstart : Matching g₀ (⟨g₀, .start settings.params⟩, []) :=
    ⟨⟨hg.toQuantizerFree, (Renewed.refl g₀).congr fun v => by simp, by simp⟩, hg⟩
  obtain ⟨⟨⟩, s₁, hanalyses, h₁⟩ := (matching_analyses hordered settings).returns hstart
  obtain ⟨swept, s₂, hsweeps, h₂, -⟩ := (completes_sweeps (fun _ hs => hs.2.toRegular)
    (fun id kind rule hrule => matching_applyRule hg.wellFormed (forKind_not_cleanup kind rule hrule))
    (max settings.params.maxSweeps 1) ⟨0, 0, false, 0, s₁.1.graph.attributes.conflicts, 0⟩).returns h₁
  obtain ⟨counts, s₃, htidying, h₃⟩ := (completes_tidying (fun _ hs => hs.graph.toRegular)
    fun id rule hrule => progress_applyRule hg.wellFormed hrule).returns h₂
  have hget : ∀ s : Session α × List Firing, exec (silently (ε := RunError) get) s = .ok (.ok s.1, s) :=
    fun s => exec_silently get s.1 s.2
  refine ⟨{ swept with
    cleanupRewrites := counts.foldl (· + ·) 0, degenerate := s₃.1.context.degenerate }, s₃, ?_, h₃⟩
  rw [transform, exec_bind_ok hanalyses, rewriting, exec_bind_ok (hget s₁), exec_bind_ok hsweeps,
    exec_bind_ok htidying, exec_bind_ok (hget s₃), exec_pure]

end Recording

namespace Pipeline

/-- A run on an unquantized graph goes through. Each of its rewrites sanitizes a constant or folds a
conversion, and the graph that it leaves behind is otherwise the one that it was given. -/
theorem run_leaves_unquantized_alone (settings : Settings) {g : Graph Binary32} (hg : g.Unquantized) :
    ∃ report g' log, run settings g = .ok (.ok report, g') ∧
      Recording.run settings g = .ok (.ok report, g', log) ∧
      log.length = report.rewrites + report.cleanupRewrites ∧
      (∀ e ∈ log, e.rule = .sanitization ∨ e.rule = .foldConvert) ∧
      g.LeavesAlone g' fun v => ⟨.foldConvert, v⟩ ∈ log := by
  obtain ⟨report, ⟨s, log⟩, hexec, hprogress⟩ :=
    Recording.transform_returns orderedGrids_binary settings hg
  have hrecorded : Recording.run settings g = .ok (.ok report, s.graph, log) :=
    except_bind_eq_ok.mpr ⟨_, hexec, rfl⟩
  have hrun : run settings g = .ok (.ok report, s.graph) := by
    rw [← Recording.run_erased, hrecorded]
    rfl
  exact ⟨report, s.graph, log, hrun, hrecorded, Recording.length_log hrecorded, hprogress.rules,
    hprogress.renewed.leavesAlone⟩

def lookalike : Graph Binary32 :=
  Graph.assemble [("x", .parameter, [], [⟨.f16, some [1, 2]⟩]),
    ("real", .convert .f32, [⟨0, 0⟩], [⟨.f32, some [1, 2]⟩]),
    ("zero", .constant (Tensor.scalar (Arithmetic.ofRat (1 / 2))), [], [⟨.f16, some []⟩]),
    ("zero_real", .convert .f32, [⟨2, 0⟩], [⟨.f32, some []⟩]),
    ("shifted", .subtract, [⟨1, 0⟩, ⟨3, 0⟩], [⟨.f32, some [1, 2]⟩]),
    ("scale", .constant (Tensor.scalar (Arithmetic.ofRat (2 * Sanitize.highest))), [], [⟨.f32, some []⟩]),
    ("scaled", .multiply, [⟨4, 0⟩, ⟨5, 0⟩], [⟨.f32, some [1, 2]⟩]),
    ("active", .relu, [⟨6, 0⟩], [⟨.f32, some [1, 2]⟩]),
    ("y", .result, [⟨7, 0⟩], [])]

theorem run_leaves_unquantized_alone_of_lookalike : lookalike.Unquantized ∧ ∃ report g',
    run (Settings.default.bounded 3) lookalike = .ok (.ok report, g') ∧
      Recording.run (Settings.default.bounded 3) lookalike =
        .ok (.ok report, g', [⟨.sanitization, 5⟩, ⟨.foldConvert, 3⟩]) ∧
      lookalike.LeavesAlone g' (fun v => v = 3) ∧
      g'.input? 6 1 = some ⟨9, 0⟩ ∧ g'.name? 9 = some "scale" ∧
      g'.input? 4 1 = some ⟨10, 0⟩ ∧ g'.name? 10 = some "zero_real" := by
  have hg : lookalike.Unquantized :=
    Graph.assemble_unquantized (by decide) (by decide) (by decide) (by decide)
  obtain ⟨report, g', log, hrun, hrecorded, -, -, hleaves⟩ :=
    run_leaves_unquantized_alone (Settings.default.bounded 3) hg
  have hviews : (Recording.run (Settings.default.bounded 3) lookalike).map (fun out =>
      (out.2.2, out.2.1.input? 6 1, out.2.1.name? 9, out.2.1.input? 4 1, out.2.1.name? 10)) =
      .ok ([⟨.sanitization, 5⟩, ⟨.foldConvert, 3⟩], some ⟨9, 0⟩, some "scale", some ⟨10, 0⟩,
        some "zero_real") := by decide +kernel
  rw [hrecorded] at hviews
  obtain ⟨rfl, hscale, hscaleName, hzero, hzeroName⟩ : log = _ ∧ _ ∧ _ ∧ _ ∧ _ := by
    simpa [Except.map] using hviews
  have hfolded : (fun v => (⟨.foldConvert, v⟩ : Firing) ∈ [⟨Rule.sanitization, 5⟩, ⟨.foldConvert, 3⟩]) =
      fun v => v = 3 := by
    funext v
    simp
  exact ⟨hg, report, g', hrun, hrecorded, hfolded ▸ hleaves, hscale, hscaleName, hzero, hzeroName⟩

end Pipeline

end LowPrecision
