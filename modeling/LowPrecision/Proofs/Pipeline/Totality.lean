import LowPrecision.Proofs.Markup.Independence
import LowPrecision.Proofs.Pipeline.FixedPoints
import LowPrecision.Proofs.Quantization.Totality
import LowPrecision.Proofs.Rewrite.Acyclicity
import LowPrecision.Proofs.Rewrite.ConfinedRules

/-!
A run comes to an end, with a report or with an error, when the graph has no cycle and its values keep to
limits.
-/

namespace LowPrecision

variable {α : Type} {l : Limits} {g g' : Graph α}

def Graph.Tame (l : Limits) (g : Graph α) : Prop := Confined l g g ∧ g.Acyclic

theorem Graph.Tame.of_attributes (hg : g'.WellFormed) (hacyclic : g.Acyclic)
    (hwithin : ∀ v f, g.face? v = some f → f.Within l) (hface : ∀ v, g'.face? v = g.face? v)
    (hmarked : g'.Marked) : g'.Tame l where
  left :=
    { wellFormed := hg
      size := Nat.le_refl _
      within := fun v f hf => hwithin v f (hface v ▸ hf)
      old := fun _ f _ hf => ⟨f, hf, .refl f⟩
      marked := fun _ he hmark => hmarked.owner he hmark }
  right := hacyclic.of_faces hface

namespace Pipeline

variable [Scalar α] (hordered : OrderedGrids α)
include hordered

theorem Fires.tame {s s' : Session α} {id : NodeId} {rule : Rule} (h : Fires rule id s s')
    (hs : s.graph.Tame l) : s'.graph.Tame l := by
  obtain ⟨hconfined, hacyclic⟩ := hs
  obtain ⟨m, hm, hcan, hrun⟩ := h
  obtain ⟨r, t, hrun', hkeeps⟩ := Rule.apply_ends hordered hconfined hacyclic hm hcan
  cases hrun.symm.trans hrun'
  exact ⟨(hkeeps true rfl).rebase, Rule.apply_acyclic hconfined.wellFormed hacyclic hm hcan hrun⟩

theorem ends_applyRule (id : NodeId) (rule : Rule) :
    Ends (fun s : Session α => s.graph.Tame l) (fun _ s => s.graph.Tame l) (applyRule id rule) := by
  refine .of_done (fun s hs => ?_) fun s b s' hs hrun => ?_
  · obtain ⟨hconfined, hacyclic⟩ := hs
    rw [applyRule, exec_bind_ok (Rewrite.exec_graph s)]
    split
    · exact ⟨_, s, rfl⟩
    next m hm =>
    obtain ⟨b, hcan⟩ := Rule.canApply_ok hordered hconfined hacyclic s.context hm
    rw [exec_bind_ok (Rewrite.exec_context s), exec_bind_ok (exec_lift_eq_ok.mpr ⟨hcan, rfl⟩)]
    cases b with
    | false => exact ⟨_, s, rfl⟩
    | true =>
      obtain ⟨r, t, hrun, -⟩ := Rule.apply_ends hordered hconfined hacyclic hm hcan
      rw [if_pos rfl, exec_tryCatch, hrun]
      cases r with
      | ok done => exact ⟨_, t, rfl⟩
      | error e =>
        dsimp only
        split <;> exact ⟨_, t, rfl⟩
  · rcases applyRule_answer hs.1.wellFormed hrun with ⟨-, hfires⟩ | ⟨-, rfl, -⟩
    · exact hfires.tame hordered hs
    · exact hs

theorem ends_sweep (rules : OpKind → List Rule) :
    Ends (fun s : Session α => s.graph.Tame l) (fun _ s => s.graph.Tame l) (sweep rules) := by
  refine (Rewrite.ends_order (p := Graph.Tame l) fun _ hg => hg.1.wellFormed).bind fun order => .foldlM ?_
  intro rewrites id s hs
  rw [exec_bind_ok (Rewrite.exec_graph s)]
  split
  · exact ⟨_, s, rfl, fun _ _ => hs⟩
  next kind hkind =>
  refine (Ends.anyM fun rule => ends_applyRule hordered id rule).bind (fun rewritten => ?_) s hs
  split <;> exact .pure fun _ hs => hs

theorem ends_sweeps (count : Nat) (report : Report) :
    Ends (fun s : Session α => s.graph.Tame l) (fun _ s => s.graph.Tame l) (sweeps count report) := by
  induction count generalizing report with
  | zero => exact .pure fun _ hs => hs
  | succ count ih =>
    apply (Ends.adapt (ends_sweep hordered Rule.forKind)).bind
    intro rewrites
    dsimp only
    split
    · exact .pure fun _ hs => hs
    · exact ih _

theorem ends_tidying :
    Ends (fun s : Session α => s.graph.Tame l) (fun _ s => s.graph.Tame l) tidying :=
  .mapM fun _ => (ends_sweep hordered _).adapt

theorem ends_pass (pass : MarkupPass) (restrictions : List OperationRestriction) :
    Ends (Graph.WellFormed (α := α)) (fun _ => Graph.WellFormed) (pass.run restrictions) := by
  refine .of_done (fun g hg => pass.run_answers hordered hg restrictions) fun g _ g' hg hrun => ?_
  obtain ⟨a, rfl, -⟩ := MarkupPass.run_writes hrun
  exact hg.of_attributes _

theorem ends_analyses (settings : Settings) (hg : g.WellFormed) (hacyclic : g.Acyclic)
    (hwithin : ∀ v f, g.face? v = some f → f.Within l) :
    Ends (fun s : Session α => s.graph = g) (fun _ s => s.graph.Tame l) (analyses settings) := by
  refine .of_done (fun s hs => ?_) fun s _ s' hs hrun => ?_
  · have hall : Ends (fun s : Session α => s.graph.WellFormed) (fun _ s => s.graph.WellFormed)
        (analyses settings) :=
      .forM fun pass _ => (Rewrite.ends_edit (ends_pass hordered pass settings.restrictions)).adapt
    have hwf : s.graph.WellFormed := hs ▸ hg
    obtain ⟨r, s', hrun, -⟩ := hall s hwf
    exact ⟨r, s', hrun⟩
  · obtain ⟨⟨a, ha⟩, -⟩ := annotates_analyses hrun
    have hanalysed := Markup.analysed_of_analyses (hs ▸ hg) hrun
    refine .of_attributes hanalysed.wellFormed hacyclic hwithin (fun v => ?_) hanalysed.marked
    rw [ha, hs]
    rfl

theorem ends_rewriting (settings : Settings) :
    Ends (fun s : Session α => s.graph.Tame l) (fun _ s => s.graph.Tame l) (rewriting settings) := by
  have hget : Ends (fun s : Session α => s.graph.Tame l) (fun _ s => s.graph.Tame l)
      (get : ExceptT RunError (StateT (Session α) Checked) (Session α)) :=
    fun s hs => ⟨.ok s, s, rfl, fun _ _ => hs⟩
  apply hget.bind
  intro _
  apply (ends_sweeps hordered _ _).bind
  intro _
  apply (ends_tidying hordered).bind
  intro _
  apply hget.bind
  intro _
  exact .pure fun _ hs => hs

theorem ends_run (settings : Settings) (hg : g.WellFormed) (hacyclic : g.Acyclic)
    (hwithin : ∀ v f, g.face? v = some f → f.Within l) :
    ∃ outcome g', run settings g = .ok (outcome, g') ∧ ∀ report, outcome = .ok report → g'.Tame l := by
  have htransform : Ends (fun s : Session α => s.graph = g) (fun _ s => s.graph.Tame l)
      (transform settings) := by
    apply (ends_analyses hordered settings hg hacyclic hwithin).bind
    intro _
    exact ends_rewriting hordered settings
  obtain ⟨outcome, s', hexec, htame⟩ := htransform ⟨g, .start settings.params⟩ rfl
  exact ⟨outcome, s'.graph, except_bind_eq_ok.mpr ⟨(outcome, s'), hexec, rfl⟩, htame⟩

omit hordered

/-- Every run on such a graph ends with a report or with an error. -/
theorem run_returns (l : Limits) (settings : Settings) {g : Graph Binary32} (hg : g.WellFormed)
    (hacyclic : g.Acyclic) (hwithin : ∀ v f, g.face? v = some f → f.Within l) :
    ∃ outcome g', run settings g = .ok (outcome, g') ∧ ∀ report, outcome = .ok report → g'.Tame l :=
  ends_run orderedGrids_binary settings hg hacyclic hwithin

def scaledKernel (scale : Tensor Binary32) (width : Nat) : Graph Binary32 :=
  let weight : Tensor Binary32 := ⟨[1, 1, 1, 1], [Arithmetic.ofRat 1]⟩
  Graph.assemble [("x", .parameter, [], [⟨.u8, some [1, 1, 1, width]⟩]),
    ("real", .convert .f32, [⟨0, 0⟩], [⟨.f32, some [1, 1, 1, width]⟩]),
    ("scale", .constant scale, [], [⟨.f32, some scale.shape⟩]),
    ("scaled", .multiply, [⟨1, 0⟩, ⟨2, 0⟩], [⟨.f32, some [1, 1, 1, width]⟩]),
    ("weights", .constant weight, [], [⟨.i8, some [1, 1, 1, 1]⟩]),
    ("weights_real", .convert .f32, [⟨4, 0⟩], [⟨.f32, some [1, 1, 1, 1]⟩]),
    ("unit", .constant (Tensor.scalar (Arithmetic.ofRat 1)), [], [⟨.f32, some []⟩]),
    ("weights_scaled", .multiply, [⟨5, 0⟩, ⟨6, 0⟩], [⟨.f32, some [1, 1, 1, 1]⟩]),
    ("conv", .convolution, [⟨3, 0⟩, ⟨7, 0⟩], [⟨.f32, some [1, 1, 1, width]⟩]),
    ("y", .result, [⟨8, 0⟩], [])]

theorem run_returns_of_scaledKernel :
    (scaledKernel ⟨[1], [Arithmetic.ofRat 1]⟩ 2).WellFormed ∧
      (scaledKernel ⟨[1], [Arithmetic.ofRat 1]⟩ 2).Acyclic ∧
      ∃ l : Limits, (∀ v f, (scaledKernel ⟨[1], [Arithmetic.ofRat 1]⟩ 2).face? v = some f → f.Within l) ∧
        ∃ outcome g', run .default (scaledKernel ⟨[1], [Arithmetic.ofRat 1]⟩ 2) = .ok (outcome, g') ∧
          ∀ report, outcome = .ok report → g'.Tame l := by
  have hg : (scaledKernel ⟨[1], [Arithmetic.ofRat 1]⟩ 2).WellFormed := (Graph.assemble_ordered _).1
  have hacyclic : (scaledKernel ⟨[1], [Arithmetic.ofRat 1]⟩ 2).Acyclic := Graph.assemble_acyclic _
  let l : Limits := ⟨1, 8, 64, 4, by decide, by decide, by decide, by decide, by decide, by decide⟩
  have hwithin : ∀ v f, (scaledKernel ⟨[1], [Arithmetic.ofRat 1]⟩ 2).face? v = some f → f.Within l := by
    intro v f hf
    obtain ⟨n, hn, rfl⟩ := Graph.assemble_face hf
    simp only [List.mem_cons, List.not_mem_nil, or_false] at hn
    rcases hn with rfl | rfl | rfl | rfl | rfl | rfl | rfl | rfl | rfl | rfl
    all_goals first
      | exact .constant ⟨by decide, rfl⟩ _
      | exact .of_shapes (by decide) (by decide) (by decide)
  exact ⟨hg, hacyclic, l, hwithin, run_returns l .default hg hacyclic hwithin⟩

theorem run_faults_on_emptyScale :
    (scaledKernel ⟨[0], []⟩ 0).WellFormed ∧ (scaledKernel ⟨[0], []⟩ 0).Acyclic ∧
      (∀ v f t, (scaledKernel ⟨[0], []⟩ 0).face? v = some f → f.op = .constant t →
        (Tensor.make t.shape t.data).run = .ok (.ok t)) ∧
      run .default (scaledKernel ⟨[0], []⟩ 0) = .error .outOfRange := by
  refine ⟨(Graph.assemble_ordered _).1, Graph.assemble_acyclic _, fun v f t hf ht => ?_, ?_⟩
  · obtain ⟨n, hn, rfl⟩ := Graph.assemble_face hf
    simp only [List.mem_cons, List.not_mem_nil, or_false] at hn
    rcases hn with rfl | rfl | rfl | rfl | rfl | rfl | rfl | rfl | rfl | rfl <;> cases ht <;> rfl
  · have hfault : (run .default (scaledKernel ⟨[0], []⟩ 0)).map (fun _ => ()) = .error .outOfRange := by
      decide +kernel
    cases hrun : run .default (scaledKernel ⟨[0], []⟩ 0) with
    | error fault =>
      rw [hrun] at hfault
      exact congrArg Except.error (Except.error.inj hfault)
    | ok out =>
      rw [hrun] at hfault
      cases hfault

end Pipeline

end LowPrecision
