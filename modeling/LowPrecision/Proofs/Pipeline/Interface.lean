import LowPrecision.Pipeline
import LowPrecision.Proofs.Rewrite.Rules

namespace LowPrecision

variable {α : Type}

/-- Parameters and results are still there, with their names, their operations, and as many inputs
and outputs as before. -/
def Graph.KeepsInterface (g g' : Graph α) : Prop :=
  ∀ v n, g.node? v = some n → n.kind.IsInterface → ∃ n', g'.node? v = some n' ∧
    n'.name = n.name ∧ n'.op = n.op ∧ n'.inputs.length = n.inputs.length ∧
    n'.outputs.length = n.outputs.length ∧
    (n.inputs = [] → n'.outputs.map Wire.port = n.outputs.map Wire.port)

theorem Graph.Maintains.keepsInterface {g g' : Graph α} (h : g.Maintains g') :
    g.KeepsInterface g' := by
  intro v n hn hkind
  have hf := Graph.face?_eq_some.mpr ⟨n, hn, rfl⟩
  have hlive := h.interface v n.face hf hkind
  obtain ⟨n', hn'⟩ := Option.isSome_iff_exists.mp hlive
  obtain ⟨f, hold, halike⟩ := h.old v n'.face (lt_size_of_face? hf)
    (Graph.face?_eq_some.mpr ⟨n', hn', rfl⟩)
  obtain rfl := Option.some.inj (hf.symm.trans hold)
  have hname := h.name v (lt_size_of_face? hf) hlive
  rw [Graph.name?, Graph.name?, hn, hn', Option.map_some, Option.map_some, Option.some.injEq]
    at hname
  refine ⟨n', hn', hname, halike.op, halike.inputs, ?_, halike.source⟩
  simpa [Node.face] using halike.ports

namespace Session

structure Maintains (s s' : Session α) : Prop where
  graph : s.graph.Maintains s'.graph
  handled (name : String) : name ∈ s.context.handled → name ∈ s'.context.handled

namespace Maintains

theorem refl {s : Session α} (h : s.graph.Regular) : Maintains s s := ⟨.refl h, fun _ h => h⟩

theorem trans {s₁ s₂ s₃ : Session α} (h : Maintains s₁ s₂) (h' : Maintains s₂ s₃) :
    Maintains s₁ s₃ :=
  ⟨h.graph.trans h'.graph, fun name hname => h'.handled name (h.handled name hname)⟩

end Maintains

end Session

namespace Pipeline

def Annotates {β : Type} (x : Edit α TransformError β) : Prop :=
  ∀ g r g', exec x g = .ok (r, g') → ∃ a, g' = { g with attributes := a }

namespace Annotates

variable {β γ : Type}

theorem of_silent {x : Edit α TransformError β} (h : Silent x) : Annotates x := by
  intro g r g' hrun
  obtain rfl := h g r g' hrun
  exact ⟨g'.attributes, rfl⟩

theorem bind {x : Edit α TransformError β} {k : β → Edit α TransformError γ} (hx : Annotates x)
    (hk : ∀ b, Annotates (k b)) : Annotates (x >>= k) := by
  intro g r g' hrun
  rcases exec_bind_eq_ok.mp hrun with ⟨b, t, hb, hrest⟩ | ⟨e, he, rfl⟩
  · obtain ⟨a, rfl⟩ := hx g _ t hb
    obtain ⟨a', rfl⟩ := hk b _ r g' hrest
    exact ⟨a', rfl⟩
  · exact hx g _ g' he

theorem change {f : Graph α → Graph α} (hf : ∀ g, ∃ a, f g = { g with attributes := a }) :
    Annotates (Edit.change f : Edit α TransformError Unit) := by
  intro g r g' hrun
  cases hrun
  exact hf g

theorem set {f : Graph α → Checked (Graph α)}
    (hf : ∀ g g', f g = .ok g' → ∃ a, g' = { g with attributes := a }) :
    Annotates (do MonadStateOf.set (← (f (← getThe (Graph α)) : Checked (Graph α))) :
      Edit α TransformError Unit) := by
  intro g r g' hrun
  rw [exec_bind_ok (exec_getThe g)] at hrun
  rcases exec_bind_eq_ok.mp hrun with ⟨k, t, hk, hrest⟩ | ⟨e, hk, -⟩
  · obtain ⟨hk, rfl⟩ := exec_lift_eq_ok.mp hk
    cases hrest
    exact hf _ _ hk
  · exact absurd hk (exec_lift_ne_error _ _ _ _)

end Annotates

variable [Scalar α] {rank : NodeId → Nat} {id : NodeId} {rule : Rule} {s₀ s s' : Session α}

theorem applyRule_cases {r : Except TransformError Bool} (hg : s.graph.Regular)
    (hr : s.graph.Ranked rank) (hrun : exec (applyRule id rule) s = .ok (r, s')) :
    (r = .ok true ∧ ∃ m, rule.pattern.matchAt s.graph id = some m ∧
      rule.canApply s.context s.graph m = .ok true ∧ exec (rule.apply m) s = .ok (.ok true, s') ∧
      rule.Effect rank id s s') ∨
    (r ≠ .ok true ∧ s'.graph = s.graph ∧ s'.context.handled = s.context.handled) ∨
    (rule = .concat ∧ (∃ e, r = .error e) ∧ s.graph.Maintains s'.graph ∧
      s'.context.handled = s.context.handled) := by
  rw [applyRule, exec_bind_ok (Rewrite.exec_graph s)] at hrun
  split at hrun
  · cases hrun
    exact .inr (.inl ⟨by simp, rfl, rfl⟩)
  next m hm =>
  rw [exec_bind_ok (Rewrite.exec_context s)] at hrun
  rcases exec_bind_eq_ok.mp hrun with ⟨can, t, hcan, hrest⟩ | ⟨e, hcan, -⟩
  rotate_left
  · exact absurd hcan (exec_lift_ne_error _ _ _ _)
  obtain ⟨hcan, rfl⟩ := exec_lift_eq_ok.mp hcan
  split at hrest
  rotate_left
  · cases hrest
    exact .inr (.inl ⟨by simp, rfl, rfl⟩)
  next htrue =>
  subst htrue
  rw [exec_tryCatch] at hrest
  cases happly : exec (rule.apply m) t with
  | error fault =>
    rw [happly] at hrest
    cases hrest
  | ok out =>
    obtain ⟨answer, t'⟩ := out
    rw [happly] at hrest
    have houtcome := Rule.apply_cases hg hr hm happly
    cases houtcome with
    | done heffect =>
      cases hrest
      exact .inl ⟨rfl, m, hm, hcan, happly, heffect⟩
    | skipped hne hgraph hhandled =>
      cases answer with
      | ok b =>
        cases hrest
        exact .inr (.inl ⟨hne, hgraph, hhandled⟩)
      | error e =>
        dsimp only at hrest
        split at hrest <;> cases hrest
        · exact .inr (.inl ⟨by simp, hgraph, hhandled⟩)
        · exact .inr (.inl ⟨by simp, hgraph, hhandled⟩)
    | stopped hrule he hgraph hhandled =>
      dsimp only at hrest
      rw [if_pos he.fatal] at hrest
      cases hrest
      exact .inr (.inr ⟨hrule, ⟨_, rfl⟩, hgraph, hhandled⟩)

theorem stays_applyRule (id : NodeId) (rule : Rule) :
    Stays s₀.Maintains (fun _ => True) (applyRule id rule) := by
  intro s r s' hs hrun
  refine ⟨?_, fun _ _ => trivial⟩
  obtain ⟨rank, hr⟩ := hs.graph.regular.acyclic
  rcases applyRule_cases hs.graph.regular hr hrun with
    ⟨-, m, -, -, -, heffect⟩ | ⟨-, hgraph, hhandled⟩ | ⟨-, -, hgraph, hhandled⟩
  · obtain ⟨hgraph, hhandled⟩ := heffect.maintains hs.graph.regular hr
    exact hs.trans ⟨hgraph, hhandled⟩
  · exact ⟨hgraph ▸ hs.graph, fun name hname => hhandled ▸ hs.handled name hname⟩
  · exact ⟨hs.graph.trans hgraph, fun name hname => hhandled ▸ hs.handled name hname⟩

theorem stays_sweep_of {p : Session α → Prop} {rules : OpKind → List Rule}
    (h : ∀ id kind, ∀ rule ∈ rules kind, Stays p (fun _ => True) (applyRule id rule)) :
    Stays p (fun _ => True) (sweep rules) := by
  have horder : Stays p (fun _ => True)
      (Rewrite.editGraph (Edit.attempt (Graph.topologicalOrder (α := α)))) :=
    (Rewrite.silent_edit (Edit.silent_attempt _).adapt).stays
  refine horder.bind fun order => .foldlM fun count id _ s r s' hs hrun => ?_
  rw [exec_bind_ok (Rewrite.exec_graph s)] at hrun
  split at hrun
  · exact Stays.pure _ s r s' hs hrun
  · refine Stays.bind (.anyM fun rule hrule => h id _ rule hrule) (fun b => ?_) s r s' hs hrun
    split
    · exact .pure _
    · exact .pure _

theorem stays_sweep (rules : OpKind → List Rule) :
    Stays s₀.Maintains (fun _ => True) (sweep rules) :=
  stays_sweep_of fun id _ rule _ => stays_applyRule id rule

theorem stays_sweeps_of {p : Session α → Prop}
    (h : ∀ id rule, Stays p (fun _ => True) (applyRule id rule)) (count : Nat) (report : Report) :
    Stays p (fun _ => True) (sweeps (α := α) count report) := by
  induction count generalizing report with
  | zero => exact .pure _
  | succ count ih =>
    refine ((stays_sweep_of fun id _ rule _ => h id rule).adapt fun _ _ => trivial).bind
      fun rewrites => ?_
    dsimp only
    split
    · exact .pure _
    · exact ih _

theorem stays_sweeps (count : Nat) (report : Report) :
    Stays s₀.Maintains (fun _ => True) (sweeps (α := α) count report) :=
  stays_sweeps_of stays_applyRule count report

section Markup

variable {g₀ g : Graph α}

theorem alignIntervals_eq_ok {g' : Graph α} (h : Markup.alignIntervals g = .ok g') :
    ∃ a, g' = { g with attributes := a } := by
  obtain ⟨a, -, h⟩ := except_bind_eq_ok.mp h
  cases h
  exact ⟨a, rfl⟩

theorem alignParameters_eq_ok {g' : Graph α} (h : Markup.alignParameters g = .ok g') :
    ∃ a, g' = { g with attributes := a } := by
  obtain ⟨a, -, h⟩ := except_bind_eq_ok.mp h
  cases h
  exact ⟨a, rfl⟩

theorem annotates_markup (restrictions : List OperationRestriction) (pass : MarkupPass) :
    Annotates (pass.run (α := α) restrictions) := by
  cases pass with
  | precisions | averagePooling => exact .change fun _ => ⟨_, rfl⟩
  | propagatePrecisions =>
    apply (Annotates.change fun _ => ⟨_, rfl⟩).bind
    intro _ g r g' hrun
    rw [exec_bind_ok (exec_getThe g)] at hrun
    exact ((Annotates.of_silent (Edit.silent_attempt _).adapt).bind fun order =>
      (Annotates.of_silent (Silent.lift _)).bind fun store => .change fun _ => ⟨_, rfl⟩) g r g' hrun
  | alignIntervals => exact .set fun g g' => alignIntervals_eq_ok
  | alignParameters => exact .set fun g g' => alignParameters_eq_ok

end Markup

def analyses (settings : Settings) : ExceptT RunError (StateT (Session α) Checked) Unit :=
  MarkupPass.all.forM fun pass =>
    ExceptT.adapt (.markup pass) (Rewrite.edit (pass.run settings.restrictions))

def tidying : ExceptT RunError (StateT (Session α) Checked) (List Nat) :=
  Rule.cleanup.mapM fun rule => ExceptT.adapt (.cleanup rule) (cleanupSweep rule)

/-- The sweeps of the main rules in a run come to an end, with a report and the session in which the
cleanup rules start. -/
def Matched (settings : Settings) (g : Graph α) (report : Report) (s : Session α) : Prop :=
  ∃ s₁, exec (analyses settings) ⟨g, .start settings.params⟩ = .ok (.ok (), s₁) ∧
    exec (sweeps (max settings.params.maxSweeps 1)
      ⟨0, 0, false, 0, s₁.graph.attributes.conflicts, 0⟩) s₁ = .ok (.ok report, s)

theorem matched_of_transform {settings : Settings} {g : Graph α} {report : Report}
    (hrun : exec (transform settings) ⟨g, .start settings.params⟩ = .ok (.ok report, s')) :
    ∃ swept s counts, Matched settings g swept s ∧ exec tidying s = .ok (.ok counts, s') ∧
      report = { swept with
        cleanupRewrites := counts.foldl (· + ·) 0, degenerate := s'.context.degenerate } := by
  obtain ⟨⟨⟩, s₁, hanalyses, hexec⟩ := exec_bind_eq_answer.mp hrun
  obtain ⟨_, _, hget, hexec⟩ := exec_bind_eq_answer.mp hexec
  cases hget
  obtain ⟨swept, s₂, hsweeps, hexec⟩ := exec_bind_eq_answer.mp hexec
  obtain ⟨counts, s₃, htidying, hexec⟩ := exec_bind_eq_answer.mp hexec
  obtain ⟨_, _, hget, hexec⟩ := exec_bind_eq_answer.mp hexec
  cases hget
  cases hexec
  exact ⟨swept, s₂, counts, ⟨s₁, hanalyses, hsweeps⟩, htidying, rfl⟩

theorem matched_of_run {settings : Settings} {g g' : Graph α} {report : Report}
    (hrun : run settings g = .ok (.ok report, g')) :
    ∃ swept s counts s', Matched settings g swept s ∧ exec tidying s = .ok (.ok counts, s') ∧
      s'.graph = g' ∧ report = { swept with
        cleanupRewrites := counts.foldl (· + ·) 0, degenerate := s'.context.degenerate } := by
  obtain ⟨⟨answer, s'⟩, hexec, hrest⟩ := except_bind_eq_ok.mp hrun
  cases hrest
  obtain ⟨swept, s, counts, hmatched, htidying, hreport⟩ := matched_of_transform hexec
  exact ⟨swept, s, counts, s', hmatched, htidying, rfl, hreport⟩

theorem annotates_analyses {settings : Settings} {s s' : Session α} {r : Except RunError Unit}
    (hrun : exec (analyses settings) s = .ok (r, s')) :
    (∃ a, s'.graph = { s.graph with attributes := a }) ∧ s'.context = s.context := by
  have hstep : ∀ pass : MarkupPass, Stays (fun t : Session α =>
      (∃ a, t.graph = { s.graph with attributes := a }) ∧ t.context = s.context) (fun _ => True)
        (Rewrite.edit (pass.run (α := α) settings.restrictions)) := by
    rintro pass t r t' ⟨⟨a, ha⟩, hcontext⟩ hrun
    obtain ⟨hgraph, hsame⟩ := Rewrite.exec_edit_eq.mp hrun
    obtain ⟨a', ha'⟩ := annotates_markup settings.restrictions pass _ _ _ hgraph
    exact ⟨⟨⟨a', by rw [ha', ha]⟩, hsame.trans hcontext⟩, fun _ _ => trivial⟩
  exact (Stays.forM (fun pass _ => (hstep pass).adapt fun _ _ => trivial) s r s'
    ⟨⟨s.graph.attributes, rfl⟩, rfl⟩ hrun : _ ∧ ∀ e, r = .error e → True).1

theorem stays_analyses (settings : Settings) :
    Stays s₀.Maintains (fun _ => True) (analyses (α := α) settings) := by
  intro s r s' hs hrun
  obtain ⟨⟨a, ha⟩, hcontext⟩ := annotates_analyses hrun
  refine ⟨⟨?_, hcontext ▸ hs.handled⟩, fun _ _ => trivial⟩
  rw [ha]
  exact hs.graph.trans (.of_attributes hs.graph.regular a)

def rewriting (settings : Settings) : ExceptT RunError (StateT (Session α) Checked) Report := do
  let conflicts := (← get).graph.attributes.conflicts
  let report ← sweeps (max settings.params.maxSweeps 1) ⟨0, 0, false, 0, conflicts, 0⟩
  let cleanups ← tidying
  return { report with
    cleanupRewrites := cleanups.foldl (· + ·) 0
    degenerate := (← get).context.degenerate }

theorem transform_eq (settings : Settings) :
    (transform settings : ExceptT RunError (StateT (Session α) Checked) Report) =
      analyses settings >>= fun _ => rewriting settings := rfl

theorem stays_rewriting_of {p : Session α → Prop}
    (h : ∀ id rule, Stays p (fun _ => True) (applyRule id rule)) (settings : Settings) :
    Stays p (fun _ => True) (rewriting (α := α) settings) := by
  intro s r s' hs hrun
  rw [rewriting, exec_bind_ok (exec_get s)] at hrun
  refine Stays.bind (stays_sweeps_of h _ _) (fun report => ?_) s r s' hs hrun
  refine (Stays.mapM fun rule _ => (stays_sweep_of fun id _ rule _ => h id rule).adapt
    fun _ _ => trivial).bind fun cleanups => ?_
  intro t r t' ht hrun
  cases hrun
  exact ⟨ht, fun _ _ => trivial⟩

theorem stays_transform (settings : Settings) :
    Stays s₀.Maintains (fun _ => True) (transform (α := α) settings) := by
  apply (stays_analyses settings).bind
  intro _
  exact stays_rewriting_of stays_applyRule settings

/-- Rules, sweeps and runs leave a regular graph with the same parameters and results behind,
whether they rewrite something, skip it or fail. -/
theorem steps_keep_interface :
    (∀ id rule (s s' : Session α) r, s.graph.Regular → exec (applyRule id rule) s = .ok (r, s') →
      s'.graph.Regular ∧ s.graph.KeepsInterface s'.graph) ∧
    (∀ rules (s s' : Session α) r, s.graph.Regular → exec (sweep rules) s = .ok (r, s') →
      s'.graph.Regular ∧ s.graph.KeepsInterface s'.graph) ∧
    ∀ settings (g g' : Graph α) outcome, g.Regular → run settings g = .ok (outcome, g') →
      g'.Regular ∧ g.KeepsInterface g' := by
  refine ⟨fun id rule s s' r hg hrun => ?_, fun rules s s' r hg hrun => ?_,
    fun settings g g' outcome hg hrun => ?_⟩
  · have h := (stays_applyRule id rule s r s' (.refl hg) hrun).1.graph
    exact ⟨h.regular, h.keepsInterface⟩
  · have h := (stays_sweep rules s r s' (.refl hg) hrun).1.graph
    exact ⟨h.regular, h.keepsInterface⟩
  · obtain ⟨⟨answer, s'⟩, hexec, hrest⟩ := except_bind_eq_ok.mp hrun
    cases hrest
    have h := (stays_transform settings ⟨g, .start settings.params⟩ _ _ (.refl hg) hexec).1.graph
    exact ⟨h.regular, h.keepsInterface⟩

theorem steps_keep_interface_of_sample :
    (Decomposition.sample 0 (51 / 20)).graph.Regular ∧ ∃ s',
      exec (applyRule 3 .decomposition) (Decomposition.sample 0 (51 / 20)) = .ok (.ok true, s') ∧
        s'.graph.Regular ∧ (Decomposition.sample 0 (51 / 20)).graph.KeepsInterface s'.graph := by
  have hg : (Decomposition.sample 0 (51 / 20)).graph.Regular := Graph.assemble_regular (by decide)
  have hanswer : (exec (applyRule 3 .decomposition) (Decomposition.sample 0 (51 / 20))).map
      Prod.fst = .ok (.ok true) := by decide +kernel
  obtain ⟨⟨answer, s'⟩, hexec, rfl⟩ := except_map_eq_ok.mp hanswer
  exact ⟨hg, s', hexec, (steps_keep_interface (α := Rat)).1 3 .decomposition _ s' _ hg hexec⟩

end Pipeline

end LowPrecision
