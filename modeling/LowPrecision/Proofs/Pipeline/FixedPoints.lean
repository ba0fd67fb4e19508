import LowPrecision.Proofs.Graph.Order
import LowPrecision.Proofs.Pipeline.Termination
import LowPrecision.Proofs.Rewrite.Verdicts

/-!
A sweep without a rewrite changes nothing and finds no rule that would apply, so that a run which
converges hands a fixed point of its main rules to the cleanup rules.
-/

namespace LowPrecision

variable {α : Type} [Scalar α]

def Rule.Declines (c : Context) (g : Graph α) (id : NodeId) (rule : Rule) : Prop :=
  ∀ m, rule.pattern.matchAt g id = some m → rule.canApply c g m = .ok false

namespace Pipeline

variable {id : NodeId} {rule : Rule} {s s' : Session α}

def Fires (rule : Rule) (id : NodeId) (s s' : Session α) : Prop :=
  ∃ m, rule.pattern.matchAt s.graph id = some m ∧ rule.canApply s.context s.graph m = .ok true ∧
    exec (rule.apply m) s = .ok (.ok true, s')

theorem Fires.descends (h : Fires rule id s s') (hg : s.graph.WellFormed) :
    s.graph.Descends s'.graph := by
  obtain ⟨m, hm, hcan, hrun⟩ := h
  exact ((Rule.settled_of_canApply hg hm hcan hrun).1 true rfl).2

theorem Fires.regular (h : Fires rule id s s') (hg : s.graph.Regular) : s'.graph.Regular := by
  obtain ⟨m, hm, -, hrun⟩ := h
  obtain ⟨rank, hr⟩ := hg.acyclic
  cases Rule.apply_cases hg hr hm hrun with
  | done heffect => exact (heffect.maintains hg hr).1.regular
  | skipped hr => exact absurd rfl hr

def Rewrites (s s' : Session α) : Prop :=
  ∃ id rule m, rule ∉ Rule.cleanup ∧ rule.pattern.matchAt s.graph id = some m ∧
    rule.canApply s.context s.graph m = .ok true ∧ exec (rule.apply m) s = .ok (.ok true, s')

theorem Rewrites.of_fires (h : Fires rule id s s') (hrule : rule ∉ Rule.cleanup) :
    Rewrites s s' := by
  obtain ⟨m, hm, hcan, hrun⟩ := h
  exact ⟨id, rule, m, hrule, hm, hcan, hrun⟩

theorem Rewrites.descends (h : Rewrites s s') (hg : s.graph.WellFormed) :
    s.graph.Descends s'.graph := by
  obtain ⟨id, rule, m, -, hm, hcan, hrun⟩ := h
  exact Fires.descends ⟨m, hm, hcan, hrun⟩ hg

abbrev Evolves (s s' : Session α) : Prop := Relation.ReflTransGen Rewrites s s'

theorem Evolves.descends (h : Evolves s s') (hg : s.graph.WellFormed) :
    s.graph.Descends s'.graph := by
  induction h with
  | refl => exact .refl hg
  | tail _ hstep ih => exact ih.trans (hstep.descends ih.wellFormed) fun _ _ _ _ => trivial

theorem Evolves.regular (h : Evolves s s') (hg : s.graph.Regular) : s'.graph.Regular := by
  induction h with
  | refl => exact hg
  | tail _ hstep ih =>
    obtain ⟨id, rule, m, -, hm, hcan, hrun⟩ := hstep
    exact Fires.regular ⟨m, hm, hcan, hrun⟩ ih

def Quiet (s : Session α) (id : NodeId) : Prop :=
  ∀ kind, s.graph.kind? id = some kind → ∀ rule ∈ Rule.forKind kind,
    rule.Declines s.context s.graph id

theorem exec_applyRule_of_fires (h : Fires rule id s s') :
    exec (applyRule id rule) s = .ok (.ok true, s') := by
  obtain ⟨m, hm, hcan, hrun⟩ := h
  rw [applyRule, exec_bind_ok (Rewrite.exec_graph s), hm]
  dsimp only
  rw [exec_bind_ok (Rewrite.exec_context s), exec_bind_ok (exec_lift_eq_ok.mpr ⟨hcan, rfl⟩), if_pos rfl,
    exec_tryCatch, hrun]

theorem exec_applyRule_of_declines (h : rule.Declines s.context s.graph id) :
    exec (applyRule id rule) s = .ok (.ok false, s) := by
  rw [applyRule, exec_bind_ok (Rewrite.exec_graph s)]
  split
  · rfl
  · next m hm =>
    rw [exec_bind_ok (Rewrite.exec_context s), exec_bind_ok (exec_lift_eq_ok.mpr ⟨h m hm, rfl⟩)]
    rfl

omit [Scalar α] in
theorem exec_order (hg : s.graph.Regular) : ∃ order,
    exec (Rewrite.editGraph (Edit.attempt Graph.topologicalOrder) : Rewrite α _) s = .ok (.ok order, s) := by
  obtain ⟨rank, hr⟩ := hg.acyclic
  obtain ⟨order, horder, -⟩ := Graph.topologicalOrder_ok hg.wellFormed hr
  refine ⟨order, ?_⟩
  rw [Rewrite.editGraph, Rewrite.exec_edit_eq, Edit.ofGraph, exec_adapt_eq_ok, Edit.exec_attempt_eq_ok]
  exact ⟨⟨horder, rfl⟩, rfl⟩

theorem applyRule_answer {b : Bool} (hg : s.graph.WellFormed)
    (hrun : exec (applyRule id rule) s = .ok (.ok b, s')) :
    (b = true ∧ Fires rule id s s') ∨
      (b = false ∧ s' = s ∧ rule.Declines s.context s.graph id) := by
  rw [applyRule, exec_bind_ok (Rewrite.exec_graph s)] at hrun
  split at hrun
  · next hm =>
    cases hrun
    exact .inr ⟨rfl, rfl, fun m hm' => absurd (hm.symm.trans hm') (by simp)⟩
  next m hm =>
  rw [exec_bind_ok (Rewrite.exec_context s)] at hrun
  obtain ⟨can, t, hcan, hrest⟩ := exec_bind_eq_answer.mp hrun
  obtain ⟨hcan, rfl⟩ := exec_lift_eq_ok.mp hcan
  split at hrest
  rotate_left
  · next hfalse =>
    cases hrest
    refine .inr ⟨rfl, rfl, fun m' hm' => ?_⟩
    cases hm.symm.trans hm'
    rw [hcan, Bool.eq_false_of_not_eq_true hfalse]
  next htrue =>
  subst htrue
  rw [exec_tryCatch] at hrest
  cases happly : exec (rule.apply m) t with
  | error fault =>
    rw [happly] at hrest
    cases hrest
  | ok out =>
    obtain ⟨answer, t'⟩ := out
    rw [happly] at hrest
    have hsettled := Rule.settled_of_canApply hg hm hcan happly
    cases answer with
    | ok done =>
      cases hrest
      obtain rfl := (hsettled.1 b rfl).1
      exact .inl ⟨rfl, m, hm, hcan, happly⟩
    | error e =>
      -- The check said yes, so that the error is not one of the node alone.
      dsimp only at hrest
      rw [if_pos (show e.isFatal = true from hsettled.2 e rfl)] at hrest
      cases hrest

theorem anyM_answer {rules : List Rule} {b : Bool} (hg : s.graph.WellFormed)
    (hrun : exec (rules.anyM (applyRule id)) s = .ok (.ok b, s')) :
    (b = true ∧ ∃ rule ∈ rules, Fires rule id s s') ∨
      (b = false ∧ s' = s ∧ ∀ rule ∈ rules, rule.Declines s.context s.graph id) := by
  induction rules with
  | nil =>
    cases hrun
    exact .inr ⟨rfl, rfl, by simp⟩
  | cons rule rules ih =>
    rw [List.anyM] at hrun
    obtain ⟨found, s₁, hrule, hrest⟩ := exec_bind_eq_answer.mp hrun
    rcases applyRule_answer hg hrule with ⟨rfl, hfires⟩ | ⟨rfl, rfl, hdeclines⟩
    · cases hrest
      exact .inl ⟨rfl, rule, List.mem_cons_self, hfires⟩
    · rcases ih hrest with ⟨hb, r, hr, hfires⟩ | ⟨hb, hsame, hothers⟩
      · exact .inl ⟨hb, r, List.mem_cons_of_mem _ hr, hfires⟩
      · exact .inr ⟨hb, hsame, List.forall_mem_cons.mpr ⟨hdeclines, hothers⟩⟩

def FiresOf (rules : OpKind → List Rule) (s s' : Session α) : Prop :=
  ∃ id kind, ∃ rule ∈ rules kind, Fires rule id s s'

theorem descends_of_fires {rules : OpKind → List Rule}
    (h : Relation.ReflTransGen (FiresOf rules) s s') (hg : s.graph.WellFormed) :
    s.graph.Descends s'.graph := by
  induction h with
  | refl => exact .refl hg
  | tail _ hstep ih =>
    obtain ⟨id, kind, rule, -, hfires⟩ := hstep
    exact ih.trans (hfires.descends ih.wellFormed) fun _ _ _ _ => trivial

structure Passes (rules : OpKind → List Rule) (ids : List NodeId) (count count' : Nat)
    (s s' : Session α) : Prop where
  fires : Relation.ReflTransGen (FiresOf rules) s s'
  grows : count ≤ count'
  quiet : count' = count → s' = s ∧ ∀ id ∈ ids, ∀ kind, s.graph.kind? id = some kind →
    ∀ rule ∈ rules kind, rule.Declines s.context s.graph id

theorem Passes.trans {rules : OpKind → List Rule} {first rest : List NodeId} {n₁ n₂ n₃ : Nat}
    {s₁ s₂ s₃ : Session α} (h : Passes rules first n₁ n₂ s₁ s₂)
    (h' : Passes rules rest n₂ n₃ s₂ s₃) : Passes rules (first ++ rest) n₁ n₃ s₁ s₃ where
  fires := h.fires.trans h'.fires
  grows := Nat.le_trans h.grows h'.grows
  quiet hsame := by
    have h₁₂ : n₂ = n₁ := Nat.le_antisymm (hsame ▸ h'.grows) h.grows
    obtain ⟨rfl, hfirst⟩ := h.quiet h₁₂
    obtain ⟨rfl, hrest⟩ := h'.quiet (hsame.trans h₁₂.symm)
    exact ⟨rfl, List.forall_mem_append.mpr ⟨hfirst, hrest⟩⟩

theorem passes_visit {rules : OpKind → List Rule} {count count' : Nat} (hg : s.graph.WellFormed)
    (hrun : exec (do
      match (← Rewrite.graph).kind? id with
      | none => return count
      | some kind =>
        if ← (rules kind).anyM (applyRule id) then return count + 1 else return count :
          Rewrite α Nat) s = .ok (.ok count', s')) : Passes rules [id] count count' s s' := by
  rw [exec_bind_ok (Rewrite.exec_graph s)] at hrun
  split at hrun
  · next hnone =>
    cases hrun
    refine ⟨.refl, Nat.le_refl _, fun _ => ⟨rfl, ?_⟩⟩
    simp [hnone]
  · next kind hkind =>
    obtain ⟨found, s₁, hany, hrest⟩ := exec_bind_eq_answer.mp hrun
    rcases anyM_answer hg hany with ⟨rfl, rule, hrule, hfires⟩ | ⟨rfl, rfl, hdeclines⟩
    · cases hrest
      exact ⟨.single ⟨id, kind, rule, hrule, hfires⟩, Nat.le_succ _,
        fun h => absurd h (Nat.succ_ne_self _)⟩
    · cases hrest
      refine ⟨.refl, Nat.le_refl _, fun _ => ⟨rfl, ?_⟩⟩
      simpa [hkind] using hdeclines

theorem passes_sweep {rules : OpKind → List Rule} {count : Nat} (hg : s.graph.WellFormed)
    (hrun : exec (sweep rules) s = .ok (.ok count, s')) :
    Relation.ReflTransGen (FiresOf rules) s s' ∧ (count = 0 → s' = s ∧ ∀ id kind,
      s.graph.kind? id = some kind → ∀ rule ∈ rules kind, rule.Declines s.context s.graph id) := by
  obtain ⟨order, s₀, horder, hrest⟩ := exec_bind_eq_answer.mp hrun
  obtain rfl := Rewrite.silent_edit (Edit.silent_attempt _).adapt _ _ _ horder
  have hall : ∀ v kind, s₀.graph.kind? v = some kind → v ∈ order := by
    intro v kind hkind
    rw [Rewrite.editGraph, Rewrite.exec_edit_eq, Edit.ofGraph, exec_adapt_eq_ok,
      Edit.exec_attempt_eq_ok] at horder
    obtain ⟨n, hn, -⟩ := Option.map_eq_some_iff.mp hkind
    exact (Graph.topologicalOrder_sorted hg horder.1.1).2.mem_iff.mpr
      (List.mem_map.mpr ⟨_, Graph.WellFormed.mem_liveNodes.mpr hn, rfl⟩)
  have hsweep : Passes rules order 0 count s₀ s' := by
    clear hall horder hrun
    generalize 0 = start at hrest ⊢
    induction order generalizing start s₀ with
    | nil =>
      cases hrest
      exact ⟨.refl, Nat.le_refl _, fun _ => ⟨rfl, by simp⟩⟩
    | cons v order ih =>
      rw [List.foldlM_cons] at hrest
      obtain ⟨count', t, hvisit, hrest⟩ := exec_bind_eq_answer.mp hrest
      have hfirst := passes_visit hg hvisit
      exact hfirst.trans (ih t (descends_of_fires hfirst.fires hg).wellFormed count' hrest)
  refine ⟨hsweep.fires, fun hzero => ?_⟩
  obtain ⟨hsame, hquiet⟩ := hsweep.quiet hzero
  exact ⟨hsame, fun id kind hkind => hquiet id (hall id kind hkind) kind hkind⟩

theorem evolves_of_fires (h : Relation.ReflTransGen (FiresOf Rule.forKind) s s') : Evolves s s' :=
  h.lift id fun _ _ ⟨_, kind, rule, hrule, hfires⟩ =>
    .of_fires hfires (forKind_not_cleanup kind rule hrule)

theorem sweeps_answer {count : Nat} {report report' : Report} (hg : s.graph.WellFormed)
    (hrun : exec (sweeps count report) s = .ok (.ok report', s')) :
    Evolves s s' ∧ (report.converged = false → report'.converged = true →
      exec (sweep Rule.forKind) s' = .ok (.ok 0, s')) := by
  induction count generalizing s report with
  | zero =>
    cases hrun
    exact ⟨.refl, fun hfalse htrue => absurd (hfalse.symm.trans htrue) (by decide)⟩
  | succ count ih =>
    rw [sweeps] at hrun
    obtain ⟨rewrites, s₁, hsweep, hrest⟩ := exec_bind_eq_answer.mp hrun
    rw [exec_adapt_eq_ok] at hsweep
    obtain ⟨hfires, hquiet⟩ := passes_sweep hg hsweep
    have hevolves := evolves_of_fires hfires
    dsimp only at hrest
    split at hrest
    · next hzero =>
      cases hrest
      obtain ⟨rfl, -⟩ := hquiet hzero
      exact ⟨.refl, fun _ _ => hzero ▸ hsweep⟩
    · obtain ⟨hrest, hconverged⟩ := ih (hevolves.descends hg).wellFormed hrest
      exact ⟨hevolves.trans hrest, fun hfalse => hconverged hfalse⟩

theorem Matched.answer {settings : Settings} {g : Graph α} {report : Report} (hg : g.WellFormed)
    (h : Matched settings g report s) :
    (∃ s₁, exec (analyses settings) ⟨g, .start settings.params⟩ = .ok (.ok (), s₁) ∧
      s₁.graph.WellFormed ∧ Evolves s₁ s) ∧
    (report.converged = true → exec (sweep Rule.forKind) s = .ok (.ok 0, s) ∧ ∀ id, Quiet s id) := by
  obtain ⟨s₁, hanalyses, hsweeps⟩ := h
  obtain ⟨⟨a, ha⟩, -⟩ := annotates_analyses hanalyses
  have hg₁ : s₁.graph.WellFormed := 
    ha ▸ hg.of_attributes _
  obtain ⟨hevolves, hconverged⟩ := sweeps_answer hg₁ hsweeps
  refine ⟨⟨s₁, hanalyses, hg₁, hevolves⟩, fun htrue => ?_⟩
  have hsweep := hconverged rfl htrue
  exact ⟨hsweep, ((passes_sweep (hevolves.descends hg₁).wellFormed hsweep).2 rfl).2⟩

/-- A sweep without a rewrite leaves everything as it is, and so do all that follow: no main rule
applies to any node. A run that reports convergence starts its cleanup in such a state. -/
theorem idle_sweep_is_fixed_point :
    (∀ s s' : Session α, s.graph.WellFormed → exec (sweep Rule.forKind) s = .ok (.ok 0, s') →
      s' = s ∧ (∀ id, Quiet s id) ∧ ∀ n,
        exec ((List.replicate n ()).mapM fun _ => sweep Rule.forKind) s' =
          .ok (.ok (List.replicate n 0), s')) ∧
    ∀ settings (g g' : Graph α) report, g.WellFormed → run settings g = .ok (.ok report, g') →
      report.converged = true → ∃ swept s counts s', Matched settings g swept s ∧
        (∀ id, Quiet s id) ∧ exec tidying s = .ok (.ok counts, s') ∧ s'.graph = g' := by
  refine ⟨fun s s' hg hrun => ?_, fun settings g g' report hg hrun hconverged => ?_⟩
  · obtain ⟨rfl, hquiet⟩ := (passes_sweep hg hrun).2 rfl
    refine ⟨rfl, hquiet, fun n => ?_⟩
    induction n with
    | zero => rfl
    | succ n ih =>
      rw [List.replicate_succ, List.mapM_cons, exec_bind_ok hrun, exec_bind_ok ih]
      rfl
  · obtain ⟨swept, s, counts, s', hmatched, htidying, hgraph, rfl⟩ := matched_of_run hrun
    exact ⟨swept, s, counts, s', hmatched, ((hmatched.answer hg).2 hconverged).2, htidying, hgraph⟩

def settled : Session Binary32 :=
  ⟨chained, { Context.start .default with handled := ["first", "second"] }⟩

theorem idle_sweep_of_settled :
    settled.graph.WellFormed ∧
      exec (sweep Rule.forKind) settled = .ok (.ok 0, settled) ∧ (∀ id, Quiet settled id) ∧
      chained.WellFormed ∧ ∃ report g', run (Settings.default.bounded 3) chained =
        .ok (.ok report, g') ∧ report.converged = true ∧ ∃ swept s counts s',
          Matched (Settings.default.bounded 3) chained swept s ∧ (∀ id, Quiet s id) ∧
            exec tidying s = .ok (.ok counts, s') ∧ s'.graph = g' := by
  have hg : chained.WellFormed :=
    (Graph.assemble_regular (by decide) : chained.Regular).wellFormed
  have hanswer : (exec (sweep Rule.forKind) settled).map Prod.fst = .ok (.ok 0) := by
    decide +kernel
  obtain ⟨⟨answer, s'⟩, hsweep, rfl⟩ := except_map_eq_ok.mp hanswer
  obtain ⟨hsame, hquiet, -⟩ := idle_sweep_is_fixed_point.1 settled s' hg hsweep
  have hrun : ((run (Settings.default.bounded 3) chained).map fun out =>
      out.1.map Report.converged) = .ok (.ok true) := by decide +kernel
  obtain ⟨⟨outcome, g'⟩, hrun, houtcome⟩ := except_map_eq_ok.mp hrun
  obtain ⟨report, rfl, hconverged⟩ := except_map_eq_ok.mp houtcome
  exact ⟨hg, hsame ▸ hsweep, hquiet, hg, report, g', hrun, hconverged,
    idle_sweep_is_fixed_point.2 _ chained g' report hg hrun hconverged⟩

end Pipeline

end LowPrecision
