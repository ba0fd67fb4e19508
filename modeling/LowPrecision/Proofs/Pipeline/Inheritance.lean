import LowPrecision.Proofs.Markup.Placement
import LowPrecision.Proofs.Pipeline.Interface
import LowPrecision.Proofs.Rewrite.Inheritance

/-!
The rewriting stages only read what the analyses found. Between the rule applications of a run, all
attributes stand at nodes that are there, and no application changes one of them.
-/

namespace LowPrecision

open AttributeStore

variable {α : Type}

/-- What the analyses found is left as it is. A node that stays has the same entries with the same
values, a node that is added has none or those of the node that it replaced, and none belongs to a node
that is gone. The conflicts are the same. -/
structure Graph.SameMarkup (replaced : NodeId → NodeId → Prop) (g g' : Graph α) : Prop where
  kept (v : NodeId) : g.isLive v = true → g'.isLive v = true →
    g'.attributes.entriesOf v = g.attributes.entriesOf v
  added (v : NodeId) : g.isLive v = false → g'.isLive v = true →
    g'.attributes.entriesOf v = [] ∨ ∃ old, replaced old v ∧ g.isLive old = true ∧
      g'.attributes.entriesOf v =
        (g.attributes.entriesOf old).map fun e => (⟨e.1.target.moveTo v, e.1.kind⟩, e.2)
  removed (e : AttributeKey × Option (AttributeValue α)) : e ∈ g'.attributes.snapshot →
    g'.isLive e.1.target.owner = true
  conflicts : g'.attributes.conflicts = g.attributes.conflicts

theorem Graph.KeepsMarkup.sameMarkup {replaced : NodeId → NodeId → Prop} {g g' : Graph α}
    (h : KeepsMarkup replaced g g') (hfiled : g.attributes.Filed) : g.SameMarkup replaced g' := by
  have hvalue : g'.attributes.value? = g.attributes.value? :=
    value?_congr h.precisionCells h.intervalCells h.alignmentCells
  refine ⟨fun v hold hnew => ?_, fun v hold hnew => ?_, fun e he => ?_, h.conflicts⟩
  · refine filter_snapshot (fun key => decide (key.target.owner = v)) h.filed hfiled
      (fun key hkey => ?_) fun key value _ _ => congrFun hvalue value
    obtain rfl := of_decide_eq_true hkey
    exact h.kept key.target key.kind (lt_size_of_isLive hold) hnew
  · have hge : g.nodes.size ≤ v := by
      by_contra hlt
      have hlive := h.live v (Nat.lt_of_not_le hlt) hnew
      exact Bool.false_ne_true (hold.symm.trans hlive)
    refine (h.gained v hge hnew).imp (entriesOf_blank h.filed) ?_
    rintro ⟨old, hreplaced, hlive, hget⟩
    exact ⟨old, hreplaced, hlive, entriesOf_moved hfiled h.filed hget hvalue⟩
  · obtain ⟨entry, hentry, rfl⟩ := List.mem_map.mp he
    by_contra hdead
    have hnone := h.gone entry.1.target entry.1.kind (Bool.eq_false_of_not_eq_true hdead)
    exact absurd (hnone.symm.trans ((lookup_eq_some_iff h.filed.ordered).mpr hentry)) (by simp)

namespace Pipeline

variable [Scalar α] {id : NodeId} {rule : Rule} {s s' : Session α} {settings : Settings}
  {g : Graph α} {r : Except TransformError Bool}

structure Housed (g : Graph α) : Prop where
  filed : g.attributes.Filed
  gone (target : Target) (kind : AttributeKind) : g.isLive target.owner = false →
    g.attributes.get? target kind = none

theorem keepsMarkup_applyRule (h : Housed s.graph)
    (hrun : exec (applyRule id rule) s = .ok (r, s')) :
    s.graph.KeepsMarkup (rule.Replaces s.graph id) s'.graph := by
  have hsame : s.graph.KeepsMarkup (rule.Replaces s.graph id) s.graph := .refl h.filed h.gone
  rw [applyRule, exec_bind_ok (Rewrite.exec_graph s)] at hrun
  split at hrun
  · cases hrun
    exact hsame
  next m hm =>
  rw [exec_bind_ok (Rewrite.exec_context s)] at hrun
  rcases exec_bind_eq_ok.mp hrun with ⟨can, t, hcan, hrest⟩ | ⟨e, hcan, -⟩
  rotate_left
  · exact absurd hcan (exec_lift_ne_error _ _ _ _)
  obtain ⟨-, rfl⟩ := exec_lift_eq_ok.mp hcan
  split at hrest
  rotate_left
  · cases hrest
    exact hsame
  rw [exec_tryCatch] at hrest
  -- An error that skips the node leaves the graph where the rule stopped.
  cases happly : exec (rule.apply m) t with
  | error fault =>
    rw [happly] at hrest
    cases hrest
  | ok out =>
    obtain ⟨answer, t'⟩ := out
    have hkeeps := Rule.keepsMarkup_apply h.filed h.gone hm happly
    rw [happly] at hrest
    cases answer with
    | ok b =>
      cases hrest
      exact hkeeps
    | error e =>
      dsimp only at hrest
      split at hrest <;> cases hrest <;> exact hkeeps

/-- The sessions that rule applications lead through after the analyses, in whatever order the rules are
applied, and whether they go through, skip a node or fail. -/
inductive Reaches (settings : Settings) (g : Graph α) : Session α → Prop
  | start {s : Session α} :
    exec (analyses settings) ⟨g, .start settings.params⟩ = .ok (.ok (), s) → Reaches settings g s
  | step {s s' : Session α} {id : NodeId} {rule : Rule} {r : Except TransformError Bool} :
    Reaches settings g s → exec (applyRule id rule) s = .ok (r, s') → Reaches settings g s'

theorem passes_place (passes : List MarkupPass) (hfiled : s.graph.attributes.Filed)
    (hrun : exec (passes.forM fun pass => ExceptT.adapt (RunError.markup pass)
      (Rewrite.edit (pass.run (α := α) settings.restrictions))) s = .ok (.ok (), s')) :
    s'.graph.attributes.Filed ∧ s'.graph.nodes = s.graph.nodes ∧
      ∀ e ∈ s'.graph.attributes.entries,
        (e ∈ s.graph.attributes.entries ∧ ∀ pass ∈ passes, e.1.kind ∉ pass.clears) ∨
          s.graph.isLive e.1.target.owner = true := by
  induction passes generalizing s with
  | nil =>
    cases hrun
    exact ⟨hfiled, rfl, fun e he => .inl ⟨he, by simp⟩⟩
  | cons pass passes ih =>
    rw [List.forM] at hrun
    obtain ⟨⟨⟩, t, hpass, hrest⟩ := exec_bind_eq_answer.mp hrun
    have hgraph := (Rewrite.exec_edit_eq.mp (exec_adapt_eq_ok.mp hpass)).1
    obtain ⟨a, ha, hwrites⟩ := MarkupPass.run_writes hgraph
    have hplaces := MarkupPass.run_places hgraph
    obtain ⟨hfiled', hnodes, hentries⟩ := ih (ha ▸ hwrites.filed hfiled) hrest
    have hlive : ∀ v, t.graph.isLive v = s.graph.isLive v := fun v => by rw [ha]; rfl
    refine ⟨hfiled', hnodes.trans (by rw [ha]), fun e he => ?_⟩
    rcases hentries e he with ⟨hmem, hcleared⟩ | hhoused
    · exact (hplaces e hmem).imp_left fun hold =>
        ⟨hold.1, List.forall_mem_cons.mpr ⟨hold.2, hcleared⟩⟩
    · exact .inr (hlive _ ▸ hhoused)

theorem housed_analyses (hfiled : s.graph.attributes.Filed)
    (hrun : exec (analyses settings) s = .ok (.ok (), s')) : Housed s'.graph := by
  obtain ⟨hfiled', hnodes, hentries⟩ := passes_place MarkupPass.all hfiled hrun
  refine ⟨hfiled', fun target kind hdead => ?_⟩
  by_contra hsome
  obtain ⟨value, hvalue⟩ := Option.ne_none_iff_exists'.mp hsome
  rcases hentries _ (mem_entries_of_get? hvalue) with ⟨-, hnone⟩ | hlive
  · -- Nothing is left from before, as each kind of entry is cleared by one of the passes.
    have hall : ∀ kind : AttributeKind, ∃ pass ∈ MarkupPass.all, kind ∈ pass.clears := by
      intro kind
      cases kind <;> decide
    obtain ⟨pass, hpass, hmem⟩ := hall kind
    exact hnone pass hpass hmem
  · rw [Graph.isLive, Graph.node?, hnodes] at hdead
    exact Bool.false_ne_true (hdead.symm.trans hlive)

theorem Reaches.housed (h : Reaches settings g s) (hfiled : g.attributes.Filed) :
    Housed s.graph := by
  induction h with
  | start hrun => exact housed_analyses hfiled hrun
  | step _ hrun ih =>
    have hkeeps := keepsMarkup_applyRule ih hrun
    exact ⟨hkeeps.filed, hkeeps.gone⟩

theorem reaches_of_run {outcome : Except RunError Report} {g' : Graph α}
    (hrun : run settings g = .ok (outcome, g')) :
    (∃ pass cause, outcome = .error (.markup pass cause)) ∨
      ∃ s, Reaches settings g s ∧ s.graph = g' := by
  obtain ⟨⟨answer, s'⟩, hexec, hrest⟩ := except_bind_eq_ok.mp hrun
  cases hrest
  change exec (transform settings) ⟨g, .start settings.params⟩ = _ at hexec
  rw [transform_eq] at hexec
  rcases exec_bind_eq_ok.mp hexec with ⟨⟨⟩, s, hanalyses, hrewriting⟩ | ⟨e, hanalyses, rfl⟩
  · have hstep : ∀ id rule, Stays (Reaches settings g) (fun _ => True) (applyRule id rule) :=
      fun id rule s r s' hs hrun => ⟨.step hs hrun, fun _ _ => trivial⟩
    exact .inr ⟨s', (stays_rewriting_of hstep settings s _ s' (.start hanalyses) hrewriting).1, rfl⟩
  · have herror : Stays (fun _ => True) (fun e => ∃ pass cause, e = RunError.markup pass cause)
        (analyses (α := α) settings) :=
      Stays.forM fun pass _ => Stays.adapt (q := fun _ => True)
        (fun _ _ _ _ _ => ⟨trivial, fun _ _ => trivial⟩) fun cause _ => ⟨pass, cause, rfl⟩
    obtain ⟨pass, cause, rfl⟩ := (herror _ _ _ trivial hanalyses).2 e rfl
    exact .inl ⟨pass, cause, rfl⟩

/-- Rewriting treats the results of the analyses as read-only. In every run, whatever the settings, the
graph and the attributes that it comes with, every rule application after the analyses leaves what they
found as it is, whether it goes through, skips the node or fails midway. -/
theorem rewriting_keeps_markup (settings : Settings) (g : Graph α) (hfiled : g.attributes.Filed) :
    (∀ outcome g', run settings g = .ok (outcome, g') →
      (∃ pass cause, outcome = .error (.markup pass cause)) ∨
        ∃ s, Reaches settings g s ∧ s.graph = g') ∧
    ∀ (s s' : Session α) id rule r, Reaches settings g s →
      exec (applyRule id rule) s = .ok (r, s') →
        s.graph.SameMarkup (rule.Replaces s.graph id) s'.graph := by
  refine ⟨fun outcome g' => reaches_of_run, fun s s' id rule r hs hrun => ?_⟩
  have hhoused := hs.housed hfiled
  exact (keepsMarkup_applyRule hhoused hrun).sameMarkup hhoused.filed

theorem rewriting_keeps_markup_of_joinedPair :
    (joinedPair [1, 2] [1, 4] 0 (51 / 20) : Graph Binary32).attributes.Filed ∧
      ∃ s s', Reaches .default (joinedPair [1, 2] [1, 4] 0 (51 / 20) : Graph Binary32) s ∧
        exec (applyRule 7 .concat) s = .ok (.ok true, s') ∧
        s.graph.SameMarkup (Rule.concat.Replaces s.graph 7) s'.graph := by
  have hfiled : (joinedPair [1, 2] [1, 4] 0 (51 / 20) : Graph Binary32).attributes.Filed := .empty
  have hanswers : (exec (analyses .default) ⟨joinedPair [1, 2] [1, 4] 0 (51 / 20),
      .start Settings.default.params⟩ >>= fun out => (exec (applyRule (α := Binary32) 7 .concat) out.2).map
        fun applied => (out.1.toOption, applied.1)) = .ok (some (), .ok true) := by decide +kernel
  obtain ⟨⟨answer, s⟩, hanalyses, happlied⟩ := except_bind_eq_ok.mp hanswers
  obtain ⟨⟨applied, s'⟩, hrun, hout⟩ := except_map_eq_ok.mp happlied
  obtain ⟨hsome, rfl⟩ := Prod.mk.inj hout
  obtain rfl := except_toOption_eq_some.mp hsome
  exact ⟨hfiled, s, s', .start hanalyses, hrun, (rewriting_keeps_markup .default _ hfiled).2 s s' 7
    .concat _ (.start hanalyses) hrun⟩

end Pipeline

end LowPrecision
