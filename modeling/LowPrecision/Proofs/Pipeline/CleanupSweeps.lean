import LowPrecision.Proofs.Pipeline.Cleanup
import LowPrecision.Proofs.Rewrite.Takeovers

namespace LowPrecision

open LowPrecision.Graph

variable {α : Type} [Scalar α] {rule : Rule} {kind : OpKind} {s s' : Session α} {c : Context} {g : Graph α}
  {u v w id : NodeId} {rest : List NodeId} {count : Nat}

namespace Rule

theorem declines_iff_folds (hg : g.WellFormed) : foldConvert.Declines c g u ↔ ¬ FoldConvert.Folds g u := by
  constructor
  · intro hdeclines hfolds
    obtain ⟨n, hn, hkind⟩ := Option.map_eq_some_iff.mp hfolds.kind
    have hm : foldConvert.pattern.matchAt g u = some _ := Pattern.matchAt_iff.mpr
      ⟨n, hn, by rw [hkind]; decide, by simpa [pattern, Constraint.holds] using hfolds.source, rfl⟩
    have hcan : FoldConvert.canApply g u = true :=
      (FoldConvert.canApply_iff hg).mpr ⟨hfolds.read, hfolds.subtracted⟩
    exact Bool.noConfusion (hcan.symm.trans (Except.ok.inj (hdeclines _ hm)))
  · intro h m hm
    obtain ⟨n, hn, hkind, hall, rfl⟩ := Pattern.matchAt_iff.mp hm
    refine congrArg Except.ok (Bool.eq_false_of_not_eq_true fun hcan => h ?_)
    obtain ⟨hread, hsubtracted⟩ := (FoldConvert.canApply_iff hg).mp hcan
    exact ⟨by rw [kind?, hn, Option.map_some, List.mem_singleton.mp hkind],
      beq_iff_eq.mp (hall (.constantInput 0) (by decide)), hread, hsubtracted⟩

inductive Absorbs : Rule → OpKind → Prop
  | subtract : Absorbs .fuseSubtract .subtract
  | multiply : Absorbs .fuseMultiply .multiply

structure Absorbable (kind : OpKind) (g : Graph α) (id : NodeId) : Prop where
  operation : ∃ f, g.face? id = some f ∧ f.kind = kind ∧ f.inputs.length = 2
  fuses : ∃ fakeQuantize, RangeFusion.Fuses g fakeQuantize id

omit [Scalar α] in
theorem Absorbable.index_lt (h : Absorbable kind g u) {i : Nat} (hi : g.producer? u i = some v) : i < 2 := by
  obtain ⟨f, hf, -, hlength⟩ := h.operation
  obtain ⟨t, ht, -⟩ := producer?_eq_some.mp hi
  rw [input?_eq_face, hf] at ht
  exact hlength ▸ (List.getElem?_eq_some_iff.mp ht).1

theorem declines_iff_absorbable (hrule : rule.Absorbs kind) (hg : g.WellFormed) :
    rule.Declines c g u ↔ ¬ Absorbable kind g u := by
  have hcan : ∀ m : NodeMatch, rule.canApply c g m = .ok (RangeFusion.source? g m.node).isSome := by
    intro m
    cases hrule <;> rfl
  have hmatch : ∀ m, rule.pattern.matchAt g u = some m ↔ ∃ n, g.node? u = some n ∧ n.kind = kind ∧
      n.inputs.length = 2 ∧ m = ⟨u, n.kind, n.producers, g.readerNodes u⟩ := by
    intro m
    rw [Pattern.matchAt_iff]
    cases hrule <;> simp [pattern, Constraint.holds]
  constructor
  · rintro hdeclines ⟨⟨f, hf, hkind, hlength⟩, hfuses⟩
    obtain ⟨n, hn, rfl⟩ := face?_eq_some.mp hf
    have hanswer := hdeclines _ ((hmatch _).mpr ⟨n, hn, hkind, hlength, rfl⟩)
    rw [hcan, (RangeFusion.isSome_source? hg).mpr hfuses] at hanswer
    cases hanswer
  · intro h m hm
    obtain ⟨n, hn, hkind, hlength, rfl⟩ := (hmatch m).mp hm
    rw [hcan, Except.ok.injEq]
    refine Bool.eq_false_of_not_eq_true fun hsome => h ?_
    exact ⟨⟨n.face, face?_eq_some.mpr ⟨n, hn, rfl⟩, hkind, hlength⟩, (RangeFusion.isSome_source? hg).mp hsome⟩

end Rule

namespace Pipeline

structure Orderly (rule : Rule) (id : NodeId) (s s' : Session α) : Prop where
  graph : s'.graph.RegularArity
  size : s.graph.nodes.size ≤ s'.graph.nodes.size
  reads (w v : NodeId) : s'.graph.Reads w v → v < s.graph.nodes.size →
    s.graph.Reads w v ∨ Relation.TransGen s.graph.Reads id v
  declines (u : NodeId) : ¬ Relation.TransGen s.graph.Reads u id →
    (u ≠ id → rule.Declines s.context s.graph u) → rule.Declines s'.context s'.graph u

theorem Fires.not_declines (h : Fires rule id s s') : ¬ rule.Declines s.context s.graph id := by
  obtain ⟨m, hm, hcan, -⟩ := h
  intro hdeclines
  cases (hdeclines m hm).symm.trans hcan

theorem orderly_of_traded {accepts : Graph α → NodeId → Prop} {new : NodeId}
    (haccepts : ∀ (c : Context) (g : Graph α) u, g.WellFormed → (rule.Declines c g u ↔ ¬ accepts g u))
    (hg : s.graph.RegularArity) (hregular : s'.graph.Regular) (h : s.graph.Traded s'.graph id new)
    (hadded : ∀ v f, s.graph.nodes.size ≤ v → s'.graph.face? v = some f →
      f.kind.inputCount? = some f.inputs.length ∧ ∀ t ∈ f.inputs, t.node < s.graph.nodes.size →
        Relation.TransGen s.graph.Reads id t.node)
    (hkind : ∀ u, accepts s'.graph u → ∃ f, s'.graph.face? u = some f ∧ f.kind ∈ rule.pattern.kinds)
    (hnew : ∀ v f, s.graph.nodes.size ≤ v → s'.graph.face? v = some f → f.kind ∉ rule.pattern.kinds)
    (hold : ∀ u, u < s.graph.nodes.size → ¬ Relation.TransGen s.graph.Reads u id →
      accepts s'.graph u → accepts s.graph u) : Orderly rule id s s' where
  graph := h.regularArity hg hregular fun v f hv hf => (hadded v f hv hf).1
  size := h.size_le
  reads w v hread hv := by
    rcases Nat.lt_or_ge w s.graph.nodes.size with hw | hw
    · obtain ⟨i, hi⟩ := reads_iff.mp hread
      exact .inl (reads_iff.mpr ⟨i, h.producer_old hw hv hi⟩)
    · obtain ⟨f, t, hf, ht, rfl⟩ := reads_iff_face.mp hread
      exact .inr ((hadded w f hw hf).2 t ht hv)
  declines u hbefore hu := by
    rw [haccepts _ _ u hregular.wellFormed]
    intro hu'
    obtain ⟨f, hf, hmem⟩ := hkind u hu'
    rcases Nat.lt_or_ge u s.graph.nodes.size with hlt | hge
    · have hne : u ≠ id := h.ne_of_live (isLive_iff_face.mpr ⟨_, hf⟩)
      exact (haccepts _ _ u hg.wellFormed).mp (hu hne) (hold u hlt hbefore hu')
    · exact hnew u f hge hf hmem

theorem Fires.folds (hg : s.graph.WellFormed) (h : Fires .foldConvert id s s') :
    FoldConvert.Folds s.graph id ∧ exec (FoldConvert.apply id) s.graph = .ok (.ok true, s'.graph) := by
  refine ⟨not_not.mp ((Rule.declines_iff_folds hg).not.mp h.not_declines), ?_⟩
  obtain ⟨m, hm, -, hrun⟩ := h
  obtain ⟨n, -, -, rfl⟩ := Pattern.matchAt_eq_some hm
  rw [Rule.apply, exec_bind_ok (Rewrite.exec_graph s), exec_bind_ok (Rewrite.exec_context s)] at hrun
  exact (Rewrite.exec_edit_eq.mp hrun).1

theorem orderly_fold (hg : s.graph.RegularArity) (h : Fires .foldConvert id s s') :
    Orderly .foldConvert id s s' := by
  have hregular := h.regular hg.toRegular
  obtain ⟨hfolds, hrun⟩ := h.folds hg.wellFormed
  have hfolded := FoldConvert.folded_of_apply hg.toRegular hrun
  refine orderly_of_traded (fun _ _ _ hwf => Rule.declines_iff_folds hwf) hg hregular hfolded.toTraded
    (fun v f hv hf => ?_) (fun u hu => ?_) (fun v f hv hf => ?_) fun u hu hbefore hu' => ?_
  · obtain ⟨hkind, hinputs⟩ := hfolded.added v f hv hf
    rw [hkind, hinputs]
    exact ⟨rfl, by simp⟩
  · obtain ⟨f, hf, hkind⟩ := face_of_kind hu.kind
    exact ⟨f, hf, by rw [hkind]; decide⟩
  · rw [(hfolded.added v f hv hf).1]
    decide
  · exact hfolded.folds hg hfolds hu (fun hread => hbefore (.single hread)) hu'

theorem orderly_absorb (hrule : rule.Absorbs kind) (hg : s.graph.RegularArity) (h : Fires rule id s s') :
    Orderly rule id s s' := by
  have hregular := h.regular hg.toRegular
  have habsorbable : Rule.Absorbable kind s.graph id :=
    not_not.mp ((Rule.declines_iff_absorbable hrule hg.wellFormed).not.mp h.not_declines)
  obtain ⟨m, hm, -, hrun⟩ := h
  obtain ⟨n, hn, -, rfl⟩ := Pattern.matchAt_eq_some hm
  obtain ⟨f, happly⟩ : ∃ f, exec (RangeFusion.apply id f) s.graph = .ok (.ok true, s'.graph) := by
    rw [Rule.apply, exec_bind_ok (Rewrite.exec_graph s), exec_bind_ok (Rewrite.exec_context s)] at hrun
    cases hrule <;> exact ⟨_, (Rewrite.exec_edit_eq.mp hrun).1⟩
  obtain ⟨k, hk, hkind, -⟩ := habsorbable.operation
  cases hk.symm.trans (face?_eq_some.mpr ⟨n, hn, rfl⟩)
  obtain ⟨fakeQuantize, value, hsource, hmerged⟩ := RangeFusion.merged_of_apply hg.toRegular hn
    (not_interface_of_kind hkind (by cases hrule <;> decide) (by cases hrule <;> decide)) happly
  have hfuses := RangeFusion.fuses_of_source? hg.wellFormed hsource
  refine orderly_of_traded (fun _ _ _ hwf => Rule.declines_iff_absorbable hrule hwf) hg hregular
    hmerged.toTraded (fun v f hv hf => ?_) (fun u hu => ?_) (fun v f hv hf => ?_) fun u hu hbefore hu' => ?_
  · rcases hmerged.added v f hv hf with ⟨hnew, hinputs⟩ | ⟨hnew, hlength, hold⟩
    · rw [hnew, hinputs]
      exact ⟨rfl, by simp⟩
    · rw [hnew, hlength]
      exact ⟨rfl, fun t ht hlt => hfuses.behind.reads.tail (hold t ht hlt)⟩
  · obtain ⟨f, hf, rfl, -⟩ := hu.operation
    exact ⟨f, hf, by generalize f.kind = kind at hrule; cases hrule <;> decide⟩
  · rcases hmerged.added v f hv hf with ⟨hnew, -⟩ | ⟨hnew, -⟩ <;> rw [hnew] <;> cases hrule <;> decide
  · obtain ⟨⟨f', hf', hkind', hlength⟩, other, hother⟩ := hu'
    obtain ⟨f, hf, rfl⟩ := hmerged.face u f' hu hf'
    rw [Face.kind, Face.op_replace] at hkind'
    rw [Face.length_inputs_replace] at hlength
    refine ⟨⟨f, hf, hkind', hlength⟩, other, hmerged.fuses hg hfuses (fun _ _ => habsorbable.index_lt)
      hregular.wellFormed hbefore ?_ hu hother⟩
    rw [kind?_eq_face, hk, Option.map_some, hkind]
    cases hrule <;> decide

/-- A stage that has come as far as the remaining nodes. They are in order, and the rule declines all
other nodes. -/
structure Swept (rule : Rule) (s : Session α) (rest : List NodeId) : Prop where
  graph : s.graph.RegularArity
  nodup : rest.Nodup
  bound (v : NodeId) : v ∈ rest → v < s.graph.nodes.size
  closed (tail : List NodeId) : tail <:+ rest → ∀ w v, s.graph.Reads w v → v ∈ tail → w ∈ tail
  done (u : NodeId) : u ∉ rest → rule.Declines s.context s.graph u

theorem Swept.closed_trans (h : Swept rule s rest) {tail : List NodeId} (htail : tail <:+ rest)
    (hreads : Relation.TransGen s.graph.Reads w v) (hv : v ∈ tail) : w ∈ tail := by
  induction hreads using Relation.TransGen.head_induction_on with
  | single hread => exact h.closed tail htail _ _ hread hv
  | head hread _ ih => exact h.closed tail htail _ _ hread ih

theorem Swept.skip (h : Swept rule s (id :: rest)) (hid : rule.Declines s.context s.graph id) :
    Swept rule s rest where
  graph := h.graph
  nodup := (List.nodup_cons.mp h.nodup).2
  bound v hv := h.bound v (List.mem_cons_of_mem id hv)
  closed tail htail := h.closed tail (htail.trans (List.suffix_cons id rest))
  done u hu := by
    by_cases he : u = id
    · exact he ▸ hid
    · exact h.done u fun hmem => (List.mem_cons.mp hmem).elim he hu

theorem Swept.step (h : Swept rule s (id :: rest)) (hstep : Orderly rule id s s') : Swept rule s' rest where
  graph := hstep.graph
  nodup := (List.nodup_cons.mp h.nodup).2
  bound v hv := Nat.lt_of_lt_of_le (h.bound v (List.mem_cons_of_mem id hv)) hstep.size
  closed tail htail w v hread hv := by
    have htail' := htail.trans (List.suffix_cons id rest)
    rcases hstep.reads w v hread (h.bound v (htail'.subset hv)) with hread | hbelow
    · exact h.closed tail htail' w v hread hv
    · exact absurd (htail.subset (h.closed_trans htail' hbelow hv)) (List.nodup_cons.mp h.nodup).1
  done u hu := by
    refine hstep.declines u (fun hbelow => ?_) fun hne =>
      h.done u fun hmem => (List.mem_cons.mp hmem).elim hne hu
    rcases List.mem_cons.mp (h.closed_trans List.suffix_rfl hbelow List.mem_cons_self) with rfl | hmem
    · exact h.graph.acyclic.not_hasCycle ⟨u, hbelow⟩
    · exact hu hmem

theorem orderly_of_fires (hrule : rule ∈ Rule.cleanup) (hg : s.graph.RegularArity) (h : Fires rule id s s') :
    Orderly rule id s s' := by
  simp only [Rule.cleanup, List.mem_cons, List.not_mem_nil, or_false] at hrule
  rcases hrule with rfl | rfl | rfl
  · exact orderly_fold hg h
  · exact orderly_absorb .subtract hg h
  · exact orderly_absorb .multiply hg h

theorem Swept.start {order : List NodeId} (hg : s.graph.RegularArity) (h : s.graph.Schedules order) :
    Swept rule s order where
  graph := hg
  nodup := h.nodup
  bound v hv := by
    obtain ⟨n, hn⟩ := Option.isSome_iff_exists.mp ((h.mem v).mp hv)
    exact lt_size_of_node? hn
  closed tail htail w v hread hv := by
    obtain ⟨before, rfl⟩ := htail
    rcases List.mem_append.mp ((h.mem w).mpr hread.live) with hw | hw
    · obtain ⟨first, between, rfl⟩ := List.append_of_mem hw
      have hfirst := h.behind first (between ++ tail) w v (by simp) hread
      exact absurd hv (h.nodup.disjoint (List.mem_append_left _ hfirst))
    · exact hw
  done u hu m hm := by
    obtain ⟨n, hn, -⟩ := Pattern.matchAt_eq_some hm
    exact absurd ((h.mem u).mpr (isLive_of_node? hn)) hu

theorem Swept.visit {count' : Nat} (hrule : rule ∈ Rule.cleanup) (h : Swept rule s (id :: rest))
    (hrun : exec (do
      match (← Rewrite.graph).kind? id with
      | none => return count
      | some kind =>
        if ← (if kind ∈ rule.pattern.kinds then [rule] else []).anyM (applyRule id) then return count + 1
        else return count : Rewrite α Nat) s = .ok (.ok count', s')) : Swept rule s' rest := by
  rw [exec_bind_ok (Rewrite.exec_graph s)] at hrun
  split at hrun
  · next hnone =>
    cases hrun
    exact h.skip (Rule.declines_of_kind fun kind _ hk => by cases hnone.symm.trans hk)
  · next kind hkind =>
    obtain ⟨found, s₁, hany, hrest⟩ := exec_bind_eq_answer.mp hrun
    rcases anyM_answer h.graph.wellFormed hany with ⟨rfl, other, hother, hfires⟩ | ⟨rfl, rfl, hdeclines⟩
    · cases hrest
      obtain rfl : other = rule := by
        split at hother
        · exact List.mem_singleton.mp hother
        · cases hother
      exact h.step (orderly_of_fires hrule h.graph hfires)
    · cases hrest
      refine h.skip ?_
      by_cases hmem : kind ∈ rule.pattern.kinds
      · exact hdeclines rule (by simp [hmem])
      · refine Rule.declines_of_kind fun k hk hk' => hmem ?_
        cases hkind.symm.trans hk'
        exact hk

theorem Swept.sweep (hrule : rule ∈ Rule.cleanup) (hg : s.graph.RegularArity)
    (hrun : exec (cleanupSweep rule) s = .ok (.ok count, s')) : Swept rule s' [] := by
  obtain ⟨order, s₀, horder, hrest⟩ := exec_bind_eq_answer.mp hrun
  obtain rfl := Rewrite.silent_edit (Edit.silent_attempt _).adapt _ _ _ horder
  rw [Rewrite.editGraph, Rewrite.exec_edit_eq, Edit.ofGraph, exec_adapt_eq_ok,
    Edit.exec_attempt_eq_ok] at horder
  have hstart : Swept rule s₀ order := .start hg (schedules_of_run hg.wellFormed horder.1.1)
  clear hg horder hrun
  generalize 0 = start at hrest
  induction order generalizing s₀ start with
  | nil =>
    cases hrest
    exact hstart
  | cons id order ih =>
    rw [List.foldlM_cons] at hrest
    obtain ⟨count', t, hvisit, hrest⟩ := exec_bind_eq_answer.mp hrest
    exact ih t (hstart.visit hrule hvisit) count' hrest

theorem cleanupSweep_idle (hg : s.graph.Regular) (h : ∀ id, rule.Declines s.context s.graph id) :
    exec (cleanupSweep rule) s = .ok (.ok 0, s) := by
  obtain ⟨order, hexec⟩ := exec_order hg
  rw [cleanupSweep, Pipeline.sweep, exec_bind_ok hexec]
  clear hexec
  induction order with
  | nil => rfl
  | cons id order ih =>
    rw [List.foldlM_cons]
    refine (exec_bind_ok ?_ _).trans ih
    rw [exec_bind_ok (Rewrite.exec_graph s)]
    split
    · rfl
    · next kind hkind =>
      have hany : exec ((if kind ∈ rule.pattern.kinds then [rule] else []).anyM (applyRule id)) s =
          .ok (.ok false, s) := by
        split
        · rw [List.anyM, exec_bind_ok (exec_applyRule_of_declines (h id))]
          rfl
        · rfl
      rw [exec_bind_ok hany]
      rfl

/-- One sweep is enough for a stage. A node that is declined when its turn comes is declined from then on,
and what a rewrite makes acceptable is still to come. -/
theorem cleanup_sweep_settles (hrule : rule ∈ Rule.cleanup) (hg : s.graph.RegularArity)
    (hrun : exec (cleanupSweep rule) s = .ok (.ok count, s')) :
    exec (cleanupSweep rule) s' = .ok (.ok 0, s') := by
  have hswept := Swept.sweep hrule hg hrun
  exact cleanupSweep_idle hswept.graph.toRegular fun id => hswept.done id List.not_mem_nil

def scaledThrice : Session Binary32 where
  graph := Graph.assemble [("x", .parameter, [], [⟨.f32, some [2]⟩]),
    ("low", .constant (Tensor.scalar (Arithmetic.ofRat 0)), [], [⟨.f32, some []⟩]),
    ("high", .constant (Tensor.scalar (Arithmetic.ofRat 2)), [], [⟨.f32, some []⟩]),
    ("levels", .fakeQuantize 256, [⟨0, 0⟩, ⟨1, 0⟩, ⟨2, 0⟩, ⟨1, 0⟩, ⟨2, 0⟩], [⟨.u8, some [2]⟩]),
    ("convert", .convert .f32, [⟨3, 0⟩], [⟨.f32, some [2]⟩]),
    ("scale", .constant (Tensor.scalar (Arithmetic.ofRat (1 / 2))), [], [⟨.f32, some []⟩]),
    ("first", .multiply, [⟨4, 0⟩, ⟨5, 0⟩], [⟨.f32, some [2]⟩]),
    ("second", .multiply, [⟨6, 0⟩, ⟨5, 0⟩], [⟨.f32, some [2]⟩]),
    ("third", .multiply, [⟨7, 0⟩, ⟨5, 0⟩], [⟨.f32, some [2]⟩]),
    ("y", .result, [⟨8, 0⟩], [])]
  context := .start .default

theorem cleanup_sweep_settles_of_scaledThrice :
    Rule.fuseMultiply ∈ Rule.cleanup ∧ scaledThrice.graph.RegularArity ∧
      ∃ s', exec (cleanupSweep .fuseMultiply) scaledThrice = .ok (.ok 3, s') ∧
        exec (cleanupSweep .fuseMultiply) s' = .ok (.ok 0, s') := by
  have hg : scaledThrice.graph.RegularArity := assemble_regularArity (by decide) (by decide)
  have hrun : (exec (cleanupSweep .fuseMultiply) scaledThrice).map Prod.fst = .ok (.ok 3) := by
    decide +kernel
  obtain ⟨⟨answer, s'⟩, hsweep, rfl⟩ := except_map_eq_ok.mp hrun
  exact ⟨by decide, hg, s', hsweep, cleanup_sweep_settles (by decide) hg hsweep⟩

end Pipeline

end LowPrecision
