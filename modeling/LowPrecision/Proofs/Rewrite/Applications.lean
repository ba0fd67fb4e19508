import LowPrecision.Proofs.Rewrite.Rules

namespace LowPrecision

open LowPrecision.Graph

variable {α : Type} [Scalar α] {g : Graph α} {id : NodeId} {rule : Rule} {s s' : Session α}

theorem Decomposition.float_of_canApply {c : Context} (h : canApply c g id = .ok true) :
    ∃ p, g.port? ⟨id, 0⟩ = some p ∧ p.elementType.isFloat = true := by
  rw [canApply] at h
  split at h
  · next n hn =>
    split at h
    · cases h
    · next hopen =>
      simp only [Bool.or_eq_true, Bool.not_eq_true', not_or, Bool.not_eq_false, Option.any_eq_true] at hopen
      obtain ⟨-, p, hp, hfloat⟩ := hopen
      exact ⟨p, by simpa [port?_eq, wire?, hn, Node.output?] using hp, hfloat⟩
  · cases h

namespace Rule

inductive Applied (id : NodeId) (n : Node α) (s s' : Session α) (rule : Rule) : Prop
  | decomposed {p : Port} {d : Dequantization α} (hrule : rule = .decomposition)
      (hkind : n.kind = .fakeQuantize) (hport : s.graph.port? ⟨id, 0⟩ = some p)
      (hfloat : p.elementType.isFloat = true)
      (hrun : exec (Decomposition.decompose id) s = .ok (.ok d, s'))
  | fused {m : NodeMatch} (hrule : rule = .convertFusion) (hm : m.node = id)
      (hkind : n.kind = .add ∨ n.kind = .multiply ∨ n.kind = .subtract)
      (hrun : exec (ConvertFusion.apply m) s.graph = .ok (.ok true, s'.graph))
  | lowered {a b : Dequantization α} {scale : Tensor α} (hrule : rule = .matMul ∨ rule = .convolution)
      (hkind : n.kind = .matMul ∨ n.kind = .convolution ∨ n.kind = .groupConvolution)
      (ha : Dequantization.ofInput s.graph id 0 = some a)
      (hb : Dequantization.ofInput s.graph id 1 = some b)
      (hrun : exec (lowerKernel id [a.data, b.data] scale) s.graph = .ok (.ok (), s'.graph))
  | joined {plan : ConcatPlan α} (hrule : rule = .concat)
      (hplan : ConcatPlan.ofConcat? s.context s.graph id = .ok (some plan))
      (hrun : exec plan.apply s = .ok (.ok (), s'))
  | sanitized {m : NodeMatch} (hrule : rule = .sanitization) (hm : m.node = id)
      (hkind : n.kind = .constant) (hrun : exec (Sanitize.apply m) s.graph = .ok (.ok true, s'.graph))
  | moved {chain : Dequantization α} {params : AffineParams α} {keep : Bool}
      (hrule : rule = .depthToSpace ∨ rule = .transparent) (hkind : n.kind ∈ rule.pattern.kinds)
      (hchain : Dequantization.ofInput s.graph id 0 = some chain)
      (hrun : exec (moveDequantization id chain params keep) s.graph = .ok (.ok (), s'.graph))
  | folded (hrule : rule = .foldConvert) (hcan : FoldConvert.canApply s.graph id = true)
      (hrun : exec (FoldConvert.apply id) s.graph = .ok (.ok true, s'.graph))
  | absorbed {f : α → α → α} (hrule : rule = .fuseSubtract ∨ rule = .fuseMultiply)
      (hkind : n.kind = .subtract ∨ n.kind = .multiply)
      (hrun : exec (RangeFusion.apply id f) s.graph = .ok (.ok true, s'.graph))

omit [Scalar α] in
theorem exec_of_withPlan {β : Type} {plan? : Option β} {plan : β} {f : β → Rewrite α Unit}
    (hplan : plan? = some plan) (hrun : exec (withPlan plan? f) s = .ok (.ok true, s')) :
    exec (f plan) s = .ok (.ok (), s') := by
  rcases withPlan_cases hrun with ⟨hnone, -⟩ | ⟨plan', r, hsome, hexec, hr⟩
  · cases hnone.symm.trans hplan
  · cases hplan.symm.trans hsome
    cases r with
    | error e => cases hr
    | ok b => exact hexec

theorem applied_of_apply {m : NodeMatch} (hm : rule.pattern.matchAt s.graph id = some m)
    (hcan : rule.canApply s.context s.graph m = .ok true)
    (hrun : exec (rule.apply m) s = .ok (.ok true, s')) :
    ∃ n, s.graph.node? id = some n ∧ Applied id n s s' rule := by
  obtain ⟨n, hn, hkind, rfl⟩ := Pattern.matchAt_eq_some hm
  refine ⟨n, hn, ?_⟩
  rw [apply, exec_bind_ok (Rewrite.exec_graph s), exec_bind_ok (Rewrite.exec_context s)] at hrun
  cases rule with
  | decomposition =>
    obtain ⟨r₁, hdiscard, hr₁⟩ := exec_map_cases (f := fun _ => true) hrun
    obtain ⟨r₀, hdecompose, rfl⟩ := exec_map_cases (f := fun _ => ()) hdiscard
    obtain ⟨p, hp, hfloat⟩ := Decomposition.float_of_canApply hcan
    cases r₀ with
    | error e => cases hr₁
    | ok d => exact .decomposed rfl (List.mem_singleton.mp hkind) hp hfloat hdecompose
  | convertFusion =>
    exact .fused rfl rfl (by simpa [pattern] using hkind) (Rewrite.exec_edit_eq.mp hrun).1
  | matMul =>
    obtain ⟨plan, hplan⟩ := checked_isSome hcan
    rw [exec_bind_ok (exec_lift_eq_ok.mpr ⟨hplan, rfl⟩)] at hrun
    obtain ⟨a, b, hoperands, ha, hb⟩ := MatMul.operands_of_plan hplan
    have hlower := (Rewrite.exec_edit_eq.mp (exec_of_withPlan rfl hrun)).1
    exact .lowered (.inl rfl) (.inl (List.mem_singleton.mp hkind)) ha hb (hoperands ▸ hlower)
  | convolution =>
    obtain ⟨plan, hplan⟩ := checked_isSome hcan
    rw [exec_bind_ok (exec_lift_eq_ok.mpr ⟨hplan, rfl⟩)] at hrun
    obtain ⟨a, b, hoperands, ha, hb⟩ := Convolution.operands_of_plan hplan
    have hlower := (Rewrite.exec_edit_eq.mp (exec_of_withPlan rfl hrun)).1
    exact .lowered (.inr rfl) (.inr (by simpa [pattern] using hkind)) ha hb (hoperands ▸ hlower)
  | concat =>
    obtain ⟨plan, hplan⟩ := checked_isSome hcan
    rw [exec_bind_ok (exec_lift_eq_ok.mpr ⟨hplan, rfl⟩)] at hrun
    exact .joined rfl hplan (exec_of_withPlan rfl hrun)
  | sanitization =>
    exact .sanitized rfl rfl (List.mem_singleton.mp hkind) (Rewrite.exec_edit_eq.mp hrun).1
  | depthToSpace =>
    obtain ⟨plan, hplan⟩ := Option.isSome_iff_exists.mp (Except.ok.inj hcan)
    have hmove := exec_of_withPlan hplan hrun
    exact .moved (.inl rfl) hkind (Layout.chain_of_depthToSpace hplan) (Rewrite.exec_edit_eq.mp hmove).1
  | transparent =>
    obtain ⟨plan, hplan⟩ := Option.isSome_iff_exists.mp (Except.ok.inj hcan)
    have hmove := exec_of_withPlan hplan hrun
    exact .moved (.inr rfl) hkind (Layout.chain_of_transparent hplan) (Rewrite.exec_edit_eq.mp hmove).1
  | foldConvert => exact .folded rfl (Except.ok.inj hcan) (Rewrite.exec_edit_eq.mp hrun).1
  | fuseSubtract =>
    exact .absorbed (.inl rfl) (.inl (List.mem_singleton.mp hkind)) (Rewrite.exec_edit_eq.mp hrun).1
  | fuseMultiply =>
    exact .absorbed (.inr rfl) (.inr (List.mem_singleton.mp hkind)) (Rewrite.exec_edit_eq.mp hrun).1

end Rule

end LowPrecision
