import LowPrecision.Proofs.Rewrite.Installation
import LowPrecision.Rewrite.Kernels

namespace LowPrecision

variable {α : Type} {g : Graph α} {rank : NodeId → Nat} {id : NodeId} {n : Node α}

theorem data_below (hr : g.Ranked rank) {a b : Dequantization α}
    (ha : Dequantization.ofInput g id 0 = some a) (hb : Dequantization.ofInput g id 1 = some b) :
    ∀ s ∈ [a.data, b.data], rank s.node < rank id ∧ (g.port? s).isSome := by
  obtain ⟨_, -, hlt, hlt', p, hp⟩ := Dequantization.ofInput_below hr ha
  obtain ⟨_, -, hlt₁, hlt₁', q, hq⟩ := Dequantization.ofInput_below hr hb
  simp only [List.mem_cons, List.not_mem_nil, or_false, forall_eq_or_imp, forall_eq, hp, hq,
    Option.isSome_some, and_true]
  exact ⟨Nat.lt_trans hlt hlt', Nat.lt_trans hlt₁ hlt₁'⟩

variable [Arithmetic α]

theorem lowerKernel_ok (hg : g.WellFormed) (hrank : g.Ranked rank) (hn : g.node? id = some n)
    (hone : n.outputs.length = 1) (hkind : ¬ n.kind.IsInterface) {operands : List Slot}
    (hbelow : ∀ s ∈ operands, rank s.node < rank id ∧ (g.port? s).isSome) (scale : Tensor α) :
    ∃ g' port, exec (lowerKernel id operands scale) g = .ok (.ok (), g') ∧
      Supplanted g g' rank id g.nodes.size g.nodes.size n.kind ∧
      g'.face? g.nodes.size = some ⟨n.op, operands, [port], some (.float 2 1)⟩ := by
  obtain ⟨p, hp⟩ : ∃ p, g.port? ⟨id, 0⟩ = some p := by
    apply Option.isSome_iff_exists.mp
    simp [Graph.port?_eq, Graph.wire?, hn, hone]
  obtain ⟨g₁, hadd, h₁⟩ := Edit.addNode_ok hg s!"{n.name}/LowPrecision" n.op operands
    [p.withType .f32] fun s hs => (hbelow s hs).2
  have hlive : g₁.isLive g.nodes.size = true := Graph.isLive_iff_face.mpr ⟨_, h₁.new⟩
  obtain ⟨g₂, hrelax, h₂⟩ := Graph.setRelaxed_ok h₁.wellFormed hlive (.float 2 1)
  have hadded := h₁.relax h₂
  obtain ⟨d, g₃, hinsert, hreplace⟩ :=
    install_ok hg hrank hn hkind (sourced_of_face hadded hbelow rfl) ⟨scale, none⟩ n.name
  obtain ⟨g', hreplaced, hinstalled, hsupplanted⟩ := (hreplace g.nodes.size (.inl rfl)).1 hone
  refine ⟨g', p.withType .f32, ?_, hsupplanted, hinstalled.new _ _ (Nat.le_refl _) hadded.new⟩
  rw [lowerKernel, exec_bind_ok (Edit.exec_node hn), exec_bind_ok (Edit.exec_port hp)]
  dsimp only
  rw [exec_bind_ok hadd, exec_bind_ok (Edit.exec_ofGraph_ok (by rw [Edit.exec_step, hrelax])),
    exec_bind_ok (exec_discard_ok hinsert)]
  exact Edit.exec_ofGraph_ok hreplaced

theorem MatMul.operands_of_plan {plan : MatMul.Plan α}
    (h : MatMul.plan? g id = .ok (some plan)) :
    ∃ a b : Dequantization α, plan.operands = [a.data, b.data] ∧
      Dequantization.ofInput g id 0 = some a ∧ Dequantization.ofInput g id 1 = some b := by
  rw [MatMul.plan?] at h
  split at h
  · next a b _ ha hb =>
    split at h
    · cases h
    · obtain ⟨scale, -, hplan⟩ := except_bind_eq_ok.mp h
      obtain ⟨scale, -, rfl⟩ := Option.map_eq_some_iff.mp (Except.ok.inj hplan)
      exact ⟨a, b, rfl, ha, hb⟩
  · cases h

theorem Convolution.chain_of_activations {chain : Dequantization α} {scale : Tensor α}
    (h : Convolution.activations? g id = some (chain, scale)) :
    Dequantization.ofInput g id 0 = some chain ∧ chain.scale? = some scale := by
  obtain ⟨a, ha, h⟩ := Option.bind_eq_some_iff.mp h
  obtain ⟨_, hscale, h⟩ := Option.bind_eq_some_iff.mp h
  split at h
  · cases h
  · cases h
    exact ⟨ha, hscale⟩

theorem Convolution.chain_of_weights {chain : Dequantization α} {scale : Tensor α}
    (h : Convolution.weights? g id = some (chain, scale)) :
    Dequantization.ofInput g id 1 = some chain := by
  obtain ⟨a, ha, h⟩ := Option.bind_eq_some_iff.mp h
  split at h
  · cases h
  · obtain ⟨_, -, h⟩ := Option.bind_eq_some_iff.mp h
    cases h
    exact ha

theorem Convolution.operands_of_plan {plan : Convolution.Plan α}
    (h : Convolution.plan? g id = .ok (some plan)) :
    ∃ a b : Dequantization α, plan.operands = [a.data, b.data] ∧
      Dequantization.ofInput g id 0 = some a ∧ Dequantization.ofInput g id 1 = some b := by
  rw [Convolution.plan?] at h
  split at h
  · next data _ weights _ _ _ hdata hweights =>
    obtain ⟨scales, -, h⟩ := except_bind_eq_ok.mp h
    split at h
    · cases h
    · obtain ⟨factor, -, h⟩ := except_bind_eq_ok.mp h
      obtain ⟨scale, -, h⟩ := except_bind_eq_ok.mp h
      cases h
      exact ⟨data, weights, rfl, (chain_of_activations hdata).1, chain_of_weights hweights⟩
  · cases h

end LowPrecision
