import LowPrecision.Proofs.Rewrite.Answers
import LowPrecision.Proofs.Rewrite.Fusion
import LowPrecision.Rewrite.Decomposition

namespace LowPrecision

variable {α : Type} {g g₁ g' : Graph α} {id : NodeId} {n : Node α} {m : NodeMatch}

structure Superseded (g g₁ g' : Graph α) (id : NodeId) (f : Face α) : Prop where
  added : Graph.Added g g₁ f
  reads : ∀ s ∈ f.inputs, (g.port? s).isSome
  replaced : exec (Graph.replaceNode id g.nodes.size : Edit α GraphError Unit) g₁ = .ok (.ok (), g')

theorem Superseded.extends {f : Face α} (h : Superseded g g₁ g' id f) :
    Graph.Extends g g₁ fun _ => True := h.added.extends (fun _ _ => trivial) h.reads

theorem ConvertFusion.apply_done (h : g.WellFormed) (hn : g.node? m.node = some n)
    (hrun : exec (apply m) g = .ok (.ok true, g')) :
    ∃ slot input source g₁, n.inputs[slot]? = some input ∧ source? g input = some source ∧
      Superseded g g₁ g' m.node (fused n slot source) := by
  rw [apply, exec_bind_ok (Edit.exec_read _ _)] at hrun
  split at hrun
  rotate_left
  · cases hrun
  next slot source hfusable =>
  obtain ⟨_, input, hnode, hinput, hsource⟩ := fusable?_eq_some hfusable
  cases hn.symm.trans hnode
  rw [exec_bind_ok (Edit.exec_node hn)] at hrun
  obtain ⟨v, g₁, hadd, hrun₁⟩ := exec_bind_eq_answer.mp hrun
  obtain ⟨rfl, hports, hadded⟩ := Edit.addNode_done h hadd
  obtain ⟨⟨⟩, g₂, hrelax, hrun₂⟩ := exec_bind_eq_answer.mp hrun₁
  obtain ⟨-, hrecast⟩ :=
    Graph.setRelaxed_done hadded.wellFormed (Edit.exec_ofGraph_step_eq_ok.mp hrelax)
  obtain ⟨⟨⟩, g₃, hreplace, hpure⟩ := exec_bind_eq_answer.mp hrun₂
  cases hpure
  exact ⟨slot, input, source, g₂, hinput, hsource, hadded.relax hrecast, hports,
    exec_adapt_eq_ok.mp hreplace⟩

theorem Sanitize.apply_done [Scalar α] (h : g.WellFormed)
    (hrun : exec (apply m) g = .ok (.ok true, g')) :
    ∃ value p g₁, constant? g m = some value ∧ g.port? ⟨m.node, 0⟩ = some p ∧
      Superseded g g₁ g' m.node ⟨.constant value, [], [⟨p.elementType, some value.shape⟩], none⟩ := by
  rw [apply, exec_bind_ok (Edit.exec_read _ _)] at hrun
  split at hrun
  rotate_left
  · cases hrun
  next value hvalue =>
  obtain ⟨n, _, hnode, hrun₁⟩ := exec_bind_eq_answer.mp hrun
  obtain rfl := (Edit.exec_node_eq_ok.mp hnode).2.symm
  obtain ⟨p, _, hport, hrun₂⟩ := exec_bind_eq_answer.mp hrun₁
  obtain ⟨hp, hsame⟩ := Edit.port_done hport
  obtain rfl := hsame.symm
  obtain ⟨c, g₁, hadd, hrun₃⟩ := exec_bind_eq_answer.mp hrun₂
  obtain ⟨rfl, hadded⟩ := Edit.addConstant_done h hadd
  obtain ⟨⟨⟩, g₂, hreplace, hpure⟩ := exec_bind_eq_answer.mp hrun₃
  cases hpure
  exact ⟨value, p, g₁, hvalue, hp, hadded, by simp, exec_adapt_eq_ok.mp hreplace⟩

theorem FoldConvert.apply_done (h : g.WellFormed) (hrun : exec (apply id) g = .ok (.ok true, g')) :
    ∃ n destination source value g₁, g.node? id = some n ∧ n.op = .convert destination ∧
      n.inputs[0]? = some source ∧ g.constant? source = some value ∧
      Superseded g g₁ g' id ⟨.constant value, [], [⟨destination, some value.shape⟩], none⟩ := by
  rw [apply] at hrun
  obtain ⟨n, _, hnode, hrun₁⟩ := exec_bind_eq_answer.mp hrun
  obtain ⟨hn, hsame⟩ := Edit.exec_node_eq_ok.mp hnode
  obtain rfl := hsame.symm
  split at hrun₁
  rotate_left
  · cases hrun₁
  next destination hop =>
  rw [exec_bind_ok (Edit.exec_read _ _)] at hrun₁
  split at hrun₁
  rotate_left
  · cases hrun₁
  next value hvalue =>
  obtain ⟨c, g₁, hadd, hrun₂⟩ := exec_bind_eq_answer.mp hrun₁
  obtain ⟨rfl, hadded⟩ := Edit.addConstant_done h hadd
  obtain ⟨⟨⟩, g₂, hreplace, hpure⟩ := exec_bind_eq_answer.mp hrun₂
  cases hpure
  obtain ⟨source, hsource, hconstant⟩ := Option.bind_eq_some_iff.mp hvalue
  exact ⟨n, destination, source, value, g₁, hn, hop, hsource, hconstant, hadded, by simp,
    exec_adapt_eq_ok.mp hreplace⟩

theorem RangeFusion.apply_done {f : α → α → α} (h : g.WellFormed)
    (hrun : exec (apply id f) g = .ok (.ok true, g')) :
    ∃ fakeQuantize value k levels data inLow inHigh rest p q low high g₁ g₂,
      source? g id = some (fakeQuantize, value) ∧ g.port? ⟨id, 0⟩ = some p ∧
      g.node? fakeQuantize = some k ∧ k.op = .fakeQuantize levels ∧
      k.inputs = data :: inLow :: inHigh :: rest ∧ g.port? ⟨fakeQuantize, 0⟩ = some q ∧
      Doubled g g₁ levels data inLow inHigh (q.withType p.elementType) low high ∧
      exec (Graph.replaceNode id (g.nodes.size + 2) : Edit α GraphError Unit) g₁ =
        .ok (.ok (), g₂) ∧ g₂.rename (g.nodes.size + 2) k.name = (.ok (), g') ∧
      (∃ bound, (g.input? fakeQuantize 3).bind g.constant? = some bound ∧
        (bound.broadcastZip value f).run = .ok (.ok low)) ∧
      ∃ bound, (g.input? fakeQuantize 4).bind g.constant? = some bound ∧
        (bound.broadcastZip value f).run = .ok (.ok high) := by
  rw [apply, exec_bind_ok (Edit.exec_read _ _)] at hrun
  split at hrun
  rotate_left
  · cases hrun
  next fakeQuantize value hsource =>
  obtain ⟨low, g₁, hlow, hrun₁⟩ := exec_bind_eq_answer.mp hrun
  obtain ⟨rfl, houtLow⟩ := bound_cases hlow
  obtain ⟨high, g₂, hhigh, hrun₂⟩ := exec_bind_eq_answer.mp hrun₁
  obtain ⟨rfl, houtHigh⟩ := bound_cases hhigh
  obtain ⟨p, _, hport, hrun₃⟩ := exec_bind_eq_answer.mp hrun₂
  obtain ⟨hp, hsame⟩ := Edit.port_done hport
  obtain rfl := hsame.symm
  obtain ⟨k, _, hnode, hrun₄⟩ := exec_bind_eq_answer.mp hrun₃
  obtain ⟨hk, hsame⟩ := Edit.exec_node_eq_ok.mp hnode
  obtain rfl := hsame.symm
  obtain ⟨v, g₃, hadd, hrun₅⟩ := exec_bind_eq_answer.mp hrun₄
  obtain ⟨⟨⟩, g₄, hreplace, hrun₆⟩ := exec_bind_eq_answer.mp hrun₅
  obtain ⟨⟨⟩, g₅, hrename, hpure⟩ := exec_bind_eq_answer.mp hrun₆
  cases hpure
  obtain ⟨k', levels, data, inLow, inHigh, rest, q, hk', hop, hin, hq, rfl, hdoubled⟩ :=
    addFakeQuantize_done h hadd
  cases hk.symm.trans hk'
  exact ⟨fakeQuantize, value, k, levels, data, inLow, inHigh, rest, p, q, low, high, g₃, g₄, hsource,
    hp, hk, hop, hin, hq, hdoubled, exec_adapt_eq_ok.mp hreplace,
    Edit.exec_ofGraph_step_eq_ok.mp hrename, houtLow low rfl, houtHigh high rfl⟩

theorem Decomposition.addSource_doubled [Scalar α] {name : String} {p : Lowering α} {source : Slot}
    {type : ElementType} (h : g.WellFormed)
    (hrun : exec (addSource id name p type none) g = .ok (.ok source, g')) :
    ∃ n levels data low high rest, ∃ q : Port, ∃ outLow outHigh, g.node? id = some n ∧
      n.op = .fakeQuantize levels ∧ n.inputs = data :: low :: high :: rest ∧
      g.port? ⟨id, 0⟩ = some q ∧ source = ⟨g.nodes.size + 2, 0⟩ ∧
      Doubled g g' levels data low high (q.withType type) outLow outHigh := by
  rw [addSource] at hrun
  obtain ⟨outLow, k, hlow, htail⟩ := exec_bind_eq_answer.mp hrun
  obtain ⟨outHigh, k', hhigh, hrest⟩ := exec_bind_eq_answer.mp htail
  obtain rfl := Edit.silent_attempt _ _ _ _ hlow
  obtain rfl := Edit.silent_attempt _ _ _ _ hhigh
  obtain ⟨v, g₂, hadd, hpure⟩ := exec_bind_eq_answer.mp hrest
  cases hpure
  obtain ⟨n, levels, data, low, high, rest, q, hn, hop, hin, hq, rfl, hdoubled⟩ :=
    addFakeQuantize_done h hadd
  exact ⟨n, levels, data, low, high, rest, q, _, _, hn, hop, hin, hq, rfl, hdoubled⟩

end LowPrecision
