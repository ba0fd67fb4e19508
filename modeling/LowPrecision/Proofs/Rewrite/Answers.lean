import LowPrecision.Proofs.Graph.Rerouting
import LowPrecision.Proofs.Rewrite.Steps

namespace LowPrecision

variable {α β : Type} {g g' : Graph α}

namespace Graph

theorem setInput_done (h : g.WellFormed) {id : NodeId} {index : Nat} {source : Slot}
    (hrun : g.setInput id index source = (.ok (), g')) :
    (g.input? id index).isSome ∧ (g.port? source).isSome ∧
      Recast g g' fun v f => f.redirect v [⟨id, index⟩] source := by
  rcases setInput_cases g id index source with ⟨e, he⟩ | ⟨old, hold, hsource, -⟩
  · cases he.symm.trans hrun
  have hi : (g.input? id index).isSome := Option.isSome_iff_exists.mpr ⟨old, hold⟩
  have hs : (g.port? source).isSome := wire?_isSome_eq_port g source ▸ hsource
  obtain ⟨g₁, hok, hrecast⟩ := setInput_ok h hi hs
  cases hrun.symm.trans hok
  exact ⟨hi, hs, hrecast⟩

theorem setOutputType_done (h : g.WellFormed) {s : Slot} {type : ElementType}
    (hrun : g.setOutputType s type = (.ok (), g')) :
    (g.port? s).isSome ∧ Recast g g' fun v f => if v = s.node then f.retype s.index type else f := by
  rcases setOutputType_cases g s type with ⟨e, he⟩ | ⟨hs, -⟩
  · cases he.symm.trans hrun
  have hport : (g.port? s).isSome := wire?_isSome_eq_port g s ▸ hs
  obtain ⟨g₁, hok, hrecast⟩ := setOutputType_ok h hport type
  cases hrun.symm.trans hok
  exact ⟨hport, hrecast⟩

theorem setRelaxed_done (h : g.WellFormed) {id : NodeId} {types : RelaxedTypes}
    (hrun : g.setRelaxed id types = (.ok (), g')) :
    g.isLive id = true ∧ Recast g g' fun v f => if v = id then f.relax types else f := by
  rcases setRelaxed_cases g id types with ⟨e, he⟩ | ⟨hid, -⟩
  · cases he.symm.trans hrun
  obtain ⟨g₁, hok, hrecast⟩ := setRelaxed_ok h hid types
  cases hrun.symm.trans hok
  exact ⟨hid, hrecast⟩

theorem rewire_done (h : g.WellFormed) {slots : List Slot} {source : Slot}
    (hrun : exec (rewire slots source : Edit α GraphError Unit) g = .ok (.ok (), g')) :
    Recast g g' fun v f => f.redirect v slots source := by
  induction slots generalizing g with
  | nil =>
    cases hrun
    exact (Recast.refl h).congr fun v f _ => (Face.redirect_of_not_mem (by simp)).symm
  | cons slot slots ih =>
    rw [rewire, List.forM] at hrun
    obtain ⟨⟨⟩, g₁, hfirst, hrest⟩ := exec_bind_eq_answer.mp hrun
    rw [Edit.exec_step, Except.ok.injEq] at hfirst
    obtain ⟨-, -, hrecast⟩ := setInput_done h hfirst
    exact (hrecast.trans (ih hrecast.wellFormed hrest)).congr fun v f _ => redirect_cons f v slot _ _

end Graph

namespace Edit

theorem exec_ofGraph_step_eq_ok {f : Graph α → Except GraphError Unit × Graph α} :
    exec (ofGraph (step f)) g = .ok (.ok (), g') ↔ f g = (.ok (), g') := by
  rw [ofGraph, exec_adapt_eq_ok, exec_step, Except.ok.injEq]

theorem addNode_done (h : g.WellFormed) {base : String} {op : Op α} {inputs : List Slot}
    {outputs : List Port} {id : NodeId}
    (hrun : exec (addNode base op inputs outputs) g = .ok (.ok id, g')) :
    id = g.nodes.size ∧ (∀ s ∈ inputs, (g.port? s).isSome) ∧
      Graph.Added g g' ⟨op, inputs, outputs, none⟩ := by
  have hadd := hrun
  rw [addNode, ofGraph, exec_adapt_eq_ok, exec_answer, Except.ok.injEq, Graph.addUniqueNode] at hadd
  rcases Graph.addNode_cases g (g.uniqueName base) op inputs outputs with ⟨e, he⟩ | ⟨-, hin, -⟩
  · cases he.symm.trans hadd
  have hports : ∀ s ∈ inputs, (g.port? s).isSome := fun s hs =>
    Graph.wire?_isSome_eq_port g s ▸ hin s hs
  obtain ⟨g₁, hok, hadded⟩ := addNode_ok h base op inputs outputs hports
  cases hrun.symm.trans hok
  exact ⟨rfl, hports, hadded⟩

theorem addConstant_done (h : g.WellFormed) {base : String} {value : Tensor α} {type : ElementType}
    {s : Slot} (hrun : exec (addConstant base value type) g = .ok (.ok s, g')) :
    s = ⟨g.nodes.size, 0⟩ ∧
      Graph.Added g g' ⟨.constant value, [], [⟨type, some value.shape⟩], none⟩ := by
  obtain ⟨g₁, hok, hadded⟩ := addConstant_ok h base value type
  cases hrun.symm.trans hok
  exact ⟨rfl, hadded⟩

theorem port_done {s : Slot} {p : Port} (hrun : exec (port s) g = .ok (.ok p, g')) :
    g.port? s = some p ∧ g' = g := by
  obtain rfl := silent_port s g _ g' hrun
  rw [port, ofGraph, exec_adapt_eq_ok, exec_ofExcept] at hrun
  rw [Graph.port?, (Prod.mk.inj (Except.ok.inj hrun)).1]
  exact ⟨rfl, rfl⟩

end Edit

theorem addFakeQuantize_done (h : g.WellFormed) {id : NodeId} {low high : Tensor α}
    {type : ElementType} {v : NodeId}
    (hrun : exec (addFakeQuantize id low high type) g = .ok (.ok v, g')) :
    ∃ n levels data inLow inHigh rest p, g.node? id = some n ∧ n.op = .fakeQuantize levels ∧
      n.inputs = data :: inLow :: inHigh :: rest ∧ g.port? ⟨id, 0⟩ = some p ∧
      v = g.nodes.size + 2 ∧ Doubled g g' levels data inLow inHigh (p.withType type) low high := by
  have hwhole := hrun
  rw [addFakeQuantize] at hrun
  obtain ⟨n, g₁, hn, -⟩ := exec_bind_eq_answer.mp hrun
  obtain ⟨hn, rfl⟩ := Edit.exec_node_eq_ok.mp hn
  rcases addFakeQuantize_cases h hn hwhole with ⟨e, he, -⟩ |
    ⟨levels, data, inLow, inHigh, rest, p, hop, hin, hp, hv, hdoubled⟩
  · cases he
  · cases hv
    exact ⟨n, levels, data, inLow, inHigh, rest, p, hn, hop, hin, hp, rfl, hdoubled⟩

namespace Dequantization

variable [Arithmetic α] {source : Slot} {params : AffineParams α} {base : String}
  {d : Dequantization α}

theorem build_done (h : g.WellFormed)
    (hrun : exec (build source params base) g = .ok (.ok d, g')) :
    ∃ p, g.port? source = some p ∧ Built g g' source params d := by
  have hwhole := hrun
  rw [build] at hrun
  obtain ⟨p, g₁, hp, -⟩ := exec_bind_eq_answer.mp hrun
  obtain ⟨hp, -⟩ := Edit.port_done hp
  obtain ⟨d', g₂, hok, hbuilt⟩ := build_ok h hp params base
  cases hwhole.symm.trans hok
  exact ⟨p, hp, hbuilt⟩

theorem insert_done (h : g.WellFormed) {slots : List Slot}
    (hrun : exec (insert source slots params base) g = .ok (.ok d, g')) :
    ∃ p mid, g.port? source = some p ∧ Inserted g g' source slots params d mid := by
  rw [insert] at hrun
  obtain ⟨chain, mid, hbuild, hrun⟩ := exec_bind_eq_answer.mp hrun
  obtain ⟨p, hp, hbuilt⟩ := build_done h hbuild
  obtain ⟨⟨⟩, g₁, hrewire, hpure⟩ := exec_bind_eq_answer.mp hrun
  cases hpure
  rw [Edit.ofGraph, exec_adapt_eq_ok] at hrewire
  exact ⟨p, mid, hp, hbuilt, Graph.rewire_done hbuilt.wellFormed hrewire⟩

end Dequantization

theorem lowerKernel_done [Arithmetic α] (h : g.WellFormed) {kernel : NodeId} {n : Node α}
    (hn : g.node? kernel = some n) {operands : List Slot} {scale : Tensor α}
    (hrun : exec (lowerKernel kernel operands scale) g = .ok (.ok (), g')) :
    ∃ p d g₁ g₂, g.port? ⟨kernel, 0⟩ = some p ∧
      Graph.Added g g₁ ⟨n.op, operands, [p.withType .f32], some (.float 2 1)⟩ ∧
      (∀ s ∈ operands, (g.port? s).isSome) ∧
      exec (Dequantization.insert ⟨g.nodes.size, 0⟩ (n.readers 0) ⟨scale, none⟩ n.name) g₁ =
        .ok (.ok d, g₂) ∧
      exec (Graph.replaceNode kernel g.nodes.size : Edit α GraphError Unit) g₂ = .ok (.ok (), g') := by
  rw [lowerKernel] at hrun
  obtain ⟨_, _, hnode, hrun₁⟩ := exec_bind_eq_answer.mp hrun
  obtain ⟨hnode, hsame⟩ := Edit.exec_node_eq_ok.mp hnode
  cases hn.symm.trans hnode
  obtain rfl := hsame.symm
  obtain ⟨p, _, hport, hrun₂⟩ := exec_bind_eq_answer.mp hrun₁
  obtain ⟨hp, hsame⟩ := Edit.port_done hport
  obtain rfl := hsame.symm
  obtain ⟨v, g₁, hadd, hrun₃⟩ := exec_bind_eq_answer.mp hrun₂
  obtain ⟨rfl, hports, hadded⟩ := Edit.addNode_done h hadd
  obtain ⟨⟨⟩, g₂, hrelax, hrun₄⟩ := exec_bind_eq_answer.mp hrun₃
  obtain ⟨-, hrecast⟩ :=
    Graph.setRelaxed_done hadded.wellFormed (Edit.exec_ofGraph_step_eq_ok.mp hrelax)
  have hnew := hadded.relax hrecast
  obtain ⟨⟨⟩, g₃, hinsert, hreplace⟩ := exec_bind_eq_answer.mp hrun₄
  obtain ⟨r₀, hinsert, hdone⟩ := exec_map_cases (f := fun _ => ()) hinsert
  cases r₀ with
  | error e => cases hdone
  | ok d => exact ⟨p, d, g₂, g₃, hp, hnew, hports, hinsert, exec_adapt_eq_ok.mp hreplace⟩

end LowPrecision
