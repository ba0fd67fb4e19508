import LowPrecision.Proofs.Rewrite.Shapes
import LowPrecision.Proofs.Rewrite.TracedRules

namespace LowPrecision

variable {α : Type} {g₀ g g' : Graph α} {id : NodeId} {n : Node α} {s : Slot} {f : Face α}
  {pending : Slot → Prop}

namespace Graph

theorem WellShaped.shape_of_constant (h : g.WellShaped) {value : Tensor α} {p : Port}
    (hvalue : g.constant? s = some value) (hs : g.port? s = some p) : p.shape = some value.shape := by
  rw [constant?_eq_face] at hvalue
  obtain ⟨f, hf, hvalue⟩ := Option.bind_eq_some_iff.mp hvalue
  split at hvalue
  · next hop =>
    cases hvalue
    exact (h s.node f hf).constant _ p hop (mem_ports hf hs)
  · cases hvalue

theorem WellShaped.shape_of_quantized (h : g.WellShaped) {data : Slot} {value : Tensor α} {p : Port}
    (hf : g.face? s.node = some f) (hkind : f.kind = .fakeQuantize) (hin : f.inputs[0]? = some data)
    (hvalue : g.constant? data = some value) (hs : g.port? s = some p) : p.shape = some value.shape :=
  (h s.node f hf).quantized data value p hkind hin hvalue (mem_ports hf hs)

end Graph

open LowPrecision.Graph

namespace Graph.Delivers

theorem requantized {levels : Nat} {data inLow inHigh : Slot} {rest : List Slot} {p : Port}
    {type : ElementType} {low high : Tensor α} (h : Delivers g₀ pending g) (hn : g.node? id = some n)
    (hop : n.op = .fakeQuantize levels) (hin : n.inputs = data :: inLow :: inHigh :: rest)
    (hp : g.port? ⟨id, 0⟩ = some p)
    (hd : Doubled g g' levels data inLow inHigh (p.withType type) low high) : Delivers g₀ pending g' := by
  refine h.extended hd.toExtends fun v f hv hf => ?_
  rcases hd.new_face hv hf with ⟨value, rfl⟩ | ⟨-, rfl⟩
  · exact ⟨by rintro ⟨⟩, .of_constant⟩
  · refine ⟨by rintro ⟨⟩, fun _ _ hop _ => (by cases hop), fun s t r _ hs ht hr => ?_⟩
    cases hs
    rw [List.mem_singleton.mp hr]
    have hface : g.face? id = some n.face := face?_eq_some.mpr ⟨n, hn, rfl⟩
    have hfirst : n.face.inputs[0]? = some data := by rw [Node.face, hin]; rfl
    obtain ⟨q, hq⟩ := h.wellFormed.exists_port (v := id) (i := 0) (by rw [input?_eq_face, hface]; exact hfirst)
    rw [constant?_eq_face, hd.toExtends.old _ (lt_size_of_port hq), ← constant?_eq_face] at ht
    have hshape := h.shaped.shape_of_quantized (s := ⟨id, 0⟩) hface (congrArg Op.kind hop) hfirst ht hp
    exact hshape

theorem addFakeQuantize {low high : Tensor α} {type : ElementType} {v : NodeId}
    (h : Delivers g₀ pending g)
    (hrun : exec (addFakeQuantize id low high type) g = .ok (.ok v, g')) :
    Delivers g₀ pending g' ∧ (∃ q, Extends g g' q) ∧ ∃ p f, g.port? ⟨id, 0⟩ = some p ∧
      g'.face? v = some f ∧ f.kind = .fakeQuantize ∧ f.ports = [p.withType type] := by
  obtain ⟨n, levels, data, _, _, _, p, hn, hop, hin, hp, rfl, hdoubled⟩ :=
    addFakeQuantize_done h.wellFormed hrun
  exact ⟨h.requantized hn hop hin hp hdoubled, ⟨_, hdoubled.toExtends⟩, p, _, hp, hdoubled.fakeQuantize,
    rfl, rfl⟩

end Graph.Delivers

section Kernels

variable [Arithmetic α] {operands : List Slot} {scale : Tensor α}

theorem Graph.Delivers.lowered (h : Delivers g₀ pending g) (hn : g.node? id = some n)
    (hkind : n.kind = .matMul ∨ n.kind = .convolution ∨ n.kind = .groupConvolution)
    (hrun : exec (lowerKernel id operands scale) g = .ok (.ok (), g')) : Delivers g₀ pending g' := by
  obtain ⟨p, d, g₁, g₂, hp, hadded, hports, hinsert, hreplace⟩ := lowerKernel_done h.wellFormed hn hrun
  have hreads : ¬ n.kind.ReadsShape := by rcases hkind with h | h | h <;> rw [h] <;> decide
  obtain ⟨-, hliteral, -⟩ := OpKind.computes_of_kernel hkind
  have hextends : Extends g g₁ fun _ => True := hadded.extends (fun _ _ => trivial) hports
  have h₁ : Delivers g₀ pending g₁ := h.added hadded hports
    (fun hresult => hreads (.inl hresult)) (.of_kind (k := n.kind) rfl hliteral.1 fun hk => hreads (.inr hk))
  have hslots : ∀ r ∈ n.readers 0, g₁.input? r.node r.index = some ⟨id, 0⟩ := fun r hr =>
    hextends.input (mem_readers_of_node h.wellFormed hn hr)
  obtain ⟨h₂, -, -, -, mid, hins⟩ :=
    Dequantization.delivers_insert (port?_new hadded.new) h₁ hslots (hextends.port hp) rfl hinsert
  have hnew : g₂.kind? g.nodes.size = some n.kind := by
    refine hins.kind ?_
    rw [kind?_eq_face, hadded.new]
    rfl
  have hface := hins.face_old (lt_size_of_face? hadded.new)
  rw [hadded.new, Option.map_some] at hface
  refine h₂.replaced_single hreplace hface rfl
    (.of_kind hnew hliteral.1 fun q q' hq hq' => ?_)
    (fun _ _ _ _ _ _ => .inr (.inl rfl)) fun _ ht => ht
  rw [hins.recast.port fun _ _ => rfl, hins.built.toExtends.port (hextends.port hp)] at hq
  rw [port?_new hface] at hq'
  cases hq
  cases hq'
  rfl

end Kernels

section Fusions

variable {m : NodeMatch}

theorem Graph.Delivers.fused (h : Delivers g₀ (fun _ => False) g) (hn : g.node? m.node = some n)
    (hkind : n.kind = .add ∨ n.kind = .multiply ∨ n.kind = .subtract)
    (hrun : exec (ConvertFusion.apply m) g = .ok (.ok true, g')) :
    Delivers g₀ (fun _ => False) g' := by
  obtain ⟨-, hliteral, hquantizer, hresult⟩ := OpKind.computes_of_arithmetic hkind
  obtain ⟨slot, input, source, g₂, -, -, hs⟩ := ConvertFusion.apply_done h.wellFormed hn hrun
  have hextends := hs.extends
  have hface : g.face? m.node = some n.face := face?_eq_some.mpr ⟨n, hn, rfl⟩
  have h₂ : Delivers g₀ (fun _ => False) g₂ :=
    h.added hs.added hs.reads hresult (.of_kind (k := n.kind) rfl hliteral.1 hquantizer)
  have hsame : ∀ i q q', g₂.port? ⟨m.node, i⟩ = some q → g₂.port? ⟨g.nodes.size, i⟩ = some q' → q' = q := by
    intro i q q' hq hq'
    rw [port?_eq_face, hextends.face hface] at hq
    rw [port?_eq_face, hs.added.new] at hq'
    exact Option.some.inj (hq'.symm.trans hq)
  have hkind' : g₂.kind? g.nodes.size = some n.kind := by
    rw [kind?_eq_face, hs.added.new]
    rfl
  refine h₂.replaced hs.replaced (fun i _ _ => .of_kind hkind' hliteral.1 fun q q' hq hq' => ?_)
    (fun v i j q q' _ _ hq hq' => .inl ⟨?_, fun h => h⟩) fun _ h => h
  · rw [hsame i q q' hq hq']
  · rw [hsame j q q' hq hq']

theorem Graph.Delivers.sanitized [Scalar α] (h : Delivers g₀ (fun _ => False) g)
    (hrun : exec (Sanitize.apply m) g = .ok (.ok true, g')) : Delivers g₀ (fun _ => False) g' := by
  obtain ⟨sanitized, p, g₁, hsanitized, hp, hs⟩ := Sanitize.apply_done h.wellFormed hrun
  obtain ⟨value, data, hvalue, -, rfl⟩ := Sanitize.constant?_eq_some hsanitized
  have hextends := hs.extends
  have hport := hextends.port hp
  have h₁ : Delivers g₀ (fun _ => False) g₁ := h.added hs.added (by rintro _ ⟨⟩) (by rintro ⟨⟩) .of_constant
  have hstands : g₁.Stands ⟨m.node, 0⟩ ⟨g.nodes.size, 0⟩ := by
    refine ⟨fun t ht => ⟨value, ?_, ?_⟩, fun q q' hq hq' => ?_⟩
    · have hold : g.constant? ⟨m.node, 0⟩ = g₁.constant? ⟨m.node, 0⟩ := by
        rw [constant?_eq_face, constant?_eq_face, hextends.old m.node (lt_size_of_port hp)]
      rw [← hold]
      exact hvalue
    · rw [constant?_eq_face, hs.added.new] at ht
      cases ht
      rfl
    · rw [port?_new hs.added.new] at hq'
      cases hq'
      cases hport.symm.trans hq
      exact (h.shaped.shape_of_constant hvalue hp).symm
  refine h₁.replaced_single hs.replaced hs.added.new rfl hstands (fun _ _ q _ _ hq => .inl ⟨?_, id⟩) fun _ h => h
  cases hport.symm.trans hq
  rfl

end Fusions

section Cleanup

variable {g₁ : Graph α} {changed : Slot → Prop}

def Graph.SameReads (changed : Slot → Prop) (g g' : Graph α) : Prop :=
  ∀ v i s, g'.kind? v = some .result → g'.input? v i = some s → ∃ o p q, g.kind? v = some .result ∧
    g.input? v i = some o ∧ g.port? o = some p ∧ g'.port? s = some q ∧
    q.elementType = p.elementType ∧ (q.shape = p.shape ∨ changed o)

theorem Graph.SameReads.imp {changed' : Slot → Prop} (h : SameReads changed g g')
    (himp : ∀ o, changed o → changed' o) : SameReads changed' g g' := by
  intro v i s hk hi
  obtain ⟨o, p, q, hk₀, hi₀, hp, hq, htype, hshape⟩ := h v i s hk hi
  exact ⟨o, p, q, hk₀, hi₀, hp, hq, htype, hshape.imp_right (himp o)⟩

theorem Graph.SameReads.of_faces (h : SameReads changed g g₁) (hface : ∀ v, g'.face? v = g₁.face? v) :
    SameReads changed g g' := by
  intro v i s hk hi
  rw [kind?_eq_face, hface, ← kind?_eq_face] at hk
  rw [input?_eq_face, hface, ← input?_eq_face] at hi
  rw [port?_eq_face, hface, ← port?_eq_face]
  exact h v i s hk hi

theorem Graph.sameReads_replaced {e : Slot → Prop} {old new : NodeId} (hg : g.WellFormed)
    (he : Extends g g₁ e) (hkinds : ∀ v f, g.nodes.size ≤ v → g₁.face? v = some f → f.kind ≠ .result)
    (hrun : exec (replaceNode old new : Edit α GraphError Unit) g₁ = .ok (.ok (), g'))
    (hport : ∀ v i j p q, g.kind? v = some .result → g.input? v i = some ⟨old, j⟩ →
      g.port? ⟨old, j⟩ = some p → g₁.port? ⟨new, j⟩ = some q →
      q.elementType = p.elementType ∧ (q.shape = p.shape ∨ changed ⟨old, j⟩)) : SameReads changed g g' := by
  intro v i s' hk hi
  obtain ⟨-, hrerouted, hsize, -⟩ := replaceNode_rerouted he.wellFormed hrun
  obtain ⟨f', hf', hkind⟩ := face_of_kind hk
  have hlt : v < g₁.nodes.size := hsize ▸ lt_size_of_face? hf'
  obtain ⟨f, hf, hsame⟩ := hrerouted.face v f' hlt hf'
  have hresult : f.kind = .result := hsame.kind.symm.trans hkind
  have hold : v < g.nodes.size := Nat.lt_of_not_le fun hge => hkinds v f hge hf hresult
  rw [he.old v hold] at hf
  have hk₀ : g.kind? v = some .result := by rw [kind?_eq_face, hf, Option.map_some, hresult]
  obtain ⟨q, hq⟩ := hrerouted.wellFormed.exists_port hi
  have hq₁ := hrerouted.port (hsize ▸ lt_size_of_port hq) hq
  rw [input?_eq_face, hf', Option.bind_some] at hi
  obtain ⟨o, ho, hmoved⟩ := hsame.input hi
  have hread : g.input? v i = some o := by rw [input?_eq_face, hf, Option.bind_some, ho]
  obtain ⟨p, hp⟩ := hg.exists_port hread
  refine ⟨o, p, q, hk₀, hread, hp, hq, ?_⟩
  rcases hmoved with rfl | ⟨hnode, rfl⟩
  · cases (he.port hp).symm.trans hq₁
    exact ⟨rfl, .inl rfl⟩
  · obtain ⟨o, j⟩ := o
    cases hnode
    exact hport v i j p q hk₀ hread hp hq₁

theorem FoldConvert.retains (hg : g.WellFormed) (hcan : canApply g id = true)
    (hrun : exec (apply id) g = .ok (.ok true, g')) : g.SameReads (fun _ => False) g' := by
  obtain ⟨n, destination, source, value, g₁, hn, hop, -, -, hs⟩ := apply_done hg hrun
  refine sameReads_replaced hg hs.extends (fun v f hv hf => ?_) hs.replaced
    fun v i j p q hk hi hp hq => ?_
  · obtain ⟨-, rfl⟩ := hs.added.eq_new hv hf
    rintro ⟨⟩
  · -- Only differences read the conversion.
    obtain ⟨rfl, -⟩ : j = 0 ∧ q = _ := single_port hs.added.new rfl hq
    rw [canApply, Bool.and_eq_true, List.all_eq_true] at hcan
    have hreader := hcan.2 ⟨v, i⟩ (hg.mem_readers.mpr hi)
    rw [Bool.and_eq_true, beq_iff_eq, beq_iff_eq] at hreader
    cases hk.symm.trans hreader.2

namespace RangeFusion

def Fits (g : Graph α) (id : NodeId) : Prop :=
  ∀ fakeQuantize value, source? g id = some (fakeQuantize, value) →
    (g.port? ⟨id, 0⟩).map Port.shape = (g.port? ⟨fakeQuantize, 0⟩).map Port.shape

theorem retains {f : α → α → α} (hg : g.WellFormed)
    (hrun : exec (apply id f) g = .ok (.ok true, g')) :
    g.SameReads (fun o => o.node = id ∧ ¬ Fits g id) g' := by
  obtain ⟨fakeQuantize, value, k, levels, data, inLow, inHigh, rest, p, q, low, high, g₁, g₂, hsource, hp,
    hk, hop, hin, hq, hdoubled, hreplace, hrename, -⟩ := apply_done hg hrun
  have hreplaced : g.SameReads (fun o => o.node = id ∧ ¬ Fits g id) g₂ := by
    refine sameReads_replaced hg hdoubled.toExtends (fun v f hv hf => ?_) hreplace fun v i j r r' _ _ hr hr' => ?_
    · rcases hdoubled.new_face hv hf with ⟨_, rfl⟩ | ⟨-, rfl⟩ <;> rintro ⟨⟩
    obtain ⟨rfl, rfl⟩ := single_port hdoubled.fakeQuantize rfl hr'
    cases hp.symm.trans hr
    refine ⟨rfl, ?_⟩
    by_cases hshape : q.shape = p.shape
    · exact .inl hshape
    · refine .inr ⟨rfl, fun hfits => hshape ?_⟩
      have hsame := hfits fakeQuantize value hsource
      rw [hp, hq] at hsame
      exact (Option.some.inj hsame).symm
  obtain ⟨-, hrerouted, -⟩ := replaceNode_rerouted hdoubled.wellFormed hreplace
  obtain ⟨-, -, hface, -⟩ := rename_done hrerouted.wellFormed hrename
  exact hreplaced.of_faces hface

end RangeFusion

end Cleanup

section Moves

variable [Arithmetic α] {k : OpKind} {params : AffineParams α} {type : ElementType}

end Moves

namespace Decomposition

variable [Scalar α] {data source : Slot} {p : Lowering α} {affine : AffineParams α}
  {type : ElementType} {d : Dequantization α} {g₁ : Graph α}

end Decomposition

end LowPrecision
