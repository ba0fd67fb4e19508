import LowPrecision.Proofs.Graph.Replacement
import LowPrecision.Quantization.Dequantization

namespace LowPrecision

variable {α ε ε' β γ : Type} {g g' : Graph α}

namespace Edit

theorem exec_ofGraph_ok {e : Edit α GraphError β} {x : β} (h : exec e g = .ok (.ok x, g')) :
    exec (ofGraph e) g = .ok (.ok x, g') := exec_adapt_eq_ok.mpr h

theorem addNode_ok (h : g.WellFormed) (base : String) (op : Op α) (inputs : List Slot)
    (outputs : List Port) (hin : ∀ s ∈ inputs, (g.port? s).isSome) :
    ∃ g', exec (addNode base op inputs outputs) g = .ok (.ok g.nodes.size, g') ∧
      Graph.Added g g' ⟨op, inputs, outputs, none⟩ := by
  obtain ⟨g', hadd, hadded⟩ := Graph.addUniqueNode_ok h base op inputs outputs hin
  exact ⟨g', exec_ofGraph_ok (by rw [exec_answer, hadd]), hadded⟩

theorem addConstant_ok (h : g.WellFormed) (base : String) (value : Tensor α) (type : ElementType) :
    ∃ g', exec (addConstant base value type) g = .ok (.ok ⟨g.nodes.size, 0⟩, g') ∧
      Graph.Added g g' ⟨.constant value, [], [⟨type, some value.shape⟩], none⟩ := by
  obtain ⟨g', hadd, hadded⟩ := Graph.addUniqueNode_ok h base (.constant value) []
    [⟨type, some value.shape⟩] (by simp)
  refine ⟨g', exec_map_ok _ (exec_ofGraph_ok ?_), hadded⟩
  rw [exec_answer, Graph.addConstant, hadd]

theorem exec_port {s : Slot} {p : Port} (h : g.port? s = some p) :
    exec (port s : Edit α TransformError Port) g = .ok (.ok p, g) := by
  rw [Graph.port?_eq] at h
  obtain ⟨w, hw, rfl⟩ := Option.map_eq_some_iff.mp h
  refine exec_ofGraph_ok ?_
  rw [exec_ofExcept, Graph.port_of_wire? hw]

theorem exec_node {id : NodeId} {n : Node α} (h : g.node? id = some n) :
    exec (node id) g = .ok (.ok n, g) :=
  exec_ofGraph_ok (Graph.exec_ofExcept_node h)

theorem exec_node_none {id : NodeId} (h : g.node? id = none) :
    exec (Edit.node id) g = .ok (.error (.graph (.unknownNode id)), g) := by
  rw [Edit.node, Edit.ofGraph, exec_adapt, Edit.exec_ofExcept, Graph.node, h]
  rfl

end Edit

namespace Graph

def IsChainStep (g : Graph α) (f : Face α) : Prop :=
  ∃ port, f.ports = [port] ∧
    ((f.op = .convert .f32 ∧ port.elementType = .f32) ∨
      (f.inputs = [] ∧ ∃ value, f.op = .constant value) ∨
        ((f.op = .subtract ∨ f.op = .multiply) ∧ port.elementType = .f32 ∧
          ∀ s ∈ f.inputs, ∃ p, g.port? s = some p ∧ p.elementType = .f32))

structure Chained (g g' : Graph α) (p : Slot → Prop) (count : Nat) : Prop extends
    Extends g g' p where
  fresh (v : NodeId) (f : Face α) : g.nodes.size ≤ v → g'.face? v = some f → g'.IsChainStep f
  count : g'.nodes.size ≤ g.nodes.size + count

namespace Chained

variable {p q : Slot → Prop} {m n : Nat}

theorem refl (h : g.WellFormed) : Chained g g p 0 :=
  ⟨.refl h, fun _ _ hv hf => absurd (lt_size_of_face? hf) (Nat.not_lt.mpr hv), Nat.le_refl _⟩

theorem trans {g₁ g₂ g₃ : Graph α} (h : Chained g₁ g₂ p m) (h' : Chained g₂ g₃ q n)
    (hq : ∀ s, s.node < g₁.nodes.size → q s → p s) : Chained g₁ g₃ p (m + n) where
  toExtends := h.toExtends.trans h'.toExtends hq
  fresh v f hv hf := by
    rcases Nat.lt_or_ge v g₂.nodes.size with hlt | hge
    · rw [h'.old v hlt] at hf
      obtain ⟨port, hports, hstep⟩ := h.fresh v f hv hf
      refine ⟨port, hports, hstep.imp_right (.imp_right fun hstep => ⟨hstep.1, hstep.2.1, ?_⟩)⟩
      intro s hs
      obtain ⟨k, hk, htype⟩ := hstep.2.2 s hs
      exact ⟨k, h'.port hk, htype⟩
    · exact h'.fresh v f hge hf
  count := by
    have := h.count
    have := h'.count
    omega

theorem weaken (h : Chained g g' p m) (hp : ∀ s, p s → q s) (hle : m ≤ n) : Chained g g' q n where
  toExtends := ⟨h.wellFormed, h.size, h.old,
    fun v f hv hf s hs => (h.inputs v f hv hf s hs).imp_left fun hread hlt => hp _ (hread hlt),
    h.name, h.attributes⟩
  fresh := h.fresh
  count := Nat.le_trans h.count (Nat.add_le_add_left hle _)

theorem of_added {f : Face α} (h : Added g g' f) (hp : ∀ s ∈ f.inputs, p s)
    (hin : ∀ s ∈ f.inputs, (g.port? s).isSome) (hf : g'.IsChainStep f) : Chained g g' p 1 where
  toExtends := h.extends hp hin
  fresh v k hv hk := by
    obtain ⟨rfl, rfl⟩ := h.eq_new hv hk
    exact hf
  count := Nat.le_of_eq h.size

end Chained

theorem port?_new {g : Graph α} {v : NodeId} {op : Op α} {inputs : List Slot} {p : Port}
    {ports : List Port} {types : Option RelaxedTypes}
    (h : g.face? v = some ⟨op, inputs, p :: ports, types⟩) : g.port? ⟨v, 0⟩ = some p := by
  rw [port?_eq_face, h]
  rfl

theorem constantValue?_eq_face (g : Graph α) (s : Slot) :
    g.constantValue? s = (g.face? s.node).bind fun f =>
      match f.op with
      | .constant value => some value
      | .convert _ => (f.inputs[0]?).bind g.constant?
      | _ => none := by
  rw [constantValue?, constant?_eq_face, face?]
  cases hn : g.node? s.node with
  | none => rfl
  | some n => obtain ⟨_, op, _, _, _⟩ := n; cases op <;> rfl

theorem constantValue?_eq_some {g : Graph α} {s : Slot} {value : Tensor α} :
    g.constantValue? s = some value ↔ g.constant? s = some value ∨ ∃ f type source,
      g.face? s.node = some f ∧ f.op = .convert type ∧ f.inputs[0]? = some source ∧
        g.constant? source = some value := by
  rw [constantValue?_eq_face, constant?_eq_some, Option.bind_eq_some_iff]
  constructor
  · rintro ⟨f, hf, hvalue⟩
    split at hvalue
    · next hop => exact .inl ⟨f, hf, hop.trans (congrArg _ (Option.some.inj hvalue))⟩
    · next type hop =>
      obtain ⟨source, hsource, hconstant⟩ := Option.bind_eq_some_iff.mp hvalue
      exact .inr ⟨f, type, source, hf, hop, hsource, hconstant⟩
    · cases hvalue
  · rintro (⟨f, hf, hop⟩ | ⟨f, type, source, hf, hop, hsource, hconstant⟩)
    · exact ⟨f, hf, by rw [hop]⟩
    · exact ⟨f, hf, by rw [hop]; exact Option.bind_eq_some_iff.mpr ⟨source, hsource, hconstant⟩⟩

section Kinds

variable {s : Slot}

theorem face_of_kind {id : NodeId} {k : OpKind} (h : g.kind? id = some k) : ∃ f, g.face? id = some f ∧ f.kind = k :=
  Option.map_eq_some_iff.mp (kind?_eq_face g id ▸ h)

theorem kind_of_constantValue (h : (g.constantValue? s).isSome) :
    g.kind? s.node = some .constant ∨ g.kind? s.node = some .convert := by
  rw [constantValue?_eq_face] at h
  obtain ⟨f, hf, hvalue⟩ := Option.bind_eq_some_iff.mp (Option.eq_some_of_isSome h)
  rw [kind?_eq_face, hf, Option.map_some, Face.kind]
  split at hvalue
  · next hop => exact .inl (by rw [hop]; rfl)
  · next hop => exact .inr (by rw [hop]; rfl)
  · cases hvalue

theorem kind_of_constant (h : (g.constant? s).isSome) : g.kind? s.node = some .constant := by
  rw [constant?_eq_face] at h
  obtain ⟨f, hf, hvalue⟩ := Option.bind_eq_some_iff.mp (Option.eq_some_of_isSome h)
  rw [kind?_eq_face, hf, Option.map_some, Face.kind]
  split at hvalue
  · next hop => rw [hop]; rfl
  · cases hvalue

theorem constant_of_converted {f : Face α} {source : Slot} (hf : g.face? s.node = some f)
    (hkind : f.kind = .convert) (hsource : f.inputs[0]? = some source)
    (h : (g.constantValue? s).isSome) : (g.constant? source).isSome := by
  obtain ⟨destination, hop⟩ := Op.exists_destination hkind
  rw [constantValue?_eq_face, hf, Option.bind_some, hop, hsource] at h
  exact h

theorem not_constantValue_of_kind {k : OpKind} (hk : g.kind? s.node = some k)
    (h : k ≠ .constant ∧ k ≠ .convert) : ¬ (g.constantValue? s).isSome := by
  intro hvalue
  rcases kind_of_constantValue hvalue with hvalue | hvalue
  · exact h.1 (Option.some.inj (hk.symm.trans hvalue))
  · exact h.2 (Option.some.inj (hk.symm.trans hvalue))

end Kinds

end Graph

namespace Dequantization

structure Converts (g g' : Graph α) (source : Slot) (p : Port) (convert : Option NodeId) : Prop
    extends Graph.Chained g g' (· = source) 1 where
  port : g'.port? ((convert.map (⟨·, 0⟩)).getD source) = some (p.withType .f32)
  floats : convert = none ↔ p.elementType = .f32
  new (id : NodeId) : convert = some id → g.nodes.size ≤ id ∧
    g'.face? id = some ⟨.convert .f32, [source], [p.withType .f32], none⟩

structure Subtracts (g g' : Graph α) (current : Slot) (p : Port) (zeroPoint : Option (Tensor α))
    (subtract : Option (NodeId × Tensor α)) : Prop
    extends Graph.Chained g g' (· = current) 3 where
  zeroPoint : subtract.map Prod.snd = zeroPoint
  port : g'.port? ((subtract.map (⟨·.1, 0⟩)).getD current) = some (p.withType .f32)
  reads (v : NodeId) (f : Face α) : g.nodes.size ≤ v → g'.face? v = some f → current ∈ f.inputs →
    ∃ z, subtract = some (v, z)
  new (id : NodeId) (z : Tensor α) : subtract = some (id, z) → g.nodes.size ≤ id ∧ ∃ b,
    g'.face? id = some ⟨.subtract, [current, b], [p.withType .f32], none⟩ ∧
    ∀ k : Graph α, (∀ v, g.nodes.size ≤ v → v < g'.nodes.size → k.face? v = g'.face? v) →
      k.constantValue? b = some z

structure Multiplies (g g' : Graph α) (current : Slot) (p : Port) (scale : Tensor α) (id : NodeId) : Prop
    extends Graph.Chained g g' (· = current) 2 where
  le : g.nodes.size ≤ id
  reads (v : NodeId) (f : Face α) : g.nodes.size ≤ v → g'.face? v = some f → current ∈ f.inputs →
    v = id
  new : ∃ b, g'.face? id = some ⟨.multiply, [current, b], [p.withType .f32], none⟩ ∧
    ∀ k : Graph α, (∀ v, g.nodes.size ≤ v → v < g'.nodes.size → k.face? v = g'.face? v) →
      k.constant? b = some scale

theorem addConvert_ok (h : g.WellFormed) {source : Slot} {p : Port}
    (hs : g.port? source = some p) (base : String) :
    ∃ convert g', exec (addConvert source p base : Edit α TransformError _) g =
        .ok (.ok convert, g') ∧ Converts g g' source p convert := by
  rw [addConvert]
  split
  · next hfloat =>
    have hsame : p.withType .f32 = p := by rw [Port.withType, ← hfloat]
    exact ⟨none, g, rfl, (Graph.Chained.refl (p := fun _ => False) h).weaken (by simp) (Nat.zero_le 1),
      hsame ▸ hs, by simp [hfloat], by simp⟩
  · next hfloat =>
    obtain ⟨g', hexec, hadded⟩ := Edit.addNode_ok h s!"{base}/DequantizationConvert"
      (.convert .f32) [source] [p.withType .f32] (by simp [hs])
    refine ⟨some g.nodes.size, g', exec_map_ok some hexec, ?_, Graph.port?_new hadded.new,
      by simp [hfloat], ?_⟩
    · exact .of_added hadded (by simp) (by simp [hs]) ⟨_, rfl, .inl ⟨rfl, rfl⟩⟩
    · rintro id ⟨⟩
      exact ⟨Nat.le_refl _, hadded.new⟩

theorem addMultiply_ok (h : g.WellFormed) {current : Slot} {p : Port}
    (hc : g.port? current = some (p.withType .f32)) (scale : Tensor α) (base : String) :
    ∃ id g', exec (addMultiply current p scale base) g = .ok (.ok (id, scale), g') ∧
      Multiplies g g' current p scale id := by
  obtain ⟨g₁, hexec₁, h₁⟩ := Edit.addConstant_ok h s!"{base}/DequantizationScale" scale .f32
  have hc₁ := h₁.port hc
  have hb : g₁.port? ⟨g.nodes.size, 0⟩ = some ⟨.f32, some scale.shape⟩ := Graph.port?_new h₁.new
  obtain ⟨g₂, hexec₂, h₂⟩ := Edit.addNode_ok h₁.wellFormed s!"{base}/DequantizationMultiply"
    .multiply [current, ⟨g.nodes.size, 0⟩] [p.withType .f32] (by simp [hc₁, hb])
  have hlt₁ : g.nodes.size < g₁.nodes.size := h₁.size ▸ Nat.lt_succ_self _
  have hlt₂ : g₁.nodes.size < g₂.nodes.size := h₂.size ▸ Nat.lt_succ_self _
  have hstep : g₂.IsChainStep
      ⟨.multiply, [current, ⟨g.nodes.size, 0⟩], [p.withType .f32], none⟩ := by
    refine ⟨_, rfl, .inr (.inr ⟨.inr rfl, rfl, ?_⟩)⟩
    simp [h₂.port hc₁, h₂.port hb, Port.withType]
  have hnew : ∀ s : Slot, s.node < g.nodes.size → s = current ∨ s.node = g.nodes.size →
      s = current := by
    rintro s hs (rfl | hsize)
    · rfl
    · exact absurd hs (hsize ▸ Nat.lt_irrefl _)
  refine ⟨g₁.nodes.size, g₂, ?_, ?_, Nat.le_of_lt hlt₁, fun v f hv hf hread => ?_,
    ⟨g.nodes.size, 0⟩, h₂.new, fun k hk => ?_⟩
  · rw [addMultiply, exec_bind_ok hexec₁, exec_bind_ok hexec₂]
    rfl
  · exact Graph.Chained.trans
      (.of_added h₁ (by simp) (by simp) ⟨_, rfl, .inr (.inl ⟨rfl, scale, rfl⟩)⟩)
      (.of_added h₂ (p := fun s => s = current ∨ s.node = g.nodes.size) (by simp)
        (by simp [hc₁, hb]) hstep) hnew
  · by_contra hne
    rw [h₂.face, if_neg hne] at hf
    obtain ⟨rfl, rfl⟩ := h₁.eq_new hv hf
    cases hread
  · have hconstant := hk g.nodes.size (Nat.le_refl _) (Nat.lt_trans hlt₁ hlt₂)
    rw [h₂.old h₁.new] at hconstant
    simp [Graph.constant?_eq_face, hconstant]

theorem output_of_multiply {d : Dequantization α} {id : NodeId} {scale : Tensor α}
    (h : d.multiply = some (id, scale)) : d.output = ⟨id, 0⟩ := by
  simp [output, nodes, h]

def converted (d : Dequantization α) : Slot := (d.convert.map (⟨·, 0⟩)).getD d.data

def shifted (d : Dequantization α) : Slot := (d.subtract.map (⟨·.1, 0⟩)).getD d.converted

theorem output_eq (d : Dequantization α) : d.output = (d.multiply.map (⟨·.1, 0⟩)).getD d.shifted := by
  obtain ⟨data, convert, subtract, multiply⟩ := d
  cases multiply <;> cases subtract <;> cases convert <;> rfl

structure Stands (d : Dequantization α) (g : Graph α) : Prop where
  convert (id : NodeId) : d.convert = some id →
    ∃ f, g.face? id = some f ∧ f.op = .convert .f32 ∧ f.inputs = [d.data]
  subtract (id : NodeId) (zeroPoint : Tensor α) : d.subtract = some (id, zeroPoint) →
    ∃ f b, g.face? id = some f ∧ f.op = .subtract ∧ f.inputs = [d.converted, b] ∧
      g.constantValue? b = some zeroPoint
  multiply (id : NodeId) (scale : Tensor α) : d.multiply = some (id, scale) →
    ∃ f b, g.face? id = some f ∧ f.op = .multiply ∧ f.inputs = [d.shifted, b] ∧
      g.constant? b = some scale

structure Built (g g' : Graph α) (source : Slot) (params : AffineParams α) (d : Dequantization α) :
    Prop extends Graph.Chained g g' (· = source) 6 where
  data : d.data = source
  scale : d.scale? = some params.scale
  zeroPoint : d.zeroPoint? = params.zeroPoint
  new : g.nodes.size ≤ d.output.node
  steps : ∀ id ∈ d.nodes, g.nodes.size ≤ id
  output : ∃ f p, g'.face? d.output.node = some f ∧ f.ports = [p] ∧ p.elementType = .f32
  index : d.output.index = 0
  floats (p : Port) : g.port? source = some p → (d.convert = none ↔ p.elementType = .f32)
  next (c v : NodeId) (f : Face α) : d.convert = some c → g'.face? v = some f →
    ⟨c, 0⟩ ∈ f.inputs → (∃ z, d.subtract = some (v, z)) ∨
      d.subtract = none ∧ ∃ s, d.multiply = some (v, s)
  stands (k : Graph α) :
    (∀ v, g.nodes.size ≤ v → v < g'.nodes.size → k.face? v = g'.face? v) → d.Stands k

theorem Built.port {source : Slot} {params : AffineParams α} {d : Dequantization α}
    (h : Built g g' source params d) :
    ∃ p, g'.port? d.output = some p ∧ p.elementType = .f32 := by
  obtain ⟨f, p, hf, hports, htype⟩ := h.output
  refine ⟨p, ?_, htype⟩
  rw [Graph.port?_eq_face, hf, h.index, Option.bind_some, hports]
  rfl

structure Inserted (g g' : Graph α) (source : Slot) (slots : List Slot) (params : AffineParams α)
    (d : Dequantization α) (mid : Graph α) : Prop where
  built : Built g mid source params d
  recast : Graph.Recast mid g' fun v f => f.redirect v slots d.output

namespace Inserted

variable {source : Slot} {slots : List Slot} {params : AffineParams α} {d : Dequantization α}
  {mid : Graph α}

theorem face_old (h : Inserted g g' source slots params d mid) {v : NodeId}
    (hv : v < g.nodes.size) :
    g'.face? v = (g.face? v).map (·.redirect v slots d.output) := by
  rw [h.recast.face, h.built.old v hv]

theorem face_new (h : Inserted g g' source slots params d mid) {first : Nat}
    (hslots : ∀ r ∈ slots, r.node < first) {v : NodeId} (hv : first ≤ v) :
    g'.face? v = mid.face? v := by
  rw [h.recast.face]
  cases mid.face? v with
  | none => rfl
  | some f =>
    rw [Option.map_some, Face.redirect_of_not_mem]
    intro i hi
    exact absurd (hslots _ hi) (Nat.not_lt.mpr hv)

end Inserted

section Steps

variable {g₁ g₂ g₃ : Graph α} {source : Slot} {p : Port} {params : AffineParams α}
  {convert : Option NodeId} {subtract : Option (NodeId × Tensor α)} {id : NodeId}
  (h₁ : Converts g g₁ source p convert)
  (h₂ : Subtracts g₁ g₂ ((convert.map (⟨·, 0⟩)).getD source) p params.zeroPoint subtract)
  (h₃ : Multiplies g₂ g₃ ((subtract.map (⟨·.1, 0⟩)).getD ((convert.map (⟨·, 0⟩)).getD source)) p
    params.scale id)

include h₁ h₂ h₃

theorem chained_of_steps : Graph.Chained g g₃ (· = source) 6 := by
  have hcurrent₁ : ∀ s : Slot, s.node < g.nodes.size →
      s = (convert.map (⟨·, 0⟩)).getD source → s = source := by
    rintro s hv rfl
    cases convert with
    | none => rfl
    | some c => exact absurd hv (Nat.not_lt.mpr (h₁.new c rfl).1)
  have hcurrent₂ : ∀ s : Slot, s.node < g.nodes.size → s = (subtract.map (⟨·.1, 0⟩)).getD
      ((convert.map (⟨·, 0⟩)).getD source) → s = source := by
    rintro s hv rfl
    cases subtract with
    | none => exact hcurrent₁ _ hv rfl
    | some sub => exact absurd hv (Nat.not_lt.mpr (Nat.le_trans h₁.size (h₂.new sub.1 sub.2 rfl).1))
  exact (h₁.trans h₂.toChained hcurrent₁).trans h₃.toChained hcurrent₂

theorem next_of_steps (h : g.WellFormed) {c v : NodeId} {f : Face α} (hc : convert = some c)
    (hf : g₃.face? v = some f) (hread : ⟨c, 0⟩ ∈ f.inputs) :
    (∃ z, subtract = some (v, z)) ∨ subtract = none ∧ v = id := by
  obtain ⟨hcnew, hcface⟩ := h₁.new c hc
  have hcurrent : (⟨c, 0⟩ : Slot) = (convert.map (⟨·, 0⟩)).getD source := by
    rw [hc]
    rfl
  have hcsize := Graph.lt_size_of_face? hcface
  have hchained := chained_of_steps h₁ h₂ h₃
  rcases Nat.lt_or_ge v g₂.nodes.size with hlt | hge
  · have hnew : g₁.nodes.size ≤ v := by
      rcases Nat.lt_or_ge v g.nodes.size with hv | hv
      · rw [hchained.old v hv] at hf
        exact absurd (h.lt_size_of_input hf hread) (Nat.not_lt.mpr hcnew)
      · have hbelow : c < v := (hchained.inputs v f hv hf ⟨c, 0⟩ hread).2
        exact Nat.le_trans h₁.count (Nat.lt_of_le_of_lt hcnew hbelow)
    rw [h₃.old v hlt] at hf
    exact .inl (h₂.reads v f hnew hf (hcurrent ▸ hread))
  · have hshifted := (h₃.inputs v f hge hf _ hread).1 (Nat.lt_of_lt_of_le hcsize h₂.size)
    cases subtract with
    | none => exact .inr ⟨rfl, h₃.reads v f hge hf (hshifted ▸ hread)⟩
    | some sub =>
      have hsub := (h₂.new sub.1 sub.2 rfl).1
      obtain rfl : c = sub.1 := congrArg Slot.node hshifted
      exact absurd hcsize (Nat.not_lt.mpr hsub)

theorem stands_of_steps {k : Graph α}
    (hk : ∀ v, g.nodes.size ≤ v → v < g₃.nodes.size → k.face? v = g₃.face? v) :
    (⟨source, convert, subtract, some (id, params.scale)⟩ : Dequantization α).Stands k where
  convert c hc := by
    obtain ⟨hnew, hface⟩ := h₁.new c hc
    have hface₃ := h₃.face (h₂.face hface)
    exact ⟨_, (hk c hnew (Graph.lt_size_of_face? hface₃)).trans hface₃, rfl, rfl⟩
  subtract c z hc := by
    obtain ⟨hnew, b, hface, hvalue⟩ := h₂.new c z hc
    have hface₃ := h₃.face hface
    have hkept := (hk c (Nat.le_trans h₁.size hnew) (Graph.lt_size_of_face? hface₃)).trans hface₃
    refine ⟨_, b, hkept, rfl, rfl, hvalue k fun v hv hlt => ?_⟩
    rw [hk v (Nat.le_trans h₁.size hv) (Nat.lt_of_lt_of_le hlt h₃.size), h₃.old v hlt]
  multiply := by
    rintro _ _ ⟨⟩
    obtain ⟨b, hface₃, hscale⟩ := h₃.new
    have hold := Nat.le_trans h₁.size h₂.size
    have hkept := (hk id (Nat.le_trans hold h₃.le) (Graph.lt_size_of_face? hface₃)).trans hface₃
    exact ⟨_, b, hkept, rfl, rfl, hscale k fun v hv hlt => hk v (Nat.le_trans hold hv) hlt⟩

theorem built_of_steps (h : g.WellFormed) (hs : g.port? source = some p) :
    Built g g₃ source params ⟨source, convert, subtract, some (id, params.scale)⟩ := by
  have hout : output (⟨source, convert, subtract, some (id, params.scale)⟩ : Dequantization α) =
      ⟨id, 0⟩ := output_of_multiply rfl
  have hnew := Nat.le_trans (Nat.le_trans h₁.size h₂.size) h₃.le
  obtain ⟨b, hface, -⟩ := h₃.new
  refine ⟨chained_of_steps h₁ h₂ h₃, rfl, rfl, h₂.zeroPoint, ?_, fun v hv => ?_,
    ⟨_, _, by rw [hout]; exact hface, rfl, rfl⟩, by rw [hout], fun q hq => ?_,
    fun c v f hc hf hread => ?_, fun k hk => stands_of_steps h₁ h₂ h₃ hk⟩
  · rw [hout]
    exact hnew
  · simp only [nodes, List.mem_append, Option.mem_toList, List.mem_map] at hv
    rcases hv with (hv | ⟨⟨_, z⟩, hv, rfl⟩) | ⟨_, hv, rfl⟩
    · exact (h₁.new v hv).1
    · exact Nat.le_trans h₁.size (h₂.new _ z hv).1
    · cases hv
      exact hnew
  · cases hs.symm.trans hq
    exact h₁.floats
  · exact (next_of_steps h₁ h₂ h₃ h hc hf hread).imp_right fun ⟨hnone, hv⟩ =>
      ⟨hnone, params.scale, by rw [hv]⟩

end Steps

section Building

variable [Arithmetic α]

theorem addZeroPoint_ok (h : g.WellFormed) (base : String) (zeroPoint : Tensor α)
    (type : ElementType) :
    ∃ b g', exec (addZeroPoint base zeroPoint type) g = .ok (.ok b, g') ∧
      Graph.Chained g g' (fun _ => False) 2 ∧ g.nodes.size ≤ b.node ∧
      (∃ p, g'.port? b = some p ∧ p.elementType = .f32) ∧
      ∀ k : Graph α, (∀ v, g.nodes.size ≤ v → v < g'.nodes.size → k.face? v = g'.face? v) →
        k.constantValue? b = some zeroPoint := by
  rw [addZeroPoint]
  split
  · obtain ⟨g₁, hexec₁, h₁⟩ := Edit.addConstant_ok h s!"{base}/DequantizationZeroPoint" zeroPoint type
    have hread : g₁.port? ⟨g.nodes.size, 0⟩ = some ⟨type, some zeroPoint.shape⟩ :=
      Graph.port?_new h₁.new
    obtain ⟨g₂, hexec₂, h₂⟩ := Edit.addNode_ok h₁.wellFormed
      s!"{base}/DequantizationZeroPointConvert" (.convert .f32) [⟨g.nodes.size, 0⟩]
      [⟨.f32, some zeroPoint.shape⟩] (by simp [hread])
    refine ⟨⟨g₁.nodes.size, 0⟩, g₂, ?_, ?_, h₁.size ▸ Nat.le_succ _,
      ⟨_, Graph.port?_new h₂.new, rfl⟩, ?_⟩
    · rw [exec_bind_ok hexec₁, exec_bind_ok hexec₂]
      rfl
    · exact Graph.Chained.trans (n := 1) (q := (·.node = g.nodes.size))
        (.of_added h₁ (by simp) (by simp) ⟨_, rfl, .inr (.inl ⟨rfl, zeroPoint, rfl⟩)⟩)
        (.of_added h₂ (by simp) (by simp [hread]) ⟨_, rfl, .inl ⟨rfl, rfl⟩⟩)
        fun s hs hnew => absurd hnew (Nat.ne_of_lt hs)
    · intro k hk
      have hlt₁ : g.nodes.size < g₁.nodes.size := h₁.size ▸ Nat.lt_succ_self _
      have hlt₂ : g₁.nodes.size < g₂.nodes.size := h₂.size ▸ Nat.lt_succ_self _
      have hconvert := hk g₁.nodes.size (Nat.le_of_lt hlt₁) hlt₂
      have hconstant := hk g.nodes.size (Nat.le_refl _) (Nat.lt_trans hlt₁ hlt₂)
      rw [h₂.new] at hconvert
      rw [h₂.old h₁.new] at hconstant
      rw [Graph.constantValue?_eq_face, hconvert]
      simp [Graph.constant?_eq_face, hconstant]
  · obtain ⟨g', hexec, hadded⟩ := Edit.addConstant_ok h s!"{base}/DequantizationZeroPoint" zeroPoint .f32
    refine ⟨⟨g.nodes.size, 0⟩, g', hexec, ?_, Nat.le_refl _,
      ⟨_, Graph.port?_new hadded.new, rfl⟩, ?_⟩
    · exact (Graph.Chained.of_added hadded (by simp) (by simp)
        ⟨_, rfl, .inr (.inl ⟨rfl, zeroPoint, rfl⟩)⟩).weaken (fun _ => id) (Nat.le_succ 1)
    · intro k hk
      have hconstant := hk g.nodes.size (Nat.le_refl _) (hadded.size ▸ Nat.lt_succ_self _)
      rw [hadded.new] at hconstant
      simp [Graph.constantValue?_eq_face, hconstant]

theorem addSubtract_ok (h : g.WellFormed) {current : Slot} {p : Port}
    (hc : g.port? current = some (p.withType .f32)) (zeroPoint : Option (Tensor α))
    (base : String) :
    ∃ subtract g', exec (addSubtract current p zeroPoint base) g = .ok (.ok subtract, g') ∧
      Subtracts g g' current p zeroPoint subtract := by
  cases zeroPoint with
  | none => exact ⟨none, g, rfl, (Graph.Chained.refl (p := fun _ => False) h).weaken (by simp)
    (Nat.zero_le 3), rfl, hc,
    fun v f hv hf _ => absurd (Graph.lt_size_of_face? hf) (Nat.not_lt.mpr hv), by simp⟩
  | some zeroPoint =>
    obtain ⟨b, g₁, hexec₁, h₁, hb, ⟨q, hq, htype⟩, hvalue⟩ :=
      addZeroPoint_ok h base zeroPoint p.elementType
    have hc₁ := h₁.port hc
    obtain ⟨g₂, hexec₂, h₂⟩ := Edit.addNode_ok h₁.wellFormed s!"{base}/DequantizationSubtract"
      .subtract [current, b] [p.withType .f32] (by simp [hc₁, hq])
    have hstep : g₂.IsChainStep ⟨.subtract, [current, b], [p.withType .f32], none⟩ := by
      refine ⟨_, rfl, .inr (.inr ⟨.inl rfl, rfl, ?_⟩)⟩
      simp [h₂.port hc₁, h₂.port hq, htype, Port.withType]
    have hnew : ∀ s : Slot, s.node < g.nodes.size → s = current ∨ s = b → s = current := by
      rintro s hs (rfl | rfl)
      · rfl
      · exact absurd hb (Nat.not_le.mpr hs)
    refine ⟨some (g₁.nodes.size, zeroPoint), g₂, ?_, ?_, rfl, Graph.port?_new h₂.new,
      fun v f hv hf hread => ?_, ?_⟩
    · rw [addSubtract, exec_bind_ok hexec₁, exec_bind_ok hexec₂]
      rfl
    · exact (h₁.weaken (by simp) (Nat.le_refl 2)).trans
        (.of_added h₂ (p := fun s => s = current ∨ s = b) (by simp) (by simp [hc₁, hq])
          hstep) hnew
    · by_cases hsub : v = g₁.nodes.size
      · exact ⟨zeroPoint, by rw [hsub]⟩
      · rw [h₂.face, if_neg hsub] at hf
        exact ((h₁.inputs v f hv hf current hread).1 (Graph.lt_size_of_port hc)).elim
    · rintro id z ⟨⟩
      refine ⟨h₁.size, b, h₂.new, fun k hk => hvalue k fun v hv hlt => ?_⟩
      rw [hk v hv (Nat.lt_trans hlt (h₂.size ▸ Nat.lt_succ_self _)), h₂.face,
        if_neg (Nat.ne_of_lt hlt)]

theorem build_ok (h : g.WellFormed) {source : Slot} {p : Port} (hs : g.port? source = some p)
    (params : AffineParams α) (base : String) :
    ∃ d g', exec (build source params base) g = .ok (.ok d, g') ∧ Built g g' source params d := by
  obtain ⟨convert, g₁, hexec₁, h₁⟩ := addConvert_ok h hs base
  obtain ⟨subtract, g₂, hexec₂, h₂⟩ := addSubtract_ok h₁.wellFormed h₁.port params.zeroPoint base
  obtain ⟨id, g₃, hexec₃, h₃⟩ := addMultiply_ok h₂.wellFormed h₂.port params.scale base
  refine ⟨⟨source, convert, subtract, some (id, params.scale)⟩, g₃, ?_,
    built_of_steps h₁ h₂ h₃ h hs⟩
  rw [build, exec_bind_ok (Edit.exec_port hs), exec_bind_ok hexec₁, exec_bind_ok hexec₂,
    exec_bind_ok hexec₃]
  rfl

theorem insert_ok (h : g.WellFormed) {source : Slot} {p : Port} (hs : g.port? source = some p)
    {slots : List Slot} (hslots : ∀ r ∈ slots, (g.input? r.node r.index).isSome)
    (params : AffineParams α) (base : String) :
    ∃ d mid g', exec (insert source slots params base) g = .ok (.ok d, g') ∧
      Inserted g g' source slots params d mid := by
  obtain ⟨d, mid, hbuild, hbuilt⟩ := build_ok h hs params base
  obtain ⟨p, hp, -⟩ := hbuilt.port
  have hslots' : ∀ r ∈ slots, (mid.input? r.node r.index).isSome := by
    intro r hr
    have hin := hslots r hr
    rw [Graph.input?_eq_face] at hin ⊢
    cases hf : g.face? r.node with
    | none => simp [hf] at hin
    | some f => rwa [hbuilt.face hf, ← hf]
  obtain ⟨g', hrewire, hrecast⟩ := Graph.rewire_ok hbuilt.wellFormed hslots' (by rw [hp]; rfl)
  refine ⟨d, mid, g', ?_, hbuilt, hrecast⟩
  rw [insert, exec_bind_ok hbuild, exec_bind_ok (Edit.exec_ofGraph_ok hrewire)]
  rfl

end Building

end Dequantization

end LowPrecision
