import LowPrecision.Proofs.Rewrite.Fusion

namespace LowPrecision

variable {α : Type} {g g' : Graph α} {id : NodeId} {f : Face α}

namespace Graph

theorem isQuantizedDomain_eq_face (g : Graph α) (id : NodeId) :
    g.isQuantizedDomain id = (g.face? id).any fun f =>
      match f.kind with
      | .fakeQuantize => true
      | .matMul | .convolution | .groupConvolution => f.relaxed.isSome
      | _ => false := by
  rw [isQuantizedDomain, face?, Option.any_map]
  rfl

theorem kind_of_isQuantizedDomain (h : g.isQuantizedDomain id = true) :
    g.kind? id ≠ some .subtract ∧ g.kind? id ≠ some .convert := by
  obtain ⟨f, hf, hkind⟩ := Option.any_eq_true _ _ |>.mp (isQuantizedDomain_eq_face g id ▸ h)
  rw [kind?_eq_face, hf, Option.map_some]
  constructor <;> intro hstep <;> rw [Option.some.inj hstep] at hkind <;> cases hkind

end Graph

namespace Dequantization

open LowPrecision.Graph

section Reading

variable {a b output : Slot} {value : Tensor α}

theorem readMultiply_of_face (hf : g.face? id = some f) (hop : f.op = .multiply)
    (hin : f.inputs = [a, b]) (hb : g.constant? b = some value) :
    readMultiply g ⟨id, 0⟩ = some (some (id, value), a) := by
  obtain ⟨n, hn, rfl⟩ := face?_eq_some.mp hf
  have hkind : n.kind = .multiply := congrArg Op.kind hop
  have hinputs : n.inputs = [a, b] := hin
  simp [readMultiply, hn, hkind, Node.input?, hinputs, hb]

theorem readSubtract_of_face (hf : g.face? id = some f) (hop : f.op = .subtract)
    (hin : f.inputs = [a, b]) (hb : g.constantValue? b = some value) :
    readSubtract g ⟨id, 0⟩ = some (some (id, value), a) := by
  obtain ⟨n, hn, rfl⟩ := face?_eq_some.mp hf
  have hkind : n.kind = .subtract := congrArg Op.kind hop
  have hinputs : n.inputs = [a, b] := hin
  simp [readSubtract, hn, hkind, Node.input?, hinputs, hb]

theorem readSubtract_of_kind (h : g.kind? output.node ≠ some .subtract) :
    readSubtract g output = some (none, output) := by
  rw [readSubtract]
  cases hn : g.node? output.node with
  | none => rfl
  | some n =>
    refine if_neg fun hkind => h ?_
    rw [kind?, hn, Option.map_some, hkind]

theorem readConvert_of_face (hf : g.face? id = some f) (hop : f.op = .convert .f32)
    (hin : f.inputs = [a]) : readConvert g ⟨id, 0⟩ = some (some id, a) := by
  obtain ⟨n, hn, rfl⟩ := face?_eq_some.mp hf
  have hinputs : n.inputs = [a] := hin
  have hconvert : n.op = .convert .f32 := hop
  simp [readConvert, hn, hconvert, Node.input?, hinputs, ElementType.isFloat]

theorem readConvert_of_kind (h : g.kind? output.node ≠ some .convert) :
    readConvert g output = some (none, output) := by
  rw [readConvert]
  cases hn : g.node? output.node with
  | none => rfl
  | some n =>
    dsimp only
    split
    · next hop => exact absurd (by rw [kind?, hn, Option.map_some, Node.kind, hop]; rfl) h
    · rfl

end Reading

variable {d : Dequantization α} {p : Port}

theorem ofOutput_of_stands (h : d.Stands g) (hmultiply : d.multiply.isSome = true)
    (hsubtract : d.subtract = none → g.kind? d.converted.node ≠ some .subtract)
    (hconvert : d.convert = none → g.kind? d.data.node ≠ some .convert)
    (hp : g.port? d.data = some p)
    (hquantized : p.elementType.isLowPrecision = true ∨
      d.convert = none ∧ g.isQuantizedDomain d.data.node = true) :
    ofOutput g d.output = some d := by
  have hscaled : readMultiply g d.output = some (d.multiply, d.shifted) := by
    obtain ⟨⟨id, scale⟩, hm⟩ := Option.isSome_iff_exists.mp hmultiply
    obtain ⟨f, b, hf, hop, hin, hb⟩ := h.multiply id scale hm
    rw [output_of_multiply hm, hm, readMultiply_of_face hf hop hin hb]
  have hshifted : readSubtract g d.shifted = some (d.subtract, d.converted) := by
    rw [shifted]
    cases hs : d.subtract with
    | none => exact readSubtract_of_kind (hsubtract hs)
    | some step =>
      obtain ⟨f, b, hf, hop, hin, hb⟩ := h.subtract step.1 step.2 hs
      exact readSubtract_of_face hf hop hin hb
  have hconverted : readConvert g d.converted = some (d.convert, d.data) := by
    rw [converted]
    cases hc : d.convert with
    | none => exact readConvert_of_kind (hconvert hc)
    | some id =>
      obtain ⟨f, hf, hop, hin⟩ := h.convert id hc
      exact readConvert_of_face hf hop hin
  simp only [ofOutput, hscaled, hshifted, hconverted, hp, Option.bind_eq_bind, Option.bind_some]
  refine if_pos ?_
  cases hc : d.convert with
  | none => simpa [hmultiply] using hquantized.imp_right And.right
  | some id => exact hquantized.resolve_right fun hnone => by rw [hc] at hnone; cases hnone.1

section Building

variable {source : Slot} {params : AffineParams α}

theorem Built.params_eq [Arithmetic α] (h : Built g g' source params d) : d.params = params := by
  rw [Dequantization.params, h.scale, h.zeroPoint]
  rfl

theorem Built.stands_now (h : Built g g' source params d) : d.Stands g' :=
  h.stands g' fun _ _ _ => rfl

theorem Built.recognised (h : Built g g' source params d) (hp : g.port? source = some p)
    (hquantized : p.elementType.isLowPrecision = true ∨
      p.elementType = .f32 ∧ g.isQuantizedDomain source.node = true) :
    ofOutput g' d.output = some d := by
  have hold := h.old source.node (lt_size_of_port hp)
  have hmultiply : d.multiply.isSome = true := by
    obtain ⟨step, hstep, -⟩ := Option.map_eq_some_iff.mp h.scale
    rw [hstep]
    rfl
  have hgrid : d.convert = none → g'.isQuantizedDomain source.node = true := by
    intro hnone
    have hfloat := (h.floats p hp).mp hnone
    rw [hfloat] at hquantized
    rw [isQuantizedDomain_eq_face, hold, ← isQuantizedDomain_eq_face]
    exact (hquantized.resolve_left (by decide)).2
  refine ofOutput_of_stands h.stands_now hmultiply (fun _ => ?_) (fun hnone => ?_)
    (h.data ▸ h.toExtends.port hp) ?_
  · rw [converted]
    cases hc : d.convert with
    | none => exact h.data ▸ (kind_of_isQuantizedDomain (hgrid hc)).1
    | some id =>
      obtain ⟨f, hf, hop, -⟩ := h.stands_now.convert id hc
      change g'.kind? id ≠ _
      simp [kind?_eq_face, hf, Face.kind, hop, Op.kind]
  · exact h.data ▸ (kind_of_isQuantizedDomain (hgrid hnone)).2
  · rcases hquantized with hlow | ⟨hfloat, -⟩
    · exact .inl hlow
    · have hnone := (h.floats p hp).mpr hfloat
      exact .inr ⟨hnone, h.data ▸ hgrid hnone⟩

end Building

end Dequantization

namespace ConvertFusion

structure Fused (g g' : Graph α) (id convert : NodeId) (f : Face α) : Prop where
  kept (v : NodeId) : v < g.nodes.size → v ≠ id → v ≠ convert →
    g'.face? v = (g.face? v).map (·.replace v id g.nodes.size)
  new : g'.face? g.nodes.size = some f
  name : g'.name? g.nodes.size = g.name? id
  names (v : NodeId) : v < g.nodes.size → g'.isLive v = true → g'.name? v = g.name? v

theorem fusable?_of_inputs {n : Node α} {a b source : Slot} (hn : g.node? id = some n)
    (hin : n.inputs = [a, b]) (ha : source? g a = some source) (hb : source? g b = none) :
    fusable? g id = some (0, source) := by
  simp [fusable?, hn, hin, List.zipIdx, ha, hb]

theorem apply_step {m : NodeMatch} {n : Node α} {convert : NodeId} {b source : Slot}
    (hg : g.WellFormed) (hn : g.node? m.node = some n)
    (hkind : ¬ n.kind.IsInterface) (hin : n.inputs = [⟨convert, 0⟩, b])
    (hf : g.face? convert = some f) (hsource : f.inputs = [source])
    (ha : source? g ⟨convert, 0⟩ = some source) (hb : source? g b = none)
    (hself : convert ≠ m.node) (hself' : b.node ≠ m.node) (hself'' : source.node ≠ m.node) :
    ∃ g', exec (apply m) g = .ok (.ok true, g') ∧ Fused g g' m.node convert (fused n 0 source) := by
  have hface : g.face? m.node = some n.face := Graph.face?_eq_some.mpr ⟨n, hn, rfl⟩
  have hid := Graph.lt_size_of_node? hn
  have hconvert := Graph.lt_size_of_face? hf
  have hfused : n.inputs.set 0 source = [source, b] := by rw [hin]; rfl
  have hports : ∀ s ∈ [source, b], (g.port? s).isSome = true := by
    intro s hs
    rcases List.mem_cons.mp hs with rfl | hs
    · obtain ⟨_, _, p, -, -, -, hp, -⟩ := source?_eq_some ha
      rw [hp]
      rfl
    · exact isSome_port_of_input hg hn (by rw [hin]; exact List.mem_cons_of_mem _ hs)
  obtain ⟨g₁, hadd, h₁⟩ := Edit.addNode_ok hg s!"{n.name}/Fused" n.op (n.inputs.set 0 source)
    (n.outputs.map Wire.port) (hfused ▸ hports)
  obtain ⟨g₂, hrelax, hrecast⟩ := Graph.setRelaxed_ok h₁.wellFormed
    (show g₁.isLive g.nodes.size = true from Graph.isLive_iff_face.mpr ⟨_, h₁.new⟩) (.float 2 1)
  have h₂ : Graph.Added g g₂ (fused n 0 source) := h₁.relax hrecast
  have hnew : ∀ v, v = m.node ∨ v = convert → v ≠ g.nodes.size := by
    rintro v (rfl | rfl)
    · exact Nat.ne_of_lt hid
    · exact Nat.ne_of_lt hconvert
  have hkeeps : (fused n 0 source).replace g.nodes.size m.node g.nodes.size = fused n 0 source :=
    if_pos rfl
  have hread : ∀ s ∈ [source, b], ∀ q : Prop, (∀ u l, g₂.face? u = some l →
      ∀ t ∈ (l.replace u m.node g.nodes.size).inputs, t.node = s.node →
        u = m.node ∨ u = convert) → q := by
    intro s hs q hall
    refine absurd rfl (hnew _ (hall _ _ h₂.new s ?_ rfl))
    rw [hkeeps]
    change s ∈ n.inputs.set 0 source
    rwa [hfused]
  have hold : ∀ {v l}, g.face? v = some l → g₂.face? v = some l := h₂.old
  have hencloses : g₂.Encloses m.node g.nodes.size fun v => v = m.node ∨ v = convert := by
    rintro v k hk (rfl | rfl) s hs hall
    · cases (hold hface).symm.trans hk
      rw [Face.replace_of_not_mem (by simp [Node.face, hin, hself, hself'])] at hs
      have hs' : s ∈ [⟨convert, 0⟩, b] := hin ▸ hs
      rcases List.mem_cons.mp hs' with rfl | hs'
      · exact .inr rfl
      · exact hread s (List.mem_cons_of_mem _ hs') _ hall
    · cases (hold hf).symm.trans hk
      rw [Face.replace_of_not_mem (by simp [hsource, hself''])] at hs
      have hs' : s ∈ [source] := hsource ▸ hs
      rw [List.mem_singleton.mp hs'] at hall ⊢
      exact hread source List.mem_cons_self _ hall
  obtain ⟨g', hreplace, hreplaced⟩ := Graph.replaceNode_ok h₂.wellFormed (hold hface) h₂.new rfl
    (.inl rfl) (fun h => hnew _ h rfl) hencloses
  have hgone := hreplaced.gone _ _ (hold hface) hkind h₂.new (by
    change ∀ s ∈ n.inputs.set 0 source, s.node ≠ m.node
    simp [hfused, hself', hself''])
  refine ⟨g', ?run, {
    kept := fun v hv hvid hvconvert => ?kept
    new := ?fused
    name := ?name
    names := fun v hv hlive => ?names }⟩
  case run =>
    rw [apply, exec_bind_ok (Edit.exec_read _ _), fusable?_of_inputs hn hin ha hb]
    dsimp only
    rw [exec_bind_ok (Edit.exec_node hn), exec_bind_ok hadd,
      exec_bind_ok (Edit.exec_ofGraph_ok (by rw [Edit.exec_step, hrelax])),
      exec_bind_ok (Edit.exec_ofGraph_ok hreplace)]
    rfl
  case kept =>
    rcases hreplaced.node v with hkept | ⟨hgone | hgone, -⟩
    · rw [hkept, h₂.face, if_neg (Nat.ne_of_lt hv)]
    · exact absurd hgone hvid
    · exact absurd hgone hvconvert
  case fused =>
    rcases hreplaced.node g.nodes.size with hkept | ⟨hgone, -⟩
    · rw [hkept, h₂.new, Option.map_some, hkeeps]
    · exact absurd rfl (hnew _ hgone)
  case name =>
    rw [hgone.2, h₂.name _ hid]
  case names =>
    rw [hreplaced.name v (Nat.ne_of_lt hv) hlive, h₂.name v hv]

namespace Fused

variable {convert : NodeId}

theorem kind? (h : Fused g g' id convert f) {v : NodeId} (hv : v < g.nodes.size) (hid : v ≠ id)
    (hconvert : v ≠ convert) : g'.kind? v = g.kind? v := by
  rw [Graph.kind?_eq_face, Graph.kind?_eq_face, h.kept v hv hid hconvert, Option.map_map]
  refine Option.map_congr fun k _ => ?_
  simp [Face.kind]

theorem port? (h : Fused g g' id convert f) {s : Slot} {p : Port} (hp : g.port? s = some p)
    (hid : s.node ≠ id) (hconvert : s.node ≠ convert) : g'.port? s = some p := by
  rw [Graph.port?_eq_face] at hp ⊢
  obtain ⟨k, hk, hports⟩ := Option.bind_eq_some_iff.mp hp
  rw [h.kept s.node (Graph.lt_size_of_face? hk) hid hconvert, hk, Option.map_some, Option.bind_some,
    Face.ports_replace, hports]

theorem constant? (h : Fused g g' id convert f) {s : Slot} {value : Tensor α}
    (hs : g.constant? s = some value) (hid : s.node ≠ id) (hconvert : s.node ≠ convert) :
    g'.constant? s = some value := by
  obtain ⟨k, hk, hop⟩ := Graph.constant?_eq_some.mp hs
  refine Graph.constant?_eq_some.mpr ⟨k.replace s.node id g.nodes.size, ?_, by rw [Face.op_replace, hop]⟩
  rw [h.kept s.node (Graph.lt_size_of_face? hk) hid hconvert, hk, Option.map_some]

theorem constantValue? (h : Fused g g' id convert f) {s : Slot} {value : Tensor α}
    (hs : g.constantValue? s = some value) (hid : s.node ≠ id) (hconvert : s.node ≠ convert)
    (hidKind : g.kind? id ≠ some .constant) (hconvertKind : g.kind? convert ≠ some .constant) :
    g'.constantValue? s = some value := by
  rcases Graph.constantValue?_eq_some.mp hs with hconstant | ⟨k, type, t, hk, hop, ht, hconstant⟩
  · exact Graph.constantValue?_eq_some.mpr (.inl (h.constant? hconstant hid hconvert))
  · have hkind := Graph.kind_of_constant (Option.isSome_of_mem hconstant)
    have htid : t.node ≠ id := fun he => hidKind (he ▸ hkind)
    have htconvert : t.node ≠ convert := fun he => hconvertKind (he ▸ hkind)
    refine Graph.constantValue?_eq_some.mpr (.inr ⟨k.replace s.node id g.nodes.size, type, t, ?_,
      by rw [Face.op_replace, hop], ?_, h.constant? hconstant htid htconvert⟩)
    · rw [h.kept s.node (Graph.lt_size_of_face? hk) hid hconvert, hk, Option.map_some]
    · rw [Face.input_replace, ht, Option.map_some, if_neg fun hread => htid hread.2]

end Fused

theorem source?_of_convert {convert : NodeId} {source : Slot} {p : Port}
    (hf : g.face? convert = some f) (hop : f.op = .convert .f32) (hin : f.inputs = [source])
    (hp : g.port? source = some p) (hlow : p.elementType.isLowPrecision = true)
    (hconstant : g.kind? source.node ≠ some .constant) :
    source? g ⟨convert, 0⟩ = some source := by
  obtain ⟨n, hn, rfl⟩ := Graph.face?_eq_some.mp hf
  have hconvert : n.op = .convert .f32 := hop
  have hinputs : n.inputs = [source] := hin
  simp [source?, hn, hconvert, Node.input?, hinputs, hp, hlow, hconstant, ElementType.isFloat]

theorem source?_of_constantValue {s : Slot} {value : Tensor α} (h : g.constantValue? s = some value) :
    source? g s = none := by
  refine Option.eq_none_iff_forall_ne_some.mpr fun source hsource => ?_
  obtain ⟨n, type, p, hn, hop, hin, -, -, hkind⟩ := source?_eq_some hsource
  have hconstant := Graph.constant_of_converted (Graph.face?_eq_some.mpr ⟨n, hn, rfl⟩)
    (congrArg Op.kind hop) hin (Option.isSome_of_mem h)
  exact hkind (Graph.kind_of_constant hconstant)

end ConvertFusion

namespace Dequantization

open LowPrecision.Graph ConvertFusion

variable {g₁ g₂ : Graph α} {d e : Dequantization α} {source b : Slot} {p : Port}
  {params : AffineParams α} {convert : NodeId} {m : NodeMatch} {value : Tensor α}

structure Fusable (g g₁ : Graph α) (source : Slot) (p : Port) (params : AffineParams α)
    (d : Dequantization α) (convert : NodeId) : Prop where
  built : Built g g₁ source params d
  port : g.port? source = some p
  low : p.elementType.isLowPrecision = true
  not_subtract : g.kind? source.node ≠ some .subtract
  not_convert : g.kind? source.node ≠ some .convert
  not_constant : g.kind? source.node ≠ some .constant
  convert : d.convert = some convert

namespace Fusable

theorem kind_source (h : Fusable g g₁ source p params d convert) :
    g₁.kind? source.node = g.kind? source.node := by
  rw [kind?_eq_face, h.built.old _ (lt_size_of_port h.port), ← kind?_eq_face]

theorem source_ne (h : Fusable g g₁ source p params d convert) {v : NodeId}
    (hv : v ∈ d.nodes) : source.node ≠ v :=
  Nat.ne_of_lt (Nat.lt_of_lt_of_le (lt_size_of_port h.port) (h.built.steps v hv))

theorem kind_convert (h : Fusable g g₁ source p params d convert) :
    g₁.kind? convert = some .convert := by
  obtain ⟨f, hf, hop, -⟩ := h.built.stands_now.convert convert h.convert
  rw [kind?_eq_face, hf, Option.map_some, Face.kind, hop]
  rfl

theorem converted_eq (h : Fusable g g₁ source p params d convert) : d.converted = ⟨convert, 0⟩ := by
  rw [converted, h.convert]
  rfl

theorem constantValue_ne (h : Fusable g g₁ source p params d convert)
    (hb : g₁.constantValue? b = some value) : b.node ≠ convert := by
  intro hbc
  obtain ⟨f, hf, hop, hin⟩ := h.built.stands_now.convert convert h.convert
  have hconstant := constant_of_converted (hbc ▸ hf) (congrArg Op.kind hop) (by rw [hin]; rfl)
    (Option.isSome_of_mem hb)
  exact h.not_constant (h.kind_source ▸ h.built.data ▸ kind_of_constant hconstant)

theorem fuse (h : Fusable g g₁ source p params d convert) (hf : g₁.face? m.node = some f)
    (hkind : f.kind = .subtract ∨ f.kind = .multiply) (hin : f.inputs = [⟨convert, 0⟩, b])
    (hb : g₁.constantValue? b = some value) (hm : m.node ∈ d.nodes) :
    ∃ g₂ f', exec (ConvertFusion.apply m) g₁ = .ok (.ok true, g₂) ∧
      Fused g₁ g₂ m.node convert f' ∧ f'.op = f.op ∧ f'.inputs = [source, b] := by
  obtain ⟨k, hk, hkop, hkin⟩ := h.built.stands_now.convert convert h.convert
  rw [h.built.data] at hkin
  have ha := source?_of_convert hk hkop hkin (h.built.toExtends.port h.port) h.low
    (h.kind_source ▸ h.not_constant)
  have hstep : ∀ v, g₁.kind? v = some .constant ∨ g₁.kind? v = some .convert → v ≠ m.node := by
    rintro v hv rfl
    rw [kind?_eq_face, hf, Option.map_some] at hv
    rcases hkind with hk | hk <;> rw [hk] at hv <;> simp at hv
  obtain ⟨n, hn, rfl⟩ := face?_eq_some.mp hf
  have hinterface : ¬ n.kind.IsInterface := by
    rcases hkind with hk | hk <;> exact not_interface_of_kind hk (by decide) (by decide)
  obtain ⟨g₂, hrun, hfused⟩ := ConvertFusion.apply_step h.built.wellFormed hn hinterface hin hk hkin
    ha (source?_of_constantValue hb) (hstep _ (.inr h.kind_convert))
    (hstep _ (kind_of_constantValue (Option.isSome_of_mem hb))) (h.source_ne hm)
  refine ⟨g₂, _, hrun, hfused, rfl, ?_⟩
  change n.inputs.set 0 source = _
  rw [show n.inputs = _ from hin]
  rfl

theorem ofOutput_fused (h : Fusable g g₁ source p params d convert) (hm : m.node ∈ d.nodes)
    (hfused : Fused g₁ g₂ m.node convert f) (he : e.Stands g₂) (hdata : e.data = source)
    (hnone : e.convert = none) (hmultiply : e.multiply.isSome = true) :
    ofOutput g₂ e.output = some e := by
  have hport := h.built.toExtends.port h.port
  have hconvert : source.node ≠ convert := h.source_ne (by simp [nodes, h.convert])
  have hsame := (hfused.kind? (lt_size_of_port hport) (h.source_ne hm) hconvert).trans h.kind_source
  have hentry : e.converted = source := by rw [converted, hnone, ← hdata]; rfl
  refine ofOutput_of_stands he hmultiply (fun _ => ?_) (fun _ => ?_)
    (hdata ▸ hfused.port? hport (h.source_ne hm) hconvert) (.inl h.low)
  · rw [hentry, hsame]
    exact h.not_subtract
  · rw [hdata, hsame]
    exact h.not_convert

variable {scaled : NodeId} {scale zeroPoint : Tensor α}

theorem fused_multiply (h : Fusable g g₁ source p params d convert)
    (hsubtract : d.subtract = none) (hmultiply : d.multiply = some (m.node, scale)) :
    ∃ g₂, exec (ConvertFusion.apply m) g₁ = .ok (.ok true, g₂) ∧
      g₂.name? g₁.nodes.size = g₁.name? m.node ∧
      ofOutput g₂ ⟨g₁.nodes.size, 0⟩ =
        some ⟨source, none, none, some (g₁.nodes.size, scale)⟩ := by
  have hm : m.node ∈ d.nodes := by simp [nodes, hmultiply]
  obtain ⟨f, b, hf, hop, hin, hb⟩ := h.built.stands_now.multiply m.node scale hmultiply
  have hkind : f.kind = .multiply := congrArg Op.kind hop
  have hshifted : d.shifted = ⟨convert, 0⟩ := by rw [shifted, hsubtract, h.converted_eq]; rfl
  have hvalue : g₁.constantValue? b = some scale := constantValue?_eq_some.mpr (.inl hb)
  obtain ⟨g₂, f', hrun, hfused, hop', hin'⟩ := h.fuse hf (.inr hkind) (hshifted ▸ hin) hvalue hm
  have hbm : b.node ≠ m.node := by
    intro hbm
    have hconstant := kind_of_constant (Option.isSome_of_mem hb)
    rw [hbm, kind?_eq_face, hf, Option.map_some, hkind] at hconstant
    cases hconstant
  let e : Dequantization α := ⟨source, none, none, some (g₁.nodes.size, scale)⟩
  have hstands : e.Stands g₂ := by
    refine ⟨by simp [e], by simp [e], ?_⟩
    rintro _ _ ⟨⟩
    exact ⟨f', b, hfused.new, hop'.trans hop, hin',
      hfused.constant? hb hbm (h.constantValue_ne hvalue)⟩
  exact ⟨g₂, hrun, hfused.name, h.ofOutput_fused hm hfused hstands rfl rfl rfl⟩

theorem fused_subtract (h : Fusable g g₁ source p params d convert)
    (hsubtract : d.subtract = some (m.node, zeroPoint))
    (hmultiply : d.multiply = some (scaled, scale)) :
    ∃ g₂, exec (ConvertFusion.apply m) g₁ = .ok (.ok true, g₂) ∧
      g₂.name? scaled = g₁.name? scaled ∧
      ofOutput g₂ ⟨scaled, 0⟩ =
        some ⟨source, none, some (g₁.nodes.size, zeroPoint), some (scaled, scale)⟩ := by
  have hm : m.node ∈ d.nodes := by simp [nodes, hsubtract]
  obtain ⟨f, b, hf, hop, hin, hb⟩ := h.built.stands_now.subtract m.node zeroPoint hsubtract
  obtain ⟨k, t, hk, hkop, hkin, ht⟩ := h.built.stands_now.multiply scaled scale hmultiply
  have hkind : g₁.kind? m.node = some .subtract := by
    rw [kind?_eq_face, hf, Option.map_some, Face.kind, hop]
    rfl
  have hscaled : g₁.kind? scaled = some .multiply := by
    rw [kind?_eq_face, hk, Option.map_some, Face.kind, hkop]
    rfl
  have hconstant : g₁.kind? t.node = some .constant := kind_of_constant (Option.isSome_of_mem ht)
  obtain ⟨g₂, f', hrun, hfused, hop', hin'⟩ :=
    h.fuse hf (.inl (congrArg Op.kind hop)) (h.converted_eq ▸ hin) hb hm
  have hne : ∀ {v k}, g₁.kind? v = some k → k ≠ .subtract → k ≠ .convert →
      v ≠ m.node ∧ v ≠ convert := by
    intro v k hv hsub hconv
    refine ⟨?_, ?_⟩ <;> rintro rfl
    · exact hsub (Option.some.inj (hv.symm.trans hkind))
    · exact hconv (Option.some.inj (hv.symm.trans h.kind_convert))
  obtain ⟨hsm, hsc⟩ := hne hscaled (by decide) (by decide)
  obtain ⟨htm, htc⟩ := hne hconstant (by decide) (by decide)
  have hbm : b.node ≠ m.node := by
    intro hbm
    rcases kind_of_constantValue (Option.isSome_of_mem hb) with hv | hv <;>
      rw [hbm, hkind] at hv <;> cases hv
  have hproduct := hfused.kept scaled (lt_size_of_face? hk) hsm hsc
  rw [hk, Option.map_some] at hproduct
  let e : Dequantization α := ⟨source, none, some (g₁.nodes.size, zeroPoint), some (scaled, scale)⟩
  have hstands : e.Stands g₂ := by
    refine ⟨by simp [e], ?_, ?_⟩
    · rintro _ _ ⟨⟩
      exact ⟨f', b, hfused.new, hop'.trans hop, hin',
        hfused.constantValue? hb hbm (h.constantValue_ne hb) (by simp [hkind])
          (by simp [h.kind_convert])⟩
    · rintro _ _ ⟨⟩
      refine ⟨_, t, hproduct, by rw [Face.op_replace, hkop], ?_, hfused.constant? ht htm htc⟩
      have hold : scaled ≠ g₁.nodes.size := Nat.ne_of_lt (lt_size_of_face? hk)
      have hshifted : d.shifted = ⟨m.node, 0⟩ := by rw [shifted, hsubtract]; rfl
      rw [hshifted] at hkin
      simp [Face.replace, hold, Face.mapInputs, hkin, htm, e, shifted]
  refine ⟨g₂, hrun, hfused.names scaled (lt_size_of_face? hk) ?_,
    h.ofOutput_fused hm hfused hstands rfl rfl rfl⟩
  exact isLive_iff_face.mpr ⟨_, hproduct⟩

end Fusable

theorem Built.exists_value (h : Built g g₁ source params d) {v : NodeId} (hc : d.convert = some convert)
    (hf : g₁.face? v = some f) (hread : ⟨convert, 0⟩ ∈ f.inputs) :
    ∃ b value, f.inputs = [⟨convert, 0⟩, b] ∧ g₁.constantValue? b = some value := by
  have hconverted : d.converted = ⟨convert, 0⟩ := by rw [converted, hc]; rfl
  rcases h.next convert v f hc hf hread with ⟨zero, hstep⟩ | ⟨hnone, scale, hstep⟩
  · obtain ⟨f', b, hf', -, hin, hb⟩ := h.stands_now.subtract v zero hstep
    cases hf.symm.trans hf'
    exact ⟨b, zero, hconverted ▸ hin, hb⟩
  · obtain ⟨f', b, hf', -, hin, hb⟩ := h.stands_now.multiply v scale hstep
    cases hf.symm.trans hf'
    have hshifted : d.shifted = ⟨convert, 0⟩ := by rw [shifted, hnone, hconverted]; rfl
    exact ⟨b, scale, hshifted ▸ hin, constantValue?_eq_some.mpr (.inl hb)⟩

section Recognition

variable [Arithmetic α]

theorem Built.not_constant (h : Built g g₁ source params d) (hsource : source.node < g.nodes.size)
    (hc : d.convert = some convert)
    (hf : g₁.face? m.node = some f) (hread : ⟨convert, 0⟩ ∈ f.inputs)
    (hcan : ConvertFusion.canApply g₁ m = .ok true) : g.kind? source.node ≠ some .constant := by
  obtain ⟨b, value, hin, hb⟩ := h.exists_value hc hf hread
  rw [ConvertFusion.canApply] at hcan
  split at hcan
  rotate_left
  · cases hcan
  next slot t hfusable =>
  obtain ⟨n, input, hn, hinput, ht⟩ := fusable?_eq_some hfusable
  obtain rfl : n.face = f := Option.some.inj ((face?_eq_some.mpr ⟨n, hn, rfl⟩).symm.trans hf)
  have hmem : input ∈ [⟨convert, 0⟩, b] := hin ▸ List.mem_of_getElem? hinput
  rcases List.mem_cons.mp hmem with rfl | hmem
  · obtain ⟨c, -, -, hcn, -, hcin, -, -, hkind⟩ := source?_eq_some ht
    obtain ⟨k, hk, -, hkin⟩ := h.stands_now.convert convert hc
    obtain rfl : c.face = k := Option.some.inj ((face?_eq_some.mpr ⟨c, hcn, rfl⟩).symm.trans hk)
    have hinputs : c.inputs = [source] := h.data ▸ hkin
    rw [hinputs] at hcin
    obtain rfl : source = t := Option.some.inj hcin
    rwa [kind?_eq_face, h.old _ hsource, ← kind?_eq_face] at hkind
  · rw [List.mem_singleton.mp hmem, source?_of_constantValue hb] at ht
    cases ht

/-- A chain is found again as it was built. Where the integers behind it are no output of a step, a
fusion of its conversion leaves a chain of the same name at the end, with the same parameters. -/
theorem build_recognised (hg : g.WellFormed) (hp : g.port? source = some p)
    (hquantized : p.elementType.isLowPrecision = true ∨
      p.elementType = .f32 ∧ g.isQuantizedDomain source.node = true)
    (params : AffineParams α) (base : String) :
    ∃ d g₁, exec (build source params base) g = .ok (.ok d, g₁) ∧ d.data = source ∧
      ofOutput g₁ d.output = some d ∧ d.params = params ∧
      (p.elementType.isLowPrecision = true → g.kind? source.node ≠ some .subtract →
        g.kind? source.node ≠ some .convert →
        ∃ convert, d.convert = some convert ∧ (∃ v ∈ d.nodes, g₁.input? v 0 = some ⟨convert, 0⟩) ∧
          ∀ m i, g₁.input? m.node i = some ⟨convert, 0⟩ →
            ConvertFusion.canApply g₁ m = .ok true →
            ∃ g₂ last e, exec (ConvertFusion.apply m) g₁ = .ok (.ok true, g₂) ∧
              g₂.name? last = g₁.name? d.output.node ∧ ofOutput g₂ ⟨last, 0⟩ = some e ∧
              e.data = source ∧ e.convert = none ∧ e.params = params) := by
  obtain ⟨d, g₁, hrun, hbuilt⟩ := build_ok hg hp params base
  refine ⟨d, g₁, hrun, hbuilt.data, hbuilt.recognised hp hquantized, hbuilt.params_eq,
    fun hlow hsubtract hconvert => ?_⟩
  obtain ⟨convert, hc⟩ : ∃ convert, d.convert = some convert := by
    refine Option.ne_none_iff_exists'.mp fun hnone => ?_
    rw [(hbuilt.floats p hp).mp hnone] at hlow
    cases hlow
  obtain ⟨⟨scaled, scale⟩, hmultiply, -⟩ := Option.map_eq_some_iff.mp hbuilt.scale
  have hconverted : d.converted = ⟨convert, 0⟩ := by rw [converted, hc]; rfl
  refine ⟨convert, hc, ?_, fun m i hi hcan => ?_⟩
  · cases hs : d.subtract with
    | some step =>
      obtain ⟨f, b, hf, -, hin, -⟩ := hbuilt.stands_now.subtract step.1 step.2 hs
      exact ⟨step.1, by simp [nodes, hs], by rw [input?_eq_face, hf, ← hconverted]; simp [hin]⟩
    | none =>
      obtain ⟨f, b, hf, -, hin, -⟩ := hbuilt.stands_now.multiply scaled scale hmultiply
      have hshifted : d.shifted = ⟨convert, 0⟩ := by rw [shifted, hs, hconverted]; rfl
      exact ⟨scaled, by simp [nodes, hmultiply], by rw [input?_eq_face, hf, ← hshifted]; simp [hin]⟩
  · obtain ⟨f, hf, hread⟩ := Option.bind_eq_some_iff.mp (input?_eq_face g₁ m.node i ▸ hi)
    have hmem := List.mem_of_getElem? hread
    have h : Fusable g g₁ source p params d convert := ⟨hbuilt, hp, hlow, hsubtract, hconvert,
      hbuilt.not_constant (lt_size_of_port hp) hc hf hmem hcan, hc⟩
    have hparams := hbuilt.params_eq
    have hout : d.output = ⟨scaled, 0⟩ := output_of_multiply hmultiply
    rcases hbuilt.next convert m.node f hc hf hmem with ⟨zero, hstep⟩ | ⟨hnone, scale', hstep⟩
    · obtain ⟨g₂, hfuse, hname, hfound⟩ := h.fused_subtract hstep hmultiply
      refine ⟨g₂, scaled, _, hfuse, by rw [hname, hout], hfound, rfl, rfl, ?_⟩
      rw [← hparams]
      simp [Dequantization.params, scale?, zeroPoint?, hstep, hmultiply]
    · obtain ⟨g₂, hfuse, hname, hfound⟩ := h.fused_multiply hnone hstep
      cases hmultiply.symm.trans hstep
      refine ⟨g₂, g₁.nodes.size, _, hfuse, by rw [hname, hout], hfound, rfl, rfl, ?_⟩
      rw [← hparams]
      simp [Dequantization.params, scale?, zeroPoint?, hnone, hstep]

end Recognition

theorem build_recognised_of_bytes :
    ∃ (g g₁ g₂ : Graph Rat) (d e : Dequantization Rat) (m : NodeMatch) (last : NodeId),
      g.WellFormed ∧ g.port? ⟨0, 0⟩ = some ⟨.u8, some [1, 2]⟩ ∧
      exec (build ⟨0, 0⟩ ⟨.scalar (1 / 2), some (.scalar 128)⟩ "x") g = .ok (.ok d, g₁) ∧
      ofOutput g₁ d.output = some d ∧ d.params = ⟨.scalar (1 / 2), some (.scalar 128)⟩ ∧
      ConvertFusion.canApply g₁ m = .ok true ∧
      exec (ConvertFusion.apply m) g₁ = .ok (.ok true, g₂) ∧
      g₂.name? last = g₁.name? d.output.node ∧ ofOutput g₂ ⟨last, 0⟩ = some e ∧
      e.data = ⟨0, 0⟩ ∧ e.convert = none ∧ e.params = ⟨.scalar (1 / 2), some (.scalar 128)⟩ := by
  let g : Graph Rat := assemble [("x", .parameter, [], [⟨.u8, some [1, 2]⟩])]
  have hg : g.WellFormed := (assemble_ordered _).1
  have hp : g.port? ⟨0, 0⟩ = some ⟨.u8, some [1, 2]⟩ := by decide +kernel
  obtain ⟨d, g₁, hrun, -, hfound, hparams, hfused⟩ :=
    build_recognised hg hp (.inl rfl) ⟨.scalar (1 / 2), some (.scalar 128)⟩ "x"
  obtain ⟨convert, hc, -, happly⟩ := hfused rfl (by decide +kernel) (by decide +kernel)
  let m : NodeMatch := ⟨4, .subtract, [], []⟩
  have hbuilt : (exec (build ⟨0, 0⟩ ⟨.scalar (1 / 2), some (.scalar 128)⟩ "x") g).toOption.any
      (fun r => r.1.toOption.any fun d => decide (r.2.input? m.node 0 = d.convert.map (⟨·, 0⟩) ∧
        ConvertFusion.canApply r.2 m = .ok true)) = true := by decide +kernel
  rw [hrun] at hbuilt
  obtain ⟨hread, hcan⟩ := of_decide_eq_true hbuilt
  obtain ⟨g₂, last, e, hexec, hname, hlast, hdata, hnone, heq⟩ :=
    happly m 0 (by rw [hread, hc]; rfl) hcan
  exact ⟨g, g₁, g₂, d, e, m, last, hg, hp, hrun, hfound, hparams, hcan, hexec, hname, hlast, hdata,
    hnone, heq⟩

end Dequantization

end LowPrecision
