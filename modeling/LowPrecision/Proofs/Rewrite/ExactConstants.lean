import LowPrecision.Proofs.Graph.Conversions
import LowPrecision.Proofs.Rewrite.Exchanges
import LowPrecision.Rewrite.Rule

namespace LowPrecision

open LowPrecision.Graph

namespace ElementType

variable {type low : ElementType} {x : Rat}

theorem represents_wide (hlow : low.isLowPrecision = true)
    (htype : type.isFloat = true ∨ type = .i32 ∨ type = low) (h : low.represents x = true) :
    type.represents x = true := by
  rcases htype with hfloat | rfl | rfl
  · exact represents_float (by cases type <;> first | rfl | cases hfloat) x
  · obtain ⟨first, last, hbounds, hfirst, hlast⟩ : ∃ first last, low.integerBounds = some (first, last) ∧
        -2147483648 ≤ first ∧ last ≤ 2147483647 := by
      cases low <;> first | exact ⟨_, _, rfl, by decide, by decide⟩ | cases hlow
    obtain ⟨hwhole, hle, hge⟩ := (represents_iff hbounds).mp h
    refine (represents_iff rfl).mpr ⟨hwhole, le_trans ?_ hle, hge.trans ?_⟩
    · exact_mod_cast hfirst
    · exact_mod_cast hlast
  · exact h

end ElementType

namespace Graph

variable {g g' : Graph Rat} {s b : Slot} {t : Tensor Rat} {id : NodeId}

def ReadsExactly (g : Graph Rat) (s : Slot) (t : Tensor Rat) : Prop :=
  ∀ f type, g.face? s.node = some f → f.op = .convert type → ∀ x ∈ t.data, type.represents x = true

theorem exactAt_iff (ht : t.Filled) : g.ExactAt s t.values ↔ g.ReadsExactly s t :=
  forall₄_congr fun _ type _ _ => Tensor.forall_get_iff (P := fun x => type.represents x = true) ht

/-- A constant that is taken for what an output delivers: the zero point of a chain, the subtrahend of a
difference that is fused, the constant that goes into an output range, and a conversion that is folded. -/
inductive Takes (g : Graph Rat) : Slot → Tensor Rat → Prop
  | zeroPoint {output b : Slot} {d : Dequantization Rat} {id : NodeId} {z : Tensor Rat}
      (hd : Dequantization.ofOutput g output = some d) (hz : d.subtract = some (id, z))
      (hb : g.input? id 1 = some b) : Takes g b z
  | subtrahend {m : NodeMatch} {slot other : Nat} {source b : Slot} {value : Tensor Rat}
      (hm : m.kind = .subtract) (hfusable : ConvertFusion.fusable? g m.node = some (slot, source))
      (hcan : ConvertFusion.canApply g m = .ok true) (hother : ConvertFusion.otherSlot slot = .ok other)
      (hb : g.input? m.node other = some b) (hvalue : g.constantValue? b = some value) : Takes g b value
  | fused {id fakeQuantize : NodeId} {b : Slot} {value : Tensor Rat}
      (hsource : RangeFusion.source? g id = some (fakeQuantize, value)) (hb : g.input? id 1 = some b) :
      Takes g b value
  | folded {g' : Graph Rat} {id : NodeId} {value : Tensor Rat}
      (hrun : exec (FoldConvert.apply id) g = .ok (.ok true, g'))
      (hvalue : g'.constant? ⟨g.nodes.size, 0⟩ = some value) : Takes g ⟨id, 0⟩ value

end Graph

variable {I : TypedInterpretation} {g g' : Graph Rat} {v : Slot → Option Values} {s b : Slot}
  {t value : Tensor Rat} {id : NodeId}

theorem Dequantization.constantValue_of_subtract {d : Dequantization Rat} {output : Slot}
    (h : ofOutput g output = some d) (hz : d.subtract = some (id, t)) (hb : g.input? id 1 = some b) :
    g.constantValue? b = some t := by
  obtain ⟨scaled, shifted, p, -, hsub, -⟩ := ofOutput_eq_some h
  rw [hz] at hsub
  obtain ⟨hnone, -⟩ | ⟨n, b', z, hn, -, -, hb', hstep, hvalue⟩ := readSubtract_cases hsub
  · cases hnone
  · cases hstep
    rw [input?, hn] at hb
    cases hb'.symm.trans hb
    exact hvalue

theorem FoldConvert.exists_apply (hg : g.Regular) {f : Face Rat} {type : ElementType}
    (hf : g.face? id = some f) (hop : f.op = .convert type) (hs : f.inputs[0]? = some s)
    (ht : g.constant? s = some t) :
    ∃ g', exec (apply id) g = .ok (.ok true, g') ∧ g'.constant? ⟨g.nodes.size, 0⟩ = some t ∧
      g'.port? ⟨g.nodes.size, 0⟩ = some ⟨type, some t.shape⟩ := by
  obtain ⟨n, hn, rfl⟩ := face?_eq_some.mp hf
  obtain ⟨rank, hr⟩ := hg.acyclic
  have hone := hg.length_outputs hn (by rw [Node.kind, show n.op = _ from hop, Op.kind]; decide)
  have hvalue : (n.input? 0).bind g.constant? = some t := by
    rw [Node.input?, show n.inputs[0]? = _ from hs]
    exact ht
  obtain ⟨g', hrun, hexchanged, -⟩ := apply_ok hg.wellFormed hr hn hone hop hvalue
  refine ⟨g', hrun, constant?_eq_some.mpr ⟨_, hexchanged.new, rfl⟩, ?_⟩
  rw [port?_eq_face, hexchanged.new]
  rfl

theorem FoldConvert.folded_constant (hg : g.Regular)
    (hrun : exec (apply id) g = .ok (.ok true, g')) :
    ∃ type t, (∃ f, g.face? id = some f ∧ f.op = .convert type) ∧ g.constantValue? ⟨id, 0⟩ = some t ∧
      (g.port? ⟨id, 0⟩).isSome ∧ g'.constant? ⟨g.nodes.size, 0⟩ = some t ∧
      g'.port? ⟨g.nodes.size, 0⟩ = some ⟨type, some t.shape⟩ := by
  obtain ⟨n, type, source, t, _, hn, hop, hsource, ht, -⟩ := apply_done hg.wellFormed hrun
  have hf := face?_eq_some.mpr ⟨n, hn, rfl⟩
  obtain ⟨g'', hexec, hnew, hport⟩ := exists_apply hg hf hop hsource ht
  cases hrun.symm.trans hexec
  obtain ⟨p, hp, -⟩ := port_of_single hn
    (hg.length_outputs hn (by rw [Node.kind, hop, Op.kind]; decide))
  exact ⟨type, t, ⟨n.face, hf, hop⟩,
    constantValue?_eq_some.mpr (.inr ⟨n.face, type, source, hf, hop, hsource, ht⟩),
    by rw [hp]; rfl, hnew, hport⟩

theorem Graph.Takes.constantValue (h : g.Takes s t) (hg : g.Regular) :
    g.constantValue? s = some t ∧ (g.port? s).isSome := by
  have hport : ∀ {v i b}, g.input? v i = some b → (g.port? b).isSome := fun hb => by
    obtain ⟨p, hp⟩ := hg.wellFormed.exists_port hb
    rw [hp]
    rfl
  cases h with
  | zeroPoint hd hz hb => exact ⟨Dequantization.constantValue_of_subtract hd hz hb, hport hb⟩
  | subtrahend _ _ _ _ hb hvalue => exact ⟨hvalue, hport hb⟩
  | fused hsource hb =>
    have hvalue := RangeFusion.value_of_source? hsource
    rw [hb] at hvalue
    exact ⟨hvalue, hport hb⟩
  | folded hrun hvalue =>
    obtain ⟨type, t, -, ht, hp, hnew, -⟩ := FoldConvert.folded_constant hg hrun
    cases hnew.symm.trans hvalue
    exact ⟨ht, hp⟩

theorem Graph.Takes.value_iff (h : g.Takes s t) (hg : g.Regular) (hfilled : g.Filled)
    (hv : g.Evaluates I.run v) : v s = some t.values ↔ g.ReadsExactly s t := by
  obtain ⟨hvalue, hport⟩ := h.constantValue hg
  obtain ⟨s', hs'⟩ := Dequantization.constant_of_constantValue hvalue
  rw [TypedInterpretation.value_constantValue_iff hv hg hport hvalue, exactAt_iff (hfilled s' t hs')]

theorem ConvertFusion.readsExactly_of_canApply {m : NodeMatch} {slot other : Nat} {source : Slot}
    {port : Port} (hm : m.kind = .subtract) (hfusable : fusable? g m.node = some (slot, source))
    (hcan : canApply g m = .ok true) (hport : g.port? source = some port)
    (hother : otherSlot slot = .ok other) (hb : g.input? m.node other = some b)
    (hvalue : g.constantValue? b = some value)
    (htype : ∀ f type, g.face? b.node = some f → f.op = .convert type →
      type.isFloat = true ∨ type = .i32 ∨ type = port.elementType) : g.ReadsExactly b value := by
  obtain ⟨n, input, -, -, hsource⟩ := fusable?_eq_some hfusable
  obtain ⟨_, _, q, -, -, -, hq, hlow, -⟩ := source?_eq_some hsource
  cases hport.symm.trans hq
  have hall : ((g.input? m.node other).bind g.constantValue?).any
      (·.data.all port.elementType.represents) = true := by
    rw [canApply] at hcan
    simp only [hfusable, hm, hport, hother, ne_eq, not_true_eq_false, if_false] at hcan
    exact Except.ok.inj hcan
  rw [hb, Option.bind_some, hvalue, Option.any_some] at hall
  intro f type hf hop x hx
  exact ElementType.represents_wide hlow (htype f type hf hop) (List.all_eq_true.mp hall x hx)

theorem Dequantization.Built.readsExactly {source : Slot} {params : AffineParams Rat}
    {d : Dequantization Rat} (h : Built g g' source params d) (hs : g.nodes.size ≤ s.node) :
    g'.ReadsExactly s t := by
  intro f type hf hop x _
  obtain ⟨port, -, ⟨hconvert, -⟩ | ⟨-, value, hconstant⟩ | ⟨harithmetic, -⟩⟩ := h.fresh s.node f hs hf
  · cases hop.symm.trans hconvert
    exact ElementType.represents_float rfl x
  · cases hop.symm.trans hconstant
  · rw [hop] at harithmetic
    rcases harithmetic with h | h <;> cases h

/-- A constant that is taken through a conversion is the value that the conversion delivers exactly when
its type represents all elements, and so are the elements of the constant that it is folded into. This is
so behind the check of a fused difference, but for the two types of bytes against one another, and for
the conversions that a chain brings along. -/
theorem constant_reads_exact_iff (hg : g.Regular) (hfilled : g.Filled) (hv : g.Evaluates I.run v) :
    (∀ s t, g.Takes s t → (v s = some t.values ↔ g.ReadsExactly s t)) ∧
    (∀ id g', exec (FoldConvert.apply id) g = .ok (.ok true, g') → ∃ type t, g.Takes ⟨id, 0⟩ t ∧
      g'.constant? ⟨g.nodes.size, 0⟩ = some t ∧
      g'.port? ⟨g.nodes.size, 0⟩ = some ⟨type, some t.shape⟩ ∧
      ((∀ x ∈ t.data, type.represents x = true) ↔ v ⟨id, 0⟩ = some t.values)) ∧
    (∀ m slot other source port b value, m.kind = .subtract →
      ConvertFusion.fusable? g m.node = some (slot, source) → ConvertFusion.canApply g m = .ok true →
      g.port? source = some port → ConvertFusion.otherSlot slot = .ok other →
      g.input? m.node other = some b → g.constantValue? b = some value →
      (∀ f type, g.face? b.node = some f → f.op = .convert type →
        type.isFloat = true ∨ type = .i32 ∨ type = port.elementType) → g.ReadsExactly b value) ∧
    (∀ source params base d g', exec (Dequantization.build source params base) g = .ok (.ok d, g') →
      ∀ s t, g.nodes.size ≤ s.node → g'.ReadsExactly s t) := by
  refine ⟨fun s t h => h.value_iff hg hfilled hv, fun id g' hrun => ?_,
    fun m slot other source port b value hm hfusable hcan hport hother =>
      ConvertFusion.readsExactly_of_canApply hm hfusable hcan hport hother,
    fun source params base d g' hrun s t hs => ?_⟩
  · obtain ⟨type, t, ⟨f, hf, hop⟩, -, -, hnew, hport⟩ := FoldConvert.folded_constant hg hrun
    have htakes : g.Takes ⟨id, 0⟩ t := .folded hrun hnew
    refine ⟨type, t, htakes, hnew, hport, ?_⟩
    rw [htakes.value_iff hg hfilled hv]
    refine ⟨fun hall k type' hk hop' => ?_, fun hexact => hexact f type hf hop⟩
    cases hf.symm.trans hk
    cases hop.symm.trans hop'
    exact hall
  · obtain ⟨p, -, hbuilt⟩ := Dequantization.build_done hg.wellFormed hrun
    exact hbuilt.readsExactly hs

section Sample

def shiftedBytes (x : Rat) : Graph Rat :=
  assemble [("x", .parameter, [], [⟨.u8, some [1]⟩]),
    ("zero", .constant (.scalar x), [], [⟨.f32, some []⟩]),
    ("stored", .convert .u8, [⟨1, 0⟩], [⟨.u8, some []⟩]),
    ("shifted", .subtract, [⟨0, 0⟩, ⟨2, 0⟩], [⟨.f32, some [1]⟩]),
    ("y", .result, [⟨3, 0⟩], [])]

def shiftedReals (x : Rat) : Graph Rat :=
  assemble [("x", .parameter, [], [⟨.u8, some [1]⟩]),
    ("zero", .constant (.scalar x), [], [⟨.f32, some []⟩]),
    ("stored", .convert .u8, [⟨1, 0⟩], [⟨.u8, some []⟩]),
    ("real", .convert .f32, [⟨0, 0⟩], [⟨.f32, some [1]⟩]),
    ("shifted", .subtract, [⟨3, 0⟩, ⟨2, 0⟩], [⟨.f32, some [1]⟩]),
    ("y", .result, [⟨4, 0⟩], [])]

variable {x : Rat}

theorem shiftedBytes_regular : (shiftedBytes x).Regular :=
  assemble_regular (by simp [Op.kind, OpKind.HasOneOutput])

theorem shiftedBytes_filled : (shiftedBytes x).Filled := by
  have hscalar : ∀ x : Rat, (Tensor.scalar x).Filled := fun _ => rfl
  exact filled_of_listed (by simp [hscalar])

theorem shiftedReals_regular : (shiftedReals x).Regular :=
  assemble_regular (by simp [Op.kind, OpKind.HasOneOutput])

theorem shiftedReals_filled : (shiftedReals x).Filled := by
  have hscalar : ∀ x : Rat, (Tensor.scalar x).Filled := fun _ => rfl
  exact filled_of_listed (by simp [hscalar])

theorem constant_reads_exact_iff_of_three : ∃ I : TypedInterpretation, ∃ v m d, ∃ g g' : Graph Rat,
    g.Regular ∧ g.Filled ∧ g.Evaluates I.run v ∧ Dequantization.ofOutput g ⟨4, 0⟩ = some d ∧
    d.zeroPoint? = some (.scalar 3) ∧ m.kind = .subtract ∧
    ConvertFusion.fusable? g m.node = some (0, ⟨0, 0⟩) ∧ ConvertFusion.canApply g m = .ok true ∧
    g.input? m.node 1 = some ⟨2, 0⟩ ∧ exec (FoldConvert.apply 2) g = .ok (.ok true, g') ∧
    (g.Takes ⟨2, 0⟩ (.scalar 3) ∧ g.ReadsExactly ⟨2, 0⟩ (.scalar 3) ∧
      v ⟨2, 0⟩ = some (Tensor.scalar 3).values) ∧
    ∃ type t, g.Takes ⟨2, 0⟩ t ∧ g'.constant? ⟨g.nodes.size, 0⟩ = some t ∧
      g'.port? ⟨g.nodes.size, 0⟩ = some ⟨type, some t.shape⟩ ∧
      ((∀ x ∈ t.data, type.represents x = true) ↔ v ⟨2, 0⟩ = some t.values) := by
  generalize hdef : shiftedReals 3 = g
  have hg : g.Regular := hdef ▸ shiftedReals_regular
  have hfilled : g.Filled := hdef ▸ shiftedReals_filled
  let m : NodeMatch := ⟨4, .subtract, [3, 2], [5]⟩
  have hread : Dequantization.ofOutput g ⟨4, 0⟩ = some ⟨⟨0, 0⟩, some 3, some (4, .scalar 3), none⟩ ∧
      ConvertFusion.fusable? g m.node = some (0, ⟨0, 0⟩) ∧ ConvertFusion.canApply g m = .ok true ∧
      g.port? ⟨0, 0⟩ = some ⟨.u8, some [1]⟩ ∧ g.input? m.node 1 = some ⟨2, 0⟩ ∧
      g.constantValue? ⟨2, 0⟩ = some (.scalar 3) ∧ g.constant? ⟨1, 0⟩ = some (.scalar 3) := by
    subst hdef
    decide +kernel
  have hstored : g.face? 2 = some ⟨.convert .u8, [⟨1, 0⟩], [⟨.u8, some []⟩], none⟩ := by
    subst hdef
    rfl
  obtain ⟨hchain, hfusable, hcan, hport, hb, hvalue, hconstant⟩ := hread
  obtain ⟨rank, hr⟩ := hg.acyclic
  obtain ⟨v, hv⟩ := exists_evaluates (TypedInterpretation.extend fun _ _ => none).run hr
  obtain ⟨g', hrun, -⟩ := FoldConvert.exists_apply hg hstored rfl rfl hconstant
  obtain ⟨hiff, hfolded, hfused, -⟩ := constant_reads_exact_iff hg hfilled hv
  have htakes : g.Takes ⟨2, 0⟩ (.scalar 3) := .subtrahend (m := m) rfl hfusable hcan rfl hb hvalue
  have hexact : g.ReadsExactly ⟨2, 0⟩ (.scalar 3) := by
    refine hfused m 0 1 _ _ _ _ rfl hfusable hcan hport rfl hb hvalue fun f type hf hop => ?_
    cases hstored.symm.trans hf
    cases hop
    exact .inr (.inr rfl)
  exact ⟨_, v, m, _, g, g', hg, hfilled, hv, hchain, rfl, rfl, hfusable, hcan, hb, hrun,
    ⟨htakes, hexact, (hiff _ _ htakes).mpr hexact⟩, hfolded 2 g' hrun⟩

theorem fraction_read_as_byte : ∃ I : TypedInterpretation, ∃ v m, ∃ g g' : Graph Rat,
    g.Regular ∧ g.Filled ∧ g.Evaluates I.run v ∧ Rule.foldConvert.pattern.matchAt g 2 = some m ∧
    FoldConvert.canApply g 2 = true ∧ exec (FoldConvert.apply 2) g = .ok (.ok true, g') ∧
    g'.constant? ⟨5, 0⟩ = some (.scalar (1 / 2)) ∧ g'.port? ⟨5, 0⟩ = some ⟨.u8, some []⟩ ∧
    (∃ d, Dequantization.ofOutput g ⟨3, 0⟩ = some d ∧ d.zeroPoint? = some (.scalar (1 / 2))) ∧
    ElementType.u8.represents (1 / 2 : Rat) = false ∧
    v ⟨2, 0⟩ ≠ some (Tensor.scalar (1 / 2)).values := by
  generalize hdef : shiftedBytes (1 / 2) = g
  have hg : g.Regular := hdef ▸ shiftedBytes_regular
  have hfilled : g.Filled := hdef ▸ shiftedBytes_filled
  have hstored : g.face? 2 = some ⟨.convert .u8, [⟨1, 0⟩], [⟨.u8, some []⟩], none⟩ ∧ g.nodes.size = 5 ∧
      g.constant? ⟨1, 0⟩ = some (.scalar (1 / 2)) := by
    subst hdef
    exact ⟨rfl, rfl, by decide +kernel⟩
  have hcan : Rule.foldConvert.pattern.matchAt g 2 = some ⟨2, .convert, [1], [3]⟩ ∧
      FoldConvert.canApply g 2 = true ∧ Dequantization.ofOutput g ⟨3, 0⟩ =
        some ⟨⟨0, 0⟩, none, some (3, .scalar (1 / 2)), none⟩ := by
    subst hdef
    decide +kernel
  obtain ⟨hface, hsize, hconstant⟩ := hstored
  obtain ⟨hm, haccepted, hchain⟩ := hcan
  obtain ⟨rank, hr⟩ := hg.acyclic
  obtain ⟨v, hv⟩ := exists_evaluates (TypedInterpretation.extend fun _ _ => none).run hr
  obtain ⟨g', hrun, hnew, hport⟩ := FoldConvert.exists_apply hg hface rfl rfl hconstant
  rw [hsize] at hnew hport
  refine ⟨_, v, _, g, g', hg, hfilled, hv, hm, haccepted, hrun, hnew, hport, ⟨_, hchain, rfl⟩,
    by decide +kernel, fun hsame => ?_⟩
  have hexact := ((Takes.folded hrun (hsize ▸ hnew)).value_iff hg hfilled hv).mp hsame
  have hrepresents := hexact _ .u8 hface rfl (1 / 2) (List.mem_singleton_self _)
  revert hrepresents
  decide +kernel

end Sample

end LowPrecision
