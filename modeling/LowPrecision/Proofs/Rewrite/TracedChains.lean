import LowPrecision.Proofs.Rewrite.Tracing
import LowPrecision.Proofs.Rewrite.Verdicts

namespace LowPrecision

variable {α : Type} {g₀ g g' : Graph α} {id : NodeId} {o s output : Slot} {d : Dequantization α}

theorem OpKind.not_source_of_step {k : OpKind} (h : k = .convert ∨ k = .subtract ∨ k = .multiply) :
    ¬ (k = .fakeQuantize ∨ k.Passes) := by
  rcases h with rfl | rfl | rfl <;> decide

structure OpKind.Computes (k : OpKind) : Prop where
  not_passes : ¬ k.Passes
  not_literal : k ≠ .constant ∧ k ≠ .convert
  not_quantizer : k ≠ .fakeQuantize
  not_result : k ≠ .result

theorem OpKind.computes_of_kernel {k : OpKind}
    (h : k = .matMul ∨ k = .convolution ∨ k = .groupConvolution) : k.Computes := by
  rcases h with rfl | rfl | rfl <;> constructor <;> decide

theorem OpKind.computes_of_arithmetic {k : OpKind} (h : k = .add ∨ k = .multiply ∨ k = .subtract) :
    k.Computes := by
  rcases h with rfl | rfl | rfl <;> constructor <;> decide

namespace Graph

theorem Represents.eq_of_lt (h : Represents g₀ g o s) (hs : s.node < g₀.nodes.size) : s = o := by
  cases h.unfold with
  | origin => rfl
  | lowered hnew | step hnew => exact absurd hs (Nat.not_lt.mpr hnew)

theorem Represents.kind (htraced : Traced g₀ g) (ho : g₀.Fed o) (h : Represents g₀ g o s)
    {k : OpKind} (hk : g.kind? s.node = some k) :
    k = .fakeQuantize ∨ k.Passes ∨ k = .constant ∨ k = .convert ∨ k = .subtract ∨ k = .multiply := by
  cases h.unfold with
  | origin => exact (htraced.kind_of_fed ho hk).imp_right .inl
  | lowered _ hf hkind =>
    rw [kind?_eq_face, hf] at hk
    cases hk
    exact hkind.imp_right fun h => .inr (.inl h)
  | step _ hf hstep =>
    rw [kind?_eq_face, hf] at hk
    cases hk
    exact .inr (.inr (.inr hstep.kind))

theorem Represents.step (htraced : Traced g₀ g) (ho : g₀.Fed o) (h : Represents g₀ g o s)
    {f : Face α} (hf : g.face? s.node = some f)
    (hkind : f.kind = .convert ∨ f.kind = .subtract ∨ f.kind = .multiply) :
    ∃ data, g₀.nodes.size ≤ s.node ∧ g.StepOn f data ∧ g₀.kind? data.node ≠ some .fakeQuantize ∧
      Represents g₀ g o data := by
  have hk : g.kind? s.node = some f.kind := by rw [kind?_eq_face, hf]; rfl
  cases h.unfold with
  | origin => exact absurd (htraced.kind_of_fed ho hk) (OpKind.not_source_of_step hkind)
  | lowered _ hf' hkind' =>
    cases hf.symm.trans hf'
    rcases hkind' with hk | hk <;> rw [hk] at hkind <;> simp at hkind
  | step hnew hf' hstep hdata hheld =>
    cases hf.symm.trans hf'
    exact ⟨_, hnew, hstep, hdata, hheld⟩

theorem Represents.fits (htraced : Traced g₀ g) (ho : g₀.Fed o) (h : Represents g₀ g o s) {p : Port}
    (hp : g.port? s = some p) (hlow : p.elementType.isLowPrecision = true) :
    g₀.Fits o p.elementType := by
  obtain ⟨f, hf, hport⟩ := Option.bind_eq_some_iff.mp (port?_eq_face g s ▸ hp)
  have hmem : p ∈ f.ports := List.mem_of_getElem? hport
  cases h.unfold with
  | origin => exact htraced.stored _ p ho hp hlow
  | lowered _ hf' _ hports =>
    cases hf.symm.trans hf'
    exact (hports p hmem).2
  | step _ hf' hstep =>
    cases hf.symm.trans hf'
    rw [hstep.real p hmem] at hlow
    cases hlow

theorem Represents.isQuantizedDomain (htraced : Traced g₀ g) (ho : g₀.Fed o)
    (h : Represents g₀ g o s) (hstart : g₀.kind? s.node ≠ some .fakeQuantize) {p : Port}
    (hp : g.port? s = some p) (hdomain : g.isQuantizedDomain s.node = true) :
    p.elementType.isLowPrecision = true := by
  obtain ⟨f, hf, hport⟩ := Option.bind_eq_some_iff.mp (port?_eq_face g s ▸ hp)
  have hk : g.kind? s.node = some f.kind := by rw [kind?_eq_face, hf]; rfl
  obtain ⟨n, hn, rfl⟩ := face?_eq_some.mp hf
  have hquantizer : n.face.kind = .fakeQuantize := by
    rw [Graph.isQuantizedDomain, hn, Option.any_some] at hdomain
    have hcases := h.kind htraced ho hk
    change n.kind = .fakeQuantize
    change n.kind = _ ∨ n.kind.Passes ∨ n.kind = _ ∨ n.kind = _ ∨ n.kind = _ ∨ n.kind = _ at hcases
    generalize n.kind = kind at hdomain hcases ⊢
    cases kind <;> first | rfl | cases hdomain | exact absurd hcases (by decide)
  cases h.unfold with
  | origin =>
    rw [hquantizer] at hk
    exact absurd (htraced.kind (htraced.lt_size_of_fed ho) hk) hstart
  | lowered _ hf' _ hports =>
    cases hf.symm.trans hf'
    exact (hports p (List.mem_of_getElem? hport)).1
  | step _ hf' hstep =>
    cases hf.symm.trans hf'
    have hsteps := hstep.kind
    simp [hquantizer] at hsteps

end Graph

namespace Dequantization

open LowPrecision.Graph

structure Reads (g₀ g : Graph α) (o output s : Slot) (taken : Bool) : Prop where
  represents : Represents g₀ g o s
  stays : taken = false → s = output
  start : taken = true → g₀.kind? s.node ≠ some .fakeQuantize

theorem Reads.stay (h : Represents g₀ g o s) : Reads g₀ g o s s false := ⟨h, fun _ => rfl, by simp⟩

theorem Reads.step (h : Represents g₀ g o s) (hstart : g₀.kind? s.node ≠ some .fakeQuantize) :
    Reads g₀ g o output s true := ⟨h, by simp, fun _ => hstart⟩

theorem readMultiply_represents (ht : Traced g₀ g) (ho : g₀.Fed o) (h : Represents g₀ g o output)
    {step : Option (NodeId × Tensor α)} {s : Slot}
    (hread : readMultiply g output = some (step, s)) :
    Reads g₀ g o output s step.isSome := by
  obtain ⟨rfl, rfl⟩ | ⟨n, a, b, scale, hn, hkind, ha, hb, rfl, hscale⟩ := readMultiply_cases hread
  · exact .stay h
  obtain ⟨data, -, hstep, hdata, hheld⟩ :=
    h.step ht ho (face?_eq_some.mpr ⟨n, hn, rfl⟩) (.inr (.inr hkind))
  cases ha.symm.trans hstep.input
  rcases hstep.op with hop | ⟨c, hc, ⟨hop, -⟩ | ⟨-, hconstant⟩⟩
  · cases hop.symm.trans hkind
  · cases hop.symm.trans hkind
  · cases hb.symm.trans hc
    obtain ⟨-, rfl⟩ | ⟨hnone, -⟩ := hscale
    · exact .step hheld hdata
    · rw [hnone] at hconstant
      cases hconstant

theorem readSubtract_represents (ht : Traced g₀ g) (ho : g₀.Fed o) (h : Represents g₀ g o output)
    {step : Option (NodeId × Tensor α)} {s : Slot}
    (hread : readSubtract g output = some (step, s)) :
    Reads g₀ g o output s step.isSome := by
  obtain ⟨rfl, rfl⟩ | ⟨n, b, zeroPoint, hn, hkind, ha, -, rfl, -⟩ := readSubtract_cases hread
  · exact .stay h
  obtain ⟨data, -, hstep, hdata, hheld⟩ :=
    h.step ht ho (face?_eq_some.mpr ⟨n, hn, rfl⟩) (.inr (.inl hkind))
  cases ha.symm.trans hstep.input
  exact .step hheld hdata

theorem readConvert_represents (ht : Traced g₀ g) (ho : g₀.Fed o) (h : Represents g₀ g o output)
    {step : Option NodeId} {s : Slot} (hread : readConvert g output = some (step, s)) :
    Reads g₀ g o output s step.isSome := by
  obtain ⟨rfl, rfl⟩ | ⟨n, destination, hn, hop, ha, rfl⟩ := readConvert_cases hread
  · exact .stay h
  obtain ⟨data, -, hstep, hdata, hheld⟩ :=
    h.step ht ho (face?_eq_some.mpr ⟨n, hn, rfl⟩) (.inl (congrArg Op.kind hop))
  cases ha.symm.trans hstep.input
  exact .step hheld hdata

theorem ofOutput_represents (ht : Traced g₀ g) (ho : g₀.Fed o) (h : Represents g₀ g o output)
    (hd : ofOutput g output = some d) :
    Represents g₀ g o d.data ∧ g₀.kind? d.data.node ≠ some .fakeQuantize ∧
      ∃ p, g.port? d.data = some p ∧ p.elementType.isLowPrecision = true ∧
        g₀.Fits o p.elementType := by
  obtain ⟨scaled, shifted, p, hm, hs, hc, hp, hquantized⟩ := ofOutput_eq_some hd
  have hmultiply := readMultiply_represents ht ho h hm
  have hsubtract := readSubtract_represents ht ho hmultiply.represents hs
  have hconvert := readConvert_represents ht ho hsubtract.represents hc
  have hstart : g₀.kind? d.data.node ≠ some .fakeQuantize := by
    cases hc₁ : d.convert.isSome with
    | true => exact hconvert.start hc₁
    | false =>
      rw [hconvert.stays hc₁]
      cases hs₁ : d.subtract.isSome with
      | true => exact hsubtract.start hs₁
      | false =>
        rw [hsubtract.stays hs₁]
        rcases hquantized with ⟨hsome, -⟩ | ⟨-, hsome | hsome, -⟩
        · rw [hc₁] at hsome
          cases hsome
        · exact hmultiply.start hsome
        · rw [hs₁] at hsome
          cases hsome
  have hlow : p.elementType.isLowPrecision = true := by
    rcases hquantized with ⟨-, hlow⟩ | ⟨-, -, hlow | hdomain⟩
    · exact hlow
    · exact hlow
    · exact hconvert.represents.isQuantizedDomain ht ho hstart hp hdomain
  exact ⟨hconvert.represents, hstart, p, hp, hlow, hconvert.represents.fits ht ho hp hlow⟩

theorem constant_data (hd : ofOutput g output = some d) (hvalue : (g.constantValue? output).isSome) :
    (g.constant? d.data).isSome := by
  obtain ⟨scaled, shifted, p, hm, hs, hc, -, hquantized⟩ := ofOutput_eq_some hd
  obtain ⟨n, hn, hkind⟩ : ∃ n, g.node? output.node = some n ∧
      (n.kind = .constant ∨ n.kind = .convert) := by
    rcases kind_of_constantValue hvalue with h | h <;>
      obtain ⟨n, hn, hkind⟩ := Option.map_eq_some_iff.mp h
    · exact ⟨n, hn, .inl hkind⟩
    · exact ⟨n, hn, .inr hkind⟩
  have hmultiply : n.kind ≠ .multiply := by rcases hkind with h | h <;> rw [h] <;> decide
  have hsubtract : n.kind ≠ .subtract := by rcases hkind with h | h <;> rw [h] <;> decide
  simp only [readMultiply, hn, hmultiply, ↓reduceIte, Option.some.injEq, Prod.mk.injEq] at hm
  obtain ⟨hm, rfl⟩ := hm
  simp only [readSubtract, hn, hsubtract, ↓reduceIte, Option.some.injEq, Prod.mk.injEq] at hs
  obtain ⟨hs, rfl⟩ := hs
  have hconvert : d.convert ≠ none := by
    intro hnone
    simp [hnone, ← hm, ← hs] at hquantized
  simp only [readConvert, hn] at hc
  split at hc
  rotate_left
  · exact absurd (Prod.mk.inj (Option.some.inj hc)).1.symm hconvert
  next destination hop =>
  split at hc
  rotate_left
  · exact absurd (Prod.mk.inj (Option.some.inj hc)).1.symm hconvert
  obtain ⟨a, ha, hdata⟩ := Option.map_eq_some_iff.mp hc
  obtain ⟨-, rfl⟩ := Prod.mk.inj hdata
  exact constant_of_converted (face?_eq_some.mpr ⟨n, hn, rfl⟩) (congrArg Op.kind hop) ha hvalue

theorem substitutes_data (ht : Traced g₀ g) (hd : ofOutput g output = some d) :
    Substitutes g₀ g output d.data where
  represents _ ho h :=
    have hdata := ofOutput_represents ht ho h hd
    ⟨hdata.1, hdata.2.1⟩
  literal := constant_data hd

end Dequantization

section Building

open LowPrecision.Graph

variable {mid : Graph α} {source : Slot} {params : AffineParams α} {slots : List Slot}

theorem Graph.Represents.of_step {data : Slot} {f : Face α} (hnew : g₀.nodes.size ≤ s.node)
    (hf : g.face? s.node = some f) (hstep : g.StepOn f data)
    (hdata : g₀.kind? data.node ≠ some .fakeQuantize) (h : Represents g₀ g o data) :
    Represents g₀ g o s := (Unfolds.step hnew hf hstep hdata h).represents

theorem Graph.Represents.extended {p : Slot → Prop} (h : Represents g₀ g o s) (ho : g₀.Fed o)
    (he : Extends g g' p) : Represents g₀ g' o s := by
  have haltered : Altered g₀ g g' :=
    (he.rerouted : Rerouted (fun _ _ => False) g g').altered fun _ _ h => h.elim
  refine haltered.represents ho h ?_
  cases h.unfold with
  | origin => exact .inl rfl
  | lowered _ hf | step _ hf =>
    refine .inr ?_
    rw [isLive_eq_face, he.face hf]
    rfl

theorem Graph.IsChainStep.real {f : Face α} (h : g.IsChainStep f)
    (hop : f.op = .convert .f32 ∨ f.op = .subtract ∨ f.op = .multiply) :
    ∀ p ∈ f.ports, p.elementType.isLowPrecision = false := by
  obtain ⟨port, hports, hstep⟩ := h
  have htype : port.elementType = .f32 := by
    rcases hstep with ⟨-, htype⟩ | ⟨-, value, hvalue⟩ | ⟨-, htype, -⟩
    · exact htype
    · rw [hvalue] at hop
      simp at hop
    · exact htype
  intro p hp
  rw [hports] at hp
  rw [List.mem_singleton.mp hp, htype]
  rfl

theorem Dequantization.Built.represents (h : Built g g' source params d)
    (hsize : g₀.nodes.size ≤ g.nodes.size) (hsource : Represents g₀ g' o source)
    (hstart : g₀.kind? source.node ≠ some .fakeQuantize) : Represents g₀ g' o d.output := by
  have hnot : ∀ id ∈ d.nodes, g₀.nodes.size ≤ id ∧ g₀.kind? id ≠ some .fakeQuantize := by
    intro id hid
    have hnew := Nat.le_trans hsize (h.steps id hid)
    refine ⟨hnew, ?_⟩
    exact kind?_ne_of_size_le hnew
  have hstands := h.stands g' fun _ _ _ => rfl
  have hreal : ∀ id ∈ d.nodes, ∀ f, g'.face? id = some f →
      f.op = .convert .f32 ∨ f.op = .subtract ∨ f.op = .multiply →
        ∀ p ∈ f.ports, p.elementType.isLowPrecision = false := fun id hid f hf =>
    (h.fresh id f (h.steps id hid) hf).real
  rw [← h.data] at hsource hstart
  -- The steps are followed from the data on; each one is new and yields floats.
  have hconverted : Represents g₀ g' o d.converted ∧
      g₀.kind? d.converted.node ≠ some .fakeQuantize := by
    rw [converted]
    cases hconvert : d.convert with
    | none => exact ⟨hsource, hstart⟩
    | some id =>
      obtain ⟨f, hf, hop, hin⟩ := hstands.convert id hconvert
      have hmem : id ∈ d.nodes := by simp [nodes, hconvert]
      refine ⟨.of_step (s := ⟨id, 0⟩) (hnot id hmem).1 hf ⟨by rw [hin]; rfl, ?_, ?_⟩ hstart hsource,
        (hnot id hmem).2⟩
      · exact hreal id hmem f hf (.inl hop)
      · exact .inl (congrArg Op.kind hop)
  have hshifted : Represents g₀ g' o d.shifted ∧
      g₀.kind? d.shifted.node ≠ some .fakeQuantize := by
    rw [shifted]
    cases hsubtract : d.subtract with
    | none => exact hconverted
    | some step =>
      obtain ⟨id, zeroPoint⟩ := step
      obtain ⟨f, b, hf, hop, hin, hvalue⟩ := hstands.subtract id zeroPoint hsubtract
      have hmem : id ∈ d.nodes := by simp [nodes, hsubtract]
      refine ⟨.of_step (s := ⟨id, 0⟩) (hnot id hmem).1 hf ⟨by rw [hin]; rfl, ?_, ?_⟩ hconverted.2
        hconverted.1, (hnot id hmem).2⟩
      · exact hreal id hmem f hf (.inr (.inl hop))
      · exact .inr ⟨b, by rw [hin]; rfl, .inl ⟨congrArg Op.kind hop, by rw [hvalue]; rfl⟩⟩
  cases hmultiply : d.multiply with
  | none =>
    have hscale := h.scale
    simp [scale?, hmultiply] at hscale
  | some step =>
    obtain ⟨id, scale⟩ := step
    obtain ⟨f, b, hf, hop, hin, hvalue⟩ := hstands.multiply id scale hmultiply
    have hmem : id ∈ d.nodes := by simp [nodes, hmultiply]
    rw [output_of_multiply hmultiply]
    refine .of_step (s := ⟨id, 0⟩) (hnot id hmem).1 hf ⟨by rw [hin]; rfl, ?_, ?_⟩ hshifted.2 hshifted.1
    · exact hreal id hmem f hf (.inr (.inr hop))
    · exact .inr ⟨b, by rw [hin]; rfl, .inr ⟨congrArg Op.kind hop, by rw [hvalue]; rfl⟩⟩

theorem Face.sealed_of_step {f : Face α} (h : g.IsChainStep f) : f.Sealed :=
  (Face.admits_sealed (rfl : ElementType.isLowPrecision .u8 = true)).step g f h

theorem Dequantization.Inserted.kind (h : Inserted g g' source slots params d mid) {k : OpKind}
    (hk : g.kind? id = some k) : g'.kind? id = some k := by
  obtain ⟨f, hf, rfl⟩ := face_of_kind hk
  rw [kind?_eq_face, h.face_old (lt_size_of_face? hf), hf]
  rfl

theorem Traced.not_isPassing (h : Traced g₀ g) {k : OpKind} (hk : g.kind? id = some k)
    (hpasses : ¬ k.Passes) : ¬ g₀.IsPassing id := by
  rintro ⟨k₀, hk₀, hpasses₀⟩
  obtain ⟨f, hf, -⟩ := face_of_kind hk₀
  cases hk₀.symm.trans (h.kind (lt_size_of_face? hf) hk)
  exact hpasses hpasses₀

theorem Traced.built (h : Traced g₀ g) (hb : Dequantization.Built g g' source params d) :
    Traced g₀ g' :=
  h.extended hb.toExtends fun v f hv hf => Face.sealed_of_step (hb.fresh v f hv hf)

section Insertion

variable {k : OpKind}

theorem Dequantization.Inserted.substitutes (hins : Inserted g g' source slots params d mid)
    (hsize : g₀.nodes.size ≤ g.nodes.size) (hk : g.kind? s.node = some k)
    (hliteral : k ≠ .constant ∧ k ≠ .convert)
    (hsub : ∀ o, g₀.Fed o → Represents g₀ mid o s →
      Represents g₀ mid o source ∧ g₀.kind? source.node ≠ some .fakeQuantize) :
    Substitutes g₀ mid s d.output where
  represents o ho hs := by
    obtain ⟨hsource, hstart⟩ := hsub o ho hs
    refine ⟨hins.built.represents hsize hsource hstart, ?_⟩
    exact kind?_ne_of_size_le (Nat.le_trans hsize hins.built.new)
  literal hvalue := absurd hvalue (not_constantValue_of_kind (hins.built.kind hk) hliteral)

theorem Traced.inserted (h : Traced g₀ g)
    (hins : Dequantization.Inserted g g' source slots params d mid)
    (hslots : ∀ r ∈ slots, g.input? r.node r.index = some s) (hk : g.kind? s.node = some k)
    (hliteral : k ≠ .constant ∧ k ≠ .convert)
    (hsub : ∀ o, g₀.Fed o → Represents g₀ mid o s →
      Represents g₀ mid o source ∧ g₀.kind? source.node ≠ some .fakeQuantize) : Traced g₀ g' :=
  (h.built hins.built).redirected hins.recast (fun r hr => hins.built.input (hslots r hr))
    (hins.substitutes h.size hk hliteral hsub)

theorem Dequantization.Inserted.keeps (hins : Inserted g g' source slots params d mid)
    (hslots : ∀ r ∈ slots, g.input? r.node r.index = some s)
    (hsub : Substitutes g₀ mid s d.output) {t : Slot} (ho : g₀.Fed o)
    (h : Represents g₀ mid o t) (hlive : mid.isLive t.node = true) : Represents g₀ g' o t := by
  have hrerouted := hins.recast.rerouted fun r hr => hins.built.input (hslots r hr)
  refine (hrerouted.altered ?_).represents ho h (.inr ?_)
  · rintro _ _ ⟨rfl, rfl⟩
    exact hsub
  · rw [isLive_eq_face] at hlive ⊢
    rwa [hins.recast.face, Option.isSome_map]

end Insertion

theorem Traced.replaced {old new : NodeId} (h : Traced g₀ g)
    (hrun : exec (replaceNode old new : Edit α GraphError Unit) g = .ok (.ok (), g'))
    (hnew : g₀.nodes.size ≤ new) (hold : ¬ g₀.IsPassing old)
    (hsub : ∀ index, Substitutes g₀ g ⟨old, index⟩ ⟨new, index⟩) : Traced g₀ g' := by
  obtain ⟨-, hrerouted, hsize, hinherits⟩ := replaceNode_rerouted h.wellFormed hrun
  refine h.rerouted hrerouted ?_ (fun v f hv hf => ?_) hinherits hold hnew
  · rintro ⟨_, index⟩ _ ⟨rfl, rfl⟩
    exact hsub index
  · rw [face?_of_size_le (hsize ▸ hv)] at hf
    cases hf

end Building

end LowPrecision
