import LowPrecision.Proofs.Rewrite.Lowering

namespace LowPrecision

open LowPrecision.Graph

namespace Convolution

inductive Weights where
  | plain (outputs inputs : Nat) (kernel : List Nat)
  | grouped (groups outputs inputs : Nat) (kernel : List Nat)

namespace Weights

def kernel : Weights → List Nat
  | plain _ _ kernel => kernel
  | grouped _ _ _ kernel => kernel

def shape : Weights → List Nat
  | plain outputs inputs kernel => outputs :: inputs :: kernel
  | grouped groups outputs inputs kernel => groups :: outputs :: inputs :: kernel

def outputs : Weights → Nat
  | plain outputs _ _ => outputs
  | grouped groups outputs _ _ => groups * outputs

def inputs : Weights → Nat
  | plain _ inputs _ => inputs
  | grouped _ _ inputs _ => inputs

def channels : Weights → Nat
  | plain _ inputs _ => inputs
  | grouped groups _ inputs _ => groups * inputs

def channel : Weights → Nat → Nat → Nat
  | plain .., _, c => c
  | grouped _ outputs inputs _, o, c => o / outputs * inputs + c

def index : Weights → Nat → Nat → Index → Index
  | plain .., o, c, t => o :: c :: t
  | grouped _ outputs _ _, o, c, t => o / outputs :: o % outputs :: c :: t

def perOutput : Weights → List Nat
  | plain outputs _ kernel => outputs :: 1 :: List.replicate kernel.length 1
  | grouped groups outputs _ kernel => groups :: outputs :: 1 :: List.replicate kernel.length 1

end Weights

/-- The sums of a convolution. At each position of the output, the taps pair the positions of the kernel
with the positions of the data that they meet. -/
def contraction (w : Weights) (batch : Nat) (positions : List Nat)
    (taps : Index → List (Index × Index)) : Contraction where
  shape := batch :: w.outputs :: positions
  terms
    | n :: o :: p => (List.range w.inputs).flatMap fun c =>
        (taps p).map fun t => (n :: w.channel o c :: t.2, w.index o c t.1)
    | _ => []

section Terms

variable {w : Weights} {batch : Nat} {data positions : List Nat} {taps : Index → List (Index × Index)}

theorem mem_terms {n o : Nat} {p : Index} {r : Index × Index} :
    r ∈ (contraction w batch positions taps).terms (n :: o :: p) ↔
      ∃ c < w.inputs, ∃ t ∈ taps p, r = (n :: w.channel o c :: t.2, w.index o c t.1) := by
  simp only [contraction, List.mem_flatMap, List.mem_range, List.mem_map, eq_comm]

theorem exists_parts {i : Index} (hi : i.Inside (contraction w batch positions taps).shape) :
    ∃ n o p, n < batch ∧ o < w.outputs ∧ Index.Inside p positions ∧ i = n :: o :: p := by
  cases hi with
  | @cons n _ _ _ hn hi =>
    cases hi with
    | @cons o _ p _ ho hp => exact ⟨n, o, p, hn, ho, hp, rfl⟩

theorem Weights.inside {o c : Nat} {t : Index} (ho : o < w.outputs) (hc : c < w.inputs)
    (ht : t.Inside w.kernel) : (w.index o c t).Inside w.shape ∧ w.channel o c < w.channels := by
  cases w with
  | plain => exact ⟨.cons ho (.cons hc ht), hc⟩
  | grouped groups outputs inputs kernel =>
    have hgroup : o / outputs < groups := Nat.div_lt_of_lt_mul (Nat.mul_comm groups outputs ▸ ho)
    have hpos : 0 < outputs := Nat.pos_of_ne_zero fun hzero => by
      rw [Weights.outputs, hzero, Nat.mul_zero] at ho
      exact Nat.not_lt_zero _ ho
    refine ⟨.cons hgroup (.cons (Nat.mod_lt _ hpos) (.cons hc ht)), ?_⟩
    calc o / outputs * inputs + c < o / outputs * inputs + inputs := Nat.add_lt_add_left hc _
      _ = (o / outputs + 1) * inputs := (Nat.succ_mul _ _).symm
      _ ≤ groups * inputs := Nat.mul_le_mul_right _ hgroup

theorem reads_contraction
    (htaps : ∀ p : Index, p.Inside positions → ∀ t ∈ taps p, t.1.Inside w.kernel ∧ t.2.Inside data) :
    (contraction w batch positions taps).Reads (batch :: w.channels :: data) w.shape := by
  intro i hi r hr
  obtain ⟨n, o, p, hn, ho, hp, rfl⟩ := exists_parts hi
  obtain ⟨c, hc, t, ht, rfl⟩ := mem_terms.mp hr
  obtain ⟨hkernel, hdata⟩ := htaps p hp t ht
  obtain ⟨hweight, hchannel⟩ := Weights.inside ho hc hkernel
  exact ⟨.cons hn (.cons hchannel hdata), hweight⟩

end Terms

section Scales

open Tensor

variable {t : Tensor Rat} {w : Weights} {count : Nat} {values : List Rat}

theorem length_channelValues (h : t.channelValues count = .ok (some values)) : values.length = count := by
  rcases channelValues_eq_ok h with ⟨v, -, rfl⟩ | ⟨hlength, rfl⟩
  · exact List.length_replicate
  · exact hlength

theorem channelValue_map {values : List Rat} (hne : values ≠ []) (f : Rat → Rat) (c : Nat) :
    channelValue (values.map f) c = f (channelValue values c) := by
  obtain ⟨first, rest, rfl⟩ := List.exists_cons_of_ne_nil hne
  rw [channelValue, channelValue, List.getD_eq_getElem?_getD, List.getD_eq_getElem?_getD,
    List.getElem?_map]
  cases (first :: rest)[c]? <;> rfl

theorem valueAt_perChannel {emitted : Tensor Rat} {shape : List Nat} {factor : Rat}
    (hvalues : t.channelValues count = .ok (some values)) (hcount : shape[1]? = some count)
    (h : perChannel (values.map (· * factor)) shape.length = .ok emitted) :
    emitted.toScalar.SpreadsOver shape ∧ ∀ i : Index, i.Inside shape →
      emitted.toScalar.valueAt i = (t.channel i.channel).getD 0 * factor := by
  have hrank : 2 ≤ shape.length := (List.getElem?_eq_some_iff.mp hcount).1
  have hlength := length_channelValues hvalues
  have hspread : emitted.toScalar.SpreadsOver shape := by
    have hemitted : emitted.SpreadsOver shape := by
      rcases perChannel_eq_ok hrank h with ⟨v, -, rfl⟩ | rfl
      · exact spreadsOver_scalar v shape
      · rw [List.length_map, hlength]
        exact broadcastShape_of_widens (widens_channelShape (.inr hcount))
    rw [toScalar]
    split
    · split
      · exact spreadsOver_scalar _ _
      · exact hemitted
    · exact hemitted
  refine ⟨hspread, fun i hi => ?_⟩
  have hchannel : i.channel < values.length := hlength.symm ▸ hi.channel_lt hcount
  have hne : values ≠ [] := List.ne_nil_of_length_pos (Nat.zero_lt_of_lt hchannel)
  rw [valueAt, spread?_perChannel (by simpa using hne) (.inr ⟨rfl, hrank⟩) h hspread hi,
    channelValue_map hne, Option.getD_some,
    Decomposition.channel_of_channelValues hvalues (getElem?_channel hchannel), Option.getD_some]

theorem place_perOutput {o : Nat} (ho : o < w.outputs) (c : Nat) (k : Index) :
    place w.perOutput (w.index o c k) = o := by
  cases w with
  | plain outputs inputs kernel =>
    simp only [Weights.perOutput, Weights.index, place, place_ones, List.prod_cons, List.prod_replicate,
      one_pow, Nat.mul_one, if_true, Nat.add_zero]
    split
    · next hone => exact (Nat.lt_one_iff.mp (hone ▸ ho : o < 1)).symm
    · rfl
  | grouped groups outputs inputs kernel =>
    change o < groups * outputs at ho
    simp only [Weights.perOutput, Weights.index, place, place_ones, List.prod_cons, List.prod_replicate,
      one_pow, Nat.mul_one, if_true, Nat.add_zero]
    have hgroup : (if groups = 1 then 0 else o / outputs * outputs) = o / outputs * outputs := by
      split
      · next hone =>
        rw [hone, Nat.one_mul] at ho
        rw [Nat.div_eq_of_lt ho, Nat.zero_mul]
      · rfl
    have houtput : (if outputs = 1 then 0 else o % outputs) = o % outputs := by
      split
      · next hone => rw [hone, Nat.mod_one]
      · rfl
    rw [hgroup, houtput, Nat.div_add_mod']

theorem valueAt_perOutput (hfilled : t.Filled) (hshape : padShape w.shape.length t.shape = w.perOutput)
    {o : Nat} (ho : o < w.outputs) (c : Nat) {k : Index} (hk : k.length = w.kernel.length) :
    t.valueAt (w.index o c k) = (t.channel o).getD 0 := by
  have hindex : (w.index o c k).length = w.shape.length := by
    cases w <;> simp [Weights.index, Weights.shape, hk, Weights.kernel]
  have hsize : t.data.length = w.outputs := by
    have hprod : t.shape.prod = w.perOutput.prod := by rw [← hshape, prod_padShape]
    refine (hfilled.trans hprod).trans ?_
    cases w <;> simp [Weights.perOutput, Weights.outputs]
  rw [valueAt, spread?, hindex, rank, ← place_append, ← padShape, hshape, place_perOutput ho, channel,
    atChannel, hsize]
  split
  · next hone => rw [Nat.lt_one_iff.mp (hone ▸ ho : o < 1)]
  · rfl

structure Planned (g : Graph Rat) (id : NodeId) (plan : Plan Rat) (a b : Dequantization Rat)
    (shape : List Nat) (count : Nat) (scales : List Rat) (factor : Rat) (emitted : Tensor Rat) :
    Prop where
  port : (g.port? ⟨id, 0⟩).bind Port.shape = some shape
  channels : shape[1]? = some count
  left : Dequantization.ofInput g id 0 = some a
  right : Dequantization.ofInput g id 1 = some b
  zeroPoints : a.hasZeroPoint = false ∧ b.hasZeroPoint = false
  uniform : a.params.scale.isUniform = true
  first : a.params.scale.data[0]? = some factor
  channelValues : b.params.scale.channelValues count = .ok (some scales)
  perChannel : perChannel (scales.map (· * factor)) shape.length = .ok emitted
  plan : plan = ⟨[a.data, b.data], emitted.toScalar⟩

theorem activations_eq_some {g : Graph Rat} {id : NodeId} {a : Dequantization Rat} {scale : Tensor Rat}
    (h : activations? g id = some (a, scale)) : Dequantization.ofInput g id 0 = some a ∧
      a.params.scale = scale ∧ a.hasZeroPoint = false ∧ scale.isUniform = true := by
  obtain ⟨chain, hchain, h⟩ := Option.bind_eq_some_iff.mp h
  obtain ⟨t, ht, h⟩ := Option.bind_eq_some_iff.mp h
  split at h
  · cases h
  · next hguard =>
    cases h
    rw [Bool.or_eq_true, not_or, Bool.not_eq_true, Bool.not_eq_true, Bool.not_eq_false'] at hguard
    exact ⟨hchain, Dequantization.scale_params ht, hguard.1, hguard.2⟩

theorem weights_eq_some {g : Graph Rat} {id : NodeId} {b : Dequantization Rat} {scale : Tensor Rat}
    (h : weights? g id = some (b, scale)) : Dequantization.ofInput g id 1 = some b ∧
      b.params.scale = scale ∧ b.hasZeroPoint = false := by
  obtain ⟨chain, hchain, h⟩ := Option.bind_eq_some_iff.mp h
  split at h
  · cases h
  · next hguard =>
    obtain ⟨t, ht, h⟩ := Option.bind_eq_some_iff.mp h
    cases h
    rw [Bool.or_eq_true, not_or, Bool.not_eq_true, Bool.not_eq_true] at hguard
    exact ⟨hchain, Dequantization.scale_params ht, hguard.2⟩

theorem planned_of_plan {g : Graph Rat} {id : NodeId} {plan : Plan Rat}
    (h : plan? g id = .ok (some plan)) : ∃ a b shape count scales factor emitted,
      Planned g id plan a b shape count scales factor emitted := by
  rw [plan?] at h
  split at h
  · next shape count a dataScale b weightScale hshape hcount hdata hweights =>
    obtain ⟨ha, rfl, hzero, huniform⟩ := activations_eq_some hdata
    obtain ⟨hb, rfl, hzero'⟩ := weights_eq_some hweights
    obtain ⟨values, hvalues, h⟩ := except_bind_eq_ok.mp h
    split at h
    · cases h
    · next scales =>
      obtain ⟨factor, hfactor, h⟩ := except_bind_eq_ok.mp h
      obtain ⟨emitted, hemitted, h⟩ := except_bind_eq_ok.mp h
      cases h
      rw [hshape, Option.bind_some] at hcount
      exact ⟨a, b, shape, count, scales, factor, emitted, hshape, hcount, ha, hb, ⟨hzero, hzero'⟩, huniform,
        get_eq_ok.mp hfactor, hvalues, hemitted, rfl⟩
  · cases h

end Scales

section Preservation

variable {w : Weights} {batch : Nat} {data positions : List Nat} {taps : Index → List (Index × Index)}

/-- All weights that an element of the output is computed from have the scale of its channel. A scale
of 0 of the data leaves no difference. -/
def ScalesOutputs (c : Contraction) (a b : Tensor Rat) : Prop :=
  ∀ i : Index, i.Inside c.shape → ∀ p ∈ c.terms i,
    a.valueAt p.1 * b.valueAt p.2 = a.valueAt p.1 * (b.channel i.channel).getD 0

def TellsOutputs (w : Weights) (b : Tensor Rat) : Prop :=
  b.isUniform = true ∨ padShape w.shape.length b.shape = w.perOutput

variable {g : Graph Rat} {id : NodeId} {plan : Plan Rat} {a b : Dequantization Rat} {shape : List Nat}
  {count : Nat} {scales : List Rat} {factor : Rat} {emitted : Tensor Rat}

theorem Planned.preserves_iff (h : Planned g id plan a b shape count scales factor emitted)
    (hfilled : a.params.scale.Filled) (hshape : shape = (contraction w batch positions taps).shape)
    (hleft : a.params.SpreadsOver (batch :: w.channels :: data)) (hright : b.params.SpreadsOver w.shape)
    (hreads : (contraction w batch positions taps).Reads (batch :: w.channels :: data) w.shape) :
    plan.scale.SpreadsOver shape ∧
      (Kernel.Preserves (contraction w batch positions taps).kernel a.params b.params plan.scale
          (batch :: w.channels :: data) w.shape ↔
        ScalesOutputs (contraction w batch positions taps) a.params.scale b.params.scale) := by
  obtain ⟨hspread, hvalue⟩ := valueAt_perChannel h.channelValues h.channels h.perChannel
  have hscale : plan.scale = emitted.toScalar := congrArg Plan.scale h.plan
  rw [Contraction.preserves_iff h.zeroPoints.1 h.zeroPoints.2 hleft hright hreads, hscale, ← hshape]
  refine ⟨hspread, (and_iff_right hspread).trans (forall₄_congr fun i hi p hp => ?_)⟩
  obtain ⟨x, hx, hmem⟩ := Tensor.exists_spread? hfilled hleft.1 (hreads i hi p hp).1
  have hfactor : a.params.scale.valueAt p.1 = factor := by
    rw [Tensor.valueAt, hx, Option.getD_some]
    exact Tensor.eq_of_isUniform h.uniform hmem (List.mem_of_getElem? h.first)
  rw [hvalue i (hshape ▸ hi), hfactor, mul_comm ((Tensor.channel _ _).getD 0)]

theorem Planned.scalesOutputs (h : Planned g id plan a b shape count scales factor emitted)
    (hfilled : b.params.scale.Filled) (hshape : shape = (contraction w batch positions taps).shape)
    (hright : b.params.SpreadsOver w.shape)
    (hreads : (contraction w batch positions taps).Reads (batch :: w.channels :: data) w.shape)
    (hlayout : TellsOutputs w b.params.scale) :
    ScalesOutputs (contraction w batch positions taps) a.params.scale b.params.scale := by
  intro i hi r hr
  have hin := (hreads i hi r hr).2
  obtain ⟨n, o, p, hn, ho, hp, rfl⟩ := exists_parts hi
  obtain ⟨c, hc, t, ht, rfl⟩ := mem_terms.mp hr
  refine congrArg (a.params.scale.valueAt _ * ·) ?_
  change b.params.scale.valueAt (w.index o c t.1) = (b.params.scale.channel o).getD 0
  rcases hlayout with huniform | hper
  · have hcount := h.channels
    rw [hshape] at hcount
    obtain rfl : w.outputs = count := Option.some.inj hcount
    have hchannel := Decomposition.channel_of_channelValues h.channelValues
      (getElem?_channel ((length_channelValues h.channelValues).symm ▸ ho))
    obtain ⟨x, hx, hmem⟩ := Tensor.exists_spread? hfilled hright.1 hin
    rw [Tensor.valueAt, hx, hchannel, Option.getD_some, Option.getD_some]
    exact Tensor.eq_of_isUniform huniform hmem (List.mem_of_getElem? hchannel)
  · refine valueAt_perOutput hfilled hper ho c ?_
    have hlength := hin.length_eq
    cases w <;> simpa [Weights.index, Weights.shape, Weights.kernel] using hlength

end Preservation

end Convolution

namespace Rule

variable {s : Session Rat} {id : NodeId} {m : NodeMatch}

/-- A convolution of dequantized data and weights is kept exactly when all weights behind an element of
the output have the scale of its channel. The check compares the number of the scales with that of the
channels, which sees to this where the layout of the scales tells the channels of the output from those
of the data. Where the convolution is kept, so is all that is read. -/
theorem convolution_preserved_iff {n : Node Rat} {a b : Dequantization Rat} {w : Convolution.Weights}
    {batch : Nat} {data positions : List Nat} {taps : Index → List (Index × Index)} (hg : s.graph.Regular)
    (hfilled : s.graph.Filled) (hm : convolution.pattern.matchAt s.graph id = some m)
    (hcan : convolution.canApply s.context s.graph m = .ok true) (hn : s.graph.node? id = some n)
    (ha : Dequantization.ofInput s.graph id 0 = some a)
    (hb : Dequantization.ofInput s.graph id 1 = some b)
    (hport : (s.graph.port? ⟨id, 0⟩).bind Port.shape = some (batch :: w.outputs :: positions))
    (hleft : a.params.SpreadsOver (batch :: w.channels :: data)) (hright : b.params.SpreadsOver w.shape)
    (htaps : ∀ p : Index, p.Inside positions → ∀ t ∈ taps p, t.1.Inside w.kernel ∧ t.2.Inside data) :
    ∃ plan s', Convolution.plan? s.graph id = .ok (some plan) ∧
      exec (convolution.apply m) s = .ok (.ok true, s') ∧
      exec (lowerKernel id plan.operands plan.scale) s.graph = .ok (.ok (), s'.graph) ∧
      plan.operands = [a.data, b.data] ∧ s'.graph.Regular ∧
      plan.scale.SpreadsOver (batch :: w.outputs :: positions) ∧
      (Kernel.Preserves (Convolution.contraction w batch positions taps).kernel a.params b.params plan.scale
          (batch :: w.channels :: data) w.shape ↔
        Convolution.ScalesOutputs (Convolution.contraction w batch positions taps) a.params.scale
          b.params.scale) ∧
      (Convolution.TellsOutputs w b.params.scale →
        Kernel.Preserves (Convolution.contraction w batch positions taps).kernel a.params b.params plan.scale
          (batch :: w.channels :: data) w.shape) ∧
      (Kernel.Preserves (Convolution.contraction w batch positions taps).kernel a.params b.params plan.scale
          (batch :: w.channels :: data) w.shape →
        ∀ I v v', Kernel.Observed I s.graph s'.graph v v' id n.op
            (Convolution.contraction w batch positions taps).kernel a.data b.data
            (batch :: w.channels :: data) w.shape →
          KeepsReads s.graph s'.graph v v' id) := by
  obtain ⟨plan, s', hplan, hrun, hlower⟩ := lowers_convolution hg hm hcan
  obtain ⟨a', b', shape, count, scales, factor, emitted, hplanned⟩ := Convolution.planned_of_plan hplan
  cases ha.symm.trans hplanned.left
  cases hb.symm.trans hplanned.right
  obtain rfl : batch :: w.outputs :: positions = shape := Option.some.inj (hport.symm.trans hplanned.port)
  obtain ⟨output, -, hda⟩ := Option.bind_eq_some_iff.mp ha
  obtain ⟨output', -, hdb⟩ := Option.bind_eq_some_iff.mp hb
  have hreads : (Convolution.contraction w batch positions taps).Reads (batch :: w.channels :: data) w.shape :=
    Convolution.reads_contraction htaps
  have hoperands : plan.operands = [a.data, b.data] := congrArg Convolution.Plan.operands hplanned.plan
  have hkind : n.kind = .matMul ∨ n.kind = .convolution ∨ n.kind = .groupConvolution := by
    obtain ⟨n', hn', hkind, -⟩ := Pattern.matchAt_eq_some hm
    cases hn.symm.trans hn'
    simpa [pattern] using Or.inr hkind
  obtain ⟨hregular, hkept⟩ := Kernel.keepsReads_of_lowerKernel hg hn hkind ha hb hleft hright hoperands hlower
  obtain ⟨hspread, hiff⟩ := hplanned.preserves_iff (Dequantization.filled_params hfilled hda).1 rfl hleft
    hright hreads
  refine ⟨plan, s', hplan, hrun, hlower, hoperands, hregular, hspread, hiff, fun hlayout => ?_, hkept⟩
  exact hiff.mpr (hplanned.scalesOutputs (Dequantization.filled_params hfilled hdb).1 rfl hright hreads
    hlayout)

section Sample

def pointConvolution (weightScale : Tensor Rat) : Graph Rat :=
  scaledOperands [1, 2, 1, 1] (.scalar (1 / 2)) ⟨[2, 2, 1, 1], [1, 2, 3, 4]⟩ weightScale .convolution
    [1, 2, 1, 1]

theorem isPointConvolution {layout : List Nat} (h : layout ∈ [[2, 1, 1, 1], [1, 2, 1, 1]]) :
    IsScaledOperands (pointConvolution ⟨layout, [1, 2]⟩) convolution (.scalar (1 / 2))
      ⟨[2, 2, 1, 1], [1, 2, 3, 4]⟩ ⟨layout, [1, 2]⟩ .convolution [1, 2, 1, 1] where
  regular := scaledOperands_regular
  filled := scaledOperands_filled (by simp) rfl rfl (by change 2 = layout.prod; revert layout; decide)
  input := by revert layout; decide +kernel
  weights := by revert layout; decide +kernel
  kernel := by revert layout; decide +kernel
  left := by revert layout; decide +kernel
  right := by revert layout; decide +kernel
  found := by revert layout; decide +kernel
  accepted := by revert layout; decide +kernel

def pointWeights : Convolution.Weights := .plain 2 2 [1, 1]

def pointTaps (p : Index) : List (Index × Index) := [([0, 0], p)]

theorem inside_pointTaps (p : Index) (hp : p.Inside [1, 1]) :
    ∀ t ∈ pointTaps p, t.1.Inside pointWeights.kernel ∧ t.2.Inside [1, 1] := by
  intro t ht
  obtain rfl := List.mem_singleton.mp ht
  exact ⟨.cons Nat.one_pos (.cons Nat.one_pos .nil), hp⟩

theorem convolution_preserved_of_outputs :
    ∃ s : Session Rat, ∃ m n a b, ∃ w : Convolution.Weights, ∃ batch data positions,
      ∃ taps : Index → List (Index × Index), s.graph.Regular ∧ s.graph.Filled ∧
      convolution.pattern.matchAt s.graph 8 = some m ∧
      convolution.canApply s.context s.graph m = .ok true ∧ s.graph.node? 8 = some n ∧
      Dequantization.ofInput s.graph 8 0 = some a ∧ Dequantization.ofInput s.graph 8 1 = some b ∧
      (s.graph.port? ⟨8, 0⟩).bind Port.shape = some (batch :: w.outputs :: positions) ∧
      a.params.SpreadsOver (batch :: w.channels :: data) ∧ b.params.SpreadsOver w.shape ∧
      (∀ p : Index, p.Inside positions → ∀ t ∈ taps p, t.1.Inside w.kernel ∧ t.2.Inside data) ∧
      Convolution.TellsOutputs w b.params.scale ∧
      ∃ plan s', Convolution.plan? s.graph 8 = .ok (some plan) ∧
        exec (convolution.apply m) s = .ok (.ok true, s') ∧
        exec (lowerKernel 8 plan.operands plan.scale) s.graph = .ok (.ok (), s'.graph) ∧
        Kernel.Preserves (Convolution.contraction w batch positions taps).kernel a.params b.params plan.scale
          (batch :: w.channels :: data) w.shape ∧
        ∃ I v v', Kernel.Observed I s.graph s'.graph v v' 8 n.op
          (Convolution.contraction w batch positions taps).kernel a.data b.data
          (batch :: w.channels :: data) w.shape ∧ KeepsReads s.graph s'.graph v v' 8 := by
  generalize hdef : pointConvolution ⟨[2, 1, 1, 1], [1, 2]⟩ = g
  have h : IsScaledOperands g convolution (.scalar (1 / 2)) ⟨[2, 2, 1, 1], [1, 2, 3, 4]⟩
      ⟨[2, 1, 1, 1], [1, 2]⟩ .convolution [1, 2, 1, 1] := hdef ▸ isPointConvolution (by simp)
  have hleft : AffineParams.SpreadsOver ⟨.scalar (1 / 2), none⟩ (1 :: pointWeights.channels :: [1, 1]) :=
    ⟨rfl, by simp⟩
  have hright : AffineParams.SpreadsOver ⟨⟨[2, 1, 1, 1], [1, 2]⟩, none⟩ pointWeights.shape :=
    ⟨rfl, by simp⟩
  have hlayout : Convolution.TellsOutputs pointWeights ⟨[2, 1, 1, 1], [1, 2]⟩ := .inr rfl
  obtain ⟨plan, s', hplan, hrun, hlower, -, hregular, -, -, hpreserves, hreads⟩ := convolution_preserved_iff
    (s := ⟨g, .start .default⟩) h.regular h.filled h.found h.accepted h.kernel h.left h.right h.port hleft
    hright inside_pointTaps
  let input : Values := .of [1, 2, 1, 1] fun _ => 1
  let kernel := (Convolution.contraction pointWeights 1 [1, 1] pointTaps).kernel
  have hop : ∀ x y xs, (Interpretation.ofKernel input kernel).run 8 .convolution (some x :: some y :: xs) 0 =
      kernel x y := fun _ _ _ => rfl
  obtain ⟨I, v, v', hobserved⟩ := h.exists_observed hregular input hop
  exact ⟨⟨g, .start .default⟩, _, _, _, _, pointWeights, 1, [1, 1], [1, 1], pointTaps, h.regular, h.filled,
    h.found, h.accepted, h.kernel, h.left, h.right, h.port, hleft, hright, inside_pointTaps, hlayout, plan,
    s', hplan, hrun, hlower, hpreserves hlayout, I, v, v', hobserved,
    hreads (hpreserves hlayout) I v v' hobserved⟩

theorem scales_of_inputs_cross_channels :
    ∃ s : Session Rat, ∃ m a b, ∃ w : Convolution.Weights, ∃ batch data positions,
      ∃ taps : Index → List (Index × Index), s.graph.Regular ∧ s.graph.Filled ∧
      convolution.pattern.matchAt s.graph 8 = some m ∧
      convolution.canApply s.context s.graph m = .ok true ∧ Dequantization.ofInput s.graph 8 0 = some a ∧
      Dequantization.ofInput s.graph 8 1 = some b ∧
      (s.graph.port? ⟨8, 0⟩).bind Port.shape = some (batch :: w.outputs :: positions) ∧
      a.params.SpreadsOver (batch :: w.channels :: data) ∧ b.params.SpreadsOver w.shape ∧
      (∀ p : Index, p.Inside positions → ∀ t ∈ taps p, t.1.Inside w.kernel ∧ t.2.Inside data) ∧
      ∃ plan s', Convolution.plan? s.graph 8 = .ok (some plan) ∧
        exec (convolution.apply m) s = .ok (.ok true, s') ∧
        exec (lowerKernel 8 plan.operands plan.scale) s.graph = .ok (.ok (), s'.graph) ∧
        ¬ Kernel.Preserves (Convolution.contraction w batch positions taps).kernel a.params b.params
          plan.scale (batch :: w.channels :: data) w.shape := by
  generalize hdef : pointConvolution ⟨[1, 2, 1, 1], [1, 2]⟩ = g
  have h : IsScaledOperands g convolution (.scalar (1 / 2)) ⟨[2, 2, 1, 1], [1, 2, 3, 4]⟩
      ⟨[1, 2, 1, 1], [1, 2]⟩ .convolution [1, 2, 1, 1] := hdef ▸ isPointConvolution (by simp)
  have hleft : AffineParams.SpreadsOver ⟨.scalar (1 / 2), none⟩ (1 :: pointWeights.channels :: [1, 1]) :=
    ⟨rfl, by simp⟩
  have hright : AffineParams.SpreadsOver ⟨⟨[1, 2, 1, 1], [1, 2]⟩, none⟩ pointWeights.shape :=
    ⟨rfl, by simp⟩
  obtain ⟨plan, s', hplan, hrun, hlower⟩ := lowers_convolution (s := ⟨g, .start .default⟩) h.regular h.found
    h.accepted
  refine ⟨⟨g, .start .default⟩, _, _, _, pointWeights, 1, [1, 1], [1, 1], pointTaps, h.regular, h.filled,
    h.found, h.accepted, h.left, h.right, h.port, hleft, hright, inside_pointTaps, plan, s', hplan, hrun,
    hlower, fun hpreserves => ?_⟩
  obtain ⟨a, b, shape, count, scales, factor, emitted, hplanned⟩ := Convolution.planned_of_plan hplan
  cases h.left.symm.trans hplanned.left
  cases h.right.symm.trans hplanned.right
  obtain rfl : [1, 2, 1, 1] = shape := Option.some.inj (h.port.symm.trans hplanned.port)
  have hreads : (Convolution.contraction pointWeights 1 [1, 1] pointTaps).Reads
      (1 :: pointWeights.channels :: [1, 1]) pointWeights.shape :=
    Convolution.reads_contraction inside_pointTaps
  obtain ⟨-, hiff⟩ := hplanned.preserves_iff rfl rfl hleft hright hreads
  have hscales := hiff.mp hpreserves [0, 0, 0, 0]
    (.cons Nat.one_pos (.cons Nat.two_pos (.cons Nat.one_pos (.cons Nat.one_pos .nil))))
    ([0, 1, 0, 0], [0, 1, 0, 0]) (by decide +kernel)
  revert hscales
  decide +kernel

end Sample

end Rule

end LowPrecision
