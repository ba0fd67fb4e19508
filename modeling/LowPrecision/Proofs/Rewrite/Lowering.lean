import LowPrecision.Proofs.Quantization.Contractions
import LowPrecision.Proofs.Rewrite.Applications
import LowPrecision.Proofs.Rewrite.LoweredValues
import LowPrecision.Proofs.Rewrite.Readiness

namespace LowPrecision

open LowPrecision.Graph

theorem Dequantization.scale_params {d : Dequantization Rat} {scale : Tensor Rat} (h : d.scale? = some scale) :
    d.params.scale = scale := by
  rw [Dequantization.params, h, Option.getD_some]

theorem Dequantization.dequantize_eq_scaled {d : Dequantization Rat} (h : d.hasZeroPoint = false)
    {x : Values} (hspread : d.params.SpreadsOver x.shape) :
    d.params.dequantize x = some (x.scaled d.params.scale.valueAt) := by
  rw [AffineParams.dequantize_of_spreadsOver hspread]
  refine congrArg some (Values.of_congr fun i _ => ?_)
  rw [AffineParams.valueAt, d.zeroAt_eq_zero h, sub_zero]

namespace Kernel

/-- What is computed from the dequantized operands is computed from the operands and then scaled. -/
def Preserves (kernel : Values → Values → Option Values) (a b : AffineParams Rat) (scale : Tensor Rat)
    (left right : List Nat) : Prop :=
  ∀ x y : Values, x.shape = left → y.shape = right →
    (kernel x y).bind (⟨scale, none⟩ : AffineParams Rat).dequantize =
      (a.dequantize x).bind fun x => (b.dequantize y).bind fun y => kernel x y

structure Observed (I : Interpretation) (g g' : Graph Rat) (v v' : Slot → Option Values) (id : NodeId)
    (op : Op Rat) (kernel : Values → Values → Option Values) (a b : Slot) (left right : List Nat) :
    Prop where
  before : I.Evaluates g v
  after : I.Evaluates g' v'
  computes (u : NodeId) : u = id ∨ u = g.nodes.size → ∀ (x y : Values) (xs : List (Option Values)),
    x.shape = left → y.shape = right → I.run u op (some x :: some y :: xs) 0 = kernel x y
  left : ∃ x, v a = some x ∧ x.shape = left
  right : ∃ y, v b = some y ∧ y.shape = right

variable {I : Interpretation} {g g' : Graph Rat} {v : Slot → Option Values} {id : NodeId} {n : Node Rat}
  {kernel : Values → Values → Option Values} {a b : Dequantization Rat} {scale : Tensor Rat}
  {left right : List Nat}

theorem value_of_chains (hv : I.Evaluates g v) (hg : g.Regular) (hn : g.node? id = some n)
    (ha : Dequantization.ofInput g id 0 = some a) (hb : Dequantization.ofInput g id 1 = some b) :
    ∃ others, v ⟨id, 0⟩ = I.run id n.op
      ((v a.data).bind a.params.dequantize :: (v b.data).bind b.params.dequantize :: others) 0 := by
  obtain ⟨hi, hvalue⟩ := hv.ofInput hg ha
  obtain ⟨hi', hvalue'⟩ := hv.ofInput hg hb
  rw [input?, hn, Option.bind_some] at hi hi'
  obtain ⟨rest, hin⟩ := exists_cons_of_pair hi hi'
  refine ⟨rest.map v, ?_⟩
  rw [hv.eq_run (s := ⟨id, 0⟩) (face?_eq_some.mpr ⟨n, hn, rfl⟩), Node.face, hin, List.map_cons, List.map_cons,
    hvalue, hvalue']

theorem exists_lowered (hg : g.Regular) (hn : g.node? id = some n)
    (hkind : n.kind = .matMul ∨ n.kind = .convolution ∨ n.kind = .groupConvolution)
    (ha : Dequantization.ofInput g id 0 = some a) (hb : Dequantization.ofInput g id 1 = some b)
    (hrun : exec (lowerKernel id [a.data, b.data] scale) g = .ok (.ok (), g')) :
    ∃ rank d, Lowered g g' rank id n.op [a.data, b.data] scale d ∧
      Reread g g' rank id (fun _ => d.output) 1 ∧
      ∀ s ∈ [a.data, b.data], rank s.node < rank id ∧ (g.port? s).isSome := by
  obtain ⟨rank, hr⟩ := hg.acyclic
  obtain ⟨hone, hinterface, hquantizer⟩ :
      n.kind.HasOneOutput ∧ ¬ n.kind.IsInterface ∧ n.kind ≠ .fakeQuantize := by
    rcases hkind with h | h | h <;> rw [h] <;> decide
  have hlength := hg.length_outputs hn hone
  have hbelow := data_below hr ha hb
  obtain ⟨d, h⟩ := lowered_of_lowerKernel hg hr hn hlength hinterface hquantizer hbelow hrun
  exact ⟨rank, d, h, h.reread hg hr hn hlength, hbelow⟩

theorem keepsReads_of_lowerKernel {operands : List Slot} (hg : g.Regular) (hn : g.node? id = some n)
    (hkind : n.kind = .matMul ∨ n.kind = .convolution ∨ n.kind = .groupConvolution)
    (ha : Dequantization.ofInput g id 0 = some a) (hb : Dequantization.ofInput g id 1 = some b)
    (hleft : a.params.SpreadsOver left) (hright : b.params.SpreadsOver right)
    (hoperands : operands = [a.data, b.data])
    (hrun : exec (lowerKernel id operands scale) g = .ok (.ok (), g')) :
    g'.Regular ∧ (Preserves kernel a.params b.params scale left right → ∀ I v v',
      Observed I g g' v v' id n.op kernel a.data b.data left right → KeepsReads g g' v v' id) := by
  subst hoperands
  obtain ⟨rank, d, hlowered, hreread, hbelow⟩ := exists_lowered hg hn hkind ha hb hrun
  refine ⟨hlowered.regular, fun hpreserves I v v' h => hlowered.keepsReads hreread h.before h.after ?_⟩
  obtain ⟨others, hold⟩ := value_of_chains h.before hg hn ha hb
  obtain ⟨x, hx, rfl⟩ := h.left
  obtain ⟨y, hy, rfl⟩ := h.right
  rw [hlowered.value_end hreread hbelow h.before h.after, hold, List.map_cons, List.map_cons, hx, hy,
    h.computes _ (.inr rfl) _ _ _ rfl rfl, hpreserves x y rfl rfl, Option.bind_some, Option.bind_some,
    AffineParams.dequantize_of_spreadsOver hleft, AffineParams.dequantize_of_spreadsOver hright]
  exact (h.computes id (.inl rfl) (.of x.shape _) (.of y.shape _) others rfl rfl).symm

end Kernel

namespace Contraction

variable {c : Contraction} {left right : List Nat}

def kernel (c : Contraction) (x y : Values) : Option Values := some (c.apply x y)

theorem preserves_iff {a b : Dequantization Rat} (ha : a.hasZeroPoint = false) (hb : b.hasZeroPoint = false)
    (hleft : a.params.SpreadsOver left) (hright : b.params.SpreadsOver right) (hreads : c.Reads left right)
    (scale : Tensor Rat) : Kernel.Preserves c.kernel a.params b.params scale left right ↔
      scale.SpreadsOver c.shape ∧
        c.Factors a.params.scale.valueAt b.params.scale.valueAt scale.valueAt := by
  rw [← apply_zip_iff hreads]
  refine forall₄_congr fun x y hx hy => ?_
  rw [Dequantization.dequantize_eq_scaled ha (hx ▸ hleft),
    Dequantization.dequantize_eq_scaled hb (hy ▸ hright)]
  exact Iff.rfl

end Contraction

section Sample

def Interpretation.ofKernel (input : Values) (kernel : Values → Values → Option Values) :
    Interpretation :=
  .extend fun op xs =>
    match op, xs with
    | .parameter, _ => some input
    | _, x :: y :: _ => x.bind fun x => y.bind fun y => kernel x y
    | _, _ => none

def scaledOperands (shape : List Nat) (scale weights weightScale : Tensor Rat) (op : Op Rat)
    (out : List Nat) : Graph Rat :=
  assemble [("x", .parameter, [], [⟨.u8, some shape⟩]),
    ("real", .convert .f32, [⟨0, 0⟩], [⟨.f32, some shape⟩]),
    ("scale", .constant scale, [], [⟨.f32, some scale.shape⟩]),
    ("scaled", .multiply, [⟨1, 0⟩, ⟨2, 0⟩], [⟨.f32, some shape⟩]),
    ("weights", .constant weights, [], [⟨.i8, some weights.shape⟩]),
    ("weights_real", .convert .f32, [⟨4, 0⟩], [⟨.f32, some weights.shape⟩]),
    ("weights_scale", .constant weightScale, [], [⟨.f32, some weightScale.shape⟩]),
    ("weights_scaled", .multiply, [⟨5, 0⟩, ⟨6, 0⟩], [⟨.f32, some weights.shape⟩]),
    ("kernel", op, [⟨3, 0⟩, ⟨7, 0⟩], [⟨.f32, some out⟩]),
    ("y", .result, [⟨8, 0⟩], [])]

variable {shape out : List Nat} {scale weights weightScale : Tensor Rat} {op : Op Rat}

theorem scaledOperands_regular : (scaledOperands shape scale weights weightScale op out).Regular :=
  assemble_regular (by simp [Op.kind, OpKind.HasOneOutput])

theorem scaledOperands_filled (hop : ∀ t, op ≠ .constant t) (hscale : scale.Filled)
    (hweights : weights.Filled) (hweightScale : weightScale.Filled) :
    (scaledOperands shape scale weights weightScale op out).Filled :=
  filled_of_listed (by simp [hop, hscale, hweights, hweightScale])

structure IsScaledOperands (g : Graph Rat) (rule : Rule) (scale weights weightScale : Tensor Rat)
    (op : Op Rat) (out : List Nat) : Prop where
  regular : g.Regular
  filled : g.Filled
  input : (g.node? 0).map Node.op = some .parameter
  weights : (g.node? 4).map Node.op = some (.constant weights)
  kernel : g.node? 8 = some ⟨"kernel", op, [⟨3, 0⟩, ⟨7, 0⟩], [⟨⟨.f32, some out⟩, [⟨9, 0⟩]⟩], none⟩
  left : Dequantization.ofInput g 8 0 = some ⟨⟨0, 0⟩, some 1, none, some (3, scale)⟩
  right : Dequantization.ofInput g 8 1 = some ⟨⟨4, 0⟩, some 5, none, some (7, weightScale)⟩
  found : rule.pattern.matchAt g 8 = some ⟨8, op.kind, [3, 7], [9]⟩
  accepted : rule.canApply (.start .default) g ⟨8, op.kind, [3, 7], [9]⟩ = .ok true

namespace IsScaledOperands

variable {g g' : Graph Rat} {rule : Rule}

theorem port (h : IsScaledOperands g rule scale weights weightScale op out) :
    (g.port? ⟨8, 0⟩).bind Port.shape = some out := by
  rw [port?_eq, wire?, h.kernel]
  rfl

theorem exists_observed (h : IsScaledOperands g rule scale weights weightScale op out)
    (hg' : g'.Regular) (input : Values) {kernel : Values → Values → Option Values}
    (hop : ∀ x y xs, (Interpretation.ofKernel input kernel).run 8 op (some x :: some y :: xs) 0 = kernel x y) :
    ∃ I v v', Kernel.Observed I g g' v v' 8 op kernel ⟨0, 0⟩ ⟨4, 0⟩ input.shape weights.shape := by
  obtain ⟨rank, hr⟩ := h.regular.acyclic
  obtain ⟨rank', hr'⟩ := hg'.acyclic
  obtain ⟨v, hv⟩ := (Interpretation.ofKernel input kernel).exists_evaluates hr
  obtain ⟨v', hv'⟩ := (Interpretation.ofKernel input kernel).exists_evaluates hr'
  obtain ⟨n, hn, hnop⟩ := Option.map_eq_some_iff.mp h.input
  obtain ⟨n', hn', hnop'⟩ := Option.map_eq_some_iff.mp h.weights
  refine ⟨_, v, v', hv, hv', fun _ _ x y xs _ _ => hop x y xs, ⟨input, ?_, rfl⟩, ⟨weights.values, ?_, rfl⟩⟩
  · rw [hv.eq_run (s := ⟨0, 0⟩) (face?_eq_some.mpr ⟨n, hn, rfl⟩), Node.face, hnop]
    rfl
  · rw [hv.eq_run (s := ⟨4, 0⟩) (face?_eq_some.mpr ⟨n', hn', rfl⟩), Node.face, hnop']
    rfl

end IsScaledOperands

end Sample

end LowPrecision
