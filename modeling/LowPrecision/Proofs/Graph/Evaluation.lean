import LowPrecision.Proofs.Graph.Regular
import LowPrecision.Proofs.Quantization.Values
import LowPrecision.Proofs.Rewrite.Steps

/-!
The values that a graph computes. Operations are interpreted node by node, and only the steps of a
dequantization are told what to do. An acyclic graph has one evaluation.
-/

namespace LowPrecision

abbrev Run := NodeId → Op Rat → List (Option Values) → Nat → Option Values

namespace Graph

section Evaluation

variable {run : Run} {g : Graph Rat} {v w : Slot → Option Values} {s : Slot} {rank : NodeId → Nat}

def compute (run : Run) (g : Graph Rat) (v : Slot → Option Values) (s : Slot) : Option Values :=
  (g.node? s.node).bind fun n => run s.node n.op (n.inputs.map v) s.index

def Evaluates (run : Run) (g : Graph Rat) (v : Slot → Option Values) : Prop :=
  ∀ s, v s = g.compute run v s

theorem compute_eq_face (run : Run) (g : Graph Rat) (v : Slot → Option Values) (s : Slot) :
    g.compute run v s = (g.face? s.node).bind fun f => run s.node f.op (f.inputs.map v) s.index := by
  rw [compute, face?, Option.bind_map]
  rfl

theorem Evaluates.eq_run (h : g.Evaluates run v) {f : Face Rat} (hf : g.face? s.node = some f) :
    v s = run s.node f.op (f.inputs.map v) s.index := by
  rw [h s, compute_eq_face, hf, Option.bind_some]

theorem compute_congr (hr : g.Ranked rank) (h : ∀ t : Slot, rank t.node < rank s.node → v t = w t) :
    g.compute run v s = g.compute run w s := by
  rw [compute_eq_face, compute_eq_face]
  refine Option.bind_congr fun f hf => ?_
  rw [List.map_congr_left fun t ht => h t (ranked_iff_face.mp hr _ f hf t ht)]

theorem Evaluates.unique (hr : g.Ranked rank) (h : g.Evaluates run v) (h' : g.Evaluates run w) :
    v = w := by
  have hall : ∀ n, ∀ s : Slot, rank s.node = n → v s = w s := by
    intro n
    induction n using Nat.strongRecOn with
    | _ n ih =>
      rintro s rfl
      rw [h s, h' s, compute_congr hr fun t ht => ih _ ht t rfl]
  exact funext fun s => hall _ s rfl

def within (run : Run) (g : Graph Rat) : Nat → Slot → Option Values
  | 0, _ => none
  | n + 1, s => g.compute run (g.within run n) s

theorem within_stable (hr : g.Ranked rank) {m n : Nat} (hm : rank s.node < m) (hn : rank s.node < n) :
    g.within run m s = g.within run n s := by
  induction m generalizing n s with
  | zero => exact absurd hm (Nat.not_lt_zero _)
  | succ m ih =>
    cases n with
    | zero => exact absurd hn (Nat.not_lt_zero _)
    | succ n => exact compute_congr hr fun t ht => ih (by omega) (by omega)

theorem exists_evaluates (run : Run) (hr : g.Ranked rank) : ∃ v, g.Evaluates run v := by
  refine ⟨fun s => g.within run (rank s.node + 1) s, fun s => ?_⟩
  exact compute_congr hr fun t ht => within_stable hr ht (Nat.lt_succ_self _)

theorem index_eq_zero (hg : g.Regular) {f : Face Rat} (hf : g.face? s.node = some f)
    (hkind : f.kind.HasOneOutput) (hs : (g.port? s).isSome) : s.index = 0 := by
  obtain ⟨p, hp⟩ := Option.isSome_iff_exists.mp hs
  rw [port?_eq_face, hf, Option.bind_some] at hp
  have hlt := (List.getElem?_eq_some_iff.mp hp).1
  rw [hg.outputs s.node f hf hkind] at hlt
  exact Nat.lt_one_iff.mp hlt

end Evaluation

end Graph

/-- What each node computes from the values at its inputs, where there are any. Conversions read as
the identity. -/
structure Interpretation where
  run : NodeId → Op Rat → List (Option Values) → Nat → Option Values
  constant (id : NodeId) (t : Tensor Rat) (xs : List (Option Values)) :
    run id (.constant t) xs 0 = some t.values
  convert (id : NodeId) (type : ElementType) (x : Option Values) (xs : List (Option Values)) :
    run id (.convert type) (x :: xs) 0 = x
  subtract (id : NodeId) (x y : Option Values) (xs : List (Option Values)) :
    run id .subtract (x :: y :: xs) 0 = x.bind fun x => y.bind fun y => x.zip (· - ·) y
  multiply (id : NodeId) (x y : Option Values) (xs : List (Option Values)) :
    run id .multiply (x :: y :: xs) 0 = x.bind fun x => y.bind fun y => x.zip (· * ·) y

def Interpretation.extend (others : Op Rat → List (Option Values) → Option Values) : Interpretation where
  run _ op xs _ :=
    match op, xs with
    | .constant t, _ => some t.values
    | .convert _, x :: _ => x
    | .subtract, x :: y :: _ => x.bind fun x => y.bind fun y => x.zip (· - ·) y
    | .multiply, x :: y :: _ => x.bind fun x => y.bind fun y => x.zip (· * ·) y
    | op, xs => others op xs
  constant _ _ _ := rfl
  convert _ _ _ _ := rfl
  subtract _ _ _ _ := rfl
  multiply _ _ _ _ := rfl

namespace Graph

def Filled (g : Graph Rat) : Prop := ∀ s t, g.constant? s = some t → t.Filled

theorem filled_of_listed {nodes : List (String × Op Rat × List Slot × List Port)}
    (h : ∀ n ∈ nodes, ∀ t, n.2.1 = .constant t → t.Filled) : (assemble nodes).Filled := by
  intro s t ht
  rw [constant?_eq_face] at ht
  obtain ⟨f, hf, ht⟩ := Option.bind_eq_some_iff.mp ht
  split at ht
  · next value hop =>
    cases ht
    obtain ⟨n, hn, rfl⟩ := assemble_face hf
    exact h n hn _ hop
  · cases ht

end Graph

namespace Interpretation

open LowPrecision.Graph

variable {I : Interpretation} {g g' : Graph Rat} {v : Slot → Option Values} {s : Slot}
  {rank : NodeId → Nat}

def compute (I : Interpretation) (g : Graph Rat) (v : Slot → Option Values) (s : Slot) :
    Option Values :=
  (g.node? s.node).bind fun n => I.run s.node n.op (n.inputs.map v) s.index

def Evaluates (I : Interpretation) (g : Graph Rat) (v : Slot → Option Values) : Prop :=
  ∀ s, v s = I.compute g v s

theorem Evaluates.evaluates (h : I.Evaluates g v) : g.Evaluates I.run v := h

theorem Evaluates.eq_run (h : I.Evaluates g v) {f : Face Rat} (hf : g.face? s.node = some f) :
    v s = I.run s.node f.op (f.inputs.map v) s.index := h.evaluates.eq_run hf

theorem exists_evaluates (hr : g.Ranked rank) : ∃ v, I.Evaluates g v := Graph.exists_evaluates I.run hr

section Literals

variable {t : Tensor Rat}

theorem Evaluates.constant (h : I.Evaluates g v) (hg : g.Regular) (hs : (g.port? s).isSome)
    (ht : g.constant? s = some t) : v s = some t.values := by
  rw [constant?_eq_face] at ht
  obtain ⟨f, hf, ht⟩ := Option.bind_eq_some_iff.mp ht
  split at ht
  · next value hop =>
    cases ht
    have hindex := index_eq_zero hg hf (by rw [Face.kind, hop, Op.kind]; decide) hs
    rw [h.eq_run hf, hop, hindex, I.constant]
  · cases ht

theorem Evaluates.constantValue (h : I.Evaluates g v) (hg : g.Regular) (hs : (g.port? s).isSome)
    (ht : g.constantValue? s = some t) : v s = some t.values := by
  have hvalue := ht
  rw [constantValue?_eq_face] at ht
  obtain ⟨f, hf, ht⟩ := Option.bind_eq_some_iff.mp ht
  split at ht
  · next value hop =>
    refine h.constant hg hs ?_
    rw [constant?_eq_face, hf, Option.bind_some, hop]
    exact ht
  · next type hop =>
    obtain ⟨source, hsource, ht⟩ := Option.bind_eq_some_iff.mp ht
    have hindex := index_eq_zero hg hf (by rw [Face.kind, hop, Op.kind]; decide) hs
    obtain ⟨rest, hinputs⟩ := exists_cons_of_first hsource
    obtain ⟨p, hp⟩ := hg.wellFormed.exists_port (v := s.node) (i := 0) (s := source) (by
      rw [input?_eq_face, hf]; exact hsource)
    rw [h.eq_run hf, hop, hindex, hinputs, List.map_cons, I.convert]
    exact h.constant hg (Option.isSome_iff_exists.mpr ⟨p, hp⟩) ht
  · cases ht

end Literals

section Chains

open Dequantization

def applyStep (op : Rat → Rat → Rat) (step : Option (NodeId × Tensor Rat)) (x : Values) : Option Values :=
  step.elim (some x) fun step => x.zip op step.2.values

structure ReadsStep (g : Graph Rat) (v : Slot → Option Values) (output current : Slot)
    (taken : Option NodeId) (value : Values → Option Values) : Prop where
  port : (g.port? current).isSome
  value : v output = (v current).bind value
  slot : output = (taken.map (⟨·, 0⟩)).getD current

theorem ReadsStep.stay (hs : (g.port? s).isSome) : ReadsStep g v s s none some :=
  ⟨hs, (Option.bind_fun_some _).symm, rfl⟩

theorem port_of_input (hg : g.Regular) {n : Node Rat} {a : Slot} {i : Nat} (hn : g.node? s.node = some n)
    (ha : n.input? i = some a) : (g.port? a).isSome := by
  obtain ⟨p, hp⟩ := hg.wellFormed.exists_port (input?_eq_some.mpr ⟨n, hn, ha⟩)
  exact Option.isSome_iff_exists.mpr ⟨p, hp⟩

variable {output current : Slot} {step : Option (NodeId × Tensor Rat)}

theorem op_of_kind {n : Node Rat} :
    (n.kind = .multiply → n.op = .multiply) ∧ (n.kind = .subtract → n.op = .subtract) := by
  rw [Node.kind]
  cases n.op <;> simp [Op.kind]

theorem Evaluates.readMultiply (h : I.Evaluates g v) (hg : g.Regular) (hs : (g.port? output).isSome)
    (hread : readMultiply g output = some (step, current)) :
    ReadsStep g v output current (step.map Prod.fst) (applyStep (· * ·) step) := by
  obtain ⟨rfl, rfl⟩ | ⟨n, a, b, scale, hn, hkind, ha, hb, rfl, hscale⟩ := readMultiply_cases hread
  · exact .stay hs
  obtain ⟨rest, hin⟩ := exists_cons_of_pair ha hb
  have hop := op_of_kind.1 hkind
  have hf := face?_eq_some.mpr ⟨n, hn, rfl⟩
  have hindex : output.index = 0 :=
    index_eq_zero hg hf (by rw [Face.kind, Node.face, hop, Op.kind]; decide) hs
  have hvalue : v output = (v a).bind fun x => (v b).bind fun y => x.zip (· * ·) y := by
    rw [h.eq_run hf, Node.face, hop, hindex, hin, List.map_cons, List.map_cons, I.multiply]
  rcases hscale with ⟨hb', rfl⟩ | ⟨-, ha', rfl⟩
  · refine ⟨port_of_input hg hn ha, ?_, congrArg (Slot.mk output.node) hindex⟩
    rw [hvalue, h.constant hg (port_of_input hg hn hb) hb']
    rfl
  · refine ⟨port_of_input hg hn hb, ?_, congrArg (Slot.mk output.node) hindex⟩
    rw [hvalue, h.constant hg (port_of_input hg hn ha) ha', Option.bind_some]
    exact Option.bind_congr fun y _ => Values.zip_comm mul_comm _ _

theorem Evaluates.readSubtract (h : I.Evaluates g v) (hg : g.Regular) (hs : (g.port? output).isSome)
    (hread : readSubtract g output = some (step, current)) :
    ReadsStep g v output current (step.map Prod.fst) (applyStep (· - ·) step) := by
  obtain ⟨rfl, rfl⟩ | ⟨n, b, zeroPoint, hn, hkind, ha, hb, rfl, hvalue⟩ := readSubtract_cases hread
  · exact .stay hs
  obtain ⟨rest, hin⟩ := exists_cons_of_pair ha hb
  have hop := op_of_kind.2 hkind
  have hf := face?_eq_some.mpr ⟨n, hn, rfl⟩
  have hindex : output.index = 0 :=
    index_eq_zero hg hf (by rw [Face.kind, Node.face, hop, Op.kind]; decide) hs
  refine ⟨port_of_input hg hn ha, ?_, congrArg (Slot.mk output.node) hindex⟩
  rw [h.eq_run hf, Node.face, hop, hindex, hin, List.map_cons, List.map_cons, I.subtract,
    h.constantValue hg (port_of_input hg hn hb) hvalue]
  rfl

theorem Evaluates.readConvert (h : I.Evaluates g v) (hg : g.Regular) (hs : (g.port? output).isSome)
    {taken : Option NodeId} (hread : readConvert g output = some (taken, current)) :
    ReadsStep g v output current taken some := by
  obtain ⟨rfl, rfl⟩ | ⟨n, type, hn, hop, ha, rfl⟩ := readConvert_cases hread
  · exact .stay hs
  obtain ⟨rest, hin⟩ := exists_cons_of_first ha
  have hf := face?_eq_some.mpr ⟨n, hn, rfl⟩
  have hindex : output.index = 0 :=
    index_eq_zero hg hf (by rw [Face.kind, Node.face, hop, Op.kind]; decide) hs
  refine ⟨port_of_input hg hn ha, ?_, congrArg (Slot.mk output.node) hindex⟩
  rw [h.eq_run hf, Node.face, hop, hindex, hin, List.map_cons, I.convert, Option.bind_fun_some]

theorem zip_one (x : Values) : x.zip (· * ·) (Tensor.scalar 1).values = some x := by
  rw [Tensor.zip_values (Tensor.spreadsOver_scalar 1 x.shape)]
  refine congrArg some ((Values.of_congr fun i _ => ?_).trans x.of_get)
  rw [Tensor.valueAt_scalar, mul_one]

theorem applyStep_multiply (d : Dequantization Rat) (x : Values) :
    applyStep (· * ·) d.multiply x = x.zip (· * ·) d.params.scale.values := by
  rw [Dequantization.params, Dequantization.scale?]
  cases d.multiply with
  | none => exact (zip_one x).symm
  | some step => rfl

theorem applyStep_subtract (d : Dequantization Rat) (x : Values) :
    applyStep (· - ·) d.subtract x = d.params.shift x := by
  rw [AffineParams.shift, Dequantization.params, Dequantization.zeroPoint?]
  cases d.subtract <;> rfl

theorem Evaluates.ofOutput (h : I.Evaluates g v) (hg : g.Regular) (hs : (g.port? output).isSome)
    {d : Dequantization Rat} (hd : ofOutput g output = some d) :
    v output = (v d.data).bind d.params.dequantize ∧ d.output = output := by
  obtain ⟨scaled, shifted, p, hm, hsub, hc, -⟩ := ofOutput_eq_some hd
  have hmultiply := h.readMultiply hg hs hm
  have hsubtract := h.readSubtract hg hmultiply.port hsub
  have hconvert := h.readConvert hg hsubtract.port hc
  constructor
  · rw [hmultiply.value, hsubtract.value, hconvert.value, Option.bind_fun_some, Option.bind_assoc]
    refine Option.bind_congr fun x _ => ?_
    rw [AffineParams.dequantize, applyStep_subtract]
    exact Option.bind_congr fun y _ => applyStep_multiply d y
  · rw [Dequantization.output_eq, Dequantization.shifted, Dequantization.converted, hmultiply.slot,
      hsubtract.slot, hconvert.slot, Option.map_map, Option.map_map]
    rfl

theorem Evaluates.ofInput (h : I.Evaluates g v) (hg : g.Regular) {id : NodeId} {index : Nat}
    {d : Dequantization Rat} (hd : ofInput g id index = some d) :
    g.input? id index = some d.output ∧ v d.output = (v d.data).bind d.params.dequantize := by
  obtain ⟨output, hi, hd⟩ := Option.bind_eq_some_iff.mp hd
  obtain ⟨p, hp⟩ := hg.wellFormed.exists_port hi
  obtain ⟨hvalue, houtput⟩ := h.ofOutput hg (Option.isSome_iff_exists.mpr ⟨p, hp⟩) hd
  exact ⟨houtput ▸ hi, houtput ▸ hvalue⟩

end Chains

end Interpretation

namespace Dequantization

open LowPrecision.Graph

variable {g : Graph Rat} {output current : Slot} {step : Option (NodeId × Tensor Rat)}

theorem constant_of_readMultiply (h : readMultiply g output = some (step, current)) :
    ∀ e ∈ step, ∃ s, g.constant? s = some e.2 := by
  obtain ⟨rfl, -⟩ | ⟨n, a, b, scale, -, -, -, -, rfl, ⟨hb, -⟩ | ⟨-, ha, -⟩⟩ := readMultiply_cases h
  · exact fun _ he => by cases he
  · exact fun _ he => Option.some.inj he ▸ ⟨b, hb⟩
  · exact fun _ he => Option.some.inj he ▸ ⟨a, ha⟩

theorem constant_of_constantValue {s : Slot} {t : Tensor Rat} (h : g.constantValue? s = some t) :
    ∃ s', g.constant? s' = some t := by
  rw [constantValue?] at h
  split at h
  · next value hconstant =>
    cases h
    exact ⟨s, hconstant⟩
  · obtain ⟨n, -, h⟩ := Option.bind_eq_some_iff.mp h
    split at h
    · obtain ⟨source, -, h⟩ := Option.bind_eq_some_iff.mp h
      exact ⟨source, h⟩
    · cases h

theorem constant_of_readSubtract (h : readSubtract g output = some (step, current)) :
    ∀ e ∈ step, ∃ s, g.constant? s = some e.2 := by
  obtain ⟨rfl, -⟩ | ⟨n, b, zeroPoint, -, -, -, -, rfl, hvalue⟩ := readSubtract_cases h
  · exact fun _ he => by cases he
  · exact fun _ he => Option.some.inj he ▸ constant_of_constantValue hvalue

theorem forall_params {P : Tensor Rat → Prop} (hconstants : ∀ s t, g.constant? s = some t → P t)
    (hone : P (Tensor.scalar 1)) {d : Dequantization Rat} (h : ofOutput g output = some d) :
    d.params.Forall P := by
  obtain ⟨scaled, shifted, p, hm, hs, -⟩ := ofOutput_eq_some h
  constructor
  · rw [params, scale?]
    cases hstep : d.multiply with
    | none => exact hone
    | some step =>
      obtain ⟨s, hs⟩ := constant_of_readMultiply hm step hstep
      exact hconstants s _ hs
  · rw [params, zeroPoint?]
    rintro z hz
    obtain ⟨step, hstep, rfl⟩ := Option.map_eq_some_iff.mp hz
    obtain ⟨s, hs⟩ := constant_of_readSubtract hs step hstep
    exact hconstants s _ hs

theorem filled_params (hg : g.Filled) {d : Dequantization Rat} (h : ofOutput g output = some d) :
    d.params.Forall Tensor.Filled := forall_params hg rfl h

theorem zeroAt_eq_zero {d : Dequantization Rat} (h : d.hasZeroPoint = false) (i : Index) :
    d.params.zeroAt i = 0 := by
  change (d.zeroPoint?.map (·.valueAt i)).getD 0 = 0
  rw [hasZeroPoint] at h
  cases hz : d.zeroPoint? with
  | none => rfl
  | some z =>
    rw [hz, Option.any_some, List.any_eq_false] at h
    rw [Option.map_some, Option.getD_some, Tensor.valueAt]
    cases hx : z.spread? i with
    | none => rfl
    | some x =>
      have hzero := h x (List.mem_of_getElem? hx)
      rw [Bool.not_eq_true, Bool.not_eq_false'] at hzero
      exact of_decide_eq_true hzero

end Dequantization

end LowPrecision
