import LowPrecision.Proofs.Rewrite.MovedValues
import LowPrecision.Proofs.Rewrite.Applications
import LowPrecision.Proofs.Rewrite.Readiness

namespace LowPrecision

open LowPrecision.Graph

namespace Interpretation

variable {I : Interpretation} {g : Graph Rat} {v : Slot → Option Values} {id : NodeId} {f : Face Rat}
  {chain : Dequantization Rat} {params : AffineParams Rat}

structure Copies (I : Interpretation) (id : NodeId) (op : Op Rat) (shape : List Nat)
    (others : List (Option Values)) (k : Nat) (out : List Nat) (origin : Index → Index) : Prop where
  inside (i : Index) : i.Inside out → (origin i).Inside shape
  value (x : Values) : x.shape = shape →
    I.run id op (some x :: others) k = some (.of out fun i => x.get (origin i))

theorem Evaluates.behind_chain (hv : I.Evaluates g v) (hg : g.Regular) (hf : g.face? id = some f)
    (hchain : Dequantization.ofInput g id 0 = some chain) (k : Nat) :
    v ⟨id, k⟩ = I.run id f.op
      ((v chain.data).bind chain.params.dequantize :: f.inputs.tail.map v) k := by
  obtain ⟨hi, houtput⟩ := hv.ofInput hg hchain
  obtain ⟨rest, hin⟩ : ∃ rest, f.inputs = chain.output :: rest := by
    obtain ⟨n, hn, rfl⟩ := face?_eq_some.mp hf
    rw [Graph.input?, hn] at hi
    exact exists_cons_of_first hi
  rw [hv.eq_run (s := ⟨id, k⟩) hf, hin, List.map_cons, List.tail_cons, houtput]

theorem run_of_copies {q : Values} (hspread : chain.params.SpreadsOver q.shape)
    {op : Op Rat} {others : List (Option Values)} {k : Nat} {out : List Nat} {origin : Index → Index}
    (hcopies : I.Copies id op q.shape others k out origin) (hout : params.SpreadsOver out)
    (hsame : ∀ i, i.Inside out → ∀ x, params.valueAt i x = chain.params.valueAt (origin i) x) :
    I.run id op (chain.params.dequantize q :: others) k =
      (I.run id op (some q :: others) k).bind params.dequantize := by
  rw [AffineParams.dequantize_of_spreadsOver hspread, hcopies.value q rfl, Option.bind_some,
    hcopies.value (.of q.shape _) rfl,
    AffineParams.dequantize_of_spreadsOver (q := .of out _) hout]
  refine congrArg some (Values.of_congr fun i hi => ?_)
  rw [Values.get_of (hcopies.inside i hi), Values.get_of hi, hsame i hi]

end Interpretation

theorem Layout.uniform_of_depthToSpace {α : Type} [Arithmetic α] {g : Graph α} {id : NodeId}
    {plan : Plan α} (h : depthToSpace? g id = some plan) :
    (∃ n blockSize, g.node? id = some n ∧ n.op = .depthToSpace blockSize ∧ blockSize ≤ 1 ∧
        plan.params = plan.chain.params) ∨
      plan.chain.params.isUniform = true ∧ plan.params = plan.chain.params.toScalar := by
  obtain ⟨n, blockSize, hn, hop, -, hparams⟩ := depthToSpace_eq_some h
  exact hparams.imp_left fun hblock => ⟨n, blockSize, hn, hop, hblock⟩

namespace Rule

variable {α : Type} [Scalar α] {rule : Rule} {s s' : Session α} {id : NodeId} {m : NodeMatch}

def movePlan? (rule : Rule) (g : Graph α) (id : NodeId) : Option (Layout.Plan α) :=
  match rule with
  | .transparent => Layout.transparent? g id
  | .depthToSpace => Layout.depthToSpace? g id
  | _ => none

theorem chain_of_movePlan {g : Graph α} {plan : Layout.Plan α} (h : rule.movePlan? g id = some plan) :
    Dequantization.ofInput g id 0 = some plan.chain := by
  cases rule <;> first | cases h | skip
  · exact Layout.chain_of_depthToSpace h
  · exact Layout.chain_of_transparent h

theorem moves_of_canApply (hrule : rule = .transparent ∨ rule = .depthToSpace) (hg : s.graph.Regular)
    (hm : rule.pattern.matchAt s.graph id = some m)
    (hcan : rule.canApply s.context s.graph m = .ok true) :
    ∃ n plan s' keep, s.graph.node? id = some n ∧ n.kind ∈ rule.pattern.kinds ∧
      rule.movePlan? s.graph id = some plan ∧ exec (rule.apply m) s = .ok (.ok true, s') ∧
      exec (moveDequantization id plan.chain plan.params keep) s.graph = .ok (.ok (), s'.graph) := by
  obtain ⟨s', hrun⟩ : ∃ s', exec (rule.apply m) s = .ok (.ok true, s') := by
    rcases hrule with rfl | rfl
    · exact transparent_ready hg hm hcan
    · exact depthToSpace_ready hg hm hcan
  obtain ⟨n, hn, hkind, rfl⟩ := Pattern.matchAt_eq_some hm
  have hwhole := hrun
  rw [apply, exec_bind_ok (Rewrite.exec_graph s), exec_bind_ok (Rewrite.exec_context s)] at hrun
  rcases hrule with rfl | rfl
  · obtain ⟨plan, hplan⟩ := Option.isSome_iff_exists.mp (Except.ok.inj hcan)
    have hmove := exec_of_withPlan hplan hrun
    exact ⟨n, plan, s', _, hn, hkind, hplan, hwhole, (Rewrite.exec_edit_eq.mp hmove).1⟩
  · obtain ⟨plan, hplan⟩ := Option.isSome_iff_exists.mp (Except.ok.inj hcan)
    have hmove := exec_of_withPlan hplan hrun
    exact ⟨n, plan, s', _, hn, hkind, hplan, hwhole, (Rewrite.exec_edit_eq.mp hmove).1⟩

end Rule

section Sample

def Interpretation.ofLayer (input : Values) (layer : Values → Option Values) : Interpretation :=
  .extend fun op xs =>
    match op, xs with
    | .parameter, _ => some input
    | _, x :: _ => x.bind layer
    | _, [] => none

def scaledBytes (shape : List Nat) (scale : Tensor Rat) (op : Op Rat) (out : List Nat) : Graph Rat :=
  assemble [("x", .parameter, [], [⟨.u8, some shape⟩]),
    ("real", .convert .f32, [⟨0, 0⟩], [⟨.f32, some shape⟩]),
    ("scale", .constant scale, [], [⟨.f32, some scale.shape⟩]),
    ("scaled", .multiply, [⟨1, 0⟩, ⟨2, 0⟩], [⟨.f32, some shape⟩]),
    ("layer", op, [⟨3, 0⟩], [⟨.f32, some out⟩]),
    ("y", .result, [⟨4, 0⟩], [])]

variable {shape out : List Nat} {scale : Tensor Rat} {op : Op Rat}

theorem scaledBytes_regular : (scaledBytes shape scale op out).Regular :=
  assemble_regular (by simp [Op.kind, OpKind.HasOneOutput])

theorem scaledBytes_filled (hop : ∀ t, op ≠ .constant t) (hscale : scale.Filled) :
    (scaledBytes shape scale op out).Filled := filled_of_listed (by simp [hop, hscale])

structure IsScaledBytes (g : Graph Rat) (rule : Rule) (scale : Tensor Rat) (op : Op Rat)
    (out : List Nat) : Prop where
  regular : g.Regular
  filled : g.Filled
  input : (g.node? 0).map Node.op = some .parameter
  layer : g.node? 4 = some ⟨"layer", op, [⟨3, 0⟩], [⟨⟨.f32, some out⟩, [⟨5, 0⟩]⟩], none⟩
  chain : Dequantization.ofInput g 4 0 = some ⟨⟨0, 0⟩, some 1, none, some (3, scale)⟩
  found : rule.pattern.matchAt g 4 = some ⟨4, op.kind, [3], [5]⟩
  accepted : rule.canApply (.start .default) g ⟨4, op.kind, [3], [5]⟩ = .ok true

theorem IsScaledBytes.value {g : Graph Rat} {rule : Rule} (h : IsScaledBytes g rule scale op out)
    {input : Values} {layer : Values → Option Values} {v : Slot → Option Values}
    (hv : (Interpretation.ofLayer input layer).Evaluates g v) :
    v ⟨0, 0⟩ = some input := by
  obtain ⟨n, hn, hop⟩ := Option.map_eq_some_iff.mp h.input
  rw [hv.eq_run (s := ⟨0, 0⟩) (face?_eq_some.mpr ⟨n, hn, rfl⟩), Node.face, hop]
  rfl

end Sample

namespace Rule

structure LaysOut (I : Interpretation) (g : Graph Rat) (v : Slot → Option Values) (id : NodeId)
    (n : Node Rat) (shape : List Nat) : Prop where
  copies (k : Nat) : g.IsRead ⟨id, k⟩ → ∃ out origin,
    I.Copies id n.op shape (n.inputs.tail.map v) k out origin
  identity (blockSize : Nat) : n.op = .depthToSpace blockSize → blockSize ≤ 1 →
    ∀ k, g.IsRead ⟨id, k⟩ → ∀ x : Values, x.shape = shape →
      I.run id n.op (some x :: n.inputs.tail.map v) k = some x

/-- A dequantization whose constants have elements moves behind an operation that lays out elements,
and everything reads what it read before. -/
theorem layout_move_preserves_reads {I : Interpretation} {s : Session Rat} {rule : Rule} {id : NodeId}
    {m : NodeMatch} {n : Node Rat} {chain : Dequantization Rat} {v : Slot → Option Values} {q : Values}
    (hg : s.graph.Regular) (hfilled : s.graph.Filled)
    (hm : rule.pattern.matchAt s.graph id = some m)
    (hlayout : rule = .depthToSpace ∨ rule = .transparent ∧ Layout.keepsChannels m.kind = false)
    (hcan : rule.canApply s.context s.graph m = .ok true) (hn : s.graph.node? id = some n)
    (hchain : Dequantization.ofInput s.graph id 0 = some chain)
    (helements : chain.params.Forall fun t => t.data ≠ []) (hv : I.Evaluates s.graph v)
    (hq : v chain.data = some q) (hspread : chain.params.SpreadsOver q.shape)
    (hop : LaysOut I s.graph v id n q.shape) :
    ∃ s', exec (rule.apply m) s = .ok (.ok true, s') ∧ (∃ v', I.Evaluates s'.graph v') ∧
      ∀ v', I.Evaluates s'.graph v' → PreservesReads s.graph s'.graph v v' id chain := by
  obtain ⟨n', plan, s', keep, hn', -, hplan, hrun, hmove⟩ :=
    moves_of_canApply (hlayout.symm.imp_left And.left) hg hm hcan
  cases hn.symm.trans hn'
  cases hchain.symm.trans (chain_of_movePlan hplan)
  have hf : s.graph.face? id = some n.face := face?_eq_some.mpr ⟨n, hn, rfl⟩
  obtain ⟨rank, ends, h⟩ := exists_relocation hg hf hchain hmove
  obtain ⟨rank', hr'⟩ := h.after.acyclic
  refine ⟨s', hrun, Interpretation.exists_evaluates hr', fun v' hv' => ?_⟩
  rw [preservesReads_iff hg hf hchain hmove hv hv']
  intro k hk
  rw [hv.behind_chain hg hf hchain, movedValue, hq, Option.bind_some]
  obtain ⟨output, -, hd⟩ := Option.bind_eq_some_iff.mp hchain
  have huniform (hu : plan.chain.params.isUniform = true) (hp : plan.params = plan.chain.params.toScalar) :
      I.run id n.op (plan.chain.params.dequantize q :: n.inputs.tail.map v) k =
        (I.run id n.op (some q :: n.inputs.tail.map v) k).bind plan.params.dequantize := by
    obtain ⟨out, origin, hcopies⟩ := hop.copies k hk
    have hscalar := AffineParams.toScalar_valueAt (Dequantization.filled_params hfilled hd) hu helements out
    rw [hp]
    exact Interpretation.run_of_copies hspread hcopies hscalar.1 fun i hi x =>
      hscalar.2 hspread (hcopies.inside i hi) i x
  rcases hlayout with rfl | ⟨rfl, hkind⟩
  · rcases Layout.uniform_of_depthToSpace hplan with ⟨node, blockSize, hnode, hblocks, hblock, hp⟩ | ⟨hu, hp⟩
    · cases hn.symm.trans hnode
      rw [hp]
      have hidentity := hop.identity blockSize hblocks hblock k hk
      rw [AffineParams.dequantize_of_spreadsOver hspread]
      refine (hidentity (.of q.shape _) rfl).trans ?_
      rw [← AffineParams.dequantize_of_spreadsOver hspread]
      exact (congrArg (·.bind plan.chain.params.dequantize) (hidentity q rfl)).symm
    · exact huniform hu hp
  · obtain ⟨node, hnode, -, -, -, ⟨hkeeps, -⟩ | ⟨-, hu, hp⟩⟩ := Layout.transparent_eq_some hplan
    · obtain ⟨node', hnode', -, rfl⟩ := Pattern.matchAt_eq_some hm
      cases hnode.symm.trans hnode'
      rw [hkeeps] at hkind
      cases hkind
    · exact huniform hu hp

section Sample

theorem layout_move_preserves_reads_of_transpose :
    ∃ I : Interpretation, ∃ v m n chain q, ∃ s : Session Rat,
      s.graph.Regular ∧ s.graph.Filled ∧ transparent.pattern.matchAt s.graph 4 = some m ∧
      Layout.keepsChannels m.kind = false ∧ transparent.canApply s.context s.graph m = .ok true ∧
      s.graph.node? 4 = some n ∧ Dequantization.ofInput s.graph 4 0 = some chain ∧
      (chain.params.Forall fun t => t.data ≠ []) ∧ I.Evaluates s.graph v ∧ v chain.data = some q ∧
      chain.params.SpreadsOver q.shape ∧ LaysOut I s.graph v 4 n q.shape ∧
      ∃ s', exec (transparent.apply m) s = .ok (.ok true, s') ∧ (∃ v', I.Evaluates s'.graph v') ∧
        ∀ v', I.Evaluates s'.graph v' → PreservesReads s.graph s'.graph v v' 4 chain := by
  generalize hdef : scaledBytes [2, 3] ⟨[2, 1], [1 / 2, 1 / 2]⟩ .transpose [3, 2] = g
  have h : IsScaledBytes g transparent ⟨[2, 1], [1 / 2, 1 / 2]⟩ .transpose [3, 2] := by
    subst hdef
    exact ⟨scaledBytes_regular, scaledBytes_filled (by simp) rfl, by decide +kernel, by decide +kernel,
      by decide +kernel, by decide +kernel, by decide +kernel⟩
  let I := Interpretation.ofLayer (.of [2, 3] fun _ => 1) fun x =>
    some (.of x.shape.reverse fun i => x.get i.reverse)
  obtain ⟨rank, hr⟩ := h.regular.acyclic
  obtain ⟨v, hv⟩ := I.exists_evaluates hr
  have hspread : AffineParams.SpreadsOver ⟨⟨[2, 1], [1 / 2, 1 / 2]⟩, none⟩ [2, 3] :=
    ⟨rfl, by simp⟩
  have helements : AffineParams.Forall ⟨⟨[2, 1], [1 / 2, 1 / 2]⟩, none⟩ fun t => t.data ≠ [] :=
    ⟨by simp, by simp⟩
  have hop : LaysOut I g v 4 ⟨"layer", .transpose, [⟨3, 0⟩], [⟨⟨.f32, some [3, 2]⟩, [⟨5, 0⟩]⟩], none⟩
      [2, 3] := by
    refine ⟨fun k _ => ⟨[3, 2], List.reverse, fun i hi => ?_, fun x hx => ?_⟩, by simp⟩
    · exact List.forall₂_reverse_iff.mpr hi
    · obtain ⟨shape, get, outside⟩ := x
      cases hx
      rfl
  exact ⟨I, v, _, _, _, _, ⟨g, .start .default⟩, h.regular, h.filled, h.found, rfl, h.accepted,
    h.layer, h.chain, helements, hv, h.value hv, hspread, hop,
    layout_move_preserves_reads (s := ⟨g, .start .default⟩) h.regular h.filled h.found
      (.inr ⟨rfl, rfl⟩) h.accepted h.layer h.chain helements hv (h.value hv) hspread hop⟩

theorem empty_scale_does_not_move :
    ∃ I : Interpretation, ∃ v m n chain q, ∃ s : Session Rat,
      s.graph.Regular ∧ s.graph.Filled ∧ transparent.pattern.matchAt s.graph 4 = some m ∧
      Layout.keepsChannels m.kind = false ∧ transparent.canApply s.context s.graph m = .ok true ∧
      s.graph.node? 4 = some n ∧ Dequantization.ofInput s.graph 4 0 = some chain ∧
      I.Evaluates s.graph v ∧ v chain.data = some q ∧
      chain.params.SpreadsOver q.shape ∧ LaysOut I s.graph v 4 n q.shape ∧
      ∃ s', exec (transparent.apply m) s = .ok (.ok true, s') ∧
        ∃ v', I.Evaluates s'.graph v' ∧ ¬ PreservesReads s.graph s'.graph v v' 4 chain := by
  generalize hdef : scaledBytes [2, 0] ⟨[0], []⟩ .reshape [0, 2] = g
  have h : IsScaledBytes g transparent ⟨[0], []⟩ .reshape [0, 2] := by
    subst hdef
    exact ⟨scaledBytes_regular, scaledBytes_filled (by simp) rfl, by decide +kernel, by decide +kernel,
      by decide +kernel, by decide +kernel, by decide +kernel⟩
  have hparams : (transparent.movePlan? g 4).map Layout.Plan.params = some ⟨⟨[0], []⟩, none⟩ := by
    subst hdef
    decide +kernel
  have hread : g.IsRead ⟨4, 0⟩ := by
    subst hdef
    exact ⟨5, 0, by decide +kernel⟩
  let I := Interpretation.ofLayer (.of [2, 0] fun _ => 0) fun x => some (.of [0, 2] x.get)
  obtain ⟨rank, hr⟩ := h.regular.acyclic
  obtain ⟨v, hv⟩ := I.exists_evaluates hr
  have hq := h.value hv
  have hspread : AffineParams.SpreadsOver ⟨⟨[0], []⟩, none⟩ [2, 0] := ⟨rfl, by simp⟩
  have hop : LaysOut I g v 4 ⟨"layer", .reshape, [⟨3, 0⟩], [⟨⟨.f32, some [0, 2]⟩, [⟨5, 0⟩]⟩], none⟩
      [2, 0] := by
    refine ⟨fun k _ => ⟨[0, 2], id, fun i hi => ?_, fun x _ => rfl⟩, by simp⟩
    cases hi with
    | cons hlt _ => exact absurd hlt (Nat.not_lt_zero _)
  obtain ⟨n, ⟨chain, params⟩, s', keep, hn, -, hplan, hrun, hmove⟩ :=
    moves_of_canApply (s := ⟨g, .start .default⟩) (.inl rfl) h.regular h.found h.accepted
  cases h.layer.symm.trans hn
  have hf := face?_eq_some.mpr ⟨_, h.layer, rfl⟩
  have hchain := h.chain
  cases hchain.symm.trans (chain_of_movePlan hplan : Dequantization.ofInput g 4 0 = some chain)
  obtain ⟨_, _, hmoved⟩ := exists_relocation h.regular hf hchain hmove
  obtain ⟨rank', hr'⟩ := hmoved.after.acyclic
  obtain ⟨v', hv'⟩ := I.exists_evaluates hr'
  refine ⟨I, v, _, _, _, _, ⟨g, .start .default⟩, h.regular, h.filled, h.found, rfl, h.accepted,
    h.layer, hchain, hv, hq, hspread, hop, s', hrun, v', hv', fun hreads => ?_⟩
  have hvalue := (preservesReads_iff h.regular hf hchain hmove hv hv').mp hreads 0 hread
  rw [hplan, Option.map_some, Option.some.injEq] at hparams
  rw [hv.behind_chain h.regular hf hchain, movedValue, hq, Option.bind_some,
    AffineParams.dequantize_of_spreadsOver hspread, hparams] at hvalue
  cases hvalue

end Sample

end Rule

end LowPrecision
