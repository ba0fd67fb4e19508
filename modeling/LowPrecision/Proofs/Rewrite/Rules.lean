import LowPrecision.Proofs.Rewrite.Concat
import LowPrecision.Proofs.Rewrite.Fusion
import LowPrecision.Proofs.Rewrite.Kernels
import LowPrecision.Proofs.Rewrite.Moves
import LowPrecision.Rewrite.Rule

namespace LowPrecision

variable {α : Type} {g : Graph α} {rank : NodeId → Nat} {id : NodeId} {m : NodeMatch}

theorem Pattern.matchAt_iff {p : Pattern} : p.matchAt g id = some m ↔
    ∃ n, g.node? id = some n ∧ n.kind ∈ p.kinds ∧ (∀ c ∈ p.constraints, c.holds g id n = true) ∧
      m = ⟨id, n.kind, n.producers, g.readerNodes id⟩ := by
  rw [matchAt, Option.bind_eq_bind, Option.bind_eq_some_iff]
  refine exists_congr fun n => and_congr_right fun _ => ?_
  rw [Option.ite_none_right_eq_some, Bool.and_eq_true, decide_eq_true_eq, List.all_eq_true, and_assoc]
  exact and_congr_right fun _ => and_congr_right fun _ => Option.some_inj.trans eq_comm

theorem Pattern.matchAt_eq_some {p : Pattern} (h : p.matchAt g id = some m) :
    ∃ n, g.node? id = some n ∧ n.kind ∈ p.kinds ∧
      m = ⟨id, n.kind, n.producers, g.readerNodes id⟩ := by
  obtain ⟨n, hn, hkind, -, heq⟩ := matchAt_iff.mp h
  exact ⟨n, hn, hkind, heq⟩

theorem Pattern.holds_of_matchAt {p : Pattern} {n : Node α} (h : p.matchAt g id = some m)
    (hn : g.node? id = some n) (c : Constraint) (hc : c ∈ p.constraints) :
    c.holds g id n = true := by
  obtain ⟨k, hk, -, hall, -⟩ := matchAt_iff.mp h
  cases hn.symm.trans hk
  exact hall c hc

theorem Constraint.constant_of_holds {index : Nat} {n : Node α}
    (h : (Constraint.constantInput index).holds g id n = true) :
    ∃ value, (g.input? id index).bind g.constant? = some value := by
  obtain ⟨p, hp, hkind⟩ := Option.bind_eq_some_iff.mp (beq_iff_eq.mp h)
  obtain ⟨slot, hslot, rfl⟩ := Option.map_eq_some_iff.mp hp
  obtain ⟨k, hk, hkind⟩ := Option.map_eq_some_iff.mp hkind
  rw [hslot, Option.bind_some, Graph.constant?, hk, Option.map_some]
  cases hop : k.op <;> simp_all [Node.kind, Op.kind]

namespace Layout

variable [Arithmetic α] {plan : Plan α}

def Plan.Of (plan : Plan α) (chain : Dequantization α) : Prop :=
  plan.chain = chain ∧ (plan.params = chain.params ∨ plan.params = chain.params.toScalar)

theorem transparent_eq_some (h : transparent? g id = some plan) :
    ∃ n, g.node? id = some n ∧ (∀ mode, n.op = .interpolate mode → mode = .nearest) ∧
      Dequantization.ofInput g id 0 = some plan.chain ∧
      (n.kind = .relu → hasPositiveScale plan.chain.params = true ∧ plan.chain.hasZeroPoint = false) ∧
      (keepsChannels n.kind = true ∧ plan.params = plan.chain.params ∨
        keepsChannels n.kind = false ∧ plan.chain.params.isUniform = true ∧
          plan.params = plan.chain.params.toScalar) := by
  obtain ⟨n, hn, h⟩ := Option.bind_eq_some_iff.mp h
  have hchain : (∀ mode, n.op = .interpolate mode → mode = .nearest) ∧ (do
      let chain ← Dequantization.ofInput g id 0
      let params := chain.params
      if n.kind = .relu && (!hasPositiveScale params || chain.hasZeroPoint) then none
      if keepsChannels n.kind then return ⟨chain, params⟩
      if params.isUniform then return ⟨chain, params.toScalar⟩ else none : Option (Plan α)) =
        some plan := by
    dsimp only at h
    split at h
    · next mode hop =>
      split at h
      · cases h
      · next hmode =>
        refine ⟨fun mode' hop' => ?_, h⟩
        cases hop.symm.trans hop'
        simpa using hmode
    · next hother => exact ⟨fun mode hop => absurd hop (hother mode), h⟩
  obtain ⟨hmode, hplan⟩ := hchain
  obtain ⟨chain, hinput, hparams⟩ := Option.bind_eq_some_iff.mp hplan
  dsimp only at hparams
  split at hparams
  · cases hparams
  next hguard =>
  have hrelu : n.kind = .relu → hasPositiveScale chain.params = true ∧ chain.hasZeroPoint = false := by
    intro hkind
    simpa [hkind] using hguard
  by_cases hkeeps : keepsChannels n.kind = true
  · rw [if_pos hkeeps] at hparams
    cases hparams
    exact ⟨n, hn, hmode, hinput, hrelu, .inl ⟨hkeeps, rfl⟩⟩
  · rw [if_neg hkeeps] at hparams
    by_cases huniform : chain.params.isUniform = true
    · rw [if_pos huniform] at hparams
      cases hparams
      exact ⟨n, hn, hmode, hinput, hrelu, .inr ⟨Bool.eq_false_iff.mpr hkeeps, huniform, rfl⟩⟩
    · rw [if_neg huniform] at hparams
      cases hparams

theorem depthToSpace_eq_some (h : depthToSpace? g id = some plan) :
    ∃ n blockSize, g.node? id = some n ∧ n.op = .depthToSpace blockSize ∧
      Dequantization.ofInput g id 0 = some plan.chain ∧
      (blockSize ≤ 1 ∧ plan.params = plan.chain.params ∨
        plan.chain.params.isUniform = true ∧ plan.params = plan.chain.params.toScalar) := by
  obtain ⟨n, hn, h⟩ := Option.bind_eq_some_iff.mp h
  dsimp only at h
  split at h
  · next blockSize hop =>
    obtain ⟨chain, hinput, h⟩ := Option.bind_eq_some_iff.mp h
    split at h
    · cases h
    · obtain ⟨port, -, h⟩ := Option.bind_eq_some_iff.mp h
      obtain ⟨rank, -, h⟩ := Option.bind_eq_some_iff.mp h
      split at h
      · cases h
      · split at h
        · next hblock =>
          cases h
          exact ⟨n, blockSize, hn, hop, hinput, .inl ⟨hblock, rfl⟩⟩
        · split at h
          · next huniform =>
            cases h
            exact ⟨n, blockSize, hn, hop, hinput, .inr ⟨huniform, rfl⟩⟩
          · cases h
  · cases h

theorem chain_of_transparent (h : transparent? g id = some plan) :
    Dequantization.ofInput g id 0 = some plan.chain := by
  obtain ⟨n, -, -, hinput, -⟩ := transparent_eq_some h
  exact hinput

theorem chain_of_depthToSpace (h : depthToSpace? g id = some plan) :
    Dequantization.ofInput g id 0 = some plan.chain := by
  obtain ⟨n, blockSize, -, -, hinput, -⟩ := depthToSpace_eq_some h
  exact hinput

theorem of_transparent (h : transparent? g id = some plan) : plan.Of plan.chain := by
  obtain ⟨n, -, -, -, -, hparams⟩ := transparent_eq_some h
  exact ⟨rfl, hparams.imp And.right fun h => h.2.2⟩

theorem of_depthToSpace (h : depthToSpace? g id = some plan) : plan.Of plan.chain := by
  obtain ⟨n, blockSize, -, -, -, hparams⟩ := depthToSpace_eq_some h
  exact ⟨rfl, hparams.imp And.right And.right⟩

end Layout

namespace Rule

variable [Scalar α]

inductive Effect (rule : Rule) (rank : NodeId → Nat) (id : NodeId) (s s' : Session α) : Prop
  | decomposed {n : Node α} {successor : NodeId} (hrule : rule = .decomposition)
      (hn : s.graph.node? id = some n) (hkind : n.kind = .fakeQuantize)
      (h : Supplanted s.graph s'.graph rank id successor successor .fakeQuantize)
      (hhandled : s'.context.handled = (s.context.markHandled n.name).handled)
  | joined {plan : ConcatPlan α} (hrule : rule = .concat)
      (hplan : ConcatPlan.Accepted s.context s.graph id plan)
      (h : s.graph.Maintains s'.graph)
      (hhandled : ∀ name, name ∈ s'.context.handled ↔
        name ∈ s.context.handled ∨ ∃ b ∈ plan.region.boundary, s.graph.name? b = some name)
  | lowered {n : Node α} {a b first second : Slot} {rest : List Slot} {port : Port}
      (hrule : rule = .matMul ∨ rule = .convolution) (hn : s.graph.node? id = some n)
      (hkind : n.kind ∈ rule.pattern.kinds) (hin : n.inputs = first :: second :: rest)
      (ha : rank a.node < rank first.node) (hb : rank b.node < rank second.node)
      (h : Supplanted s.graph s'.graph rank id s.graph.nodes.size s.graph.nodes.size n.kind)
      (hnew : s'.graph.face? s.graph.nodes.size = some ⟨n.op, [a, b], [port], some (.float 2 1)⟩)
      (hcontext : s'.context = s.context)
  | moved {n : Node α} {data first : Slot} {rest : List Slot} {g : Graph α}
      (hrule : rule = .depthToSpace ∨ rule = .transparent) (hn : s.graph.node? id = some n)
      (hkind : n.kind ∈ rule.pattern.kinds) (hin : n.inputs = first :: rest)
      (hdata : rank data.node < rank first.node)
      (hread : Graph.Recast s.graph g fun v f => f.redirect v [⟨id, 0⟩] data)
      (h : Graph.Reworked
        (Graph.makeRoom s.graph.nodes.size (6 * n.outputs.length) (rank id) rank)
        s.graph.nodes.size (rank id + 6 * n.outputs.length) (fun _ => Graph.IsStep) g s'.graph)
      (hcontext : s'.context = s.context)
  | fused {n : Node α} {slot : Nat} {input source : Slot} (hrule : rule = .convertFusion)
      (hn : s.graph.node? id = some n) (hkind : n.kind ∈ rule.pattern.kinds)
      (hinput : n.inputs[slot]? = some input) (hsource : rank source.node < rank input.node)
      (hnew : Exchanged s.graph s'.graph id (ConvertFusion.fused n slot source))
      (h : Supplanted s.graph s'.graph rank id s.graph.nodes.size s.graph.nodes.size n.kind)
      (hcontext : s'.context = s.context)
  | sanitized {n : Node α} {value : Tensor α} {data : List α} {port : Port}
      (hrule : rule = .sanitization) (hn : s.graph.node? id = some n)
      (hvalue : s.graph.constant? ⟨id, 0⟩ = some value) (hdata : sanitize value.data = some data)
      (hnew : Exchanged s.graph s'.graph id
        ⟨.constant ⟨value.shape, data⟩, [], [port], none⟩)
      (h : Supplanted s.graph s'.graph rank id s.graph.nodes.size s.graph.nodes.size .constant)
      (hcontext : s'.context = s.context)
  | tidied (hrule : rule ∈ cleanup) (h : s.graph.Maintains s'.graph)
      (hcontext : s'.context = s.context)

inductive Outcome (rule : Rule) (rank : NodeId → Nat) (id : NodeId) (s s' : Session α) :
    Except TransformError Bool → Prop
  | done (h : Effect rule rank id s s') : Outcome rule rank id s s' (.ok true)
  | skipped {r : Except TransformError Bool} (hr : r ≠ .ok true) (hgraph : s'.graph = s.graph)
      (hhandled : s'.context.handled = s.context.handled) : Outcome rule rank id s s' r
  | stopped {e : TransformError} (hrule : rule = .concat) (he : IsGraphError e)
      (hgraph : s.graph.Maintains s'.graph) (hhandled : s'.context.handled = s.context.handled) :
      Outcome rule rank id s s' (.error e)

variable {rule : Rule} {s s' : Session α}

omit [Scalar α] in
theorem moved_maintains {g g₁ g' : Graph α} {count : Nat} {data : Slot} {start : Nat}
    (hg : g.Regular) (hr : g.Ranked rank) (hdata : rank data.node < rank id)
    (hread : Graph.Recast g g₁ fun v f => f.redirect v [⟨id, 0⟩] data)
    (h : Graph.Reworked (Graph.makeRoom start count (rank id) rank) g.nodes.size
      (rank id + count) (fun _ => Graph.IsStep) g₁ g') : g.Maintains g' := by
  have hmoved : Graph.Reworked rank g.nodes.size 0 (fun _ _ => False) g g₁ := by
    apply Graph.Reworked.of_redirect hg.wellFormed hr hread
    intro r hr
    rw [List.mem_singleton.mp hr]
    exact ⟨Nat.lt_of_le_of_lt (Nat.zero_le _) hdata, hdata⟩
  have hmaintains := hmoved.maintains hg (Nat.le_refl _) fun _ _ hfalse => hfalse.elim
  exact hmaintains.trans (h.maintains hmaintains.regular (Nat.le_of_eq hread.size)
    fun _ _ hstep => absurd hstep Graph.IsStep.not_quantizer)

theorem Effect.maintains (h : Effect rule rank id s s') (hg : s.graph.Regular)
    (hr : s.graph.Ranked rank) :
    s.graph.Maintains s'.graph ∧ ∀ name ∈ s.context.handled, name ∈ s'.context.handled := by
  cases h with
  | decomposed hrule hn hkind h hhandled =>
    refine ⟨h.maintains hg hn fun _ => hkind, fun name hname => ?_⟩
    rw [hhandled, Context.handled_markHandled]
    split
    · exact hname
    · exact List.mem_cons_of_mem _ hname
  | joined hrule hplan h hhandled => exact ⟨h, fun name hname => (hhandled name).mpr (.inl hname)⟩
  | lowered hrule hn hkind hin ha hb h hnew hcontext =>
    refine ⟨h.maintains hg hn fun he => ?_, fun name hname => hcontext ▸ hname⟩
    rcases hrule with rfl | rfl <;> simp [he, pattern] at hkind
  | moved hrule hn hkind hin hdata hread h hcontext =>
    refine ⟨moved_maintains hg hr (Nat.lt_trans hdata ?_) hread h, fun name hname => hcontext ▸ hname⟩
    exact below_of_input hr hn (by simp [hin])
  | fused hrule hn hkind hinput hsource hnew h hcontext =>
    refine ⟨h.maintains hg hn fun he => ?_, fun name hname => hcontext ▸ hname⟩
    simp [he, hrule, pattern] at hkind
  | sanitized hrule hn hvalue hdata hnew h hcontext =>
    exact ⟨h.maintains hg hn fun he => (by cases he), fun name hname => hcontext ▸ hname⟩
  | tidied hrule h hcontext => exact ⟨h, fun name hname => hcontext ▸ hname⟩

section Cases

variable {r : Except TransformError Bool} {β : Type}

omit [Scalar α] in
theorem calm {kind : OpKind} (hrule : rule ≠ .transparent) (hkind : kind ∈ rule.pattern.kinds) :
    ¬ kind.IsInterface ∧ kind.HasOneOutput := by
  have hkinds : ∀ k ∈ rule.pattern.kinds, ¬ k.IsInterface ∧ k.HasOneOutput := by
    cases rule <;> first | exact absurd rfl hrule | decide
  exact hkinds kind hkind

omit [Scalar α] in
theorem checked_isSome {x : Checked (Option β)}
    (h : (do return (← x).isSome : Checked Bool) = .ok true) : ∃ b, x = .ok (some b) := by
  obtain ⟨found, hx, h⟩ := except_bind_eq_ok.mp h
  cases found with
  | none => cases h
  | some b => exact ⟨b, hx⟩

omit [Scalar α] in
theorem withPlan_cases {plan? : Option β} {f : β → Rewrite α Unit}
    (hrun : exec (withPlan plan? f) s = .ok (r, s')) :
    plan? = none ∧ r = .ok false ∧ s' = s ∨
      ∃ plan r₀, plan? = some plan ∧ exec (f plan) s = .ok (r₀, s') ∧ r = r₀.map fun _ => true := by
  cases plan? with
  | none =>
    cases hrun
    exact .inl ⟨rfl, rfl, rfl⟩
  | some plan =>
    obtain ⟨r₀, hplan, hr⟩ := exec_map_cases (f := fun _ => true) hrun
    exact .inr ⟨plan, r₀, rfl, hplan, hr⟩

theorem Outcome.of_plan {plan? : Option β} {f : β → Rewrite α Unit}
    (h : ∀ plan, plan? = some plan →
      ∃ t, exec (f plan) s = .ok (.ok (), t) ∧ Effect rule rank id s t)
    (hrun : exec (withPlan plan? f) s = .ok (r, s')) : Outcome rule rank id s s' r := by
  rcases withPlan_cases hrun with ⟨-, rfl, rfl⟩ | ⟨plan, r₀, hplan, hf, rfl⟩
  · exact .skipped (by simp) rfl rfl
  · obtain ⟨t, hok, heffect⟩ := h plan hplan
    cases hok.symm.trans hf
    exact .done heffect

theorem Outcome.of_done {p : Rewrite α Bool}
    (h : ∃ t, exec p s = .ok (.ok true, t) ∧ Effect rule rank id s t)
    (hrun : exec p s = .ok (r, s')) : Outcome rule rank id s s' r := by
  obtain ⟨t, hok, heffect⟩ := h
  cases hok.symm.trans hrun
  exact .done heffect

theorem Outcome.of_none {e : Edit α TransformError Bool}
    (h : exec e s.graph = .ok (.ok false, s.graph))
    (hrun : exec (Rewrite.edit e) s = .ok (r, s')) : Outcome rule rank id s s' r := by
  obtain ⟨hgraph, hcontext⟩ := Rewrite.exec_edit_eq.mp hrun
  obtain ⟨rfl, hsame⟩ := Prod.mk.inj (Except.ok.inj (h.symm.trans hgraph))
  exact .skipped (by simp) hsame.symm (by rw [hcontext])

theorem decomposition_cases (hg : s.graph.Regular) (hr : s.graph.Ranked rank)
    (hm : decomposition.pattern.matchAt s.graph id = some m)
    (hrun : exec (decomposition.apply m) s = .ok (r, s')) :
    Outcome decomposition rank id s s' r := by
  obtain ⟨n, hn, hkind, rfl⟩ := Pattern.matchAt_eq_some hm
  rw [apply, exec_bind_ok (Rewrite.exec_graph s), exec_bind_ok (Rewrite.exec_context s)] at hrun
  have hone : ∀ k, s.graph.node? id = some k → k.outputs.length = 1 := by
    intro k hk
    obtain rfl := Option.some.inj (hn.symm.trans hk)
    exact hg.length_outputs hn (calm (by simp) hkind).2
  obtain ⟨r₀, hplan, rfl⟩ : ∃ r₀, exec (Decomposition.decompose (α := α) id) s = .ok (r₀, s') ∧
      r = r₀.map fun _ => true := by
    obtain ⟨r₁, hdiscard, rfl⟩ := exec_map_cases (f := fun _ => true) hrun
    obtain ⟨r₀, hplan, rfl⟩ := exec_map_cases (f := fun _ => ()) hdiscard
    exact ⟨r₀, hplan, by cases r₀ <;> rfl⟩
  rcases Decomposition.decompose_cases hg.wellFormed hr hone hplan with
    ⟨e, rfl, hgraph, hhandled⟩ | ⟨d, k, successor, rfl, hk, hsupplanted, hhandled⟩
  · exact .skipped (by simp [Except.map]) hgraph hhandled
  · obtain rfl := Option.some.inj (hn.symm.trans hk)
    exact .done (.decomposed rfl hn (by simpa [pattern] using hkind) hsupplanted hhandled)

theorem convertFusion_done {n : Node α} {candidate : Nat × Slot} (hg : s.graph.Regular)
    (hr : s.graph.Ranked rank) (hn : s.graph.node? id = some n)
    (hkind : n.kind ∈ convertFusion.pattern.kinds) (hm : m.node = id)
    (h : ConvertFusion.fusable? s.graph id = some candidate) :
    ∃ t, exec (Rewrite.edit (ConvertFusion.apply m)) s = .ok (.ok true, t) ∧
      Effect convertFusion rank id s t := by
  obtain ⟨slot, source⟩ := candidate
  obtain ⟨n', input, hn', hinput, hsource⟩ := ConvertFusion.fusable?_eq_some h
  obtain rfl := Option.some.inj (hn.symm.trans hn')
  obtain ⟨hinterface, hsingle⟩ := calm (by simp) hkind
  subst hm
  obtain ⟨g', hexec, hexchanged, hsupplanted⟩ := ConvertFusion.apply_ok hg.wellFormed hr hn
    (hg.length_outputs hn hsingle) hinterface h
  exact ⟨⟨g', s.context⟩, Rewrite.exec_edit_eq.mpr ⟨hexec, rfl⟩, .fused rfl hn hkind hinput
    (ConvertFusion.source?_below hr hsource).1 hexchanged hsupplanted rfl⟩

theorem convertFusion_cases (hg : s.graph.Regular) (hr : s.graph.Ranked rank)
    (hm : convertFusion.pattern.matchAt s.graph id = some m)
    (hrun : exec (convertFusion.apply m) s = .ok (r, s')) :
    Outcome convertFusion rank id s s' r := by
  obtain ⟨n, hn, hkind, rfl⟩ := Pattern.matchAt_eq_some hm
  rw [apply, exec_bind_ok (Rewrite.exec_graph s), exec_bind_ok (Rewrite.exec_context s)] at hrun
  cases hfusable : ConvertFusion.fusable? s.graph id with
  | none => exact .of_none (ConvertFusion.apply_none hfusable) hrun
  | some candidate => exact .of_done (convertFusion_done hg hr hn hkind rfl hfusable) hrun

theorem sanitization_done {n : Node α} {sanitized : Tensor α} (hg : s.graph.Regular)
    (hr : s.graph.Ranked rank) (hn : s.graph.node? id = some n)
    (hkind : n.kind ∈ sanitization.pattern.kinds) (hm : m.node = id)
    (h : Sanitize.constant? s.graph m = some sanitized) :
    ∃ t, exec (Rewrite.edit (Sanitize.apply m)) s = .ok (.ok true, t) ∧
      Effect sanitization rank id s t := by
  obtain ⟨hinterface, hsingle⟩ := calm (by simp) hkind
  subst hm
  obtain ⟨g', port, hexec, -, hexchanged, hsupplanted⟩ := Sanitize.apply_ok hg.wellFormed hr hn
    (hg.length_outputs hn hsingle) hinterface h
  obtain ⟨value, data, hconstant, hdata, rfl⟩ := Sanitize.constant?_eq_some h
  exact ⟨⟨g', s.context⟩, Rewrite.exec_edit_eq.mpr ⟨hexec, rfl⟩,
    .sanitized rfl hn hconstant hdata hexchanged hsupplanted rfl⟩

theorem sanitization_cases (hg : s.graph.Regular) (hr : s.graph.Ranked rank)
    (hm : sanitization.pattern.matchAt s.graph id = some m)
    (hrun : exec (sanitization.apply m) s = .ok (r, s')) :
    Outcome sanitization rank id s s' r := by
  obtain ⟨n, hn, hkind, rfl⟩ := Pattern.matchAt_eq_some hm
  rw [apply, exec_bind_ok (Rewrite.exec_graph s), exec_bind_ok (Rewrite.exec_context s)] at hrun
  cases hvalue : Sanitize.constant? s.graph ⟨id, n.kind, n.producers, s.graph.readerNodes id⟩ with
  | none => exact .of_none (Sanitize.apply_none hvalue) hrun
  | some sanitized => exact .of_done (sanitization_done hg hr hn hkind rfl hvalue) hrun

theorem lowered_done {operands : List Slot} {n : Node α} {a b : Dequantization α}
    (hrule : rule = .matMul ∨ rule = .convolution) (hg : s.graph.Regular) (hr : s.graph.Ranked rank)
    (hn : s.graph.node? id = some n) (hkind : n.kind ∈ rule.pattern.kinds)
    (hoperands : operands = [a.data, b.data])
    (ha : Dequantization.ofInput s.graph id 0 = some a)
    (hb : Dequantization.ofInput s.graph id 1 = some b) (scale : Tensor α) :
    ∃ t, exec (Rewrite.edit (lowerKernel id operands scale)) s = .ok (.ok (), t) ∧
      Effect rule rank id s t := by
  obtain ⟨hinterface, hsingle⟩ := calm (by rcases hrule with rfl | rfl <;> simp) hkind
  have hbelow : ∀ s' ∈ operands, rank s'.node < rank id ∧ (s.graph.port? s').isSome :=
    hoperands ▸ data_below hr ha hb
  obtain ⟨g', port, hexec, hsupplanted, hnew⟩ := lowerKernel_ok hg.wellFormed hr hn
    (hg.length_outputs hn hsingle) hinterface hbelow scale
  obtain ⟨first, hfirst, hlt, -⟩ := Dequantization.ofInput_below hr ha
  obtain ⟨second, hsecond, hlt', -⟩ := Dequantization.ofInput_below hr hb
  rw [Graph.input?, hn] at hfirst hsecond
  obtain ⟨rest, hin⟩ := exists_cons_of_pair hfirst hsecond
  exact ⟨⟨g', s.context⟩, Rewrite.exec_edit_eq.mpr ⟨hexec, rfl⟩,
    .lowered hrule hn hkind hin hlt hlt' hsupplanted (hoperands ▸ hnew) rfl⟩

theorem lowered_cases {β : Type} {find : Checked (Option β)} {operands : β → List Slot}
    {scale : β → Tensor α} {n : Node α} (hrule : rule = .matMul ∨ rule = .convolution)
    (hg : s.graph.Regular) (hr : s.graph.Ranked rank) (hn : s.graph.node? id = some n)
    (hkind : n.kind ∈ rule.pattern.kinds)
    (hplan : ∀ plan, find = .ok (some plan) → ∃ a b : Dequantization α,
      operands plan = [a.data, b.data] ∧ Dequantization.ofInput s.graph id 0 = some a ∧
        Dequantization.ofInput s.graph id 1 = some b)
    (hrun : exec (do
        withPlan (← (find : Checked _)) fun plan =>
          Rewrite.edit (lowerKernel id (operands plan) (scale plan)) : Rewrite α Bool) s =
            .ok (r, s')) :
    Outcome rule rank id s s' r := by
  rcases exec_bind_eq_ok.mp hrun with ⟨plan?, t, hfind, hrest⟩ | ⟨e, hfind, -⟩
  · obtain ⟨hfound, rfl⟩ := exec_lift_eq_ok.mp hfind
    refine .of_plan (fun plan hp => ?_) hrest
    obtain ⟨a, b, hoperands, ha, hb⟩ := hplan plan (hp ▸ hfound)
    exact lowered_done hrule hg hr hn hkind hoperands ha hb _
  · exact absurd hfind (exec_lift_ne_error _ _ _ _)

theorem matMul_cases (hg : s.graph.Regular) (hr : s.graph.Ranked rank)
    (hm : matMul.pattern.matchAt s.graph id = some m)
    (hrun : exec (matMul.apply m) s = .ok (r, s')) : Outcome matMul rank id s s' r := by
  obtain ⟨n, hn, hkind, rfl⟩ := Pattern.matchAt_eq_some hm
  rw [apply, exec_bind_ok (Rewrite.exec_graph s), exec_bind_ok (Rewrite.exec_context s)] at hrun
  exact lowered_cases (.inl rfl) hg hr hn hkind (fun _ => MatMul.operands_of_plan) hrun

theorem convolution_cases (hg : s.graph.Regular) (hr : s.graph.Ranked rank)
    (hm : convolution.pattern.matchAt s.graph id = some m)
    (hrun : exec (convolution.apply m) s = .ok (r, s')) : Outcome convolution rank id s s' r := by
  obtain ⟨n, hn, hkind, rfl⟩ := Pattern.matchAt_eq_some hm
  rw [apply, exec_bind_ok (Rewrite.exec_graph s), exec_bind_ok (Rewrite.exec_context s)] at hrun
  exact lowered_cases (.inr rfl) hg hr hn hkind (fun _ => Convolution.operands_of_plan) hrun

theorem concat_cases (hg : s.graph.Regular)
    (hm : concat.pattern.matchAt s.graph id = some m)
    (hrun : exec (concat.apply m) s = .ok (r, s')) : Outcome concat rank id s s' r := by
  obtain ⟨n, hn, hkind, rfl⟩ := Pattern.matchAt_eq_some hm
  rw [apply, exec_bind_ok (Rewrite.exec_graph s), exec_bind_ok (Rewrite.exec_context s)] at hrun
  rcases exec_bind_eq_ok.mp hrun with ⟨plan?, t, hplan, hrest⟩ | ⟨e, hplan, -⟩
  rotate_left
  · exact absurd hplan (exec_lift_ne_error _ _ _ _)
  obtain ⟨hplan, rfl⟩ := exec_lift_eq_ok.mp hplan
  rcases withPlan_cases hrest with ⟨-, rfl, rfl⟩ | ⟨plan, r₀, rfl, happly, rfl⟩
  · exact .skipped (by simp) rfl rfl
  have haccepted := ConcatPlan.accepted_of_ofConcat? hplan
  obtain ⟨hgraph, ⟨e, rfl, he, hhandled⟩ | ⟨rfl, hhandled⟩⟩ :=
    ConcatPlan.apply_cases hg haccepted happly
  · exact .stopped rfl he hgraph hhandled
  · exact .done (.joined rfl haccepted hgraph hhandled)

theorem moved_done {chain : Dequantization α} {n : Node α}
    (hrule : rule = .depthToSpace ∨ rule = .transparent) (hg : s.graph.Regular)
    (hr : s.graph.Ranked rank) (hn : s.graph.node? id = some n) (hkind : n.kind ∈ rule.pattern.kinds)
    (hchain : Dequantization.ofInput s.graph id 0 = some chain) (params : AffineParams α)
    (keep : Bool) :
    ∃ t, exec (Rewrite.edit (moveDequantization id chain params keep)) s = .ok (.ok (), t) ∧
      Effect rule rank id s t := by
  obtain ⟨first, hfirst, hlt, hbelow, port, hport⟩ := Dequantization.ofInput_below hr hchain
  rw [Graph.input?, hn] at hfirst
  obtain ⟨rest, hin⟩ := exists_cons_of_first hfirst
  obtain ⟨g₁, g', hexec, hrecast, hreworked⟩ := moveDequantization_ok hg.wellFormed hr
    (f := n.face) (Graph.face?_eq_some.mpr ⟨n, hn, rfl⟩) hin (Nat.lt_trans hlt hbelow) hport
    params keep
  have hlength : n.face.ports.length = n.outputs.length := List.length_map _
  exact ⟨⟨g', s.context⟩, Rewrite.exec_edit_eq.mpr ⟨hexec, rfl⟩,
    .moved hrule hn hkind hin hlt hrecast (hlength ▸ hreworked) rfl⟩

theorem depthToSpace_cases (hg : s.graph.Regular) (hr : s.graph.Ranked rank)
    (hm : depthToSpace.pattern.matchAt s.graph id = some m)
    (hrun : exec (depthToSpace.apply m) s = .ok (r, s')) : Outcome depthToSpace rank id s s' r := by
  obtain ⟨n, hn, hkind, rfl⟩ := Pattern.matchAt_eq_some hm
  rw [apply, exec_bind_ok (Rewrite.exec_graph s), exec_bind_ok (Rewrite.exec_context s)] at hrun
  exact .of_plan (fun plan hp =>
    moved_done (.inl rfl) hg hr hn hkind (Layout.chain_of_depthToSpace hp) _ _) hrun

theorem transparent_cases (hg : s.graph.Regular) (hr : s.graph.Ranked rank)
    (hm : transparent.pattern.matchAt s.graph id = some m)
    (hrun : exec (transparent.apply m) s = .ok (r, s')) : Outcome transparent rank id s s' r := by
  obtain ⟨n, hn, hkind, rfl⟩ := Pattern.matchAt_eq_some hm
  rw [apply, exec_bind_ok (Rewrite.exec_graph s), exec_bind_ok (Rewrite.exec_context s)] at hrun
  exact .of_plan (fun plan hp =>
    moved_done (.inr rfl) hg hr hn hkind (Layout.chain_of_transparent hp) _ _) hrun

theorem foldConvert_done {n : Node α} {destination : ElementType} {value : Tensor α}
    (hg : s.graph.Regular) (hr : s.graph.Ranked rank) (hn : s.graph.node? id = some n)
    (hop : n.op = .convert destination) (hvalue : (n.input? 0).bind s.graph.constant? = some value) :
    ∃ t, exec (Rewrite.edit (FoldConvert.apply id)) s = .ok (.ok true, t) ∧
      Effect foldConvert rank id s t := by
  have hsingle : n.kind.HasOneOutput := by simp [OpKind.HasOneOutput, Node.kind, hop, Op.kind]
  obtain ⟨g', hexec, -, hsupplanted⟩ := FoldConvert.apply_ok hg.wellFormed hr hn
    (hg.length_outputs hn hsingle) hop hvalue
  exact ⟨⟨g', s.context⟩, Rewrite.exec_edit_eq.mpr ⟨hexec, rfl⟩, .tidied (by simp [cleanup])
    (hsupplanted.maintains hg hn fun he => (by cases he)) rfl⟩

theorem foldConvert_cases (hg : s.graph.Regular) (hr : s.graph.Ranked rank)
    (hm : foldConvert.pattern.matchAt s.graph id = some m)
    (hrun : exec (foldConvert.apply m) s = .ok (r, s')) :
    Outcome foldConvert rank id s s' r := by
  obtain ⟨n, hn, hkind, rfl⟩ := Pattern.matchAt_eq_some hm
  rw [apply, exec_bind_ok (Rewrite.exec_graph s), exec_bind_ok (Rewrite.exec_context s)] at hrun
  by_cases hfold : ∃ destination value, n.op = .convert destination ∧
      (n.input? 0).bind s.graph.constant? = some value
  · obtain ⟨destination, value, hop, hvalue⟩ := hfold
    exact .of_done (foldConvert_done hg hr hn hop hvalue) hrun
  · refine .of_none (FoldConvert.apply_none hn fun destination hop => ?_) hrun
    rw [Option.eq_none_iff_forall_ne_some]
    exact fun value hvalue => hfold ⟨destination, value, hop, hvalue⟩

theorem ranged_done {f : α → α → α} {n : Node α} {fakeQuantize : NodeId}
    {value low high outLow outHigh : Tensor α} (hrule : rule = .fuseSubtract ∨ rule = .fuseMultiply)
    (hg : s.graph.Regular) (hr : s.graph.Ranked rank) (hn : s.graph.node? id = some n)
    (hkind : n.kind ∈ rule.pattern.kinds)
    (h : RangeFusion.source? s.graph id = some (fakeQuantize, value))
    (hlow : (s.graph.input? fakeQuantize 3).bind s.graph.constant? = some low)
    (hhigh : (s.graph.input? fakeQuantize 4).bind s.graph.constant? = some high)
    (hl : (low.broadcastZip value f).run = .ok (.ok outLow))
    (hh : (high.broadcastZip value f).run = .ok (.ok outHigh)) :
    ∃ t, exec (Rewrite.edit (RangeFusion.apply id f)) s = .ok (.ok true, t) ∧
      Effect rule rank id s t := by
  obtain ⟨hinterface, hsingle⟩ := calm (by rcases hrule with rfl | rfl <;> simp) hkind
  obtain ⟨k, -, hk, hkkind, -⟩ := RangeFusion.source?_eq_some h
  have hport : (s.graph.port? ⟨fakeQuantize, 0⟩).isSome := by
    have hone := hg.length_outputs hk (by simp [OpKind.HasOneOutput, hkkind])
    obtain ⟨p, hp, -⟩ := port_of_single hk hone
    rw [hp]
    rfl
  obtain ⟨g', hexec, hreworked, hname⟩ := RangeFusion.apply_ok (f := f) hg.wellFormed hr hn
    (hg.length_outputs hn hsingle) hinterface h hlow hhigh hl hh hport
  refine ⟨⟨g', s.context⟩, Rewrite.exec_edit_eq.mpr ⟨hexec, rfl⟩,
    .tidied (by rcases hrule with rfl | rfl <;> simp [cleanup])
      (hreworked.maintains hg (Nat.le_refl _) ?_) rfl⟩
  rintro v name (hstep | ⟨rfl, -⟩) hv
  · exact absurd hstep Graph.IsStep.not_quantizer
  · exact ⟨fakeQuantize, k.face, Graph.face?_eq_some.mpr ⟨k, hk, rfl⟩, hkkind, hname ▸ hv⟩

theorem ranged_cases {f : α → α → α} {n : Node α}
    (hrule : rule = .fuseSubtract ∨ rule = .fuseMultiply) (hg : s.graph.Regular)
    (hr : s.graph.Ranked rank) (hn : s.graph.node? id = some n)
    (hkind : n.kind ∈ rule.pattern.kinds)
    (hrun : exec (Rewrite.edit (RangeFusion.apply id f)) s = .ok (r, s')) :
    Outcome rule rank id s s' r := by
  cases hsource : RangeFusion.source? s.graph id with
  | none => exact .of_none (RangeFusion.apply_none f hsource) hrun
  | some found =>
    obtain ⟨fakeQuantize, value⟩ := found
    obtain ⟨hgraph, hcontext⟩ := Rewrite.exec_edit_eq.mp hrun
    rcases RangeFusion.apply_cases hsource hgraph with
      ⟨hne, hsame⟩ | ⟨low, high, outLow, outHigh, hlow, hhigh, hl, hh⟩
    · exact .skipped hne hsame (by rw [hcontext])
    · exact .of_done (ranged_done hrule hg hr hn hkind hsource hlow hhigh hl hh) hrun

theorem apply_cases (hg : s.graph.Regular) (hr : s.graph.Ranked rank)
    (hm : rule.pattern.matchAt s.graph id = some m)
    (hrun : exec (rule.apply m) s = .ok (r, s')) : Outcome rule rank id s s' r := by
  cases rule with
  | decomposition => exact decomposition_cases hg hr hm hrun
  | convertFusion => exact convertFusion_cases hg hr hm hrun
  | matMul => exact matMul_cases hg hr hm hrun
  | convolution => exact convolution_cases hg hr hm hrun
  | concat => exact concat_cases hg hm hrun
  | sanitization => exact sanitization_cases hg hr hm hrun
  | depthToSpace => exact depthToSpace_cases hg hr hm hrun
  | transparent => exact transparent_cases hg hr hm hrun
  | foldConvert => exact foldConvert_cases hg hr hm hrun
  | fuseSubtract =>
    obtain ⟨n, hn, hkind, rfl⟩ := Pattern.matchAt_eq_some hm
    rw [apply, exec_bind_ok (Rewrite.exec_graph s), exec_bind_ok (Rewrite.exec_context s)] at hrun
    exact ranged_cases (.inl rfl) hg hr hn hkind hrun
  | fuseMultiply =>
    obtain ⟨n, hn, hkind, rfl⟩ := Pattern.matchAt_eq_some hm
    rw [apply, exec_bind_ok (Rewrite.exec_graph s), exec_bind_ok (Rewrite.exec_context s)] at hrun
    exact ranged_cases (.inr rfl) hg hr hn hkind hrun

end Cases

end Rule

end LowPrecision
