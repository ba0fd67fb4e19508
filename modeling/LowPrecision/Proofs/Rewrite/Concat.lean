import LowPrecision.Proofs.Rewrite.Decomposition
import LowPrecision.Proofs.Rewrite.Plans

namespace LowPrecision

variable {α : Type}

def IsGraphError (e : TransformError) : Prop := ∃ e', e = .graph e'

theorem IsGraphError.fatal {e : TransformError} (h : IsGraphError e) : e.isFatal = true := by
  obtain ⟨e', rfl⟩ := h
  rfl

namespace Edit

variable {p : Graph α → Prop}

theorem stays_node (id : NodeId) : Stays p IsGraphError (Edit.node id) := by
  intro g r g' hg hrun
  obtain rfl := silent_node id g r g' hrun
  rw [Edit.node, Edit.ofGraph, exec_adapt, exec_ofExcept] at hrun
  refine ⟨hg, fun e he => ?_⟩
  subst he
  cases hn : g'.node id with
  | error e' =>
    rw [hn] at hrun
    cases hrun
    exact ⟨e', rfl⟩
  | ok n =>
    rw [hn] at hrun
    cases hrun

theorem stays_step {f : Graph α → Except GraphError Unit × Graph α}
    (h : ∀ g, p g → p (f g).2) : Stays p IsGraphError (Edit.ofGraph (Edit.step f)) := by
  apply Stays.adapt (q := fun _ => True)
  · intro g r g' hg hrun
    rw [Edit.exec_step] at hrun
    have hgraph : (f g).2 = g' := congrArg Prod.snd (Except.ok.inj hrun)
    exact ⟨hgraph ▸ h g hg, fun _ _ => trivial⟩
  · exact fun e _ => ⟨e, rfl⟩

theorem stays_attempt {β : Type} (f : Graph α → Attempt GraphError β) :
    Stays p IsGraphError (Edit.ofGraph (Edit.attempt f)) :=
  (silent_attempt f).stays.adapt fun e _ => ⟨e, rfl⟩

end Edit

namespace Rewrite

theorem stays_edit {β : Type} {p : Graph α → Prop} {q : TransformError → Prop}
    {e : Edit α TransformError β} (h : Stays p q e) (c : Context → Prop) :
    Stays (fun s : Session α => p s.graph ∧ c s.context) q (edit e) := by
  rintro s r s' ⟨hs, hc⟩ hrun
  obtain ⟨hgraph, hcontext⟩ := exec_edit_eq.mp hrun
  obtain ⟨hp, hq⟩ := h s.graph r s'.graph hs hgraph
  exact ⟨⟨hp, hcontext ▸ hc⟩, hq⟩

end Rewrite

theorem Rewrite.markAll_ok {β : Type} (entries : List (String × β)) (s : Session α) :
    ∃ c, exec (entries.forM fun (name, _) => Rewrite.markHandled name) s =
        .ok (.ok (), { s with context := c }) ∧
      ∀ name, name ∈ c.handled ↔ name ∈ s.context.handled ∨ ∃ e ∈ entries, e.1 = name := by
  induction entries generalizing s with
  | nil => exact ⟨s.context, rfl, by simp⟩
  | cons entry entries ih =>
    obtain ⟨c, hexec, hnames⟩ := ih { s with context := s.context.markHandled entry.1 }
    refine ⟨c, ?_, fun name => ?_⟩
    · rw [List.forM]
      exact (exec_bind_ok (Rewrite.exec_changeContext _ _) _).trans hexec
    · rw [hnames, Context.handled_markHandled]
      split
      · next hmem =>
        simp only [List.mem_cons, exists_eq_or_imp, ← or_assoc]
        refine or_congr_left (iff_self_or.mpr ?_)
        rintro rfl
        exact hmem
      · simp only [List.mem_cons, exists_eq_or_imp, or_assoc, eq_comm (a := name), or_left_comm]

namespace ConcatPlan

variable {g₀ g g' : Graph α} {id : NodeId} {n : Node α} {type : ElementType}

section Lower

variable {levels : Nat} {low high : Tensor α}

theorem exchangeBounds_ok (hg : g.Regular) (hn : g.node? id = some n)
    (hop : n.op = .fakeQuantize levels) (hin : 3 ≤ n.inputs.length) (low high : Tensor α)
    (type : ElementType) :
    ∃ g₁ g', exec (addFakeQuantize id low high type) g = .ok (.ok (g.nodes.size + 2), g₁) ∧
      exec (Graph.replaceNode id (g.nodes.size + 2) : Edit α GraphError Unit) g₁ =
        .ok (.ok (), g') ∧ g.Maintains g' := by
  obtain ⟨rank, hr⟩ := hg.acyclic
  have hkind : n.kind = .fakeQuantize := congrArg Op.kind hop
  have hone := hg.length_outputs hn (by simp [OpKind.HasOneOutput, hkind])
  obtain ⟨port, hport, -⟩ := port_of_single hn hone
  obtain ⟨data, inLow, inHigh, rest, hinputs⟩ := n.exists_ranges hin
  obtain ⟨g₁, hadd, hdoubled⟩ := addFakeQuantize_ok hg.wellFormed hn hop hinputs hport low high type
  obtain ⟨g', hreplace, -, hsupplanted⟩ :=
    (sourced_of_doubled (fun _ => ranges_below hr hn hinputs) hdoubled).replace hg.wellFormed hr hn
      hone (Decomposition.not_interface_of_fakeQuantize hop)
  exact ⟨g₁, g', hadd, hreplace, hsupplanted.maintains hg hn fun _ => hkind⟩

def IsBoundary (g : Graph α) (id : NodeId) : Prop :=
  ∃ f levels, g.face? id = some f ∧ f.op = .fakeQuantize levels ∧ 3 ≤ f.inputs.length

theorem IsBoundary.node (h : IsBoundary g₀ id) (hg : g₀.Maintains g) (hn : g.node? id = some n) :
    ∃ levels, n.op = .fakeQuantize levels ∧ 3 ≤ n.inputs.length := by
  obtain ⟨f, levels, hf, hop, hin⟩ := h
  obtain ⟨f', hf', halike⟩ :=
    hg.old id n.face (Graph.lt_size_of_face? hf) (Graph.face?_eq_some.mpr ⟨n, hn, rfl⟩)
  obtain rfl : f = f' := Option.some.inj (hf.symm.trans hf')
  exact ⟨levels, halike.op.trans hop, Nat.le_trans hin (Nat.le_of_eq halike.inputs.symm)⟩

theorem lowerBoundary_cons {branch : Branch α} {rest : List (NodeId × Branch α)} {s s' : Session α}
    {lowered : List (String × NodeId × ChannelParams α)}
    (hrun : exec (lowerBoundary type ((id, branch) :: rest)) s = .ok (.ok lowered, s')) :
    ∃ n v g₁ s₁ below, s.graph.node? id = some n ∧
      exec (addFakeQuantize id branch.low branch.high type) s.graph = .ok (.ok v, g₁) ∧
      exec (Graph.replaceNode id v : Edit α GraphError Unit) g₁ = .ok (.ok (), s₁.graph) ∧
      exec (lowerBoundary type rest) s₁ = .ok (.ok below, s') ∧
      lowered = (n.name, v, branch.params) :: below := by
  rw [lowerBoundary] at hrun
  obtain ⟨n, s₁, hnode, hrun₁⟩ := exec_bind_eq_answer.mp hrun
  obtain ⟨v, s₂, hadd, hrun₂⟩ := exec_bind_eq_answer.mp hrun₁
  obtain ⟨⟨⟩, s₃, hreplace, hrun₃⟩ := exec_bind_eq_answer.mp hrun₂
  obtain ⟨⟨⟩, s₄, hcontext, hrun₄⟩ := exec_bind_eq_answer.mp hrun₃
  obtain ⟨below, s₅, hbelow, hpure⟩ := exec_bind_eq_answer.mp hrun₄
  cases hpure
  obtain ⟨hn, hsame⟩ := Edit.exec_node_eq_ok.mp (Rewrite.exec_edit_eq.mp hnode).1
  have hadded := (Rewrite.exec_edit_eq.mp hadd).1
  have hreplaced := exec_adapt_eq_ok.mp (Rewrite.exec_edit_eq.mp hreplace).1
  have hkept : s₄.graph = s₃.graph := by
    cases hcontext
    rfl
  rw [hsame] at hadded
  rw [← hkept] at hreplaced
  exact ⟨n, v, s₂.graph, s₄, below, hn, hadded, hreplaced, hbelow, rfl⟩

theorem exec_lowerBoundary_cons {branch : Branch α} {rest : List (NodeId × Branch α)}
    {s : Session α} {v : NodeId} {g₁ g₂ : Graph α} (hn : s.graph.node? id = some n)
    (hadd : exec (addFakeQuantize id branch.low branch.high type) s.graph = .ok (.ok v, g₁))
    (hreplace : exec (Graph.replaceNode id v : Edit α GraphError Unit) g₁ = .ok (.ok (), g₂)) :
    exec (lowerBoundary type ((id, branch) :: rest)) s =
      exec (do return (n.name, v, branch.params) :: (← lowerBoundary type rest))
        ⟨g₂, { s.context with degenerate := s.context.degenerate + branch.degenerate }⟩ := by
  have hnode : exec (Rewrite.edit (Edit.node id)) s = .ok (.ok n, s) :=
    Rewrite.exec_edit_eq.mpr ⟨Edit.exec_node hn, rfl⟩
  have hadded : exec (Rewrite.edit (addFakeQuantize id branch.low branch.high type)) s =
      .ok (.ok v, ⟨g₁, s.context⟩) := Rewrite.exec_edit_eq.mpr ⟨hadd, rfl⟩
  have hreplaced : exec (Rewrite.editGraph (Graph.replaceNode id v)) ⟨g₁, s.context⟩ =
      .ok (.ok (), ⟨g₂, s.context⟩) :=
    Rewrite.exec_edit_eq.mpr ⟨Edit.exec_ofGraph_ok hreplace, rfl⟩
  rw [lowerBoundary, exec_bind_ok hnode, exec_bind_ok hadded, exec_bind_ok hreplaced,
    exec_bind_ok (Rewrite.exec_changeContext _ _)]

theorem lowerBoundary_cases {branches : List (NodeId × Branch α)} {s s' : Session α}
    {r : Except TransformError (List (String × NodeId × ChannelParams α))}
    (hbranches : ∀ b ∈ branches, IsBoundary g₀ b.1) (hs : g₀.Maintains s.graph)
    (hrun : exec (lowerBoundary type branches) s = .ok (r, s')) :
    g₀.Maintains s'.graph ∧ s'.context.handled = s.context.handled ∧
      (∀ e, r = .error e → IsGraphError e) ∧
      ∀ lowered, r = .ok lowered →
        List.Forall₂ (fun b entry => g₀.name? b.1 = some entry.1) branches lowered := by
  induction branches generalizing s r with
  | nil =>
    cases hrun
    refine ⟨hs, rfl, fun e he => (by cases he), fun lowered hl => ?_⟩
    cases hl
    exact .nil
  | cons b branches ih =>
    obtain ⟨id, branch⟩ := b
    obtain ⟨hboundary, hrest⟩ := List.forall_mem_cons.mp hbranches
    cases hn : s.graph.node? id with
    | none =>
      have hnode : exec (Rewrite.edit (Edit.node id)) s = .ok (.error (.graph (.unknownNode id)), s) :=
        Rewrite.exec_edit_eq.mpr ⟨Edit.exec_node_none hn, rfl⟩
      rw [lowerBoundary, exec_bind_error hnode] at hrun
      cases hrun
      refine ⟨hs, rfl, fun e he => ?_, fun l hl => (by cases hl)⟩
      cases he
      exact ⟨_, rfl⟩
    | some n =>
      obtain ⟨levels, hop, hin⟩ := hboundary.node hs hn
      obtain ⟨g₁, g₂, hadd, hreplace, hmaintains⟩ :=
        exchangeBounds_ok hs.regular hn hop hin branch.low branch.high type
      rw [exec_lowerBoundary_cons hn hadd hreplace] at hrun
      rcases exec_bind_eq_ok.mp hrun with ⟨lowered, s₂, htail, h₂⟩ | ⟨e, htail, rfl⟩
      · cases h₂
        obtain ⟨hs', hhandled, -, hnames⟩ := ih hrest (hs.trans hmaintains) htail
        refine ⟨hs', hhandled, fun e he => (by cases he), fun l hl => ?_⟩
        cases hl
        refine .cons ?_ (hnames lowered rfl)
        obtain ⟨f, _, hf, -⟩ := hboundary
        have hkept := hs.name id (Graph.lt_size_of_face? hf) (by rw [Graph.isLive, hn]; rfl)
        rw [← hkept, Graph.name?, hn]
        rfl
      · obtain ⟨hs', hhandled, herror, -⟩ := ih hrest (hs.trans hmaintains) htail
        refine ⟨hs', hhandled, fun e' he' => ?_, fun l hl => (by cases hl)⟩
        cases he'
        exact herror e rfl

end Lower

section Behind

theorem stays_retypeLayers {layers : List NodeId}
    (h : ∀ id ∈ layers, id < g₀.nodes.size ∧ ∀ f, g₀.face? id = some f → f.inputs ≠ []) :
    Stays g₀.Maintains IsGraphError (retypeLayers type layers) := by
  apply Stays.forM
  intro id hid
  apply (Edit.stays_node id).bind
  intro n
  apply Stays.forM
  intro index _
  apply Edit.stays_step
  intro g hg
  rcases Graph.setOutputType_cases g ⟨id, index⟩ type with ⟨e, he⟩ | ⟨hwire, -⟩
  · rwa [he]
  · rw [Graph.wire?_isSome_eq_port] at hwire
    obtain ⟨g', hset, hrecast⟩ := Graph.setOutputType_ok hg.regular.wellFormed hwire type
    obtain ⟨rank, hr⟩ := hg.regular.acyclic
    rw [hset]
    have hreworked : Graph.Reworked rank g.nodes.size 0 (fun _ _ => False) g g' := by
      apply Graph.Reworked.of_retyped hg.regular.wellFormed hr (s := ⟨id, index⟩) hrecast
      intro f hf hnil
      obtain ⟨f₀, hf₀, halike⟩ := hg.old id f (h id hid).1 hf
      apply (h id hid).2 f₀ hf₀
      rw [← List.length_eq_zero_iff, ← halike.inputs, hnil, List.length_nil]
    exact hg.trans (hreworked.maintains hg.regular (Nat.le_refl _) fun _ _ hfalse => hfalse.elim)

variable [Scalar α]

theorem stays_dequantizeBehind (inside : Region) (id : NodeId) (p : ChannelParams α) :
    Stays g₀.Maintains IsGraphError (dequantizeBehind inside id p) := by
  apply (Edit.stays_node id).bind
  intro n
  apply Stays.forM
  intro index _ g r g' hg hrun
  rw [exec_bind_ok (Edit.exec_read _ _)] at hrun
  split at hrun
  rotate_left
  · cases hrun
    exact ⟨hg, by simp⟩
  rcases exec_bind_eq_ok.mp hrun with ⟨port, g₁, hport, h₁⟩ | ⟨e, hport, rfl⟩
  rotate_left
  · obtain rfl := Edit.silent_port _ _ _ _ hport
    refine ⟨hg, fun e' he' => ?_⟩
    cases he'
    rw [Edit.port, Edit.ofGraph, exec_adapt, Edit.exec_ofExcept] at hport
    cases hfound : g'.port ⟨id, index⟩ with
    | error e'' =>
      rw [hfound] at hport
      cases hport
      exact ⟨e'', rfl⟩
    | ok q =>
      rw [hfound] at hport
      cases hport
  obtain rfl := Edit.silent_port _ _ _ _ hport
  rcases exec_bind_eq_ok.mp h₁ with ⟨params, g₂, hparams, h₂⟩ | ⟨e, hparams, rfl⟩
  rotate_left
  · exact absurd hparams (by rw [exec_lift]; cases p.dequantization port <;> simp [Except.map])
  obtain ⟨-, rfl⟩ := exec_lift_eq_ok.mp hparams
  have hfound : ∃ q, g₂.port? ⟨id, index⟩ = some q := by
    rw [Edit.port, Edit.ofGraph, exec_adapt_eq_ok, Edit.exec_ofExcept] at hport
    cases hfound : g₂.port ⟨id, index⟩ with
    | error e =>
      rw [hfound] at hport
      cases hport
    | ok q => exact ⟨q, by rw [Graph.port?, hfound]; rfl⟩
  obtain ⟨q, hq⟩ := hfound
  have hslots : ∀ r ∈ inside.readersOutside g₂ ⟨id, index⟩, r ∈ g₂.readers ⟨id, index⟩ :=
    fun r hr => (List.mem_filter.mp hr).1
  obtain ⟨d, g₃, hinsert, hmaintains, -⟩ :=
    Graph.insert_maintains hg.regular hq hslots params n.name
  rw [exec_discard_ok hinsert] at h₂
  cases h₂
  exact ⟨hg.trans hmaintains, by simp⟩

theorem stays_dequantized {known : List (NodeId × ChannelParams α)} {inside : Region}
    {ids : List NodeId} (c : Context → Prop) :
    Stays (fun t : Session α => g₀.Maintains t.graph ∧ c t.context) IsGraphError
      (ids.forM fun id => do
        if let some (_, p) := known.find? (·.1 = id) then
          Rewrite.edit (dequantizeBehind inside id p)) := by
  apply Stays.forM
  intro id _
  split
  · exact Rewrite.stays_edit (stays_dequantizeBehind _ _ _) c
  · exact Stays.pure _

end Behind

section Apply

variable [Scalar α] {concat : NodeId} {plan : ConcatPlan α} {s s' : Session α}

omit [Scalar α] in
theorem readBoundary?_eq_some {c : Context} {r : Ranges α} {allowed : PrecisionSet}
    (h : readBoundary? c g id = some (r, allowed)) :
    ∃ n, g.node? id = some n ∧ n.name ∉ c.handled ∧ Ranges.ofNode g id = .ok r ∧
      r.hasSupportedLayout g id = true ∧ allowed = Markup.allowedPrecisions g id := by
  obtain ⟨n, hn, h⟩ := Option.bind_eq_some_iff.mp h
  obtain ⟨port, -, h⟩ := Option.bind_eq_some_iff.mp h
  split at h
  · cases h
  · next hopen =>
    obtain ⟨r', hr, h⟩ := Option.bind_eq_some_iff.mp h
    rw [Option.ite_none_right_eq_some] at h
    obtain ⟨hlayout, heq⟩ := h
    cases heq
    refine ⟨n, hn, fun hmem => hopen ?_, ?_, hlayout, rfl⟩
    · simp [Context.isHandled, hmem]
    · cases hranges : Ranges.ofNode g id with
      | error e =>
        rw [hranges] at hr
        cases hr
      | ok r'' =>
        rw [hranges] at hr
        cases hr
        rfl

theorem Accepted.open {c : Context} (h : Accepted c g concat plan)
    (hid : id ∈ plan.region.boundary) :
    ∃ n r, g.node? id = some n ∧ n.name ∉ c.handled ∧ Ranges.ofNode g id = .ok r := by
  obtain ⟨k, hk⟩ := List.mem_iff_getElem?.mp hid
  obtain ⟨r, -, allowed, hread⟩ := forall₂_getElem? h.ranges hk
  obtain ⟨n, hn, hopen, hr, -⟩ := readBoundary?_eq_some hread
  exact ⟨n, r, hn, hopen, hr⟩

theorem Accepted.isBoundary {c : Context} (h : Accepted c g concat plan)
    (hid : id ∈ plan.region.boundary) : IsBoundary g id := by
  obtain ⟨-, r, -, -, hr⟩ := h.open hid
  obtain ⟨n, _, _, _, _, _, _, hn, hop, hin, -⟩ := Ranges.ofNode_eq_ok.mp hr
  refine ⟨n.face, r.levels, Graph.face?_eq_some.mpr ⟨n, hn, rfl⟩, hop, ?_⟩
  simp [Node.face, hin]

theorem Accepted.reads {c : Context} (h : Accepted c g concat plan)
    (hid : id ∈ plan.region.layers) :
    id < g.nodes.size ∧ ∀ f, g.face? id = some f → f.inputs ≠ [] := by
  have hlive : ∃ n, g.node? id = some n ∧ n.inputs ≠ [] := by
    obtain ⟨hids, hparams⟩ := layerParams_eq_ok h.layers
    rw [← hids] at hid
    obtain ⟨layer, hlayer, rfl⟩ := List.mem_map.mp hid
    rcases paramsOf_eq_ok (hparams layer hlayer) with ⟨b, hfind⟩ | ⟨-, n, hn, hcase⟩
    · obtain rfl : b = layer.1 := by simpa using List.find?_some hfind
      obtain ⟨f, _, hf, -, hin⟩ := h.isBoundary (List.of_mem_zip (List.mem_of_find?_eq_some hfind)).1
      obtain ⟨n, hn, rfl⟩ := Graph.face?_eq_some.mp hf
      exact ⟨n, hn, List.ne_nil_of_length_pos (Nat.lt_of_lt_of_le (by decide) hin)⟩
    · refine ⟨n, hn, fun hnil => ?_⟩
      rcases hcase with ⟨axis, inputs, -, hslots, -, hjoin⟩ | ⟨-, s, hs, -⟩
      · rw [hnil, List.map_eq_nil_iff] at hslots
        subst hslots
        cases hjoin
      · simp [Node.input?, hnil] at hs
  obtain ⟨n, hn, hin⟩ := hlive
  refine ⟨Graph.lt_size_of_node? hn, fun f hf => ?_⟩
  obtain rfl := Option.some.inj ((Graph.face?_eq_some.mpr ⟨n, hn, rfl⟩).symm.trans hf)
  exact hin

def rework (plan : ConcatPlan α) (type : ElementType) (known : List (NodeId × ChannelParams α)) :
    Rewrite α Unit := do
  let order ← Rewrite.editGraph (Edit.attempt Graph.topologicalOrder)
  let rewritten := order.filter fun id => known.any (·.1 = id)
  Rewrite.edit (retypeLayers type (rewritten.filter (· ∈ plan.region.layers)))
  let inside : Region := { Region.empty with layers := known.map Prod.fst }
  rewritten.forM fun id => do
    if let some (_, p) := known.find? (·.1 = id) then
      Rewrite.edit (dequantizeBehind inside id p)

theorem apply_eq (plan : ConcatPlan α) : plan.apply = (do
    let type := storageType (← Rewrite.context).params plan.grid.precision
    let lowered ← lowerBoundary type (plan.region.boundary.zip plan.branches)
    plan.rework type (plan.layers ++ lowered.map Prod.snd)
    lowered.forM fun (name, _) => Rewrite.markHandled name) := by
  rw [apply]
  refine bind_congr fun c => bind_congr fun lowered => ?_
  rw [rework, bind_assoc]
  exact bind_congr fun order => (bind_assoc _ _ _).symm

theorem apply_run (hrun : exec plan.apply s = .ok (.ok (), s')) :
    ∃ lowered s₁ s₂, exec (lowerBoundary (storageType s.context.params plan.grid.precision)
        (plan.region.boundary.zip plan.branches)) s = .ok (.ok lowered, s₁) ∧
      exec (plan.rework (storageType s.context.params plan.grid.precision)
        (plan.layers ++ lowered.map Prod.snd)) s₁ = .ok (.ok (), s₂) ∧ s'.graph = s₂.graph := by
  rw [apply_eq, exec_bind_ok (Rewrite.exec_context s)] at hrun
  obtain ⟨lowered, s₁, hlower, h₁⟩ := exec_bind_eq_answer.mp hrun
  obtain ⟨⟨⟩, s₂, hrework, h₂⟩ := exec_bind_eq_answer.mp h₁
  obtain ⟨c, hmarks, -⟩ := Rewrite.markAll_ok lowered s₂
  rw [hmarks] at h₂
  cases h₂
  exact ⟨lowered, s₁, s₂, hlower, hrework, rfl⟩

theorem stays_rework {c₀ : Context} (h : Accepted c₀ g concat plan) (type : ElementType)
    (known : List (NodeId × ChannelParams α)) (c : Context → Prop) :
    Stays (fun t : Session α => g.Maintains t.graph ∧ c t.context) IsGraphError
      (plan.rework type known) := by
  refine (Rewrite.stays_edit (Edit.stays_attempt _) c).bind fun order => ?_
  refine (Rewrite.stays_edit (stays_retypeLayers fun id hid => ?_) c).bind fun _ =>
    stays_dequantized c
  exact h.reads (of_decide_eq_true (List.mem_filter.mp hid).2)

theorem apply_cases {r : Except TransformError Unit} (hg : s.graph.Regular)
    (h : Accepted s.context s.graph concat plan) (hrun : exec (apply plan) s = .ok (r, s')) :
    s.graph.Maintains s'.graph ∧
      ((∃ e, r = .error e ∧ IsGraphError e ∧ s'.context.handled = s.context.handled) ∨
        r = .ok () ∧ ∀ name, name ∈ s'.context.handled ↔
          name ∈ s.context.handled ∨ ∃ id ∈ plan.region.boundary, s.graph.name? id = some name) := by
  rw [apply_eq, exec_bind_ok (Rewrite.exec_context _)] at hrun
  dsimp only at hrun
  have hbranches : ∀ b ∈ plan.region.boundary.zip plan.branches, IsBoundary s.graph b.1 :=
    fun b hb => h.isBoundary (List.of_mem_zip hb).1
  rcases exec_bind_eq_ok.mp hrun with ⟨lowered, s₁, hlower, h₁⟩ | ⟨e, hlower, rfl⟩
  rotate_left
  · obtain ⟨hs', hhandled, herror, -⟩ := lowerBoundary_cases hbranches (.refl hg) hlower
    exact ⟨hs', .inl ⟨e, rfl, herror e rfl, hhandled⟩⟩
  obtain ⟨hs₁, hhandled, -, hnames⟩ := lowerBoundary_cases hbranches (.refl hg) hlower
  have hstays := stays_rework h (storageType s.context.params plan.grid.precision)
    (plan.layers ++ lowered.map Prod.snd) (· = s₁.context)
  rcases exec_bind_eq_ok.mp h₁ with ⟨⟨⟩, s₂, hrework, h₂⟩ | ⟨e, hrework, rfl⟩
  rotate_left
  · obtain ⟨⟨hs', hcontext⟩, herror⟩ := hstays _ _ _ ⟨hs₁, rfl⟩ hrework
    exact ⟨hs', .inl ⟨e, rfl, herror e rfl, hcontext ▸ hhandled⟩⟩
  obtain ⟨hgraph, hcontext⟩ := (hstays _ _ _ ⟨hs₁, rfl⟩ hrework).1
  obtain ⟨c, hmarks, hhandled'⟩ := Rewrite.markAll_ok lowered s₂
  rw [hmarks] at h₂
  cases h₂
  refine ⟨hgraph, .inr ⟨rfl, fun name => ?_⟩⟩
  rw [hhandled', hcontext, hhandled]
  refine or_congr_right ⟨?_, ?_⟩
  · rintro ⟨entry, hentry, he⟩
    obtain ⟨k, hk⟩ := List.mem_iff_getElem?.mp hentry
    obtain ⟨b, hb, hbname⟩ := forall₂_getElem? (hnames lowered rfl).flip hk
    exact ⟨b.1, (List.of_mem_zip (List.mem_of_getElem? hb)).1, he ▸ hbname⟩
  · rintro ⟨id, hid, hname⟩
    have hlength := h.ranges.length_eq.trans h.branches.length_eq
    obtain ⟨k, hk, rfl⟩ := List.mem_iff_getElem.mp hid
    have hk' : k < plan.branches.length := hlength ▸ hk
    have hb : (plan.region.boundary.zip plan.branches)[k]? =
        some (plan.region.boundary[k], plan.branches[k]) := by
      simp [hk, hk']
    obtain ⟨entry, hentry, hename⟩ := forall₂_getElem? (hnames lowered rfl) hb
    exact ⟨entry, List.mem_of_getElem? hentry, Option.some.inj (hename.symm.trans hname)⟩

end Apply

end ConcatPlan

end LowPrecision
