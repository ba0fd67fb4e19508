import LowPrecision.Proofs.Quantization.Totality
import LowPrecision.Proofs.Rewrite.Installation

namespace LowPrecision

variable {α : Type}

namespace Decomposition

section Source

variable {g g₁ : Graph α} {id : NodeId} {n : Node α} {levels : Nat}
  {data low high source : Slot} {rest : List Slot} {q : Port}

theorem not_interface_of_fakeQuantize {levels : Nat} (hop : n.op = .fakeQuantize levels) :
    ¬ n.kind.IsInterface := by
  simp [OpKind.IsInterface, Node.kind, hop, Op.kind]

theorem sourced_of_added {rank : NodeId → Nat} {value : Tensor α} {kind : OpKind}
    (h : Graph.Added g g₁ ⟨.constant value, [], [q], none⟩) :
    Sourced g g₁ rank id ⟨g.nodes.size, 0⟩ kind where
  extended := h.extends (by simp) (by simp)
  count := by
    rw [h.size]
    omega
  new := Nat.le_refl _
  face := ⟨_, _, h.new, rfl⟩
  index := rfl
  fresh v f hv hf := by
    obtain ⟨-, rfl⟩ := h.eq_new hv hf
    exact ⟨.inl (.inl rfl), rfl⟩

variable [Scalar α] {name : String} {p : Lowering α} {type : ElementType}

theorem bound_done {values : List α} {t : Tensor α}
    (hrun : exec (Edit.attempt fun _ => ExceptT.adapt .tensor do
      layOut p.ranges.boundsShape (← quantizeBounds p.grid p.params values) :
        Edit α TransformError (Tensor α)) g = .ok (.ok t, g₁)) :
    quantizeBounds p.grid p.params values = .ok t.data ∧ g₁ = g := by
  obtain ⟨hattempt, hsame⟩ := Edit.exec_attempt_eq_ok.mp hrun
  obtain ⟨bounds, hbounds, hlay⟩ := attempt_bind_eq_ok.mp (attempt_adapt_eq_ok.mp hattempt)
  exact ⟨Tensor.data_of_layOut hlay ▸ attempt_lift_eq_ok.mp hbounds, hsame⟩

theorem addSource_none (h : g.WellFormed) (hn : g.node? id = some n)
    (hop : n.op = .fakeQuantize levels) (hin : n.inputs = data :: low :: high :: rest)
    (hq : g.port? ⟨id, 0⟩ = some q)
    (hexec : exec (addSource id name p type none) g = .ok (.ok source, g₁)) :
    ∃ outLow outHigh, quantizeBounds p.grid p.params p.lows = .ok outLow.data ∧
      quantizeBounds p.grid p.params p.highs = .ok outHigh.data ∧
      source = ⟨g.nodes.size + 2, 0⟩ ∧
      Doubled g g₁ levels data low high (q.withType type) outLow outHigh := by
  rw [addSource] at hexec
  obtain ⟨outLow, k, hrunLow, htail⟩ := exec_bind_eq_answer.mp hexec
  obtain ⟨outHigh, k', hrunHigh, hrest⟩ := exec_bind_eq_answer.mp htail
  obtain ⟨hlow, rfl⟩ := bound_done hrunLow
  obtain ⟨hhigh, rfl⟩ := bound_done hrunHigh
  obtain ⟨g₂, hadd, hdoubled⟩ := addFakeQuantize_ok h hn hop hin hq outLow outHigh type
  rw [exec_bind_ok hadd, exec_pure] at hrest
  cases hrest
  exact ⟨outLow, outHigh, hlow, hhigh, rfl, hdoubled⟩

theorem addSource_some (h : g.WellFormed) {weights : Tensor α}
    (hexec : exec (addSource id name p type (some weights)) g = .ok (.ok source, g₁)) :
    ∃ folded, (foldWeights name p.ranges p.grid p.lows p.highs p.params weights).run =
        .ok (.ok folded) ∧ source = ⟨g.nodes.size, 0⟩ ∧
      Graph.Added g g₁ ⟨.constant folded, [], [⟨type, some folded.shape⟩], none⟩ := by
  rw [addSource] at hexec
  obtain ⟨folded, k, hrun, hrest⟩ := exec_bind_eq_answer.mp hexec
  obtain ⟨hfold, rfl⟩ := Edit.exec_attempt_eq_ok.mp hrun
  obtain ⟨g₂, hadd, hadded⟩ := Edit.addConstant_ok h s!"{name}/Folded" folded type
  rw [hadd] at hrest
  cases hrest
  exact ⟨folded, hfold, rfl, hadded⟩

end Source

section Lower

theorem successor_eq (weights : Option (Tensor α)) (source : Slot) (d : Dequantization α) :
    successor weights source d = source.node ∨
      ∃ s, d.multiply = some (successor weights source d, s) := by
  unfold successor
  split
  · next hm => exact .inr ⟨_, hm⟩
  · exact .inl rfl

variable [Scalar α] {g g' : Graph α} {rank : NodeId → Nat} {id : NodeId} {n : Node α} {data : Slot}
  {p : Lowering α} {affine : AffineParams α} {type : ElementType} {d : Dequantization α}

theorem lower_eq (hn : g.node? id = some n) (hdata : n.input? 0 = some data) :
    exec (lower id p affine type) g = exec (do
      let source ← addSource id n.name p type (g.constant? data)
      return (n.name, ← place id n (g.constant? data) affine source)) g := by
  rw [lower, exec_bind_ok (Edit.exec_node hn)]
  simp only [hdata]
  rw [exec_bind_ok (Edit.exec_read _ _)]

variable {g₁ : Graph α} {source : Slot} {weights : Option (Tensor α)}

theorem place_ok {kind : OpKind} (hg : g.WellFormed) (hrank : g.Ranked rank)
    (hn : g.node? id = some n) (hkind : ¬ n.kind.IsInterface)
    (h : Sourced g g₁ rank id source kind) :
    (n.outputs.length = 1 → ∃ d g', exec (place id n weights affine source) g₁ = .ok (.ok d, g')) ∧
      ∀ d g', exec (place id n weights affine source) g₁ = .ok (.ok d, g') →
        Installed g g₁ g' source affine d ∧
          Supplanted g g' rank id (successor weights source d) source.node kind := by
  obtain ⟨d₀, g₂, hinsert, hreplace⟩ := install_ok hg hrank hn hkind h affine n.name
  obtain ⟨hok, hone⟩ := hreplace _ (successor_eq weights source d₀)
  rw [place, exec_bind_ok hinsert]
  refine ⟨fun hlength => ?_, fun d g' hrun => ?_⟩
  · obtain ⟨g', hreplaced, -⟩ := hok hlength
    exact ⟨d₀, g', exec_bind_ok (Edit.exec_ofGraph_ok hreplaced) _⟩
  · obtain ⟨_, k, hreplaced, hrest⟩ := exec_bind_eq_answer.mp hrun
    cases hrest
    have hreplaced' := exec_adapt_eq_ok.mp hreplaced
    obtain ⟨g'', hreplaced'', hinstalled⟩ := hok (hone g' hreplaced')
    cases hreplaced'.symm.trans hreplaced''
    exact hinstalled

end Lower

section Run

variable [Scalar α] {s s' : Session α} {id : NodeId} {d : Dequantization α}

theorem gridOf_eq_ok {g g' : Graph α} {r : Ranges α} {lows highs : List α} {grid : Grid α} :
    exec (gridOf id r lows highs) g = .ok (.ok grid, g') ↔
      (Grid.select lows highs r.levels (Markup.allowedPrecisions g id)).run =
        .ok (.ok (some grid)) ∧ g' = g := by
  rw [gridOf, exec_bind_eq_ok]
  constructor
  · rintro (⟨found, t, hrun, hrest⟩ | ⟨e, -, he⟩)
    · obtain ⟨hselect, rfl⟩ := Edit.exec_attempt_eq_ok.mp hrun
      cases found with
      | none => cases hrest
      | some found =>
        cases hrest
        exact ⟨hselect, rfl⟩
    · cases he
  · rintro ⟨hselect, rfl⟩
    exact .inl ⟨some grid, g', Edit.exec_attempt_eq_ok.mpr ⟨hselect, rfl⟩, rfl⟩

theorem decompose_run (hrun : exec (decompose id) s = .ok (.ok d, s')) :
    ∃ p affine type name, Ranges.ofNode s.graph id = .ok p.ranges ∧
      p.ranges.outputBounds = .ok (p.lows, p.highs) ∧
      (Grid.select p.lows p.highs p.ranges.levels (Markup.allowedPrecisions s.graph id)).run =
        .ok (.ok (some p.grid)) ∧
      channelParams p.grid p.lows p.highs = .ok p.params ∧
      (affineParams p.ranges.boundsShape p.params).run = .ok (.ok affine) ∧
      type = storageType s.context.params p.grid.precision ∧
      exec (lower id p affine type) s.graph = .ok (.ok (name, d), s'.graph) := by
  rw [decompose] at hrun
  obtain ⟨r, s₁, hr, h₁⟩ := exec_bind_eq_answer.mp hrun
  obtain ⟨⟨lows, highs⟩, s₂, hbounds, h₂⟩ := exec_bind_eq_answer.mp h₁
  obtain ⟨grid, s₃, hgrid, h₃⟩ := exec_bind_eq_answer.mp h₂
  obtain ⟨params, s₄, hparams, h₄⟩ := exec_bind_eq_answer.mp h₃
  obtain ⟨_, s₅, hcontext, h₅⟩ := exec_bind_eq_answer.mp h₄
  obtain ⟨affine, s₆, haffine, h₆⟩ := exec_bind_eq_answer.mp h₅
  obtain ⟨c, s₇, hc, h₇⟩ := exec_bind_eq_answer.mp h₆
  obtain ⟨⟨name, chain⟩, s₈, hlower, h₈⟩ := exec_bind_eq_answer.mp h₇
  obtain ⟨hranges, rfl⟩ := Rewrite.exec_edit_ofExcept_eq_ok.mp hr
  obtain ⟨hlows, rfl⟩ := exec_lift_eq_ok.mp hbounds
  obtain ⟨hedit, hsame⟩ := Rewrite.exec_edit_eq.mp hgrid
  obtain ⟨hselect, hgraph⟩ := gridOf_eq_ok.mp hedit
  obtain ⟨hchannels, rfl⟩ := exec_lift_eq_ok.mp hparams
  cases hcontext
  obtain ⟨hlaid, rfl⟩ := Rewrite.exec_edit_attempt_eq_ok.mp haffine
  cases hc
  have hlowered := (Rewrite.exec_edit_eq.mp hlower).1
  cases h₈
  exact ⟨⟨r, lows, highs, grid, params⟩, affine, _, name, hranges, hlows, hselect, hchannels,
    attempt_adapt_eq_ok.mp hlaid, congrArg (storageType ·.params grid.precision) hsame,
    hgraph ▸ hlowered⟩

theorem lower_run {g g' : Graph α} {n : Node α} {data : Slot} {p : Lowering α}
    {affine : AffineParams α} {type : ElementType} {name : String} (hn : g.node? id = some n)
    (hdata : n.input? 0 = some data)
    (hrun : exec (lower id p affine type) g = .ok (.ok (name, d), g')) :
    ∃ source g₁, exec (addSource id n.name p type (g.constant? data)) g = .ok (.ok source, g₁) ∧
      exec (place id n (g.constant? data) affine source) g₁ = .ok (.ok d, g') := by
  rw [lower_eq hn hdata] at hrun
  obtain ⟨source, g₁, hsource, hrest⟩ := exec_bind_eq_answer.mp hrun
  obtain ⟨d', g₂, hplace, hpure⟩ := exec_bind_eq_answer.mp hrest
  cases hpure
  exact ⟨source, g₁, hsource, hplace⟩

theorem place_run {g g' : Graph α} {n : Node α} {weights : Option (Tensor α)}
    {affine : AffineParams α} {source : Slot}
    (hrun : exec (place id n weights affine source) g = .ok (.ok d, g')) :
    ∃ g₁, exec (Dequantization.insert source (n.readers 0) affine n.name) g = .ok (.ok d, g₁) ∧
      exec (Graph.replaceNode id (successor weights source d) : Edit α GraphError Unit) g₁ =
        .ok (.ok (), g') := by
  rw [place] at hrun
  obtain ⟨d', g₁, hinsert, hrest⟩ := exec_bind_eq_answer.mp hrun
  obtain ⟨⟨⟩, g₂, hreplace, hpure⟩ := exec_bind_eq_answer.mp hrest
  cases hpure
  exact ⟨g₁, hinsert, exec_adapt_eq_ok.mp hreplace⟩

theorem decompose_steps (hrun : exec (decompose id) s = .ok (.ok d, s')) :
    ∃ n levels data p affine source g₁, s.graph.node? id = some n ∧ n.op = .fakeQuantize levels ∧
      n.input? 0 = some data ∧ p.grid.precision ∈ Markup.allowedPrecisions s.graph id ∧
      exec (addSource id n.name p (storageType s.context.params p.grid.precision)
        (s.graph.constant? data)) s.graph = .ok (.ok source, g₁) ∧
      exec (place id n (s.graph.constant? data) affine source) g₁ = .ok (.ok d, s'.graph) := by
  obtain ⟨p, affine, type, name, hranges, -, hselect, -, -, rfl, hlower⟩ := decompose_run hrun
  obtain ⟨n, data, _, _, _, _, _, hn, hop, hin, -⟩ := Ranges.ofNode_eq_ok.mp hranges
  have hdata : n.input? 0 = some data := by rw [Node.input?, hin]; rfl
  obtain ⟨source, g₁, hsource, hplace⟩ := lower_run hn hdata hlower
  exact ⟨n, _, data, p, affine, source, g₁, hn, hop, hdata, precision_of_select hselect, hsource,
    hplace⟩

theorem silent_gridOf (r : Ranges α) (lows highs : List α) : Silent (gridOf id r lows highs) := by
  apply Silent.bind (Edit.silent_attempt _)
  intro grid
  split
  · exact .pure _
  · exact .throw _

theorem addSource_cases {g g₁ : Graph α} {n : Node α} {levels : Nat} {data low high : Slot}
    {rest : List Slot} {q : Port} {name : String} {p : Lowering α} {type : ElementType}
    {weights : Option (Tensor α)} {r : Except TransformError Slot} (hg : g.WellFormed)
    (hn : g.node? id = some n) (hop : n.op = .fakeQuantize levels)
    (hin : n.inputs = data :: low :: high :: rest) (hq : g.port? ⟨id, 0⟩ = some q)
    (hrun : exec (addSource id name p type weights) g = .ok (r, g₁)) :
    (∃ e, r = .error e ∧ g₁ = g) ∨ ∃ source, r = .ok source := by
  cases weights with
  | some weights =>
    rw [addSource] at hrun
    obtain ⟨folded, -, hadd⟩ | ⟨e, rfl, rfl⟩ := (Edit.silent_attempt _).bind_cases hrun
    · obtain ⟨g₂, hok, -⟩ := Edit.addConstant_ok hg s!"{name}/Folded" folded type
      rw [hok] at hadd
      cases hadd
      exact .inr ⟨_, rfl⟩
    · exact .inl ⟨e, rfl, rfl⟩
  | none =>
    rw [addSource] at hrun
    obtain ⟨outLow, -, hrest⟩ | ⟨e, rfl, rfl⟩ := (Edit.silent_attempt _).bind_cases hrun
    rotate_left
    · exact .inl ⟨e, rfl, rfl⟩
    obtain ⟨outHigh, -, hadded⟩ | ⟨e, rfl, rfl⟩ := (Edit.silent_attempt _).bind_cases hrest
    rotate_left
    · exact .inl ⟨e, rfl, rfl⟩
    obtain ⟨g₂, hadd, -⟩ := addFakeQuantize_ok hg hn hop hin hq outLow outHigh type
    rw [exec_bind_ok hadd, exec_pure] at hadded
    cases hadded
    exact .inr ⟨_, rfl⟩

theorem lower_cases {g g' : Graph α} {rank : NodeId → Nat} {n : Node α} {levels : Nat}
    {data low high : Slot} {rest : List Slot} {p : Lowering α} {affine : AffineParams α}
    {type : ElementType} {r : Except TransformError (String × Dequantization α)}
    (hg : g.WellFormed) (hrank : g.Ranked rank) (hn : g.node? id = some n)
    (hop : n.op = .fakeQuantize levels) (hin : n.inputs = data :: low :: high :: rest)
    (hone : n.outputs.length = 1) (hrun : exec (lower id p affine type) g = .ok (r, g')) :
    (∃ e, r = .error e ∧ g' = g) ∨ ∃ d successor, r = .ok (n.name, d) ∧
      Supplanted g g' rank id successor successor .fakeQuantize := by
  obtain ⟨q, hq, -⟩ := port_of_single hn hone
  have hkind := not_interface_of_fakeQuantize hop
  have hdata : n.input? 0 = some data := by simp [Node.input?, hin]
  rw [lower_eq hn hdata] at hrun
  rcases exec_bind_eq_ok.mp hrun with ⟨source, g₁, hsource, hplace⟩ | ⟨e, he, rfl⟩
  rotate_left
  · rcases addSource_cases hg hn hop hin hq he with ⟨e', -, hsame⟩ | ⟨source, hsource⟩
    · exact .inl ⟨e, rfl, hsame⟩
    · cases hsource
  obtain ⟨kind, hsourced, hfresh⟩ : ∃ kind, Sourced g g₁ rank id source kind ∧
      ∀ d v k, Graph.IsStep k ∨ v = source.node ∧ k = kind →
        Graph.IsStep k ∨ v = successor (g.constant? data) source d ∧ k = .fakeQuantize := by
    cases hweights : g.constant? data with
    | none =>
      rw [hweights] at hsource
      obtain ⟨_, _, -, -, rfl, hdoubled⟩ := addSource_none hg hn hop hin hq hsource
      exact ⟨_, sourced_of_doubled (fun _ => ranges_below hrank hn hin) hdoubled, fun _ _ _ hk => hk⟩
    | some weights =>
      rw [hweights] at hsource
      obtain ⟨_, -, rfl, hadded⟩ := addSource_some hg hsource
      refine ⟨.constant, sourced_of_added hadded, fun _ _ _ hk => .inl ?_⟩
      rcases hk with hk | ⟨-, rfl⟩
      · exact hk
      · exact .inl rfl
  obtain ⟨hok, hinstalled⟩ := place_ok hg hrank hn hkind hsourced
  obtain ⟨d, g₂, hplaced⟩ := hok hone
  rw [exec_bind_ok hplaced, exec_pure] at hplace
  cases hplace
  exact .inr ⟨d, _, rfl, (hinstalled d _ hplaced).2.weaken (hfresh d)⟩

theorem decompose_cases {rank : NodeId → Nat} {r : Except TransformError (Dequantization α)}
    (hg : s.graph.WellFormed) (hrank : s.graph.Ranked rank)
    (hone : ∀ n, s.graph.node? id = some n → n.outputs.length = 1)
    (hrun : exec (decompose id) s = .ok (r, s')) :
    (∃ e, r = .error e ∧ s'.graph = s.graph ∧ s'.context.handled = s.context.handled) ∨
      ∃ d n successor, r = .ok d ∧ s.graph.node? id = some n ∧
        Supplanted s.graph s'.graph rank id successor successor .fakeQuantize ∧
        s'.context.handled = (s.context.markHandled n.name).handled := by
  rw [decompose] at hrun
  obtain ⟨ranges, hranges, h₁⟩ | ⟨e, rfl, rfl⟩ :=
    (Rewrite.silent_edit (Edit.silent_ofExcept _)).bind_cases hrun
  rotate_left
  · exact .inl ⟨e, rfl, rfl, rfl⟩
  obtain ⟨n, data, low, high, _, _, rest, hn, hop, hin, -⟩ :=
    Ranges.ofNode_eq_ok.mp (Rewrite.exec_edit_ofExcept_eq_ok.mp hranges).1
  obtain ⟨⟨lows, highs⟩, -, h₂⟩ | ⟨e, rfl, rfl⟩ := (Silent.lift _).bind_cases h₁
  rotate_left
  · exact .inl ⟨e, rfl, rfl, rfl⟩
  obtain ⟨grid, -, h₃⟩ | ⟨e, rfl, rfl⟩ :=
    (Rewrite.silent_edit (silent_gridOf ranges lows highs)).bind_cases h₂
  rotate_left
  · exact .inl ⟨e, rfl, rfl, rfl⟩
  obtain ⟨params, -, h₄⟩ | ⟨e, rfl, rfl⟩ := (Silent.lift _).bind_cases h₃
  rotate_left
  · exact .inl ⟨e, rfl, rfl, rfl⟩
  rw [exec_bind_ok (Rewrite.exec_changeContext _ _)] at h₄
  obtain ⟨affine, -, h₅⟩ | ⟨e, rfl, rfl⟩ :=
    (Rewrite.silent_edit (Edit.silent_attempt _)).bind_cases h₄
  rotate_left
  · exact .inl ⟨e, rfl, rfl, rfl⟩
  rw [exec_bind_ok (Rewrite.exec_context _)] at h₅
  rcases exec_bind_eq_ok.mp h₅ with ⟨⟨name, d⟩, s₆, hlower, h₆⟩ | ⟨e, he, rfl⟩
  rotate_left
  · obtain ⟨hrun, hcontext⟩ := Rewrite.exec_edit_eq.mp he
    rcases lower_cases hg hrank hn hop hin (hone n hn) hrun with ⟨e', -, hsame⟩ | ⟨d, _, hd, -⟩
    · exact .inl ⟨e, rfl, hsame, by rw [hcontext]⟩
    · cases hd
  obtain ⟨hrun, hcontext⟩ := Rewrite.exec_edit_eq.mp hlower
  rcases lower_cases hg hrank hn hop hin (hone n hn) hrun with ⟨e', he', -⟩ | ⟨d', successor, hd, h⟩
  · cases he'
  · cases hd
    cases h₆
    refine .inr ⟨d, n, successor, rfl, hn, h, ?_⟩
    change (s₆.context.markHandled n.name).handled = _
    rw [hcontext, Context.handled_markHandled, Context.handled_markHandled]

theorem open_of_canApply {c : Context} {g : Graph α} (h : canApply c g id = .ok true) :
    ∃ n, g.node? id = some n ∧ n.name ∉ c.handled := by
  rw [canApply] at h
  split at h
  · next n hn =>
    split at h
    · cases h
    · next hopen =>
      refine ⟨n, hn, fun hhandled => hopen ?_⟩
      simp [Context.isHandled, hhandled]
  · cases h

theorem canApply_eq_true {c : Context} {g : Graph α} (h : canApply c g id = .ok true) :
    ∃ r, Ranges.ofNode g id = .ok r ∧ r.hasSupportedLayout g id = true ∧
      (g.port? ⟨id, 0⟩).isSome ∧
      (Grid.select r.outputLow.data r.outputHigh.data r.levels (Markup.allowedPrecisions g id)).run ≠
        .ok (.ok none) := by
  rw [canApply] at h
  split at h
  · next n hn =>
    split at h
    · cases h
    · next hfloat =>
      split at h
      · next r hr =>
        split at h
        · cases h
        · next hlayout =>
          obtain ⟨-, -, -, -, -, -, -, -, -, -, -, -, -, -, -, houtput, -⟩ := Ranges.ofNode_eq_ok.mp hr
          rw [Ranges.outputBounds_eq houtput] at h
          refine ⟨r, hr, by simpa using hlayout, ?_, fun hnone => ?_⟩
          · simp only [Bool.or_eq_true, Bool.not_eq_true', not_or, Bool.not_eq_false,
              Option.any_eq_true] at hfloat
            obtain ⟨-, port, hport, -⟩ := hfloat
            obtain ⟨w, hw, -⟩ := Option.map_eq_some_iff.mp hport
            rw [← Graph.wire?_isSome_eq_port, Graph.wire?_eq_some.mpr ⟨n, hn, hw⟩]
            rfl
          · obtain ⟨bounds, hbounds, h⟩ := except_bind_eq_ok.mp h
            cases hbounds
            obtain ⟨found, hfound, h⟩ := except_bind_eq_ok.mp h
            cases hfound.symm.trans hnone
            cases h
      · cases h
  · cases h

section Completion

variable {g : Graph α} {n : Node α} {levels : Nat} {data low high : Slot} {rest : List Slot}
  {port : Port} {p : Lowering α} {name : String} {type : ElementType}

structure Fitting (g : Graph α) (id : NodeId) (r : Ranges α) : Prop where
  bounds : Checked.product r.outputLow.shape = .ok r.outputLow.size
  weights (w : Tensor α) : (g.input? id 0).bind g.constant? = some w →
    (r.inputLow.size = 1 ∨ r.inputLow.size = r.outputLow.size) ∧
      Checked.reserve r.outputLow.size Tensor.elementWidth = .ok () ∧
      Checked.product w.shape = .ok w.size ∧ r.outputLow.size ∣ w.size

theorem addSource_ok (hg : g.WellFormed) (hn : g.node? id = some n)
    (hop : n.op = .fakeQuantize p.ranges.levels) (hin : n.inputs = data :: low :: high :: rest)
    (hport : g.port? ⟨id, 0⟩ = some port) (hgrid : p.grid.low ≤ p.grid.high)
    (hlevels : isSupportedLevels p.ranges.levels = true)
    (hlength : p.params.length = p.ranges.outputLow.size)
    (hlows : p.lows.length = p.params.length) (hhighs : p.highs.length = p.params.length)
    (hinput : p.ranges.inputLow.size = p.ranges.inputHigh.size)
    (hbounds : Checked.product p.ranges.boundsShape = .ok p.params.length)
    (h : Fitting g id p.ranges) (name : String) (type : ElementType) :
    ∃ source g₁, exec (addSource id name p type (g.constant? data)) g = .ok (.ok source, g₁) := by
  cases hweights : g.constant? data with
  | none =>
    have hbound : ∀ values : List α, values.length = p.params.length →
        ∃ t : Tensor α, exec (Edit.attempt fun _ => ExceptT.adapt .tensor do
          layOut p.ranges.boundsShape (← quantizeBounds p.grid p.params values) :
            Edit α TransformError (Tensor α)) g = .ok (.ok t, g) := by
      intro values hvalues
      obtain ⟨quantized, hquantized⟩ := quantizeBounds_ok hgrid p.params values
      have hsize : quantized.length = p.params.length := by
        rw [← (except_mapM_eq_ok.mp hquantized).length_eq, List.length_zip, hvalues, Nat.min_self]
      obtain ⟨t, ht⟩ := layOut_ok (hsize ▸ hbounds)
      exact ⟨t, Edit.exec_attempt_eq_ok.mpr ⟨attempt_adapt_eq_ok.mpr (attempt_bind_eq_ok.mpr
        ⟨quantized, attempt_lift_eq_ok.mpr hquantized, ht⟩), rfl⟩⟩
    obtain ⟨newLow, hnewLow⟩ := hbound p.lows hlows
    obtain ⟨newHigh, hnewHigh⟩ := hbound p.highs hhighs
    obtain ⟨g₁, hadd, -⟩ := addFakeQuantize_ok hg hn hop hin hport newLow newHigh type
    refine ⟨⟨g.nodes.size + 2, 0⟩, g₁, ?_⟩
    rw [addSource, exec_bind_ok hnewLow, exec_bind_ok hnewHigh, exec_bind_ok hadd]
    rfl
  | some weights =>
    have hslot : (g.input? id 0).bind g.constant? = some weights := by
      rw [Graph.input?, hn]
      simp [Node.input?, hin, hweights]
    obtain ⟨hlow, hcapacity, hshape, hdvd⟩ := h.weights weights hslot
    rw [← hlength] at hlow hcapacity hdvd
    obtain ⟨folded, hfold⟩ := foldWeights_ok hgrid hlevels hlows hhighs hlow (hinput ▸ hlow) hcapacity
      hshape hdvd name
    obtain ⟨g₁, hadd, -⟩ := Edit.addConstant_ok hg s!"{name}/Folded" folded type
    refine ⟨⟨g.nodes.size, 0⟩, g₁, ?_⟩
    rw [addSource, exec_bind_ok (Edit.exec_attempt_eq_ok.mpr ⟨hfold, rfl⟩)]
    exact hadd

theorem sourced_of_addSource {g₁ : Graph α} {source : Slot} {rank : NodeId → Nat} (hg : g.WellFormed)
    (hrank : g.Ranked rank) (hn : g.node? id = some n) (hop : n.op = .fakeQuantize p.ranges.levels)
    (hin : n.inputs = data :: low :: high :: rest) (hport : g.port? ⟨id, 0⟩ = some port)
    (hexec : exec (addSource id name p type (g.constant? data)) g = .ok (.ok source, g₁)) :
    Sourced g g₁ rank id source .fakeQuantize := by
  cases hweights : g.constant? data with
  | none =>
    rw [hweights] at hexec
    obtain ⟨_, _, -, -, rfl, hdoubled⟩ := addSource_none hg hn hop hin hport hexec
    exact sourced_of_doubled (fun _ => ranges_below hrank hn hin) hdoubled
  | some weights =>
    rw [hweights] at hexec
    obtain ⟨_, -, rfl, hadded⟩ := addSource_some hg hexec
    exact sourced_of_added hadded

theorem decompose_ok {r : Ranges α} (hordered : OrderedGrids α) (hg : s.graph.WellFormed)
    (hacyclic : s.graph.Acyclic) (hone : ∀ n, s.graph.node? id = some n → n.outputs.length = 1)
    (htypes : ∀ type ∈ Markup.allowedPrecisions s.graph id, type = .u8 ∨ type = .i8)
    (hcan : canApply s.context s.graph id = .ok true) (hr : Ranges.ofNode s.graph id = .ok r)
    (h : Fitting s.graph id r) : ∃ d s', exec (decompose id) s = .ok (.ok d, s') := by
  obtain ⟨rank, hrank⟩ := hacyclic
  obtain ⟨r', hr', -, hport, hselect⟩ := canApply_eq_true hcan
  obtain rfl : r = r' := Except.ok.inj (hr.symm.trans hr')
  obtain ⟨n, data, low, high, outLow, outHigh, rest, hn, hop, hin, hlow, hhigh, hout, hend, hinput,
    houtput, hlevels⟩ := Ranges.ofNode_eq_ok.mp hr
  obtain ⟨port, hport⟩ := Option.isSome_iff_exists.mp hport
  obtain ⟨found, hfound⟩ := select_ok hordered hlevels htypes r.outputLow.data r.outputHigh.data
  cases found with
  | none => exact absurd hfound hselect
  | some grid =>
    obtain ⟨hgrid, hwide⟩ := hordered _ _ _ _ (bounds_of_select hfound)
    obtain ⟨params, hparams⟩ := channelParams_ok hwide r.outputLow.data r.outputHigh.data
    have hlength : params.length = r.outputLow.size := by
      rw [← (except_mapM_eq_ok.mp hparams).length_eq, List.length_zip]
      exact Nat.min_eq_left (Nat.le_of_eq houtput)
    have hshape : Checked.product r.boundsShape = .ok params.length := by
      rw [Ranges.boundsShape, if_pos (Nat.le_of_eq houtput.symm), hlength, h.bounds]
    obtain ⟨affine, haffine⟩ := affineParams_ok hshape
    have hbounds := Ranges.outputBounds_eq houtput
    let p : Lowering α := ⟨r, r.outputLow.data, r.outputHigh.data, grid, params⟩
    let c : Context :=
      { s.context with degenerate := s.context.degenerate + params.countP (·.degenerate) }
    let type := storageType c.params grid.precision
    obtain ⟨source, g₁, hsource⟩ := addSource_ok (p := p) hg hn hop hin hport hgrid hlevels hlength
      hlength.symm (houtput.symm.trans hlength.symm) hinput hshape h n.name type
    have hsourced := sourced_of_addSource hg hrank hn hop hin hport hsource
    obtain ⟨d, g', hplace⟩ : ∃ d g', exec (place id n (s.graph.constant? data) affine source) g₁ =
        .ok (.ok d, g') :=
      (place_ok hg hrank hn (not_interface_of_fakeQuantize hop) hsourced).1 (hone n hn)
    have hlower : exec (lower id p affine type) s.graph = .ok (.ok (n.name, d), g') := by
      have hdata : n.input? 0 = some data := by simp [Node.input?, hin]
      rw [lower_eq hn hdata, exec_bind_ok hsource, exec_bind_ok hplace]
      rfl
    have hgrid : exec (Rewrite.edit (gridOf id r p.lows p.highs)) s = .ok (.ok grid, s) :=
      Rewrite.exec_edit_eq.mpr ⟨gridOf_eq_ok.mpr ⟨hfound, rfl⟩, rfl⟩
    have hlay : exec (Rewrite.edit (Edit.attempt fun _ =>
        ExceptT.adapt .tensor (affineParams r.boundsShape params))) ⟨s.graph, c⟩ =
          .ok (.ok affine, ⟨s.graph, c⟩) :=
      Rewrite.exec_edit_attempt_eq_ok.mpr ⟨attempt_adapt_eq_ok.mpr haffine, rfl⟩
    have hlowered : exec (Rewrite.edit (lower id p affine type)) ⟨s.graph, c⟩ =
        .ok (.ok (n.name, d), ⟨g', c⟩) := Rewrite.exec_edit_eq.mpr ⟨hlower, rfl⟩
    refine ⟨d, ⟨g', c.markHandled n.name⟩, ?_⟩
    rw [decompose, exec_bind_ok (Rewrite.exec_edit_ofExcept_eq_ok.mpr ⟨hr, rfl⟩),
      exec_bind_ok (exec_lift_eq_ok.mpr ⟨hbounds, rfl⟩)]
    dsimp only
    rw [exec_bind_ok hgrid, exec_bind_ok (exec_lift_eq_ok.mpr ⟨hparams, rfl⟩),
      exec_bind_ok (Rewrite.exec_changeContext _ _)]
    rw [exec_bind_ok hlay, exec_bind_ok (Rewrite.exec_context _), exec_bind_ok hlowered]
    rfl

end Completion

end Run

section Decompose

variable {s s' : Session Rat} {id : NodeId} {d : Dequantization Rat}

theorem fits_of_run {p : Lowering Rat} {affine : AffineParams Rat} {allowed : PrecisionSet}
    (hsize : p.ranges.outputLow.size = p.ranges.outputHigh.size)
    (hbounds : p.ranges.outputBounds = .ok (p.lows, p.highs))
    (hselect : (Grid.select p.lows p.highs p.ranges.levels allowed).run = .ok (.ok (some p.grid)))
    (hparams : channelParams p.grid p.lows p.highs = .ok p.params)
    (haffine : (affineParams p.ranges.boundsShape p.params).run = .ok (.ok affine)) :
    p.Fits affine := by
  rw [Ranges.outputBounds_eq hsize, Except.ok.injEq, Prod.mk.injEq] at hbounds
  refine ⟨hbounds.1.symm, hbounds.2.symm, ?_, grid_bounds (bounds_of_select hselect), hparams, haffine⟩
  rw [← hbounds.1, ← hbounds.2]
  exact hsize

/-- Where the quantized values of a channel come from: a fake-quantize that reads the data of the old
one, or, for constant weights, the tensor into which they are folded one by one. -/
def Quantizes (g g' : Graph Rat) (id : NodeId) (r : Ranges Rat) (d : Dequantization Rat) (c : Nat)
    (range : ChannelRange) (q : ScaleZeroPoint Rat) (quantized : Rat → Checked Rat) : Prop :=
  match (g.input? id 0).bind g.constant? with
  | none => ∃ r' range', Ranges.ofNode g' d.data.node = .ok r' ∧ d.data.index = 0 ∧
      g'.input? d.data.node 0 = g.input? id 0 ∧ r'.levels = r.levels ∧
      r'.channel c = some range' ∧ quantized = range'.value r'.levels
  | some weights => ∃ grid folded, quantized = foldWeight grid r.levels
        ⟨range.inputLow, range.inputHigh, range.outputLow, range.outputHigh, q⟩ ∧
      g'.constant? d.data = some folded ∧ folded.shape = weights.shape ∧
      ∀ i weight, weights.data[i]? = some weight →
        channelOf r.outputLow.size weights.size i = c →
          ∃ v, quantized weight = .ok v ∧ folded.data[i]? = some v

section Channel

variable {g g₁ g' : Graph Rat} {n : Node Rat} {data low high outLow outHigh : Slot}
  {rest : List Slot} {port : Port} {p : Lowering Rat} {affine : AffineParams Rat} {c : Nat}
  {range : ChannelRange}

theorem constant_of_installed {source : Slot} {u : NodeId} {k : Face Rat} {t : Tensor Rat} {r : Slot}
    (h : Installed g g₁ g' source affine d) (hu : g.nodes.size ≤ u) (hk : g₁.face? u = some k)
    (hr : r ∈ k.inputs) (ht : g.constant? r = some t) : g'.constant? r = some t := by
  rw [Graph.constant?_eq_face] at ht ⊢
  obtain ⟨f, hf, hop⟩ := Option.bind_eq_some_iff.mp ht
  obtain ⟨f', hf', hsame⟩ := h.read u r.node f k hu hk ⟨r, hr, rfl⟩ hf
  rw [hf', Option.bind_some, hsame]
  exact hop

theorem params_of_installed {source : Slot} (h : Installed g g₁ g' source affine d) :
    d.params = affine := by
  rw [Dequantization.params, h.scale, h.zeroPoint]
  rfl

theorem length_params (h : p.Fits affine) : p.params.length = p.ranges.outputLow.size := by
  rw [← (except_mapM_eq_ok.mp h.params).length_eq, List.length_zip, ← h.length, Nat.min_self, h.lows]
  rfl

theorem ranges_of_installed {newLow newHigh : Tensor Rat} (hfits : p.Fits affine)
    (hinput : p.ranges.inputLow.size = p.ranges.inputHigh.size)
    (hlevels : isSupportedLevels p.ranges.levels = true)
    (hlow : g.constant? low = some p.ranges.inputLow)
    (hhigh : g.constant? high = some p.ranges.inputHigh)
    (hnewLow : quantizeBounds p.grid p.params p.lows = .ok newLow.data)
    (hnewHigh : quantizeBounds p.grid p.params p.highs = .ok newHigh.data)
    (hdoubled : Doubled g g₁ p.ranges.levels data low high port newLow newHigh)
    (h : Installed g g₁ g' ⟨g.nodes.size + 2, 0⟩ affine d) :
    Ranges.ofNode g' (g.nodes.size + 2) =
        .ok ⟨p.ranges.levels, p.ranges.inputLow, p.ranges.inputHigh, newLow, newHigh⟩ ∧
      g'.input? (g.nodes.size + 2) 0 = some data := by
  have hface := h.new _ _ (Nat.le_add_right _ 2) hdoubled.fakeQuantize
  have hconstant := h.new _ _ (Nat.le_refl _) hdoubled.lowBound
  have hconstant' := h.new _ _ (Nat.le_add_right _ 1) hdoubled.highBound
  obtain ⟨n, hn, hnface⟩ := Graph.face?_eq_some.mp hface
  rw [Node.face, Face.mk.injEq] at hnface
  refine ⟨Ranges.ofNode_eq_ok.mpr ⟨n, data, low, high, _, _, [], hn, hnface.1, hnface.2.1, ?_, ?_, ?_, ?_,
    hinput, ?_, hlevels⟩, ?_⟩
  · exact constant_of_installed h (Nat.le_add_right _ 2) hdoubled.fakeQuantize (by simp) hlow
  · exact constant_of_installed h (Nat.le_add_right _ 2) hdoubled.fakeQuantize (by simp) hhigh
  · rw [Graph.constant?_eq_face, hconstant]
    rfl
  · rw [Graph.constant?_eq_face, hconstant']
    rfl
  · have hlength := (except_mapM_eq_ok.mp hnewLow).length_eq
    have hlength' := (except_mapM_eq_ok.mp hnewHigh).length_eq
    rw [List.length_zip] at hlength hlength'
    rw [Tensor.size, Tensor.size, ← hlength, ← hlength', hfits.length]
  · rw [Graph.input?_eq_face, hface]
    rfl

theorem fakeQuantize_reproduces {newLow newHigh : Tensor Rat} (hfits : p.Fits affine)
    (hslot : g.input? id 0 = some data) (hweights : g.constant? data = none)
    (hnewLow : quantizeBounds p.grid p.params p.lows = .ok newLow.data)
    (hnewHigh : quantizeBounds p.grid p.params p.highs = .ok newHigh.data)
    (hnew : Ranges.ofNode g' (g.nodes.size + 2) =
      .ok ⟨p.ranges.levels, p.ranges.inputLow, p.ranges.inputHigh, newLow, newHigh⟩)
    (hread : g'.input? (g.nodes.size + 2) 0 = some data)
    (h : Installed g g₁ g' ⟨g.nodes.size + 2, 0⟩ affine d) (hc : p.ranges.channel c = some range) :
    ∃ q quantized, d.params.channel c = some (q.scale, q.zeroPoint) ∧
      Quantizes g g' id p.ranges d c range q quantized ∧
      ReproducesNearZero range p.ranges.levels q quantized := by
  obtain ⟨q, qLow, qHigh, hq, hchannel, hql, hqh, hreproduces⟩ := hfits.reproduces hc
  obtain ⟨hinLow, hinHigh, houtLow, houtHigh⟩ := Ranges.channel_eq_some.mp hc
  have hlength := length_params hfits
  have hlows : p.lows.length = p.params.length := by
    rw [hlength, hfits.lows]
    rfl
  rw [Tensor.channel, ← hfits.lows] at houtLow
  rw [Tensor.channel, ← hfits.highs] at houtHigh
  obtain ⟨v, hv, hvl⟩ := quantizeBounds_channel hnewLow hlows houtLow hq
  obtain ⟨w, hw, hwh⟩ := quantizeBounds_channel hnewHigh (hfits.length ▸ hlows) houtHigh hq
  obtain rfl : qLow = v := Except.ok.inj (hql.symm.trans hvl)
  obtain rfl : qHigh = w := Except.ok.inj (hqh.symm.trans hwh)
  refine ⟨q, (range.withOutput qLow qHigh).value p.ranges.levels, ?_, ?_, ?_⟩
  · rw [params_of_installed h, hchannel]
  · simp only [Quantizes, hslot, Option.bind_some, hweights, h.data]
    exact ⟨_, range.withOutput qLow qHigh, hnew, trivial, hread, rfl,
      Ranges.channel_eq_some.mpr ⟨hinLow, hinHigh, hv, hw⟩, rfl⟩
  · have hid := hreproduces (fun w => w) (.inl rfl)
    simpa only [id_map'] using hid

theorem fold_reproduces {name : String} {weights folded : Tensor Rat} {type : ElementType}
    (hfits : p.Fits affine) (hslot : g.input? id 0 = some data)
    (hweights : g.constant? data = some weights)
    (hfold : (foldWeights name p.ranges p.grid p.lows p.highs p.params weights).run =
      .ok (.ok folded))
    (hadded : Graph.Added g g₁ ⟨.constant folded, [], [⟨type, some folded.shape⟩], none⟩)
    (h : Installed g g₁ g' ⟨g.nodes.size, 0⟩ affine d) (hc : p.ranges.channel c = some range) :
    ∃ q quantized, d.params.channel c = some (q.scale, q.zeroPoint) ∧
      Quantizes g g' id p.ranges d c range q quantized ∧
      ReproducesNearZero range p.ranges.levels q quantized := by
  obtain ⟨q, qLow, qHigh, hq, hchannel, hql, hqh, hreproduces⟩ := hfits.reproduces hc
  rw [hfits.lows, hfits.highs] at hfold
  obtain ⟨hshape, hdata⟩ := foldWeights_run hfold
  refine ⟨q, foldWeight p.grid p.ranges.levels
    ⟨range.inputLow, range.inputHigh, range.outputLow, range.outputHigh, q⟩, ?_, ?_, ?_⟩
  · rw [params_of_installed h, hchannel]
  · simp only [Quantizes, hslot, Option.bind_some, hweights, h.data]
    refine ⟨p.grid, folded, rfl, ?_, hshape, fun i weight hi hci => ?_⟩
    · rw [Graph.constant?_eq_face, h.new _ _ (Nat.le_refl _) hadded.new]
      rfl
    · obtain ⟨range', q', v, hrange, hq', hv, hfolded⟩ := hdata i weight hi
      rw [length_params hfits, hci] at hrange hq'
      obtain rfl : range = range' := Option.some.inj (hc.symm.trans hrange)
      obtain rfl : q = q' := Option.some.inj (hq.symm.trans hq')
      exact ⟨v, hv, hfolded⟩
  · rw [funext (foldWeight_eq hql hqh)]
    exact hreproduces _ (.inr rfl)

end Channel

theorem decompose_reproduces (hg : s.graph.WellFormed) (hacyclic : s.graph.Acyclic)
    (hport : (s.graph.port? ⟨id, 0⟩).isSome)
    (hrun : exec (decompose id) s = .ok (.ok d, s')) :
    ∃ r, Ranges.ofNode s.graph id = .ok r ∧ d.Stands s'.graph ∧
      ∀ c range, r.channel c = some range → ∃ q quantized,
        d.params.channel c = some (q.scale, q.zeroPoint) ∧
        Quantizes s.graph s'.graph id r d c range q quantized ∧
        ReproducesNearZero range r.levels q quantized := by
  obtain ⟨rank, hrank⟩ := hacyclic
  obtain ⟨p, affine, type, name, hranges, hbounds, hselect, hparams, haffine, -, hlower⟩ :=
    decompose_run hrun
  obtain ⟨n, data, low, high, outLow, outHigh, rest, hn, hop, hin, hlow, hhigh, hout, hend, hinput,
    houtput, hlevels⟩ := Ranges.ofNode_eq_ok.mp hranges
  have hfits := fits_of_run houtput hbounds hselect hparams haffine
  have hdata : n.input? 0 = some data := by simp [Node.input?, hin]
  obtain ⟨source, g₁, hsource, hplace⟩ := lower_run hn hdata hlower
  have hslot : s.graph.input? id 0 = some data := by
    rw [Graph.input?, hn]
    exact hdata
  obtain ⟨port, hport⟩ := Option.isSome_iff_exists.mp hport
  refine ⟨p.ranges, hranges, ?_⟩
  cases hweights : s.graph.constant? data with
  | none =>
    rw [hweights] at hsource hplace
    obtain ⟨newLow, newHigh, hnewLow, hnewHigh, rfl, hdoubled⟩ :=
      addSource_none hg hn hop hin hport hsource
    have hinstalled := ((place_ok hg hrank hn (not_interface_of_fakeQuantize hop)
      (sourced_of_doubled (fun _ => ranges_below hrank hn hin) hdoubled)).2 d _ hplace).1
    obtain ⟨hnew, hread⟩ := ranges_of_installed hfits hinput hlevels hlow hhigh hnewLow hnewHigh
      hdoubled hinstalled
    exact ⟨hinstalled.stands, fun c range hc =>
      fakeQuantize_reproduces hfits hslot hweights hnewLow hnewHigh hnew hread hinstalled hc⟩
  | some weights =>
    rw [hweights] at hsource hplace
    obtain ⟨folded, hfold, rfl, hadded⟩ := addSource_some hg hsource
    have hsourced : Sourced s.graph g₁ rank id ⟨s.graph.nodes.size, 0⟩ .fakeQuantize :=
      sourced_of_added hadded
    have hinstalled :=
      ((place_ok hg hrank hn (not_interface_of_fakeQuantize hop) hsourced).2 d _ hplace).1
    exact ⟨hinstalled.stands, fun c range hc =>
      fold_reproduces hfits hslot hweights hfold hadded hinstalled hc⟩

structure Decomposable (g : Graph Rat) (id : NodeId) (r : Ranges Rat) : Prop where
  output (n : Node Rat) : g.node? id = some n → n.outputs.length = 1
  types (type : ElementType) : type ∈ Markup.allowedPrecisions g id → type = .u8 ∨ type = .i8
  bounds : Checked.product r.outputLow.shape = .ok r.outputLow.size
  weights (w : Tensor Rat) : (g.input? id 0).bind g.constant? = some w →
    (r.inputLow.size = 1 ∨ r.inputLow.size = r.outputLow.size) ∧
      Checked.reserve r.outputLow.size Tensor.elementWidth = .ok () ∧
      Checked.product w.shape = .ok w.size ∧ r.outputLow.size ∣ w.size

theorem decompose_returns {r : Ranges Rat} (hg : s.graph.WellFormed) (hacyclic : s.graph.Acyclic)
    (hcan : canApply s.context s.graph id = .ok true) (hr : Ranges.ofNode s.graph id = .ok r)
    (h : Decomposable s.graph id r) : ∃ d s', exec (decompose id) s = .ok (.ok d, s') :=
  decompose_ok orderedGrids_rat hg hacyclic h.output h.types hcan hr ⟨h.bounds, h.weights⟩

def IsChannel (g : Graph Rat) (id : NodeId) (c : Nat) : Prop :=
  ∀ p shape, g.port? ⟨id, 0⟩ = some p → p.shape = some shape →
    c < shape[if g.inputKind? id 0 = some .constant then 0 else 1]?.getD 1

theorem channel_of_layout {g : Graph Rat} {r : Ranges Rat} {c : Nat}
    (h : r.hasSupportedLayout g id = true) (hc : IsChannel g id c) : (r.channel c).isSome := by
  have hdefined : ∀ t : Tensor Rat, t.size = 1 ∨ c < t.size → ∃ v, t.channel c = some v := by
    intro t ht
    rw [Tensor.channel, atChannel]
    split
    · next hone => exact ⟨_, List.getElem?_eq_getElem (hone ▸ Nat.one_pos)⟩
    · next hone => exact ⟨_, List.getElem?_eq_getElem (ht.resolve_left hone)⟩
  have hall : ∀ t ∈ r.tensors, t.size = 1 ∨ c < t.size := by
    rw [Ranges.hasSupportedLayout] at h
    split at h
    · cases h
    · intro t ht
      exact .inl (by simpa using List.all_eq_true.mp h t ht)
    · next shape hshape =>
      intro t ht
      have hsize := List.all_eq_true.mp h t ht
      simp only [Bool.or_eq_true, beq_iff_eq] at hsize
      refine hsize.imp_right fun hsame => ?_
      rw [hsame]
      exact hc _ _ hshape rfl
  simp only [Ranges.tensors, List.forall_mem_cons, List.not_mem_nil, IsEmpty.forall_iff,
    implies_true, and_true] at hall
  obtain ⟨a, ha⟩ := hdefined _ hall.1
  obtain ⟨b, hb⟩ := hdefined _ hall.2.1
  obtain ⟨x, hx⟩ := hdefined _ hall.2.2.1
  obtain ⟨y, hy⟩ := hdefined _ hall.2.2.2
  have hsome : r.channel c = some ⟨a, b, x, y⟩ := Ranges.channel_eq_some.mpr ⟨ha, hb, hx, hy⟩
  rw [hsome]
  rfl

/-- Every channel of a fake-quantize that can be decomposed has its ranges. Dequantized values differ
from real ones by one step at most in the channels whose output range comes close to 0, and by more
than that somewhere in any other channel. -/
theorem decomposition_round_trip (hg : s.graph.WellFormed) (hacyclic : s.graph.Acyclic)
    (hcan : canApply s.context s.graph id = .ok true) :
    ∃ r, Ranges.ofNode s.graph id = .ok r ∧
      (∀ c, IsChannel s.graph id c → (r.channel c).isSome) ∧
      (∀ d s', exec (decompose id) s = .ok (.ok d, s') → d.Stands s'.graph ∧
        ∀ c range, r.channel c = some range → ∃ q quantized,
          d.params.channel c = some (q.scale, q.zeroPoint) ∧
          Quantizes s.graph s'.graph id r d c range q quantized ∧
          ReproducesNearZero range r.levels q quantized) ∧
      (Decomposable s.graph id r → ∃ d s', exec (decompose id) s = .ok (.ok d, s')) := by
  obtain ⟨r, hr, hlayout, hport, -⟩ := canApply_eq_true hcan
  refine ⟨r, hr, fun c hc => channel_of_layout hlayout hc, fun d s' hrun => ?_,
    decompose_returns hg hacyclic hcan hr⟩
  obtain ⟨r', hr', hstands, hchannels⟩ := decompose_reproduces hg hacyclic hport hrun
  obtain rfl : r = r' := Except.ok.inj (hr.symm.trans hr')
  exact ⟨hstands, hchannels⟩

def sample (low high : Rat) : Session Rat where
  graph := Graph.assemble [("x", .parameter, [], [⟨.f32, some [1, 3]⟩]),
    ("low", .constant (Tensor.scalar low), [], [⟨.f32, some []⟩]),
    ("high", .constant (Tensor.scalar high), [], [⟨.f32, some []⟩]),
    ("fq", .fakeQuantize 256, [⟨0, 0⟩, ⟨1, 0⟩, ⟨2, 0⟩, ⟨1, 0⟩, ⟨2, 0⟩], [⟨.f32, some [1, 3]⟩]),
    ("y", .result, [⟨3, 0⟩], [])]
  context := .start .default

def sampleRanges (low high : Rat) : Ranges Rat :=
  ⟨256, Tensor.scalar low, Tensor.scalar high, Tensor.scalar low, Tensor.scalar high⟩

theorem decomposable_of_checks {g : Graph Rat} {r : Ranges Rat}
    (houtput : (g.node? id).all (·.outputs.length = 1) = true)
    (htypes : Markup.allowedPrecisions g id = .eightBit)
    (hbounds : Checked.product r.outputLow.shape = .ok r.outputLow.size)
    (hweights : (g.input? id 0).bind g.constant? = none) : Decomposable g id r where
  output n hn := by
    rw [hn] at houtput
    simpa using houtput
  types type htype := by
    rw [htypes, PrecisionSet.eightBit] at htype
    simpa [or_comm] using htype
  bounds := hbounds
  weights w hw := by
    rw [hweights] at hw
    cases hw

theorem decomposition_round_trip_of_sample :
    (sample 0 (51 / 20)).graph.WellFormed ∧ (sample 0 (51 / 20)).graph.Acyclic ∧
      canApply (sample 0 (51 / 20)).context (sample 0 (51 / 20)).graph 3 = .ok true ∧
      ∃ d s' q quantized, exec (decompose 3) (sample 0 (51 / 20)) = .ok (.ok d, s') ∧
        d.params.channel 0 = some (q.scale, q.zeroPoint) ∧
        Quantizes (sample 0 (51 / 20)).graph s'.graph 3 (sampleRanges 0 (51 / 20)) d 0
          ⟨0, 51 / 20, 0, 51 / 20⟩ q quantized ∧
        Reproduces q.scale q.zeroPoint
          ((⟨0, 51 / 20, 0, 51 / 20⟩ : ChannelRange).value 256) quantized := by
  have hg : (sample 0 (51 / 20)).graph.WellFormed := (Graph.assemble_ordered _).1
  have hacyclic : (sample 0 (51 / 20)).graph.Acyclic := Graph.assemble_acyclic _
  have hcan : canApply (sample 0 (51 / 20)).context (sample 0 (51 / 20)).graph 3 = .ok true := by
    decide +kernel
  refine ⟨hg, hacyclic, hcan, ?_⟩
  have hranges : Ranges.ofNode (sample 0 (51 / 20)).graph 3 = .ok (sampleRanges 0 (51 / 20)) := by
    decide +kernel
  obtain ⟨r, hr, -, hchannels, hreturns⟩ := decomposition_round_trip hg hacyclic hcan
  obtain rfl : sampleRanges 0 (51 / 20) = r := Except.ok.inj (hranges.symm.trans hr)
  obtain ⟨d, s', hrun⟩ := hreturns (decomposable_of_checks (by decide +kernel) (by decide +kernel)
    (by decide +kernel) (by decide +kernel))
  obtain ⟨q, quantized, hparams, hquantizes, hnear, -⟩ :=
    (hchannels d s' hrun).2 0 ⟨0, 51 / 20, 0, 51 / 20⟩ rfl
  exact ⟨d, s', q, quantized, hrun, hparams, hquantizes, hnear (by decide +kernel)⟩

theorem offset_range_missed :
    canApply (sample 1 (71 / 20)).context (sample 1 (71 / 20)).graph 3 = .ok true ∧
      ∃ d s' q quantized, exec (decompose 3) (sample 1 (71 / 20)) = .ok (.ok d, s') ∧
        d.params.channel 0 = some (q.scale, q.zeroPoint) ∧
        Quantizes (sample 1 (71 / 20)).graph s'.graph 3 (sampleRanges 1 (71 / 20)) d 0
          ⟨1, 71 / 20, 1, 71 / 20⟩ q quantized ∧
        Misses q.scale q.zeroPoint
          ((⟨1, 71 / 20, 1, 71 / 20⟩ : ChannelRange).value 256) quantized := by
  have hg : (sample 1 (71 / 20)).graph.WellFormed := (Graph.assemble_ordered _).1
  have hacyclic : (sample 1 (71 / 20)).graph.Acyclic := Graph.assemble_acyclic _
  have hcan : canApply (sample 1 (71 / 20)).context (sample 1 (71 / 20)).graph 3 = .ok true := by
    decide +kernel
  have hranges : Ranges.ofNode (sample 1 (71 / 20)).graph 3 = .ok (sampleRanges 1 (71 / 20)) := by
    decide +kernel
  refine ⟨hcan, ?_⟩
  obtain ⟨d, s', hrun⟩ := decompose_returns hg hacyclic hcan hranges (decomposable_of_checks
    (by decide +kernel) (by decide +kernel) (by decide +kernel) (by decide +kernel))
  obtain ⟨r, hr, -, hchannels⟩ := decompose_reproduces hg hacyclic (by decide +kernel) hrun
  obtain rfl : sampleRanges 1 (71 / 20) = r := Except.ok.inj (hranges.symm.trans hr)
  obtain ⟨q, quantized, hparams, hquantizes, -, hfar⟩ :=
    hchannels 0 ⟨1, 71 / 20, 1, 71 / 20⟩ rfl
  exact ⟨d, s', q, quantized, hrun, hparams, hquantizes, hfar (by decide +kernel)⟩

end Decompose

end Decomposition

end LowPrecision
