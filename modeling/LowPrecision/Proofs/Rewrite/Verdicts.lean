import LowPrecision.Proofs.Rewrite.Lineage
import LowPrecision.Proofs.Rewrite.Rules

namespace LowPrecision

variable {α β : Type} {g₀ g g' : Graph α} {id : NodeId}

abbrev Graph.Descends (g₀ g : Graph α) : Prop := Lineage g₀ (fun _ => True) g

theorem Face.stable_true : Face.Stable (fun _ : Face α => True) := fun _ _ _ _ _ => trivial

theorem Face.admits_true (type : ElementType) : Face.Admits type (fun _ : Face α => True) :=
  ⟨Face.stable_true, fun _ _ _ => trivial, fun _ _ _ => trivial⟩

namespace Edit

section Kernels

variable [Arithmetic α]

theorem ensures_lowerKernel (id : NodeId) (operands : List Slot) (scale : Tensor α) :
    Ensures g₀.Descends (fun _ => g₀.Descends) Fatal (lowerKernel id operands scale) := by
  rw [lowerKernel]
  apply (ensures_node id).left.bind
  intro n
  apply (ensures_port ⟨id, 0⟩).left.bind
  intro port
  refine (ensures_addNode Face.stable_true trivial).bind fun lowered => .of_fact fun hnew => ?_
  apply (ensures_setRelaxed Face.stable_true _ _).bind
  intro _
  refine ((ensures_insert Face.stable_true (fun _ _ _ => trivial) _ _ _ _).discard
    fun _ _ h => h.1).bind fun _ => ?_
  exact ensures_replaceNode Face.stable_true id hnew

theorem ensures_moveDequantization (hid : id < g₀.nodes.size) (chain : Dequantization α)
    (params : AffineParams α) (updatePrecision : Bool) :
    Ensures g₀.Descends (fun _ => g₀.Descends) Fatal
      (moveDequantization id chain params updatePrecision) := by
  have houtputs : ∀ (n : Node α) (type : ElementType),
      Ensures g₀.Descends (fun _ => g₀.Descends) Fatal (do
        (List.range n.outputs.length).forM fun index => do
          let readers ← Edit.read (·.readers ⟨id, index⟩)
          Edit.ofGraph (Edit.step (·.setOutputType ⟨id, index⟩ type))
          if !readers.isEmpty then
            discard (Dequantization.insert ⟨id, index⟩ readers params n.name)
        Edit.change (·.removeDead [chain.output.node])) := by
    intro n type
    refine Ensures.bind (.forM fun index _ => ?_) fun _ =>
      ensures_removeDead Face.stable_true [chain.output.node]
    apply (ensures_read (·.readers ⟨id, index⟩)).left.bind
    intro readers
    apply (ensures_setOutputType Face.stable_true _ hid).bind
    intro _
    split
    · exact (ensures_insert Face.stable_true (fun _ _ _ => trivial) _ _ _ _).discard fun _ _ h => h.1
    · exact .pure fun _ h => h
  rw [moveDequantization]
  apply (ensures_port chain.data).left.bind
  intro port
  dsimp only
  generalize (if updatePrecision then port.elementType else .f32) = type
  apply (ensures_node id).left.bind
  intro n
  apply (ensures_setInput Face.stable_true id 0 chain.data).bind
  intro _
  split
  · exact (ensures_setRelaxed Face.stable_true _ _).bind fun _ => houtputs n type
  · exact houtputs n type

end Kernels

end Edit

def Graph.Settles (g : Graph α) (e : Edit α TransformError Bool) : Prop :=
  Ensures (· = g) (fun done g' => done = true ∧ g.Descends g') Fatal e

namespace Edit

theorem ensures_look (hg : g.WellFormed) (f : Graph α → β) :
    Ensures (· = g) (fun b g' => g.Descends g' ∧ b = f g) Fatal (read f) :=
  (ensures_read f).weaken (fun _ h => h) fun _ _ ⟨hsame, hb⟩ => by
    subst hsame
    exact ⟨.refl hg, hb⟩

theorem settles_convertFusion (hg : g.WellFormed) {m : NodeMatch}
    (h : (ConvertFusion.fusable? g m.node).isSome) : g.Settles (ConvertFusion.apply m) := by
  obtain ⟨⟨slot, source⟩, hfound⟩ := Option.isSome_iff_exists.mp h
  refine (ensures_look hg _).bind fun found => .of_fact fun hsame => ?_
  rw [hsame, hfound]
  apply (ensures_node m.node).left.bind
  intro n
  refine (ensures_addNode Face.stable_true trivial).bind fun fused => .of_fact fun hnew => ?_
  apply (ensures_setRelaxed Face.stable_true _ _).bind
  intro _
  exact (ensures_replaceNode Face.stable_true m.node hnew).bind fun _ =>
    .pure fun _ h => ⟨rfl, h⟩

theorem settles_sanitization [Scalar α] (hg : g.WellFormed) {m : NodeMatch}
    (h : (Sanitize.constant? g m).isSome) : g.Settles (Sanitize.apply m) := by
  obtain ⟨value, hfound⟩ := Option.isSome_iff_exists.mp h
  refine (ensures_look hg _).bind fun found => .of_fact fun hsame => ?_
  rw [hsame, hfound]
  apply (ensures_node m.node).left.bind
  intro n
  apply (ensures_port ⟨m.node, 0⟩).left.bind
  intro port
  refine (ensures_addConstant Face.stable_true trivial).bind fun constant => .of_fact fun hnew => ?_
  exact (ensures_replaceNode Face.stable_true m.node hnew).bind fun _ =>
    .pure fun _ h => ⟨rfl, h⟩

theorem settles_foldConvert (hg : g.WellFormed) {n : Node α} {value : Tensor α}
    {destination : ElementType} (hn : g.node? id = some n) (hop : n.op = .convert destination)
    (hvalue : (n.input? 0).bind g.constant? = some value) : g.Settles (FoldConvert.apply id) := by
  intro g' r g'' hsame
  subst hsame
  rw [FoldConvert.apply, exec_bind_ok (exec_node hn)]
  simp only [hop]
  rw [exec_bind_ok (exec_read _ _), hvalue]
  have hrest : Ensures g'.Descends (fun done g'' => done = true ∧ g'.Descends g'') Fatal (do
      let folded ← addConstant s!"{n.name}/Folded" value destination
      ofGraph (Graph.replaceNode id folded.node)
      return true) := by
    refine (ensures_addConstant Face.stable_true trivial).bind fun folded => .of_fact fun hnew => ?_
    apply (ensures_replaceNode Face.stable_true id hnew).bind
    intro _
    exact .pure fun _ h => ⟨rfl, h⟩
  exact hrest g' r g'' (.refl hg)

theorem ensures_bound {fakeQuantize : NodeId} {index : Nat} {value bound : Tensor α}
    (h : (g.input? fakeQuantize index).bind g.constant? = some bound) (f : α → α → α) :
    Ensures (· = g) (fun _ => (· = g)) Fatal (do
      match ← read fun g : Graph α => (g.input? fakeQuantize index).bind g.constant? with
      | some bound => attempt fun _ => ExceptT.adapt .tensor (bound.broadcastZip value f)
      | none => throw (.notQuantizable fakeQuantize) : Edit α TransformError (Tensor α)) := by
  intro g' r g'' hsame
  subst hsame
  rw [exec_bind_ok (exec_read _ _), h]
  have hattempt : Ensures (· = g') (fun _ => (· = g')) Fatal (attempt fun _ : Graph α =>
      ExceptT.adapt TransformError.tensor (bound.broadcastZip value f)) :=
    (ensures_attempt fun _ _ => by exact .adapt _ fun _ => rfl).left
  exact hattempt g' r g'' rfl

theorem settles_rangeFusion (hg : g.WellFormed) {fakeQuantize : NodeId} {value : Tensor α}
    (h : RangeFusion.source? g id = some (fakeQuantize, value)) (f : α → α → α) :
    g.Settles (RangeFusion.apply id f) := by
  obtain ⟨n, first, hn, hkind, -, ⟨low, hlow⟩, ⟨high, hhigh⟩, -⟩ := RangeFusion.source?_eq_some h
  have hbound : ∀ {index : Nat} {bound : Tensor α}, (n.input? index).bind g.constant? = some bound →
      (g.input? fakeQuantize index).bind g.constant? = some bound := by
    intro index bound hfound
    rw [Graph.input?, hn]
    exact hfound
  have hlook : Ensures (· = g) (fun found g' => g' = g ∧ found = RangeFusion.source? g id) Fatal
      (read (RangeFusion.source? · id)) :=
    (ensures_read _).weaken (fun _ h => h) fun _ _ h => ⟨h.1, h.1 ▸ h.2⟩
  refine hlook.bind fun found => .of_fact fun hfound => ?_
  rw [hfound, h]
  apply (ensures_bound (hbound hlow) f).bind
  intro outLow
  apply (ensures_bound (hbound hhigh) f).bind
  intro outHigh
  apply (ensures_port ⟨id, 0⟩).left.bind
  intro port
  apply (ensures_node fakeQuantize).left.bind
  intro m
  refine Ensures.weaken (p := g.Descends) ?_ (fun _ hsame => by rw [hsame]; exact .refl hg)
    fun _ _ h => h
  refine (ensures_addFakeQuantize (Face.admits_true _) (Graph.lt_size_of_node? hn) ?_ _ _).bind
    fun fused => .of_fact fun hnew => ?_
  · intro k hk
    cases (Graph.face?_eq_some.mpr ⟨n, hn, rfl⟩).symm.trans hk
    exact hkind
  · apply (ensures_replaceNode Face.stable_true id hnew).bind
    intro _
    apply (ensures_rename Face.stable_true fused m.name).bind
    intro _
    exact .pure fun _ h => ⟨rfl, h⟩

end Edit

namespace Rewrite

variable {p : Graph α → Prop} {post : β → Graph α → Prop} {q : TransformError → Prop}

theorem ensures_edit {e : Edit α TransformError β} (h : Ensures p post q e) :
    Ensures (fun s : Session α => p s.graph) (fun b s => post b s.graph) q (edit e) := by
  intro s r s' hs hrun
  exact h s.graph r s'.graph hs (exec_edit_eq.mp hrun).1

theorem ensures_changeContext {f : Context → Context} :
    Ensures (fun s : Session α => p s.graph) (fun _ s => p s.graph) q (changeContext f) := by
  intro s r s' hs hrun
  cases hrun
  exact ⟨fun _ _ => hs, fun e he => by cases he⟩

theorem ensures_context :
    Ensures (fun s : Session α => p s.graph) (fun _ s => p s.graph) q context := by
  intro s r s' hs hrun
  cases hrun
  exact ⟨fun _ _ => hs, fun e he => by cases he⟩

end Rewrite

section Decomposition

open Decomposition LowPrecision.Graph

variable [Scalar α]

theorem Grid.select_fails {lows highs : List α} {levels : Nat} {allowed : PrecisionSet}
    (h : isSupportedLevels levels = true) :
    Attempt.Fails Fatal (Grid.select lows highs levels allowed) := by
  rw [Grid.select]
  split
  · exact .pure _
  next type _ =>
  have hbounds : Attempt.Fails Fatal
      (liftM (Grid.bounds type levels : Except TransformError (α × α)) :
        Attempt TransformError (α × α)) := by
    intro e he
    rcases (by simpa [isSupportedLevels] using h : levels = 255 ∨ levels = 256) with rfl | rfl <;>
      cases type <;> cases he <;> rfl
  apply hbounds.bind
  intro bounds
  refine .bind (.anyM fun _ _ => .bind (.lift _) fun _ => .pure _) fun _ => ?_
  exact .pure _

theorem foldWeights_fails (name : String) (r : Ranges α) (grid : Grid α) (lows highs : List α)
    (params : List (ScaleZeroPoint α)) (weights : Tensor α) :
    Attempt.Fails Fatal (foldWeights name r grid lows highs params weights) := by
  rw [foldWeights]
  refine .bind (.lift _) fun inputLow => ?_
  refine .bind (.lift _) fun inputHigh => ?_
  split
  · refine .bind (.mapM fun entry _ => ?_) fun folded => .adapt _ fun _ => rfl
    dsimp only
    split
    · exact .lift _
    · exact .throw rfl
  · exact .throw rfl

variable {id : NodeId} {n : Node α}

theorem Edit.ensures_place (weights : Option (Tensor α)) (affine : AffineParams α) {source : Slot}
    (hsource : g₀.nodes.size ≤ source.node) :
    Ensures g₀.Descends (fun _ => g₀.Descends) Fatal (place id n weights affine source) := by
  refine (ensures_insert Face.stable_true (fun _ _ _ => trivial) _ _ _ _).bind fun chain =>
    .of_fact fun hnew => (ensures_replaceNode Face.stable_true id ?_).bind fun _ => .pure fun _ h => h
  unfold successor
  split
  · next multiply scale hmultiply =>
    rwa [Dequantization.output_of_multiply hmultiply] at hnew
  · exact hsource

theorem Edit.ensures_addSource (hid : id < g₀.nodes.size)
    (hop : ∀ f, g₀.face? id = some f → f.kind = .fakeQuantize) (name : String) (p : Lowering α)
    (type : ElementType) (weights : Option (Tensor α)) :
    Ensures g₀.Descends (fun s g => g₀.Descends g ∧ g₀.nodes.size ≤ s.node) Fatal
      (addSource id name p type weights) := by
  cases weights with
  | some weights =>
    exact (ensures_attempt fun _ _ => foldWeights_fails _ _ _ _ _ _ _).left.bind fun folded =>
      ensures_addConstant Face.stable_true trivial
  | none =>
    have hbound : ∀ values : List α, Ensures g₀.Descends (fun _ => g₀.Descends) Fatal
        (Edit.attempt fun _ => ExceptT.adapt .tensor do
          layOut p.ranges.boundsShape (← quantizeBounds p.grid p.params values) :
            Edit α TransformError (Tensor α)) := by
      intro values
      refine (ensures_attempt fun _ _ => ?_).left
      exact .adapt _ fun _ => rfl
    apply (hbound p.lows).bind
    intro low
    apply (hbound p.highs).bind
    intro high
    exact .map (ensures_addFakeQuantize (Face.admits_true _) hid hop _ _)

theorem Edit.ensures_lower (hg : g₀.WellFormed) {data : Slot} (hn : g₀.node? id = some n)
    (hop : n.kind = .fakeQuantize) (hdata : n.input? 0 = some data) (p : Lowering α)
    (affine : AffineParams α) (type : ElementType) :
    Ensures (· = g₀) (fun _ => g₀.Descends) Fatal (lower id p affine type) := by
  intro g r g' hsame hrun
  subst hsame
  rw [lower_eq hn hdata] at hrun
  have hsource := ensures_addSource (lt_size_of_node? hn) (fun f hf => by
    cases (face?_eq_some.mpr ⟨n, hn, rfl⟩).symm.trans hf
    exact hop) n.name p type (g.constant? data)
  have hplace : Ensures g.Descends (fun _ => g.Descends) Fatal (do
      let source ← addSource id n.name p type (g.constant? data)
      return (n.name, ← place id n (g.constant? data) affine source)) := by
    refine hsource.bind fun source => .of_fact fun hnew => ?_
    apply (ensures_place _ affine hnew).bind
    intro _
    exact .pure fun _ h => h
  exact hplace g r g' (.refl hg) hrun

theorem decompose_settles {s s' : Session α} (hg : s.graph.WellFormed)
    (hcan : canApply s.context s.graph id = .ok true) {r : Except TransformError (Dequantization α)}
    (hrun : exec (decompose id) s = .ok (r, s')) :
    (∀ d, r = .ok d → s.graph.Descends s'.graph) ∧ ∀ e, r = .error e → Fatal e := by
  obtain ⟨ranges, hranges, -, -, hselect⟩ := canApply_eq_true hcan
  obtain ⟨n, data, _, _, _, _, _, hn, hop, hin, -, -, -, -, -, houtput, hlevels⟩ :=
    Ranges.ofNode_eq_ok.mp hranges
  have hdata : n.input? 0 = some data := by simp [Node.input?, hin]
  have hkind : n.kind = .fakeQuantize := by rw [Node.kind, hop]; rfl
  have hgrid : Ensures (· = s.graph) (fun _ g => g = s.graph) Fatal
      (gridOf id ranges ranges.outputLow.data ranges.outputHigh.data) := by
    apply (Edit.ensures_attempt fun g _ => Grid.select_fails hlevels).bind
    intro found g r g' hg hrun
    cases found with
    | none => exact absurd (hg.1 ▸ hg.2) hselect
    | some grid =>
      cases hrun
      exact ⟨fun _ _ => hg.1, fun e he => by cases he⟩
  rw [decompose, exec_bind_ok (Rewrite.exec_edit_ofExcept_eq_ok.mpr ⟨hranges, rfl⟩),
    exec_bind_ok (exec_lift_eq_ok.mpr ⟨Ranges.outputBounds_eq houtput, rfl⟩)] at hrun
  refine (?_ : Ensures (fun t : Session α => t.graph = s.graph) (fun _ t => s.graph.Descends t.graph)
    Fatal _) s r s' rfl hrun
  apply (Rewrite.ensures_edit hgrid).bind
  intro grid
  apply ((Ensures.lift _).weaken (fun _ h => h) fun _ _ h => h.2).bind
  intro params
  apply (Rewrite.ensures_changeContext (p := (· = s.graph))).bind
  intro _
  have haffine : Ensures (· = s.graph) (fun _ g => g = s.graph) Fatal (Edit.attempt fun _ =>
      ExceptT.adapt TransformError.tensor (affineParams ranges.boundsShape params)) := by
    refine (Edit.ensures_attempt fun _ _ => ?_).left
    exact .adapt _ fun _ => rfl
  apply (Rewrite.ensures_edit haffine).bind
  intro affine
  apply (Rewrite.ensures_context (p := (· = s.graph))).bind
  intro c
  apply (Rewrite.ensures_edit (Edit.ensures_lower hg hn hkind hdata _ affine _)).bind
  intro _
  exact (Rewrite.ensures_changeContext (p := s.graph.Descends)).bind fun _ => .pure fun _ h => h

end Decomposition

namespace ConcatPlan

open LowPrecision.Graph

variable {fresh : Face α → Prop} {type : ElementType}

theorem ensures_lowerBoundary (h : Face.Admits type fresh) (branches : List (NodeId × Branch α))
    (hbranches : ∀ b ∈ branches, b.1 < g₀.nodes.size ∧
      ∀ f, g₀.face? b.1 = some f → f.kind = .fakeQuantize) :
    Ensures (fun s : Session α => Lineage g₀ fresh s.graph) (fun _ s => Lineage g₀ fresh s.graph)
      Fatal (lowerBoundary type branches) := by
  induction branches with
  | nil => exact .pure fun _ hs => hs
  | cons b rest ih =>
    obtain ⟨id, branch⟩ := b
    obtain ⟨hid, hop⟩ := hbranches (id, branch) List.mem_cons_self
    have hadd := Edit.ensures_addFakeQuantize h hid hop branch.low branch.high
    rw [lowerBoundary]
    apply (Rewrite.ensures_edit (Edit.ensures_node id).left).bind
    intro n
    refine (Rewrite.ensures_edit hadd).bind fun lowered => .of_fact fun hnew => ?_
    apply (Rewrite.ensures_edit (Edit.ensures_replaceNode h.stable id hnew)).bind
    intro _
    apply (Rewrite.ensures_changeContext (p := Lineage g₀ fresh)).bind
    intro _
    exact (ih fun c hc => hbranches c (List.mem_cons_of_mem _ hc)).bind fun _ => .pure fun _ hs => hs

theorem ensures_retypeLayers (h : Face.Stable fresh) {layers : List NodeId}
    (hlayers : ∀ id ∈ layers, id < g₀.nodes.size) :
    Ensures (Lineage g₀ fresh) (fun _ => Lineage g₀ fresh) Fatal
      (retypeLayers (α := α) type layers) := by
  refine .forM fun id hid => ?_
  refine (Edit.ensures_node id).left.bind fun n => .forM ?_
  exact fun index _ => Edit.ensures_setOutputType h type (hlayers id hid)

variable [Scalar α]

theorem ensures_dequantizeBehind (h : Face.Admits type fresh) (inside : Region) (id : NodeId)
    (p : ChannelParams α) :
    Ensures (Lineage g₀ fresh) (fun _ => Lineage g₀ fresh) Fatal (dequantizeBehind inside id p) := by
  refine (Edit.ensures_node id).left.bind fun n => .forM ?_
  intro index _
  apply (Edit.ensures_read (Region.readersOutside · inside ⟨id, index⟩)).left.bind
  intro readers
  split
  · apply (Edit.ensures_port ⟨id, index⟩).left.bind
    intro port
    apply ((Ensures.lift _).weaken (fun _ h => h) fun _ _ h => h.2).bind
    intro params
    exact (Edit.ensures_insert h.stable h.step _ _ _ _).discard fun _ _ h => h.1
  · exact .pure fun _ h => h

variable {plan : ConcatPlan α}

theorem ensures_rework {p : Graph α → Prop} {known : List (NodeId × ChannelParams α)}
    (hretype : ∀ ids : List NodeId, (∀ id ∈ ids, id ∈ plan.region.layers) →
      Ensures p (fun _ => p) Fatal (retypeLayers (α := α) type ids))
    (hbehind : ∀ e ∈ known, Ensures p (fun _ => p) Fatal
      (dequantizeBehind { Region.empty with layers := known.map Prod.fst } e.1 e.2)) :
    Ensures (fun t : Session α => p t.graph) (fun _ t => p t.graph) Fatal
      (plan.rework type known) := by
  apply (Rewrite.ensures_edit Edit.ensures_query).bind
  intro order
  refine (Rewrite.ensures_edit (hretype _ fun id hid => ?_)).bind fun _ => ?_
  · exact of_decide_eq_true (List.mem_filter.mp hid).2
  refine .forM fun id _ => ?_
  split
  · next e p hfind =>
    obtain rfl : e = id := by simpa using List.find?_some hfind
    exact Rewrite.ensures_edit (hbehind (e, p) (List.mem_of_find?_eq_some hfind))
  · exact .pure fun _ h => h

theorem ensures_apply {c : Context}
    (h : Face.Admits (storageType c.params plan.grid.precision) fresh)
    (hboundary : ∀ id ∈ plan.region.boundary, id < g₀.nodes.size ∧
      ∀ f, g₀.face? id = some f → f.kind = .fakeQuantize)
    (hlayers : ∀ id ∈ plan.region.layers, id < g₀.nodes.size) :
    Ensures (fun s : Session α => Lineage g₀ fresh s.graph ∧ s.context = c)
      (fun _ s => Lineage g₀ fresh s.graph) Fatal (apply plan) := by
  rintro s r s' ⟨hs, rfl⟩ hrun
  rw [apply_eq, exec_bind_ok (Rewrite.exec_context s)] at hrun
  have hlower := ensures_lowerBoundary h (plan.region.boundary.zip plan.branches)
    fun b hb => hboundary b.1 (List.of_mem_zip hb).1
  refine (hlower.bind fun lowered => (ensures_rework (fun ids hids => ?_) fun e _ => ?_).bind fun _ =>
    .forM fun entry _ => Rewrite.ensures_changeContext (p := Lineage g₀ fresh)) s r s' hs hrun
  · exact ensures_retypeLayers h.stable fun id hid => hlayers id (hids id hid)
  · exact ensures_dequantizeBehind h _ e.1 e.2

theorem Accepted.isQuantizer {c : Context} {concat : NodeId} {plan : ConcatPlan α}
    (h : Accepted c g concat plan) {id : NodeId} (hid : id ∈ plan.region.boundary) :
    id < g.nodes.size ∧ ∀ f, g.face? id = some f → f.kind = .fakeQuantize := by
  obtain ⟨f, levels, hf, hop, -⟩ := h.isBoundary hid
  refine ⟨lt_size_of_face? hf, fun f' hf' => ?_⟩
  cases hf.symm.trans hf'
  rw [Face.kind, hop]
  rfl

theorem apply_settles {concat : NodeId} {plan : ConcatPlan α} {s s' : Session α}
    (hg : s.graph.WellFormed) (hplan : Accepted s.context s.graph concat plan)
    {r : Except TransformError Unit} (hrun : exec (apply plan) s = .ok (r, s')) :
    (∀ b, r = .ok b → s.graph.Descends s'.graph) ∧ ∀ e, r = .error e → Fatal e := by
  refine ensures_apply (Face.admits_true _) (fun id hid => ?_) (fun id hid => ?_) s r s'
    ⟨.refl hg, rfl⟩ hrun
  · exact hplan.isQuantizer hid
  · exact (hplan.reads hid).1

end ConcatPlan

namespace Rule

variable [Scalar α] {m : NodeMatch} {s s' : Session α} {rule : Rule}
  {r : Except TransformError Bool}

def Settled (s s' : Session α) (r : Except TransformError Bool) : Prop :=
  (∀ b, r = .ok b → b = true ∧ s.graph.Descends s'.graph) ∧ ∀ e, r = .error e → Fatal e

omit [Scalar α] in
theorem settled_of_edit {e : Edit α TransformError Bool} (h : s.graph.Settles e)
    (hrun : exec (Rewrite.edit e) s = .ok (r, s')) : Settled s s' r :=
  h s.graph r s'.graph rfl (Rewrite.exec_edit_eq.mp hrun).1

omit [Scalar α] in
theorem settled_of_map {r₀ : Except TransformError β}
    (h : (∀ b, r₀ = .ok b → s.graph.Descends s'.graph) ∧ ∀ e, r₀ = .error e → Fatal e) :
    Settled s s' (r₀.map fun _ => true) := by
  cases r₀ with
  | ok b => exact ⟨fun b' hb => ⟨(Except.ok.inj hb).symm, h.1 b rfl⟩, fun e he => by cases he⟩
  | error e => exact ⟨fun b' hb => (by cases hb), fun e' he => Except.error.inj he ▸ h.2 e rfl⟩

omit [Scalar α] in
theorem settled_of_plan {plan : β} {f : β → Rewrite α Unit}
    (h : ∀ r, exec (f plan) s = .ok (r, s') →
      (∀ b, r = .ok b → s.graph.Descends s'.graph) ∧ ∀ e, r = .error e → Fatal e)
    (hrun : exec (withPlan (some plan) f) s = .ok (r, s')) : Settled s s' r := by
  rcases withPlan_cases hrun with ⟨hnone, -⟩ | ⟨plan', r₀, hplan, hexec, rfl⟩
  · cases hnone
  · cases hplan
    exact settled_of_map (h r₀ hexec)

omit [Scalar α] in
theorem settled_of_edit_plan {plan : β} {f : β → Edit α TransformError Unit} (hg : s.graph.WellFormed)
    (h : Ensures s.graph.Descends (fun _ => s.graph.Descends) Fatal (f plan))
    (hrun : exec (withPlan (some plan) fun plan => Rewrite.edit (f plan)) s = .ok (r, s')) :
    Settled s s' r :=
  settled_of_plan (fun r hexec => h s.graph r s'.graph (.refl hg) (Rewrite.exec_edit_eq.mp hexec).1)
    hrun

theorem settled_of_canApply (hg : s.graph.WellFormed)
    (hm : rule.pattern.matchAt s.graph id = some m)
    (hcan : rule.canApply s.context s.graph m = .ok true)
    (hrun : exec (rule.apply m) s = .ok (r, s')) : Settled s s' r := by
  have hmatch := hm
  obtain ⟨n, hn, hkind, rfl⟩ := Pattern.matchAt_eq_some hm
  have hid : id < s.graph.nodes.size := Graph.lt_size_of_node? hn
  rw [apply, exec_bind_ok (Rewrite.exec_graph s), exec_bind_ok (Rewrite.exec_context s)] at hrun
  cases rule with
  | decomposition =>
    obtain ⟨r₁, hdiscard, rfl⟩ := exec_map_cases (f := fun _ => true) hrun
    obtain ⟨r₀, hdecompose, rfl⟩ := exec_map_cases (f := fun _ => ()) hdiscard
    have hmap : (r₀.map fun _ => ()).map (fun _ => true) = r₀.map fun _ => true := by
      cases r₀ <;> rfl
    exact hmap ▸ settled_of_map (decompose_settles hg hcan hdecompose)
  | convertFusion =>
    have hfusable : (ConvertFusion.fusable? s.graph id).isSome := by
      rw [canApply, ConvertFusion.canApply] at hcan
      split at hcan
      · next hfound =>
        rw [hfound]
        rfl
      · cases hcan
    exact settled_of_edit (Edit.settles_convertFusion hg hfusable) hrun
  | matMul =>
    obtain ⟨plan, hplan⟩ := checked_isSome hcan
    rw [exec_bind_ok (exec_lift_eq_ok.mpr ⟨hplan, rfl⟩)] at hrun
    exact settled_of_edit_plan hg (Edit.ensures_lowerKernel id plan.operands plan.scale) hrun
  | convolution =>
    obtain ⟨plan, hplan⟩ := checked_isSome hcan
    rw [exec_bind_ok (exec_lift_eq_ok.mpr ⟨hplan, rfl⟩)] at hrun
    exact settled_of_edit_plan hg (Edit.ensures_lowerKernel id plan.operands plan.scale) hrun
  | concat =>
    obtain ⟨plan, hplan⟩ := checked_isSome hcan
    rw [exec_bind_ok (exec_lift_eq_ok.mpr ⟨hplan, rfl⟩)] at hrun
    exact settled_of_plan (fun r hexec =>
      ConcatPlan.apply_settles hg (ConcatPlan.accepted_of_ofConcat? hplan) hexec) hrun
  | sanitization => exact settled_of_edit (Edit.settles_sanitization hg (Except.ok.inj hcan)) hrun
  | depthToSpace =>
    obtain ⟨plan, hplan⟩ := Option.isSome_iff_exists.mp (Except.ok.inj hcan)
    rw [hplan] at hrun
    exact settled_of_edit_plan hg (Edit.ensures_moveDequantization hid _ _ _) hrun
  | transparent =>
    obtain ⟨plan, hplan⟩ := Option.isSome_iff_exists.mp (Except.ok.inj hcan)
    rw [hplan] at hrun
    exact settled_of_edit_plan hg (Edit.ensures_moveDequantization hid _ _ _) hrun
  | foldConvert =>
    obtain ⟨value, hvalue⟩ := Constraint.constant_of_holds
      (Pattern.holds_of_matchAt hmatch hn (.constantInput 0) (by simp [pattern]))
    rw [Graph.input?, hn] at hvalue
    cases hop : n.op <;> simp [pattern, Node.kind, Op.kind, hop] at hkind
    exact settled_of_edit (Edit.settles_foldConvert hg hn hop hvalue) hrun
  | fuseSubtract | fuseMultiply =>
    obtain ⟨⟨fakeQuantize, value⟩, hsource⟩ := Option.isSome_iff_exists.mp (Except.ok.inj hcan)
    exact settled_of_edit (Edit.settles_rangeFusion hg hsource _) hrun

end Rule

end LowPrecision
