import LowPrecision.Proofs.Quantization.Limits
import LowPrecision.Proofs.Rewrite.Guarding
import LowPrecision.Proofs.Rewrite.Verdicts

namespace LowPrecision

variable {α β : Type} {l : Limits}

def OpKind.HasChannels (k : OpKind) : Prop :=
  k = .fakeQuantize ∨ k = .convolution ∨ k = .groupConvolution ∨ k.Passes

instance (k : OpKind) : Decidable k.HasChannels := inferInstanceAs (Decidable (_ ∨ _))

def Port.Within (l : Limits) (p : Port) : Prop := ∀ shape, p.shape = some shape → shape.length ≤ l.rank

namespace Face

structure Within (l : Limits) (f : Face α) : Prop where
  value (t : Tensor α) : f.op = .constant t → t.Within l
  port (p : Port) : p ∈ f.ports → p.Within l
  channels (p : Port) (shape : List Nat) : f.kind.HasChannels → p ∈ f.ports → p.shape = some shape →
    ∀ d ∈ shape, l.least ≤ d ∧ d ≤ l.channels
  joined : f.kind = .concat → f.inputs.length * l.channels ≤ l.extent
  kernel : f.kind = .convolution ∨ f.kind = .groupConvolution → 0 < l.least

structure Alike (f f' : Face α) : Prop where
  op : f'.op = f.op
  inputs : f'.inputs.length = f.inputs.length
  shapes : f'.ports.map Port.shape = f.ports.map Port.shape

namespace Alike

theorem refl (f : Face α) : Alike f f := ⟨rfl, rfl, rfl⟩

theorem trans {f₁ f₂ f₃ : Face α} (h : Alike f₁ f₂) (h' : Alike f₂ f₃) : Alike f₁ f₃ :=
  ⟨h'.op.trans h.op, h'.inputs.trans h.inputs, h'.shapes.trans h.shapes⟩

theorem of_rerouted {move : Slot → Slot → Prop} {f f' : Face α} (h : f.Rerouted move f') : Alike f f' :=
  ⟨h.op, h.inputs.length_eq.symm, by rw [h.ports]⟩

theorem retype (f : Face α) (index : Nat) (type : ElementType) : Alike f (f.retype index type) := by
  refine ⟨rfl, rfl, ?_⟩
  have hshapes := Graph.map_modify Port.shape id (f := (·.withType type)) (fun _ => rfl) f.ports index
  exact hshapes.trans (List.modify_id ..)

end Alike

namespace Within

variable {f f' : Face α}

theorem of_ports (h : f.Within l) (hop : f'.op = f.op)
    (hports : ∀ p' ∈ f'.ports, ∃ p ∈ f.ports, p'.shape = p.shape)
    (hinputs : f.kind = .concat → f'.inputs.length = f.inputs.length) : f'.Within l where
  value t ht := h.value t (hop ▸ ht)
  port p' hp' shape hshape := by
    obtain ⟨p, hp, hsame⟩ := hports p' hp'
    exact h.port p hp shape (hsame ▸ hshape)
  channels p' shape hkind hp' hshape := by
    obtain ⟨p, hp, hsame⟩ := hports p' hp'
    rw [Face.kind, hop] at hkind
    exact h.channels p shape hkind hp (hsame ▸ hshape)
  joined hkind := by
    rw [Face.kind, hop] at hkind
    rw [hinputs hkind]
    exact h.joined hkind
  kernel hkind := by
    rw [Face.kind, hop] at hkind
    exact h.kernel hkind

theorem alike (h : f.Within l) (halike : f.Alike f') : f'.Within l := by
  refine h.of_ports halike.op (fun p' hp' => ?_) fun _ => halike.inputs
  have hmem : p'.shape ∈ f.ports.map Port.shape := halike.shapes ▸ List.mem_map_of_mem hp'
  obtain ⟨p, hp, hsame⟩ := List.mem_map.mp hmem
  exact ⟨p, hp, hsame.symm⟩

theorem constant {t : Tensor α} (h : t.Within l) (type : ElementType) :
    (Face.mk (.constant t) [] [⟨type, some t.shape⟩] none).Within l where
  value u hu := by
    cases hu
    exact h
  port p hp shape hshape := by
    obtain rfl := List.mem_singleton.mp hp
    obtain rfl := Option.some.inj hshape
    exact h.shape.1
  channels _ _ hkind := absurd hkind (show ¬ OpKind.constant.HasChannels by decide)
  joined hkind := by cases hkind
  kernel hkind := by rcases hkind with hkind | hkind <;> cases hkind

theorem of_shapes (hkind : f.kind ≠ .constant ∧ f.kind ≠ .concat) (hleast : 0 < l.least)
    (hports : ∀ p ∈ f.ports, ∀ shape ∈ p.shape, shape.length ≤ l.rank ∧
      ∀ d ∈ shape, l.least ≤ d ∧ d ≤ l.channels) : f.Within l where
  value _ ht := absurd (congrArg Op.kind ht) hkind.1
  port p hp shape hshape := (hports p hp shape hshape).1
  channels p shape _ hp hshape := (hports p hp shape hshape).2
  joined hconcat := absurd hconcat hkind.2
  kernel _ := hleast

theorem step {op : Op α} {inputs : List Slot} {p : Port}
    (hop : op = .convert .f32 ∨ op = .subtract ∨ op = .multiply) (hp : p.Within l) :
    (Face.mk op inputs [p] none).Within l where
  value t ht := by
    rcases hop with rfl | rfl | rfl <;> cases ht
  port q hq := List.mem_singleton.mp hq ▸ hp
  channels _ _ hkind := by
    have hnot : ¬ op.kind.HasChannels := by
      rcases hop with rfl | rfl | rfl <;> simp only [Op.kind] <;> decide
    exact absurd hkind hnot
  joined hkind := by
    rcases hop with rfl | rfl | rfl <;> cases hkind
  kernel hkind := by
    rcases hop with rfl | rfl | rfl <;> rcases hkind with hkind | hkind <;> cases hkind

end Within

end Face

/-- A graph within the limits that came out of another one. What is left of the old nodes is alike, and
only operations that pass precision through are marked so. -/
structure Confined (l : Limits) (g₀ g : Graph α) : Prop where
  wellFormed : g.WellFormed
  size : g₀.nodes.size ≤ g.nodes.size
  within (v : NodeId) (f : Face α) : g.face? v = some f → f.Within l
  old (v : NodeId) (f' : Face α) : v < g₀.nodes.size → g.face? v = some f' →
    ∃ f, g₀.face? v = some f ∧ f.Alike f'
  marked (e : AttributeKey × Attribute) : e ∈ g.attributes.entries → e.2 = .precisionPreserved true →
    e.1.target.owner < g.nodes.size ∧ ∀ f, g.face? e.1.target.owner = some f → f.kind.Passes

namespace Confined

variable {g₀ g g' : Graph α}

theorem rebase (h : Confined l g₀ g) : Confined l g g where
  wellFormed := h.wellFormed
  size := Nat.le_refl _
  within := h.within
  old _ f _ hf := ⟨f, hf, .refl f⟩
  marked := h.marked

theorem value (h : Confined l g₀ g) {s : Slot} {t : Tensor α} (ht : g.constant? s = some t) :
    t.Within l := by
  rw [Graph.constant?_eq_face] at ht
  obtain ⟨f, hf, ht⟩ := Option.bind_eq_some_iff.mp ht
  split at ht
  · next value hop => exact Option.some.inj ht ▸ (h.within s.node f hf).value value hop
  · cases ht

theorem port (h : Confined l g₀ g) {s : Slot} {p : Port} (hp : g.port? s = some p) : p.Within l := by
  have hport := hp
  rw [Graph.port?_eq_face] at hport
  obtain ⟨f, hf, -⟩ := Option.bind_eq_some_iff.mp hport
  exact (h.within s.node f hf).port p (Graph.mem_ports hf hp)

theorem alike (h : Confined l g₀ g) {v : NodeId} {f f' : Face α} (hf : g₀.face? v = some f)
    (hf' : g.face? v = some f') : f.Alike f' := by
  obtain ⟨k, hk, halike⟩ := h.old v f' (Graph.lt_size_of_face? hf) hf'
  exact Option.some.inj (hk.symm.trans hf) ▸ halike

theorem step (h : Confined l g₀ g) (hwf : g'.WellFormed) (hsize : g.nodes.size ≤ g'.nodes.size)
    (hface : ∀ v f', v < g.nodes.size → g'.face? v = some f' → ∃ f, g.face? v = some f ∧ f.Alike f')
    (hnew : ∀ v f, g.nodes.size ≤ v → g'.face? v = some f → f.Within l) (hmarks : g.KeepsMarks g') :
    Confined l g₀ g' where
  wellFormed := hwf
  size := Nat.le_trans h.size hsize
  within v f' hf' := by
    rcases Nat.lt_or_ge v g.nodes.size with hlt | hge
    · obtain ⟨f, hf, halike⟩ := hface v f' hlt hf'
      exact (h.within v f hf).alike halike
    · exact hnew v f' hge hf'
  old v f' hv hf' := by
    obtain ⟨f₁, hf₁, halike₁⟩ := hface v f' (Nat.lt_of_lt_of_le hv h.size) hf'
    obtain ⟨f, hf, halike⟩ := h.old v f₁ hv hf₁
    exact ⟨f, hf, halike.trans halike₁⟩
  marked e he hmark := by
    obtain ⟨e', he', hmark', hsame⟩ := hmarks e he hmark
    obtain ⟨howner, hpasses⟩ := h.marked e' he' hmark'
    rw [hsame] at howner hpasses
    refine ⟨Nat.lt_of_lt_of_le howner hsize, fun f' hf' => ?_⟩
    obtain ⟨f, hf, halike⟩ := hface _ f' howner hf'
    rw [Face.kind, halike.op]
    exact hpasses f hf

theorem rerouted {move : Slot → Slot → Prop} (h : Confined l g₀ g) (hr : Graph.Rerouted move g g')
    (hsize : g'.nodes.size = g.nodes.size) (hmarks : g.KeepsMarks g') : Confined l g₀ g' :=
  h.step hr.wellFormed hr.size (fun v f' hv hf' => by
    obtain ⟨f, hf, hsame⟩ := hr.face v f' hv hf'
    exact ⟨f, hf, .of_rerouted hsame⟩)
    (fun _ _ hv hf => absurd (Graph.lt_size_of_face? hf) (Nat.not_lt.mpr (hsize ▸ hv))) hmarks

theorem added {f : Face α} (h : Confined l g₀ g) (ha : Graph.Added g g' f) (hf : f.Within l) :
    Confined l g₀ g' := by
  refine h.step ha.wellFormed (by rw [ha.size]; exact Nat.le_succ _) (fun v f' hv hf' => ?_)
    (fun v k hv hk => ?_) (.of_eq ha.attributes)
  · rw [ha.face, if_neg (Nat.ne_of_lt hv)] at hf'
    exact ⟨f', hf', .refl f'⟩
  · obtain ⟨-, rfl⟩ := ha.eq_new hv hk
    exact hf

theorem recast {change : NodeId → Face α → Face α} (h : Confined l g₀ g)
    (hr : Graph.Recast g g' change) (hchange : ∀ v (f : Face α), f.Alike (change v f)) :
    Confined l g₀ g' := by
  refine h.step hr.wellFormed (Nat.le_of_eq hr.size.symm) (fun v f' _ hf' => ?_)
    (fun v f hv hf => absurd (Graph.lt_size_of_face? hf) (Nat.not_lt.mpr (hr.size ▸ hv)))
    (.of_eq hr.attributes)
  rw [hr.face] at hf'
  obtain ⟨f, hf, rfl⟩ := Option.map_eq_some_iff.mp hf'
  exact ⟨f, hf, hchange v f⟩

theorem removed (h : Confined l g₀ g) (stack : List NodeId) : Confined l g₀ (g.removeDead stack) := by
  have hpruned := h.wellFormed.pruned stack
  have hr : Graph.Rerouted (fun _ _ => False) g (g.removeDead stack) := hpruned.rerouted
  exact h.rerouted hr hpruned.size (.removeDead g stack)

theorem replaced {old new : NodeId} (h : Confined l g₀ g)
    (hrun : exec (Graph.replaceNode old new : Edit α GraphError Unit) g = .ok (.ok (), g'))
    (hkind : ∀ f, g.face? old = some f → ¬ f.kind.Passes) : Confined l g₀ g' := by
  obtain ⟨⟨f, _, hf, -⟩, hrerouted, hsize, hinherits⟩ := Graph.replaceNode_rerouted h.wellFormed hrun
  refine h.rerouted hrerouted hsize (.of_inherits hinherits fun e he hmark howner => ?_)
  have hpasses := (h.marked e he hmark).2
  rw [howner] at hpasses
  exact hkind f hf (hpasses f hf)

theorem renamed {id : NodeId} {name : String} (h : Confined l g₀ g)
    (hrun : g.rename id name = (.ok (), g')) : Confined l g₀ g' := by
  obtain ⟨hwf, hsize, hface, hattributes⟩ := Graph.rename_done h.wellFormed hrun
  exact h.step hwf (Nat.le_of_eq hsize.symm) (fun v f' _ hf' => ⟨f', hface v ▸ hf', .refl f'⟩)
    (fun v f hv hf => absurd (Graph.lt_size_of_face? hf) (Nat.not_lt.mpr (hsize ▸ hv)))
    (.of_eq hattributes)

end Confined

namespace Edit

variable {g₀ : Graph α} {p : Graph α → Prop}

theorem ends_step {f : Graph α → Except GraphError Unit × Graph α} {p' : Graph α → Prop}
    (h : ∀ g g', p g → f g = (.ok (), g') → p' g') : Ends p (fun _ => p') (ofGraph (step f)) :=
  Ends.adapt fun g hg => ⟨(f g).1, (f g).2, rfl, fun _ hr => h g (f g).2 hg (Prod.ext hr rfl)⟩

theorem ends_ofExcept {ε : Type} (f : Graph α → Except ε β) :
    Ends p (fun b g => p g ∧ f g = .ok b) (ofExcept f) :=
  fun g hg => ⟨f g, g, exec_ofExcept f g, fun _ hb => ⟨hg, hb⟩⟩

theorem ends_read {ε : Type} (f : Graph α → β) :
    Ends p (fun b g => p g ∧ b = f g) (read f : Edit α ε β) :=
  fun g hg => ⟨.ok (f g), g, rfl, fun _ hb => ⟨hg, (Except.ok.inj hb).symm⟩⟩

theorem ends_change {ε : Type} {f : Graph α → Graph α} {p' : Graph α → Prop} (h : ∀ g, p g → p' (f g)) :
    Ends p (fun _ => p') (change f : Edit α ε Unit) :=
  fun g hg => ⟨.ok (), f g, rfl, fun _ _ => h g hg⟩

theorem ends_attempt {ε : Type} {q : β → Prop} {f : Graph α → Attempt ε β} (h : ∀ g, p g → (f g).Yields q) :
    Ends p (fun b g => p g ∧ q b) (attempt f) := by
  intro g hg
  obtain ⟨r, hr, hq⟩ := h g hg
  exact ⟨r, g, by rw [exec_attempt, hr]; rfl, fun b hb => ⟨hg, hq b hb⟩⟩

theorem ends_node (id : NodeId) : Ends p (fun n g => p g ∧ g.node? id = some n) (node id) :=
  (ends_ofExcept _).adapt.weaken (fun _ h => h) fun _ _ h => ⟨h.1, Graph.node_eq_ok.mp h.2⟩

theorem ends_port (s : Slot) : Ends p (fun port g => p g ∧ g.port? s = some port) (port s) :=
  (ends_ofExcept _).adapt.weaken (fun _ h => h) fun port g h => ⟨h.1, by rw [Graph.port?, h.2]; rfl⟩

theorem ends_port_within (s : Slot) :
    Ends (Confined l g₀) (fun port g => Confined l g₀ g ∧ port.Within l) (port s) :=
  (ends_port s).weaken (fun _ h => h) fun _ _ h => ⟨h.1, h.1.port h.2⟩

theorem ends_addNode {base : String} {op : Op α} {inputs : List Slot} {outputs : List Port}
    (h : (Face.mk op inputs outputs none).Within l) :
    Ends (Confined l g₀) (fun _ => Confined l g₀) (addNode base op inputs outputs) :=
  .of_done (fun g _ => ⟨_, _, by rw [addNode, ofGraph, exec_adapt, exec_answer]; rfl⟩)
    fun _ _ _ hg hrun => hg.added (addNode_done hg.wellFormed hrun).2.2 h

theorem ends_addConstant {base : String} {value : Tensor α} (h : value.Within l) (type : ElementType) :
    Ends (Confined l g₀) (fun _ => Confined l g₀) (addConstant base value type) :=
  .map (ends_addNode (.constant h type))

theorem ends_removeDead (stack : List NodeId) :
    Ends (Confined l g₀) (fun _ => Confined l g₀)
      (change (·.removeDead stack) : Edit α TransformError Unit) :=
  ends_change fun _ hg => hg.removed stack

theorem ends_setInput (id : NodeId) (index : Nat) (source : Slot) :
    Ends (Confined l g₀) (fun _ => Confined l g₀) (ofGraph (step (·.setInput id index source))) :=
  ends_step fun _ _ hg hrun => hg.recast (Graph.setInput_done hg.wellFormed hrun).2.2
    fun _ _ => ⟨rfl, Face.length_redirect .., rfl⟩

theorem ends_setRelaxed (id : NodeId) (types : RelaxedTypes) :
    Ends (Confined l g₀) (fun _ => Confined l g₀) (ofGraph (step (·.setRelaxed id types))) :=
  ends_step fun _ _ hg hrun => hg.recast (Graph.setRelaxed_done hg.wellFormed hrun).2 fun v f => by
    split <;> exact ⟨rfl, rfl, rfl⟩

theorem ends_setOutputType (s : Slot) (type : ElementType) :
    Ends (Confined l g₀) (fun _ => Confined l g₀) (ofGraph (step (·.setOutputType s type))) :=
  ends_step fun _ _ hg hrun => hg.recast (Graph.setOutputType_done hg.wellFormed hrun).2 fun v f => by
    split
    · exact .retype ..
    · exact .refl f

theorem ends_rename (id : NodeId) (name : String) :
    Ends (Confined l g₀) (fun _ => Confined l g₀) (ofGraph (step (·.rename id name))) :=
  ends_step fun _ _ hg hrun => hg.renamed hrun

theorem ends_rewire (slots : List Slot) (source : Slot) :
    Ends (Confined l g₀) (fun _ => Confined l g₀) (ofGraph (Graph.rewire slots source)) := by
  refine Ends.adapt (.of_done (fun g hg => ?_) fun _ _ _ hg hrun =>
    hg.recast (Graph.rewire_done hg.wellFormed hrun) fun _ _ => ⟨rfl, Face.length_redirect .., rfl⟩)
  obtain ⟨r, g', hexec, -⟩ := Graph.keeps_rewire g slots source g ⟨hg.wellFormed, .refl g⟩
  exact ⟨r, g', hexec⟩

theorem ends_replaceNode {old : NodeId} {f : Face α} (hf : g₀.face? old = some f) (hkind : ¬ f.kind.Passes)
    (new : NodeId) :
    Ends (Confined l g₀) (fun _ => Confined l g₀) (ofGraph (Graph.replaceNode old new)) := by
  refine Ends.adapt (.of_done (fun g hg => ?_) fun _ _ _ hg hrun => hg.replaced hrun fun f' hf' => ?_)
  · obtain ⟨r, g', hexec, -⟩ := Graph.keeps_replaceNode g old new g ⟨hg.wellFormed, .refl g⟩
    exact ⟨r, g', hexec⟩
  · rw [Face.kind, (hg.alike hf hf').op]
    exact hkind

section Chains

variable [Arithmetic α]

theorem ends_addZeroPoint {base : String} {zeroPoint : Tensor α} (h : zeroPoint.Within l)
    (precision : ElementType) :
    Ends (Confined l g₀) (fun _ => Confined l g₀)
      (Dequantization.addZeroPoint base zeroPoint precision) := by
  rw [Dequantization.addZeroPoint]
  split
  · apply (ends_addConstant h _).bind
    intro constant
    refine (ends_addNode (.step (.inl rfl) fun shape hshape => ?_)).bind fun convert => .pure fun _ hg => hg
    exact Option.some.inj hshape ▸ h.shape.1
  · exact ends_addConstant h _

theorem ends_build (source : Slot) {params : AffineParams α} (h : params.Within l) (base : String) :
    Ends (Confined l g₀) (fun _ => Confined l g₀) (Dequantization.build source params base) := by
  rw [Dequantization.build]
  refine (ends_port_within source).bind fun port => .of_fact fun hport => ?_
  have hfloat : (port.withType .f32).Within l := hport
  have hconvert : Ends (Confined l g₀) (fun _ => Confined l g₀)
      (Dequantization.addConvert source port base) := by
    rw [Dequantization.addConvert]
    split
    · exact .pure fun _ hg => hg
    · exact .map (ends_addNode (.step (.inl rfl) hfloat))
  have hsubtract : ∀ current, Ends (Confined l g₀) (fun _ => Confined l g₀)
      (Dequantization.addSubtract current port params.zeroPoint base) := by
    intro current
    cases hzero : params.zeroPoint with
    | none => exact .pure fun _ hg => hg
    | some zeroPoint =>
      apply (ends_addZeroPoint (h.zeroPoint zeroPoint hzero) _).bind
      intro constant
      apply (ends_addNode (.step (.inr (.inl rfl)) hfloat)).bind
      intro _
      exact .pure fun _ hg => hg
  have hmultiply : ∀ current, Ends (Confined l g₀) (fun _ => Confined l g₀)
      (Dequantization.addMultiply current port params.scale base) := fun current =>
    (ends_addConstant h.scale _).bind fun constant =>
      (ends_addNode (.step (.inr (.inr rfl)) hfloat)).bind fun _ => .pure fun _ hg => hg
  apply hconvert.bind
  intro convert
  apply (hsubtract _).bind
  intro subtract
  apply (hmultiply _).bind
  intro multiply
  exact .pure fun _ hg => hg

theorem ends_insert (source : Slot) (slots : List Slot) {params : AffineParams α} (h : params.Within l)
    (base : String) :
    Ends (Confined l g₀) (fun _ => Confined l g₀) (Dequantization.insert source slots params base) := by
  apply (ends_build source h base).bind
  intro _
  apply (ends_rewire slots _).bind
  intro _
  exact .pure fun _ hg => hg

end Chains

theorem ends_addFakeQuantize {id : NodeId} {levels : Nat} {f : Face α} (hf : g₀.face? id = some f)
    (hop : f.op = .fakeQuantize levels) (hinputs : 3 ≤ f.inputs.length) {low high : Tensor α}
    (hlow : low.Within l) (hhigh : high.Within l) (type : ElementType) :
    Ends (Confined l g₀) (fun _ => Confined l g₀) (addFakeQuantize id low high type) := by
  rw [addFakeQuantize]
  apply (ends_node id).bind
  intro n
  have hfacts : ∀ g, Confined l g₀ g ∧ g.node? id = some n →
      (Confined l g₀ g ∧ g.node? id = some n) ∧ n.op = .fakeQuantize levels ∧ 3 ≤ n.inputs.length ∧
        n.face.Within l := by
    rintro g ⟨hg, hn⟩
    have hface : g.face? id = some n.face := Graph.face?_eq_some.mpr ⟨n, hn, rfl⟩
    obtain ⟨f', hf', halike⟩ := hg.old id n.face (Graph.lt_size_of_face? hf) hface
    cases hf.symm.trans hf'
    exact ⟨⟨hg, hn⟩, halike.op.trans hop, halike.inputs.symm ▸ hinputs, hg.within id n.face hface⟩
  refine Ends.given hfacts fun hnode => ?_
  obtain ⟨hnop, hlength, hwithin⟩ := hnode
  rw [hnop]
  dsimp only
  split
  · apply (ends_port ⟨id, 0⟩).bind
    intro port
    have hport : ∀ g, (Confined l g₀ g ∧ g.node? id = some n) ∧ g.port? ⟨id, 0⟩ = some port →
        Confined l g₀ g ∧ port ∈ n.face.ports := by
      rintro g ⟨⟨hg, hn⟩, hp⟩
      exact ⟨hg, Graph.mem_ports (Graph.face?_eq_some.mpr ⟨n, hn, rfl⟩) hp⟩
    refine Ends.given hport fun hport => ?_
    apply (ends_addConstant hlow _).bind
    intro _
    apply (ends_addConstant hhigh _).bind
    intro _
    refine ends_addNode ?_
    refine hwithin.of_ports hnop.symm (fun p' hp' => ⟨port, hport, ?_⟩) fun hkind => ?_
    · obtain rfl := List.mem_singleton.mp hp'
      rfl
    · rw [Face.kind, show n.face.op = .fakeQuantize levels from hnop] at hkind
      cases hkind
  · next hshort =>
    rcases hin : n.inputs with _ | ⟨data, _ | ⟨low, _ | ⟨high, rest⟩⟩⟩
    case cons.cons.cons => exact absurd hin (hshort data low high rest)
    all_goals simp [hin] at hlength

end Edit

end LowPrecision
