import LowPrecision.Proofs.Rewrite.Answers

namespace LowPrecision

variable {α β : Type} {g₀ g g' : Graph α}

def Face.Stable (fresh : Face α → Prop) : Prop :=
  ∀ f f' : Face α, f'.op = f.op → f'.ports = f.ports → fresh f → fresh f'

structure Face.Admits (type : ElementType) (fresh : Face α → Prop) : Prop where
  stable : Face.Stable fresh
  step (g : Graph α) (f : Face α) : g.IsChainStep f → fresh f
  quantizer (levels : Nat) (inputs : List Slot) (port : Port) :
    fresh ⟨.fakeQuantize levels, inputs, [port.withType type], none⟩

theorem Face.Admits.constant {type : ElementType} {fresh : Face α → Prop} (h : Face.Admits type fresh)
    (t : Tensor α) : fresh ⟨.constant t, [], [⟨.f32, some t.shape⟩], none⟩ :=
  h.step .empty _ ⟨_, rfl, .inr (.inl ⟨rfl, t, rfl⟩)⟩

/-- A graph that came out of another one. What is left of the old nodes has the old operations and
attributes, and the new nodes have the property. -/
structure Lineage (g₀ : Graph α) (fresh : Face α → Prop) (g : Graph α) : Prop where
  wellFormed : g.WellFormed
  size : g₀.nodes.size ≤ g.nodes.size
  op (v : NodeId) (f' : Face α) : v < g₀.nodes.size → g.face? v = some f' →
    ∃ f, g₀.face? v = some f ∧ f'.op = f.op
  fresh (v : NodeId) (f : Face α) : g₀.nodes.size ≤ v → g.face? v = some f → fresh f
  cells : g.attributes.precisionCells = g₀.attributes.precisionCells
  intervals : g.attributes.intervalCells = g₀.attributes.intervalCells
  kept (target : Target) (kind : AttributeKind) : target.owner < g₀.nodes.size →
    g.isLive target.owner = true → g.attributes.get? target kind = g₀.attributes.get? target kind

namespace Lineage

variable {fresh : Face α → Prop}

theorem refl (h : g.WellFormed) : Lineage g fresh g where
  wellFormed := h
  size := Nat.le_refl _
  op _ f _ hf := ⟨f, hf, rfl⟩
  fresh _ _ hv hf := by rw [Graph.face?_of_size_le hv] at hf; cases hf
  cells := rfl
  intervals := rfl
  kept _ _ _ _ := rfl

theorem trans {g₁ g₂ g₃ : Graph α} (h : Lineage g₁ fresh g₂) (h' : Lineage g₂ fresh g₃)
    (hstable : ∀ f f' : Face α, f'.op = f.op → fresh f → fresh f') : Lineage g₁ fresh g₃ where
  wellFormed := h'.wellFormed
  size := Nat.le_trans h.size h'.size
  op v f' hv hf' := by
    obtain ⟨f₁, hf₁, hop₁⟩ := h'.op v f' (Nat.lt_of_lt_of_le hv h.size) hf'
    obtain ⟨f, hf, hop⟩ := h.op v f₁ hv hf₁
    exact ⟨f, hf, hop₁.trans hop⟩
  fresh v f hv hf := by
    rcases Nat.lt_or_ge v g₂.nodes.size with hlt | hge
    · obtain ⟨f₁, hf₁, hop₁⟩ := h'.op v f hlt hf
      exact hstable f₁ f hop₁ (h.fresh v f₁ hv hf₁)
    · exact h'.fresh v f hge hf
  cells := h'.cells.trans h.cells
  intervals := h'.intervals.trans h.intervals
  kept target kind hold hlive := by
    have hlt := Nat.lt_of_lt_of_le hold h.size
    rw [h'.kept target kind hlt hlive]
    refine h.kept target kind hold ?_
    rw [Graph.isLive_eq_face] at hlive ⊢
    obtain ⟨f', hf'⟩ := Option.isSome_iff_exists.mp hlive
    obtain ⟨f, hf, -⟩ := h'.op _ f' hlt hf'
    rw [hf]
    rfl

theorem kind (h : Lineage g₀ fresh g) {v : NodeId} {k : OpKind} (hv : v < g₀.nodes.size)
    (hk : g.kind? v = some k) : g₀.kind? v = some k := by
  rw [Graph.kind?_eq_face] at hk ⊢
  obtain ⟨f', hf', rfl⟩ := Option.map_eq_some_iff.mp hk
  obtain ⟨f, hf, hop⟩ := h.op v f' hv hf'
  rw [hf, Option.map_some, Face.kind, Face.kind, hop]

theorem step {old new : NodeId} (h : Lineage g₀ fresh g) (hstable : Face.Stable fresh)
    (hwf : g'.WellFormed) (hsize : g.nodes.size ≤ g'.nodes.size)
    (hface : ∀ v f', v < g.nodes.size → g'.face? v = some f' → ∃ f, g.face? v = some f ∧
      f'.op = f.op ∧ (f'.ports = f.ports ∨ v < g₀.nodes.size))
    (hadded : ∀ v f, g.nodes.size ≤ v → g'.face? v = some f → fresh f)
    (hattributes : Graph.Inherits old new g g') (hnew : g₀.nodes.size ≤ new) :
    Lineage g₀ fresh g' where
  wellFormed := hwf
  size := Nat.le_trans h.size hsize
  op v f' hv hf' := by
    obtain ⟨f₁, hf₁, hop₁, -⟩ := hface v f' (Nat.lt_of_lt_of_le hv h.size) hf'
    obtain ⟨f, hf, hop⟩ := h.op v f₁ hv hf₁
    exact ⟨f, hf, hop₁.trans hop⟩
  fresh v f' hv hf' := by
    rcases Nat.lt_or_ge v g.nodes.size with hlt | hge
    · obtain ⟨f, hf, hop, hports⟩ := hface v f' hlt hf'
      exact hstable f f' hop (hports.resolve_right (Nat.not_lt.mpr hv)) (h.fresh v f hv hf)
    · exact hadded v f' hge hf'
  cells := hattributes.cells.trans h.cells
  intervals := hattributes.intervals.trans h.intervals
  kept target kind hold hlive := by
    have hne : target.owner ≠ new := Nat.ne_of_lt (Nat.lt_of_lt_of_le hold hnew)
    rw [hattributes.kept target kind hne hlive]
    refine h.kept target kind hold ?_
    rw [Graph.isLive_eq_face] at hlive ⊢
    obtain ⟨f', hf'⟩ := Option.isSome_iff_exists.mp hlive
    obtain ⟨f, hf, -⟩ := hface _ f' (Nat.lt_of_lt_of_le hold h.size) hf'
    rw [hf]
    rfl

theorem rerouted {old new : NodeId} {move : Slot → Slot → Prop} (h : Lineage g₀ fresh g)
    (hstable : Face.Stable fresh) (hr : Graph.Rerouted move g g')
    (hadded : ∀ v f, g.nodes.size ≤ v → g'.face? v = some f → fresh f)
    (hattributes : Graph.Inherits old new g g') (hnew : g₀.nodes.size ≤ new) :
    Lineage g₀ fresh g' :=
  h.step hstable hr.wellFormed hr.size (fun v f' hv hf' => by
    obtain ⟨f, hf, hsame⟩ := hr.face v f' hv hf'
    exact ⟨f, hf, hsame.op, .inl hsame.ports⟩) hadded hattributes hnew

theorem extended {p : Slot → Prop} (h : Lineage g₀ fresh g) (hstable : Face.Stable fresh)
    (he : Graph.Extends g g' p)
    (hadded : ∀ v f, g.nodes.size ≤ v → g'.face? v = some f → fresh f) : Lineage g₀ fresh g' :=
  h.rerouted hstable (he.rerouted : Graph.Rerouted (fun _ _ => True) g g') hadded
    (.of_eq he.attributes : Graph.Inherits g₀.nodes.size g₀.nodes.size g g') (Nat.le_refl _)

theorem added {f : Face α} (h : Lineage g₀ fresh g) (hstable : Face.Stable fresh)
    (ha : Graph.Added g g' f) (hf : fresh f) : Lineage g₀ fresh g' :=
  h.rerouted hstable (ha.rerouted : Graph.Rerouted (fun _ _ => True) g g')
    (fun v k hv hk => by
      obtain ⟨-, rfl⟩ := ha.eq_new hv hk
      exact hf)
    (.of_eq ha.attributes : Graph.Inherits g₀.nodes.size g₀.nodes.size g g') (Nat.le_refl _)

theorem recast {change : NodeId → Face α → Face α} (h : Lineage g₀ fresh g)
    (hstable : Face.Stable fresh) (hr : Graph.Recast g g' change)
    (hchange : ∀ v f, g.face? v = some f →
      (change v f).op = f.op ∧ ((change v f).ports = f.ports ∨ v < g₀.nodes.size)) :
    Lineage g₀ fresh g' := by
  refine h.step hstable hr.wellFormed (Nat.le_of_eq hr.size.symm) (fun v f' _ hf' => ?_)
    (fun v f hv hf => ?_)
    (.of_eq hr.attributes : Graph.Inherits g₀.nodes.size g₀.nodes.size g g') (Nat.le_refl _)
  · rw [hr.face] at hf'
    obtain ⟨f, hf, rfl⟩ := Option.map_eq_some_iff.mp hf'
    exact ⟨f, hf, hchange v f hf⟩
  · rw [Graph.face?_of_size_le (Nat.le_trans (Nat.le_of_eq hr.size) hv)] at hf
    cases hf

theorem pruned {p : NodeId → Prop} (h : Lineage g₀ fresh g) (hstable : Face.Stable fresh)
    (hr : Graph.Pruned g g' p) (hattributes : Graph.Inherits g₀.nodes.size g₀.nodes.size g g') :
    Lineage g₀ fresh g' :=
  h.rerouted hstable (hr.rerouted : Graph.Rerouted (fun _ _ => True) g g')
    (fun v f hv hf => by
      rw [Graph.face?_of_size_le (Nat.le_trans (Nat.le_of_eq hr.size) hv)] at hf
      cases hf) hattributes (Nat.le_refl _)

theorem renamed {id : NodeId} {name : String} (h : Lineage g₀ fresh g) (hstable : Face.Stable fresh)
    (hrun : g.rename id name = (.ok (), g')) : Lineage g₀ fresh g' := by
  obtain ⟨hwf, hsize, hface, hattributes⟩ := Graph.rename_done h.wellFormed hrun
  refine h.step hstable hwf (Nat.le_of_eq hsize.symm) (fun v f' _ hf' => ?_) (fun v f hv hf => ?_)
    (.of_eq hattributes : Graph.Inherits g₀.nodes.size g₀.nodes.size g g') (Nat.le_refl _)
  · exact ⟨f', hface v ▸ hf', rfl, .inl rfl⟩
  · rw [Graph.face?_of_size_le (Nat.le_trans (Nat.le_of_eq hsize) hv)] at hf
    cases hf

end Lineage

def Fatal (e : TransformError) : Prop := e.isFatal = true

namespace Edit

variable {p : Graph α → Prop} {post : β → Graph α → Prop} {fresh : Face α → Prop}

theorem ensures_ofGraph {e : Edit α GraphError β} (h : Ensures p post (fun _ => True) e) :
    Ensures p post Fatal (ofGraph e) := h.adapt fun _ _ => rfl

theorem ensures_query {f : Graph α → Attempt GraphError β} :
    Ensures p (fun _ => p) Fatal (ofGraph (attempt f) : Edit α TransformError β) :=
  ensures_ofGraph ((silent_attempt f).ensures.weaken (fun _ h => h) fun _ _ h => h)

theorem ensures_step {f : Graph α → Except GraphError Unit × Graph α} {p' : Graph α → Prop}
    (h : ∀ g g', p g → f g = (.ok (), g') → p' g') :
    Ensures p (fun _ => p') Fatal (ofGraph (step f)) := by
  refine ensures_ofGraph fun g r g' hg hrun => ⟨fun _ hr => ?_, fun _ _ => trivial⟩
  subst hr
  rw [exec_step, Except.ok.injEq] at hrun
  exact h g g' hg hrun

theorem ensures_ofExcept {f : Graph α → Except GraphError β} :
    Ensures p (fun b g => p g ∧ f g = .ok b) Fatal (ofGraph (ofExcept f)) := by
  refine ensures_ofGraph fun g r g' hg hrun => ⟨fun b hr => ?_, fun _ _ => trivial⟩
  rw [exec_ofExcept] at hrun
  cases hrun
  exact ⟨hg, hr⟩

theorem ensures_node (id : NodeId) :
    Ensures p (fun n g => p g ∧ g.node? id = some n) Fatal (node id) :=
  ensures_ofExcept.weaken (fun _ h => h) fun _ _ h => ⟨h.1, Graph.node_eq_ok.mp h.2⟩

theorem ensures_port (s : Slot) :
    Ensures p (fun port g => p g ∧ g.port? s = some port) Fatal (port s) :=
  ensures_ofExcept.weaken (fun _ h => h) fun n g h => ⟨h.1, by rw [Graph.port?, h.2]; rfl⟩

theorem ensures_read (f : Graph α → β) {q : TransformError → Prop} :
    Ensures p (fun b g => p g ∧ b = f g) q (read f) := by
  intro g r g' hg hrun
  cases hrun
  exact ⟨fun b hb => ⟨hg, (Except.ok.inj hb).symm⟩, fun e he => by cases he⟩

theorem ensures_change {f : Graph α → Graph α} {p' : Graph α → Prop} {q : TransformError → Prop}
    (h : ∀ g, p g → p' (f g)) : Ensures p (fun _ => p') q (change f) := by
  intro g r g' hg hrun
  cases hrun
  exact ⟨fun _ _ => h g hg, fun e he => by cases he⟩

theorem ensures_addNode (hstable : Face.Stable fresh) {base : String} {op : Op α}
    {inputs : List Slot} {outputs : List Port} (h : fresh ⟨op, inputs, outputs, none⟩) :
    Ensures (Lineage g₀ fresh) (fun id g => Lineage g₀ fresh g ∧ g₀.nodes.size ≤ id) Fatal
      (addNode base op inputs outputs) := by
  intro g r g' hg hrun
  have hfatal : Ensures (fun _ => True) (fun _ _ => True) Fatal (addNode base op inputs outputs) :=
    ensures_ofGraph fun _ _ _ _ _ => ⟨fun _ _ => trivial, fun _ _ => trivial⟩
  refine ⟨fun id hr => ?_, (hfatal g r g' trivial hrun).2⟩
  subst hr
  obtain ⟨rfl, -, hadded⟩ := addNode_done hg.wellFormed hrun
  exact ⟨hg.added hstable hadded h, hg.size⟩

theorem ensures_addConstant (hstable : Face.Stable fresh) {base : String} {value : Tensor α}
    {type : ElementType} (h : fresh ⟨.constant value, [], [⟨type, some value.shape⟩], none⟩) :
    Ensures (Lineage g₀ fresh) (fun s g => Lineage g₀ fresh g ∧ g₀.nodes.size ≤ s.node) Fatal
      (addConstant base value type) := by
  refine Ensures.map ?_
  have hadd : Ensures (Lineage g₀ fresh) (fun id g => Lineage g₀ fresh g ∧ g₀.nodes.size ≤ id) Fatal
      (addNode base (.constant value) [] [⟨type, some value.shape⟩]) := ensures_addNode hstable h
  exact hadd

theorem ensures_removeDead (hstable : Face.Stable fresh) (stack : List NodeId)
    {q : TransformError → Prop} :
    Ensures (Lineage g₀ fresh) (fun _ => Lineage g₀ fresh) q (change (·.removeDead stack)) :=
  ensures_change fun g hg => hg.pruned hstable (hg.wellFormed.pruned stack)
    (Graph.removeDead_inherits _ _ g stack)

theorem ensures_setInput (hstable : Face.Stable fresh) (id : NodeId) (index : Nat) (source : Slot) :
    Ensures (Lineage g₀ fresh) (fun _ => Lineage g₀ fresh) Fatal
      (ofGraph (step (·.setInput id index source))) :=
  ensures_step fun _ _ hg hrun =>
    hg.recast hstable (Graph.setInput_done hg.wellFormed hrun).2.2 fun _ _ _ => ⟨rfl, .inl rfl⟩

theorem ensures_setRelaxed (hstable : Face.Stable fresh) (id : NodeId) (types : RelaxedTypes) :
    Ensures (Lineage g₀ fresh) (fun _ => Lineage g₀ fresh) Fatal
      (ofGraph (step (·.setRelaxed id types))) :=
  ensures_step fun _ _ hg hrun =>
    hg.recast hstable (Graph.setRelaxed_done hg.wellFormed hrun).2 fun v f _ => by
      split <;> exact ⟨rfl, .inl rfl⟩

theorem ensures_setOutputType (hstable : Face.Stable fresh) {s : Slot} (type : ElementType)
    (h : s.node < g₀.nodes.size) :
    Ensures (Lineage g₀ fresh) (fun _ => Lineage g₀ fresh) Fatal
      (ofGraph (step (·.setOutputType s type))) :=
  ensures_step fun _ _ hg hrun =>
    hg.recast hstable (Graph.setOutputType_done hg.wellFormed hrun).2 fun v f _ => by
      split
      · next hv => exact ⟨rfl, .inr (hv ▸ h)⟩
      · exact ⟨rfl, .inl rfl⟩

theorem ensures_replaceNode (hstable : Face.Stable fresh) (old : NodeId) {new : NodeId}
    (h : g₀.nodes.size ≤ new) :
    Ensures (Lineage g₀ fresh) (fun _ => Lineage g₀ fresh) Fatal
      (ofGraph (Graph.replaceNode old new)) := by
  refine ensures_ofGraph fun g r g' hg hrun => ⟨fun _ hr => ?_, fun _ _ => trivial⟩
  subst hr
  obtain ⟨-, hrerouted, hsize, hinherits⟩ := Graph.replaceNode_rerouted hg.wellFormed hrun
  refine hg.rerouted hstable hrerouted (fun v f hv hf => ?_) hinherits h
  rw [Graph.face?_of_size_le (hsize ▸ hv)] at hf
  cases hf

theorem ensures_rename (hstable : Face.Stable fresh) (id : NodeId) (name : String) :
    Ensures (Lineage g₀ fresh) (fun _ => Lineage g₀ fresh) Fatal
      (ofGraph (step (·.rename id name))) :=
  ensures_step fun _ _ hg hrun => hg.renamed hstable hrun

theorem ensures_rewire (hstable : Face.Stable fresh) (slots : List Slot) (source : Slot) :
    Ensures (Lineage g₀ fresh) (fun _ => Lineage g₀ fresh) Fatal
      (ofGraph (Graph.rewire slots source)) := by
  refine ensures_ofGraph fun g r g' hg hrun => ⟨fun _ hr => ?_, fun _ _ => trivial⟩
  subst hr
  exact hg.recast hstable (Graph.rewire_done hg.wellFormed hrun) fun _ _ _ => ⟨rfl, .inl rfl⟩

section Chains

variable [Arithmetic α]

theorem ensures_build (hstable : Face.Stable fresh)
    (hchain : ∀ (g : Graph α) f, g.IsChainStep f → fresh f) (source : Slot)
    (params : AffineParams α) (base : String) :
    Ensures (Lineage g₀ fresh) (fun d g => Lineage g₀ fresh g ∧ g₀.nodes.size ≤ d.output.node) Fatal
      (Dequantization.build source params base) := by
  intro g r g' hg hrun
  cases hport : g.port? source with
  | none =>
    rw [Dequantization.build] at hrun
    rcases exec_bind_eq_ok.mp hrun with ⟨p, t, hp, -⟩ | ⟨e, he, rfl⟩
    · rw [(port_done hp).1] at hport
      cases hport
    · exact ⟨fun _ hb => (by cases hb), fun e' he' => Except.error.inj he' ▸
        (ensures_port source g _ g' hg he).2 e rfl⟩
  | some p =>
    obtain ⟨d, g₁, hok, hbuilt⟩ := Dequantization.build_ok hg.wellFormed hport params base
    cases hrun.symm.trans hok
    refine ⟨fun d' hd => ?_, fun e he => by cases he⟩
    cases hd
    exact ⟨hg.extended hstable hbuilt.toExtends fun v f hv hf => hchain g' f (hbuilt.fresh v f hv hf),
      Nat.le_trans hg.size hbuilt.new⟩

theorem ensures_insert (hstable : Face.Stable fresh)
    (hchain : ∀ (g : Graph α) f, g.IsChainStep f → fresh f) (source : Slot) (slots : List Slot)
    (params : AffineParams α) (base : String) :
    Ensures (Lineage g₀ fresh) (fun d g => Lineage g₀ fresh g ∧ g₀.nodes.size ≤ d.output.node) Fatal
      (Dequantization.insert source slots params base) := by
  refine (ensures_build hstable hchain source params base).bind fun _ => .of_fact fun hnew => ?_
  apply (ensures_rewire hstable slots _).bind
  intro _
  exact .pure fun _ hg => ⟨hg, hnew⟩

end Chains

theorem ensures_attempt {f : Graph α → Attempt TransformError β}
    (h : ∀ g, p g → Attempt.Fails Fatal (f g)) :
    Ensures p (fun b g => p g ∧ (f g).run = .ok (.ok b)) Fatal (attempt f) := by
  intro g r g' hg hrun
  obtain rfl := silent_attempt f g r g' hrun
  refine ⟨fun b hb => ?_, fun e he => ?_⟩
  · subst hb
    exact ⟨hg, (exec_attempt_eq_ok.mp hrun).1⟩
  · subst he
    rw [exec_attempt] at hrun
    cases hf : (f g').run with
    | error fault =>
      rw [hf] at hrun
      cases hrun
    | ok out =>
      rw [hf] at hrun
      cases hrun
      exact h g' hg e hf

theorem ensures_addFakeQuantize {type : ElementType} (h : Face.Admits type fresh) {id : NodeId}
    (hid : id < g₀.nodes.size) (hop : ∀ f, g₀.face? id = some f → f.kind = .fakeQuantize)
    (low high : Tensor α) :
    Ensures (Lineage g₀ fresh) (fun v g => Lineage g₀ fresh g ∧ g₀.nodes.size ≤ v) Fatal
      (addFakeQuantize id low high type) := by
  have hnode : Ensures (Lineage g₀ fresh) (fun n g => Lineage g₀ fresh g ∧ n.kind = .fakeQuantize)
      Fatal (node id) := (ensures_node id).weaken (fun _ h => h) fun n g ⟨hg, hn⟩ => by
    obtain ⟨f, hf, hsame⟩ := hg.op id n.face hid (Graph.face?_eq_some.mpr ⟨n, hn, rfl⟩)
    exact ⟨hg, (congrArg Op.kind hsame).trans (hop f hf)⟩
  rw [addFakeQuantize]
  refine hnode.bind fun n => .of_fact fun hkind => ?_
  split
  · split
    · apply (ensures_port ⟨id, 0⟩).left.bind
      intro port
      refine (ensures_addConstant h.stable (h.constant low)).bind fun _ => .of_fact fun _ => ?_
      refine (ensures_addConstant h.stable (h.constant high)).bind fun _ => .of_fact fun _ => ?_
      exact ensures_addNode h.stable (h.quantizer _ _ _)
    · intro g r g' _ hrun
      cases hrun
  · next hnot =>
    cases hop : n.op <;> simp [Node.kind, Op.kind, hop] at hkind
    exact absurd hop (hnot _)

end Edit

end LowPrecision
