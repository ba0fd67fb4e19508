import LowPrecision.Proofs.Graph.Regular
import LowPrecision.Proofs.Rewrite.Applications
import LowPrecision.Proofs.Rewrite.Decomposition
import LowPrecision.Proofs.Rewrite.Exchanges
import LowPrecision.Proofs.Rewrite.Verdicts

namespace LowPrecision

open LowPrecision.Graph

variable {α : Type} {g g₁ g' : Graph α} {rank : NodeId → Nat} {id new : NodeId} {n : Node α}

namespace Graph

theorem Acyclic.of_faces (h : g.Acyclic) (hface : ∀ v, g'.face? v = g.face? v) : g'.Acyclic := by
  obtain ⟨rank, hr⟩ := h
  exact ⟨rank, ranked_iff_face.mpr fun v f hf => ranked_iff_face.mp hr v f (hface v ▸ hf)⟩

theorem Extends.acyclic_of_replaceNode (h : g.Extends g₁ fun s => rank s.node < rank id)
    (hg : g.WellFormed) (hr : g.Ranked rank) (hn : g.node? id = some n)
    (hkind : ¬ n.kind.IsInterface) (hnew : g.nodes.size ≤ new)
    (hrun : exec (replaceNode id new : Edit α GraphError Unit) g₁ = .ok (.ok (), g')) :
    g'.Acyclic := by
  have hid : id < g.nodes.size := lt_size_of_node? hn
  have hface : g₁.face? id = some n.face := h.face (face?_eq_some.mpr ⟨n, hn, rfl⟩)
  have hranked := h.ranked hg hr (g₁.nodes.size - g.nodes.size) (rank id) fun _ => Nat.le_of_lt
  obtain ⟨⟨f, f', hf, hf', hports⟩, -⟩ := replaceNode_rerouted h.wellFormed hrun
  have hread : ∀ v k, g.nodes.size ≤ v → g₁.face? v = some k → ∀ s ∈ k.inputs, s.node ≠ id := by
    rintro v k hv hk s hs rfl
    exact Nat.lt_irrefl _ ((h.inputs v k hv hk s hs).1 hid)
  have hcount : g₁.nodes.size ≤ g.nodes.size + (g₁.nodes.size - g.nodes.size) := by omega
  have hcalm : ¬ f.kind.IsInterface := Option.some.inj (hface.symm.trans hf) ▸ hkind
  obtain ⟨g₂, hrun', hranked'⟩ : ∃ g₂,
      exec (replaceNode id new : Edit α GraphError Unit) g₁ = .ok (.ok (), g₂) ∧
        g₂.Ranked (makeRoom g.nodes.size (g₁.nodes.size - g.nodes.size) (rank id) rank) := by
    obtain ⟨g₂, hok, -, hreworked, -⟩ := replaceNode_reworked h.wellFormed hranked hid rfl hnew hcount
      hf hf' hports hcalm hread
    exact ⟨g₂, hok, (hreworked : Reworked _ _ _ (fun _ _ => True) g₁ g₂).ranked⟩
  cases hrun.symm.trans hrun'
  exact ⟨_, hranked'⟩

end Graph

theorem Superseded.acyclic {f : Face α} (h : Superseded g g₁ g' id f) (hg : g.WellFormed)
    (hr : g.Ranked rank) (hn : g.node? id = some n) (hkind : ¬ n.kind.IsInterface)
    (hbelow : ∀ s ∈ f.inputs, rank s.node < rank id) : g'.Acyclic :=
  (h.added.extends hbelow h.reads).acyclic_of_replaceNode hg hr hn hkind (Nat.le_refl _) h.replaced

theorem ConvertFusion.apply_acyclic {m : NodeMatch} (hg : g.WellFormed) (hacyclic : g.Acyclic)
    (hn : g.node? m.node = some n) (hkind : ¬ n.kind.IsInterface)
    (hrun : exec (apply m) g = .ok (.ok true, g')) : g'.Acyclic := by
  obtain ⟨rank, hr⟩ := hacyclic
  obtain ⟨slot, input, source, g₁, hinput, hsource, hsuperseded⟩ := apply_done hg hn hrun
  refine hsuperseded.acyclic hg hr hn hkind fun s hs => ?_
  rcases List.mem_or_eq_of_mem_set hs with hs | rfl
  · exact below_of_input hr hn hs
  · exact Nat.lt_trans (source?_below hr hsource).1
      (below_of_input hr hn (List.mem_of_getElem? hinput))

theorem RangeFusion.apply_acyclic {f : α → α → α} (hg : g.WellFormed) (hacyclic : g.Acyclic)
    (hn : g.node? id = some n) (hkind : ¬ n.kind.IsInterface)
    (hrun : exec (apply id f) g = .ok (.ok true, g')) : g'.Acyclic := by
  obtain ⟨rank, hr⟩ := hacyclic
  obtain ⟨fakeQuantize, value, k, levels, data, low, high, rest, p, q, _, _, g₁, g₂, hsource, -, hk, -,
    hin, -, hdoubled, hreplace, hrename, -⟩ := apply_done hg hrun
  have hsourced : Sourced g g₁ rank id ⟨g.nodes.size + 2, 0⟩ .fakeQuantize :=
    (sourced_of_doubled (fun _ => ranges_below hr hk hin) hdoubled).above
      (Nat.le_of_lt (source?_below hr hsource))
  have hacyclic := hsourced.extended.acyclic_of_replaceNode hg hr hn hkind hsourced.new hreplace
  have hwf := (replaceNode_rerouted hsourced.extended.wellFormed hreplace).2.1.wellFormed
  exact hacyclic.of_faces (rename_done hwf hrename).2.2.1

theorem lowerKernel_acyclic [Arithmetic α] {a b : Dequantization α} {scale : Tensor α}
    (hg : g.WellFormed) (hacyclic : g.Acyclic) (hn : g.node? id = some n)
    (hkind : ¬ n.kind.IsInterface) (ha : Dequantization.ofInput g id 0 = some a)
    (hb : Dequantization.ofInput g id 1 = some b)
    (hrun : exec (lowerKernel id [a.data, b.data] scale) g = .ok (.ok (), g')) : g'.Acyclic := by
  obtain ⟨rank, hr⟩ := hacyclic
  obtain ⟨p, d, g₁, g₂, -, hadded, -, hinsert, hreplace⟩ := lowerKernel_done hg hn hrun
  obtain ⟨d', g₂', hinsert', hinstalls⟩ :=
    install_ok hg hr hn hkind (sourced_of_face hadded (data_below hr ha hb) rfl) ⟨scale, none⟩ n.name
  cases hinsert.symm.trans hinsert'
  obtain ⟨hok, hone⟩ := hinstalls g.nodes.size (.inl rfl)
  obtain ⟨g'', hreplace', -, hsupplanted⟩ := hok (hone g' hreplace)
  cases hreplace.symm.trans hreplace'
  exact ⟨_, hsupplanted.reworked.ranked⟩

theorem moveDequantization_acyclic [Arithmetic α] {chain : Dequantization α} {params : AffineParams α}
    {keep : Bool} (hg : g.WellFormed) (hacyclic : g.Acyclic)
    (hchain : Dequantization.ofInput g id 0 = some chain)
    (hrun : exec (moveDequantization id chain params keep) g = .ok (.ok (), g')) : g'.Acyclic := by
  obtain ⟨rank, hr⟩ := hacyclic
  obtain ⟨first, hfirst, hlt, hlt', p, hp⟩ := Dequantization.ofInput_below hr hchain
  rw [input?_eq_face] at hfirst
  obtain ⟨f, hf, hi⟩ := Option.bind_eq_some_iff.mp hfirst
  obtain ⟨rest, hin⟩ := exists_cons_of_first hi
  obtain ⟨g₁, g'', hrun', -, hreworked⟩ :=
    moveDequantization_ok hg hr hf hin (Nat.lt_trans hlt hlt') hp params keep
  cases hrun.symm.trans hrun'
  exact ⟨_, hreworked.ranked⟩

def Graph.Ordered (g : Graph α) : Prop := g.WellFormed ∧ g.Acyclic

theorem Graph.Recast.ordered {s : Slot} {type : ElementType} (hg : g.Ordered)
    (h : Recast g g' fun v f => if v = s.node then f.retype s.index type else f) : g'.Ordered := by
  obtain ⟨-, rank, hr⟩ := hg
  refine ⟨h.wellFormed, rank, Reworked.ranked_of_recast h hr fun v f _ => ?_⟩
  split <;> rfl

namespace ConcatPlan

theorem lowerBoundary_ordered {s s' : Session α} {type : ElementType}
    {branches : List (NodeId × Branch α)} {lowered : List (String × NodeId × ChannelParams α)}
    (hg : s.graph.Ordered) (hrun : exec (lowerBoundary type branches) s = .ok (.ok lowered, s')) :
    s'.graph.Ordered := by
  induction branches generalizing s lowered with
  | nil =>
    cases hrun
    exact hg
  | cons b rest ih =>
    obtain ⟨id, branch⟩ := b
    obtain ⟨n, v, g₁, s₁, below, -, hadd, hreplace, hbelow, rfl⟩ := lowerBoundary_cons hrun
    obtain ⟨hwf, rank, hr⟩ := hg
    obtain ⟨m, _, _, _, _, _, p, hm, hop, hin, -, rfl, hdoubled⟩ := addFakeQuantize_done hwf hadd
    have hsourced := sourced_of_doubled (fun _ => ranges_below hr hm hin) hdoubled
    have hacyclic := hsourced.extended.acyclic_of_replaceNode hwf hr hm
      (Decomposition.not_interface_of_fakeQuantize hop) hsourced.new hreplace
    exact ih ⟨(replaceNode_rerouted hdoubled.wellFormed hreplace).2.1.wellFormed, hacyclic⟩ hbelow

theorem ensures_retypeLayers_ordered (type : ElementType) (layers : List NodeId) :
    Ensures (Ordered (α := α)) (fun _ => Ordered) Fatal (retypeLayers type layers) := by
  refine .forM fun id _ => ?_
  apply (Edit.ensures_node id).left.bind
  intro _
  refine .forM fun _ _ => ?_
  exact Edit.ensures_step fun _ _ hg hrun => (setOutputType_done hg.1 hrun).2.ordered hg

variable [Scalar α]

theorem ensures_insert_ordered (source : Slot) (slots : List Slot) (params : AffineParams α)
    (base : String) :
    Ensures (fun g : Graph α => g.Ordered ∧ ∀ r ∈ slots, r ∈ g.readers source) (fun _ => Ordered) Fatal
      (Dequantization.insert source slots params base) := by
  rintro g r g' ⟨⟨hwf, rank, hr⟩, hslots⟩ hrun
  have hfatal := (Edit.ensures_insert Face.stable_true (fun _ _ _ => trivial) source slots params base
    g r g' (.refl hwf) hrun).2
  refine ⟨fun d hd => ?_, hfatal⟩
  obtain ⟨_, mid, -, hinserted⟩ := Dequantization.insert_done hwf (hd ▸ hrun)
  have hreworked := reworked_of_readers hwf hr hslots hinserted
  exact ⟨hreworked.wellFormed, _, hreworked.ranked⟩

theorem ensures_dequantizeBehind_ordered (inside : Region) (id : NodeId) (p : ChannelParams α) :
    Ensures (Ordered (α := α)) (fun _ => Ordered) Fatal (dequantizeBehind inside id p) := by
  refine (Edit.ensures_node id).left.bind fun n => .forM ?_
  intro index _
  apply (Edit.ensures_read (Region.readersOutside · inside ⟨id, index⟩)).bind
  intro readers
  split
  rotate_left
  · exact .pure fun _ h => h.1
  apply (Edit.ensures_port ⟨id, index⟩).left.bind
  intro port
  apply ((Ensures.lift _).weaken (fun _ h => h) fun _ _ h => h.2).bind
  intro params
  refine ((ensures_insert_ordered ⟨id, index⟩ readers params n.name).weaken (fun g h => ⟨h.1, ?_⟩)
    fun _ _ h => h).discard fun _ _ h => h
  exact fun r hr => (List.mem_filter.mp (h.2 ▸ hr)).1

theorem apply_ordered {s s' : Session α} {plan : ConcatPlan α} (hg : s.graph.Ordered)
    (hrun : exec plan.apply s = .ok (.ok (), s')) : s'.graph.Ordered := by
  obtain ⟨lowered, s₁, s₂, hlower, hrework, hgraph⟩ := apply_run hrun
  rw [hgraph]
  exact (ensures_rework (fun ids _ => ensures_retypeLayers_ordered _ ids)
    (fun e _ => ensures_dequantizeBehind_ordered _ e.1 e.2)
    s₁ _ s₂ (lowerBoundary_ordered hg hlower) hrework).1 () rfl

end ConcatPlan

variable [Scalar α]

theorem Decomposition.decompose_acyclic {s s' : Session α} {d : Dequantization α} {port : Port}
    (hg : s.graph.WellFormed) (hacyclic : s.graph.Acyclic) (hport : s.graph.port? ⟨id, 0⟩ = some port)
    (hrun : exec (decompose id) s = .ok (.ok d, s')) : s'.graph.Acyclic := by
  obtain ⟨rank, hr⟩ := hacyclic
  obtain ⟨p, affine, type, name, hranges, -, -, -, -, -, hlower⟩ := decompose_run hrun
  obtain ⟨n, data, low, high, _, _, rest, hn, hop, hin, -⟩ := Ranges.ofNode_eq_ok.mp hranges
  have hdata : n.input? 0 = some data := by simp [Node.input?, hin]
  obtain ⟨source, g₁, hsource, hplace⟩ := lower_run hn hdata hlower
  have hsourced := sourced_of_addSource hg hr hn hop hin hport hsource
  have hsupplanted := ((place_ok hg hr hn (not_interface_of_fakeQuantize hop) hsourced).2 d _ hplace).2
  exact ⟨_, hsupplanted.reworked.ranked⟩

namespace Rule

theorem apply_acyclic {s s' : Session α} {rule : Rule} {m : NodeMatch} (hg : s.graph.WellFormed)
    (hacyclic : s.graph.Acyclic) (hm : rule.pattern.matchAt s.graph id = some m)
    (hcan : rule.canApply s.context s.graph m = .ok true)
    (hrun : exec (rule.apply m) s = .ok (.ok true, s')) : s'.graph.Acyclic := by
  obtain ⟨n, hn, happlied⟩ := applied_of_apply hm hcan hrun
  have hcalm : rule ≠ .transparent → ¬ n.kind.IsInterface := by
    obtain ⟨k, hk, hkind, -⟩ := Pattern.matchAt_eq_some hm
    cases hn.symm.trans hk
    exact fun hrule => (calm hrule hkind).1
  cases happlied with
  | decomposed _ _ hport _ hrun => exact Decomposition.decompose_acyclic hg hacyclic hport hrun
  | fused hrule hid _ happly =>
    subst hrule hid
    exact ConvertFusion.apply_acyclic hg hacyclic hn (hcalm (by decide)) happly
  | lowered hrule _ ha hb hrun =>
    have hkind := hcalm (by rcases hrule with rfl | rfl <;> decide)
    exact lowerKernel_acyclic hg hacyclic hn hkind ha hb hrun
  | joined _ _ hrun => exact (ConcatPlan.apply_ordered ⟨hg, hacyclic⟩ hrun).2
  | sanitized hrule hid _ happly =>
    subst hrule hid
    obtain ⟨rank, hr⟩ := hacyclic
    obtain ⟨_, _, _, -, -, hsuperseded⟩ := Sanitize.apply_done hg happly
    exact hsuperseded.acyclic hg hr hn (hcalm (by decide)) (by simp)
  | moved _ _ hchain hrun => exact moveDequantization_acyclic hg hacyclic hchain hrun
  | folded hrule _ hrun =>
    obtain ⟨rank, hr⟩ := hacyclic
    obtain ⟨_, _, _, _, _, -, -, -, -, hsuperseded⟩ := FoldConvert.apply_done hg hrun
    exact hsuperseded.acyclic hg hr hn (hcalm (by rw [hrule]; decide)) (by simp)
  | absorbed hrule _ hrun =>
    have hkind := hcalm (by rcases hrule with rfl | rfl <;> decide)
    exact RangeFusion.apply_acyclic hg hacyclic hn hkind hrun

end Rule

end LowPrecision
