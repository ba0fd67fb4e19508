import LowPrecision.Proofs.Graph.Regions
import LowPrecision.Proofs.Rewrite.TracedRules

namespace LowPrecision

variable {α : Type} {g₀ g g' : Graph α} {id : NodeId} {f : NodeId} {s : Slot} {type : ElementType}

open LowPrecision.Graph

theorem ElementType.not_low_of_float (h : type.isFloat = true) : type.isLowPrecision = false := by
  cases type <;> first | rfl | cases h

theorem Doubled.sealed {levels : Nat} {data low high : Slot} {p : Port} {outLow outHigh : Tensor α}
    (h : Doubled g g' levels data low high (p.withType type) outLow outHigh)
    (hlow : type.isLowPrecision = true) (v : NodeId) (f : Face α) (hv : g.nodes.size ≤ v)
    (hf : g'.face? v = some f) : f.Sealed := by
  rcases h.new_face hv hf with ⟨value, rfl⟩ | ⟨-, rfl⟩
  · exact .of_kind (k := .constant) rfl (by decide) (by decide)
  · exact (Face.admits_sealed hlow).quantizer _ _ _

structure Graph.Storable (g₀ : Graph α) (id : NodeId) (type : ElementType) : Prop where
  kind : g₀.kind? id = some .fakeQuantize
  allowed : type ∈ Markup.allowedPrecisions g₀ id
  low : type.isLowPrecision = true

namespace Graph.Storable

theorem lt_size (h : g₀.Storable id type) : id < g₀.nodes.size := by
  obtain ⟨f, hf, -⟩ := face_of_kind h.kind
  exact lt_size_of_face? hf

theorem fits (h : g₀.Storable id type) : g₀.Fits ⟨id, 0⟩ type := ⟨id, h.kind, .source, h.allowed⟩

theorem represents (h : g₀.Storable id type) {v : NodeId} {face : Face α} (hv : g₀.nodes.size ≤ v)
    (hface : g.face? v = some face) (hkind : face.kind = .fakeQuantize ∨ face.kind = .constant)
    (hports : ∀ p ∈ face.ports, p.elementType = type) (index : Nat) :
    Represents g₀ g ⟨id, 0⟩ ⟨v, index⟩ :=
  (Unfolds.lowered (s := ⟨v, index⟩) hv hface hkind fun p hp => by
    rw [hports p hp]
    exact ⟨h.low, h.fits⟩).represents

theorem eq_of_represents (h : g₀.Storable id type) (ht : Traced g₀ g) {o : Slot} (ho : g₀.Fed o)
    {index : Nat} (hrep : Represents g₀ g o ⟨id, index⟩) : o = ⟨id, 0⟩ ∧ index = 0 := by
  obtain rfl := hrep.eq_of_lt h.lt_size
  obtain ⟨f, hf, hfeeds⟩ := ho
  have heq := hfeeds.of_quantizer ht.start h.kind
  cases heq
  exact ⟨rfl, rfl⟩

end Graph.Storable

namespace Traced

theorem replaced_quantizer (ht : Traced g₀ g) (hid : g₀.Storable id type) {v : NodeId}
    (hv : g₀.nodes.size ≤ v) (hrep : Represents g₀ g ⟨id, 0⟩ ⟨v, 0⟩)
    (hk : g.kind? id = some .fakeQuantize)
    (hrun : exec (replaceNode id v : Edit α GraphError Unit) g = .ok (.ok (), g')) :
    Traced g₀ g' := by
  refine ht.replaced hrun hv (ht.not_isPassing hk (by decide)) fun index =>
    ⟨fun o ho h => ?_, fun h => ?_⟩
  · obtain ⟨rfl, rfl⟩ := hid.eq_of_represents ht ho h
    refine ⟨hrep, ?_⟩
    exact kind?_ne_of_size_le hv
  · exact absurd h (not_constantValue_of_kind hk (by decide))

theorem doubled (ht : Traced g₀ g) (hid : g₀.Storable id type) {levels : Nat} {data low high : Slot}
    {p : Port} {outLow outHigh : Tensor α}
    (h : Doubled g g' levels data low high (p.withType type) outLow outHigh) :
    Traced g₀ g' ∧ g₀.nodes.size ≤ g.nodes.size + 2 ∧
      g'.kind? (g.nodes.size + 2) = some .fakeQuantize ∧
      Represents g₀ g' ⟨id, 0⟩ ⟨g.nodes.size + 2, 0⟩ := by
  have hnew : g₀.nodes.size ≤ g.nodes.size + 2 := Nat.le_trans ht.size (Nat.le_add_right _ _)
  refine ⟨ht.extended h.toExtends (h.sealed hid.low), hnew, ?_, ?_⟩
  · rw [kind?_eq_face, h.fakeQuantize]
    rfl
  · refine hid.represents hnew h.fakeQuantize (.inl rfl) (fun q hq => ?_) 0
    rw [List.mem_singleton.mp hq]
    rfl

theorem passes_of_preserves (ht : Traced g₀ g) {k : OpKind} (hk : g.kind? id = some k)
    (h : g.preservesPrecision id = true) : k.Passes := by
  rcases passing_of_preserves h with ⟨e, he, hmark, rfl⟩ | ⟨k', hk', hpasses⟩
  · obtain ⟨k₀, hk₀, hpasses⟩ := ht.marked e he hmark
    obtain ⟨face, hface, -⟩ := face_of_kind hk₀
    cases hk₀.symm.trans (ht.kind (lt_size_of_face? hface) hk)
    exact hpasses
  · cases hk.symm.trans hk'
    exact hpasses

theorem lt_size_of_passes (ht : Traced g₀ g) {k : OpKind} (hk : g.kind? id = some k)
    (h : k.Passes) : id < g₀.nodes.size := by
  obtain ⟨f, hf, rfl⟩ := face_of_kind hk
  exact Nat.lt_of_not_le fun hnew => (ht.fresh id f hnew hf).1 h

section Regions

variable {r : Region}

theorem layer_passes (ht : Traced g₀ g) (hr : Region.Closed g r) (hid : id ∈ r.layers) {k : OpKind}
    (hk : g.kind? id = some k) : k.Passes := by
  obtain ⟨n, hn, -, hconcat | hpass, -⟩ := hr.layer id hid
  · rw [kind?, hn] at hk
    cases hk
    rw [hconcat]
    decide
  · exact ht.passes_of_preserves hk hpass

theorem eq_of_member (ht : Traced g₀ g) (hr : Region.Closed g r)
    (hfloat : ∀ b ∈ r.boundary, ∃ p, g.port? ⟨b, 0⟩ = some p ∧ p.elementType.isLowPrecision = false)
    {o : Slot} (h : Represents g₀ g o s) (hs : s.node ∈ r.members) : s = o := by
  have hkind : ∀ f : Face α, g.face? s.node = some f → f.kind = .fakeQuantize ∨ f.kind.Passes := by
    intro f hf
    have hk : g.kind? s.node = some f.kind := by rw [kind?_eq_face, hf]; rfl
    rcases List.mem_append.mp hs with hs | hs
    · exact .inr (ht.layer_passes hr hs hk)
    · obtain ⟨n, hn, hquantizer⟩ := hr.bound _ hs
      rw [kind?, hn] at hk
      exact .inl ((Option.some.inj hk).symm.trans hquantizer)
  cases h.unfold with
  | origin => rfl
  | lowered hnew hf hsource hports =>
    exfalso
    rcases hkind _ hf with hquantizer | hpasses
    · rcases List.mem_append.mp hs with hs | hs
      · obtain ⟨n, hn, hnot, -⟩ := hr.layer _ hs
        cases (face?_eq_some.mpr ⟨n, hn, rfl⟩).symm.trans hf
        exact hnot hquantizer
      · obtain ⟨p, hp, hreal⟩ := hfloat _ hs
        rw [port?_eq_face, hf] at hp
        rw [(hports p (List.mem_of_getElem? hp)).1] at hreal
        cases hreal
    · rcases hsource with h | h <;> rw [h] at hpasses <;> exact absurd hpasses (by decide)
  | step hnew hf hstep => exact absurd (hkind _ hf) (OpKind.not_source_of_step hstep.kind)

theorem region_fits (ht : Traced g₀ g) (hr : Region.Closed g r)
    (hboundary : ∀ b ∈ r.boundary, g₀.Storable b type)
    (hfloat : ∀ b ∈ r.boundary, ∃ p, g.port? ⟨b, 0⟩ = some p ∧ p.elementType.isLowPrecision = false)
    (hf : g₀.kind? f = some .fakeQuantize) (h : g₀.Feeds f s) (hs : s.node ∈ r.members) :
    g₀.Fits s type := by
  -- Within a region the data can be followed up to a boundary, whose type fits by choice.
  induction h with
  | source =>
    rcases List.mem_append.mp hs with hs | hs
    · obtain ⟨n, hn, -⟩ := hr.layer f hs
      have hk : g.kind? f = some n.kind := by rw [kind?, hn]; rfl
      obtain ⟨face, hface, -⟩ := face_of_kind hf
      have hquantizer := Option.some.inj (hf.symm.trans (ht.kind (lt_size_of_face? hface) hk))
      exact absurd (hquantizer ▸ ht.layer_passes hr hs hk) (by decide)
    · exact (hboundary f hs).fits
  | @pass v index output slot hpass hinput hdata hfeeds ih =>
    have hv : v ∈ r.layers := by
      refine (List.mem_append.mp hs).resolve_right fun hs => ?_
      obtain ⟨k, hk, hpasses⟩ := ht.start.isPassing hpass
      cases hk.symm.trans (hboundary v hs).kind
      exact absurd hpasses (by decide)
    obtain ⟨n, hn, -, -, hproducers⟩ := hr.layer v hv
    obtain ⟨s, hread, hrep⟩ := ht.slots v index slot hinput ⟨f, hf, hfeeds⟩ (by rw [isLive, hn]; rfl)
    obtain ⟨m, hm⟩ := ht.wellFormed.live_of_input hread
    have hmember : s.node ∈ r.members := by
      refine (hproducers s.node ?_ (by rw [hm]; rfl)).resolve_right (by simp)
      rw [input?, hn] at hread
      exact List.mem_map.mpr ⟨s, List.mem_of_getElem? hread, rfl⟩
    obtain rfl := ht.eq_of_member hr hfloat hrep hmember
    obtain ⟨f', hf', hfeeds', htype⟩ := ih hmember
    exact ⟨f', hf', .pass hpass hinput hdata hfeeds', htype⟩

end Regions

end Traced

namespace ConcatPlan

variable {s s' : Session α}

theorem lowerBoundary_traced {branches : List (NodeId × Branch α)}
    (hbranches : ∀ b ∈ branches, g₀.Storable b.1 type) (ht : Traced g₀ s.graph)
    {lowered : List (String × NodeId × ChannelParams α)}
    (hrun : exec (lowerBoundary type branches) s = .ok (.ok lowered, s')) :
    Traced g₀ s'.graph ∧ ∀ e ∈ lowered, g₀.nodes.size ≤ e.2.1 ∧ e.2.1 < s'.graph.nodes.size ∧
      ∀ k, s'.graph.kind? e.2.1 = some k → k = .fakeQuantize := by
  induction branches generalizing s lowered with
  | nil =>
    cases hrun
    exact ⟨ht, by simp⟩
  | cons b rest ih =>
    obtain ⟨id, branch⟩ := b
    have hid := hbranches (id, branch) List.mem_cons_self
    have hrest : ∀ b ∈ rest, g₀.Storable b.1 type := fun b hb => hbranches b (List.mem_cons_of_mem _ hb)
    obtain ⟨n, v, g₁, s₁, below, -, hadd, hreplace, hbelow, rfl⟩ := lowerBoundary_cons hrun
    obtain ⟨m, _, _, _, _, _, p, hm, hop, -, -, rfl, hdoubled⟩ := addFakeQuantize_done ht.wellFormed hadd
    obtain ⟨ht₁, hnew, hv, hrep⟩ := ht.doubled hid hdoubled
    have hold : g₁.kind? id = some .fakeQuantize :=
      hdoubled.kind (by rw [kind?, hm, Option.map_some, Node.kind, hop]; rfl)
    have ht₂ := ht₁.replaced_quantizer hid hnew hrep hold hreplace
    obtain ⟨ht₃, hlowered⟩ := ih hrest ht₂ hbelow
    obtain ⟨-, hrerouted, hsize, -⟩ := replaceNode_rerouted ht₁.wellFormed hreplace
    have hdescends : s₁.graph.Descends s'.graph := by
      refine (ensures_lowerBoundary (Face.admits_true type) rest (fun b hb => ?_) s₁ _ s'
        (.refl ht₂.wellFormed) hbelow).1 below rfl
      refine ⟨Nat.lt_of_lt_of_le (hrest b hb).lt_size ht₂.size, fun f hf => ?_⟩
      have hk : s₁.graph.kind? b.1 = some f.kind := by rw [kind?_eq_face, hf]; rfl
      exact Option.some.inj ((ht₂.kind (hrest b hb).lt_size hk).symm.trans (hrest b hb).kind)
    have hlt : s.graph.nodes.size + 2 < g₁.nodes.size := by
      obtain ⟨f, hf, -⟩ := face_of_kind hv
      exact lt_size_of_face? hf
    have hlt₁ : s.graph.nodes.size + 2 < s₁.graph.nodes.size := hsize ▸ hlt
    refine ⟨ht₃, fun e he => ?_⟩
    rcases List.mem_cons.mp he with rfl | he
    · refine ⟨hnew, Nat.lt_of_lt_of_le hlt₁ hdescends.size, fun k hk => ?_⟩
      exact Option.some.inj ((hrerouted.kind hlt (hdescends.kind hlt₁ hk)).symm.trans hv)
    · exact hlowered e he

theorem ensures_retyped {layers : List NodeId}
    (hlayers : ∀ id ∈ layers, id < g₀.nodes.size ∧
      ∀ index, g₀.Fed ⟨id, index⟩ → g₀.Fits ⟨id, index⟩ type) :
    Ensures (Traced g₀) (fun _ => Traced g₀) Fatal (retypeLayers (α := α) type layers) := by
  refine .forM fun id hid => ?_
  obtain ⟨hlt, hfits⟩ := hlayers id hid
  refine (Edit.ensures_node id).left.bind fun n => .forM ?_
  refine fun index _ => Edit.ensures_step fun g g' ht hrun => ?_
  obtain ⟨-, hrecast⟩ := setOutputType_done ht.wellFormed hrun
  exact ht.retyped hrecast hlt fun _ h => hfits index h

variable [Scalar α] {g₁ : Graph α}

theorem ensures_behind (hid : id < g₁.nodes.size)
    (hk : ∀ k, g₁.kind? id = some k → k ≠ .constant ∧ k ≠ .convert)
    (hstart : g₀.kind? id ≠ some .fakeQuantize) (inside : Region) (p : ChannelParams α) :
    Ensures (fun g => Traced g₀ g ∧ g₁.Descends g) (fun _ g => Traced g₀ g ∧ g₁.Descends g) Fatal
      (dequantizeBehind inside id p) := by
  refine (Edit.ensures_node id).left.bind fun n => .forM ?_
  intro index _
  refine (Edit.ensures_read (Region.readersOutside · inside ⟨id, index⟩)).bind fun readers => ?_
  split
  rotate_left
  · exact .pure fun _ h => h.1
  refine (Edit.ensures_port ⟨id, index⟩).bind fun port => ?_
  refine ((Ensures.lift _).weaken (fun _ h => h) fun _ _ h => h.2).bind fun params => ?_
  suffices hinsert : Ensures (fun g => ((Traced g₀ g ∧ g₁.Descends g) ∧
      readers = Region.readersOutside g inside ⟨id, index⟩) ∧ g.port? ⟨id, index⟩ = some port)
      (fun _ g => Traced g₀ g ∧ g₁.Descends g) Fatal
      (Dequantization.insert ⟨id, index⟩ readers params n.name) from hinsert.discard fun _ _ h => h
  rintro g r g' ⟨⟨⟨ht, hdescends⟩, hreaders⟩, hport⟩ hrun
  obtain ⟨f, hf, -⟩ := Option.bind_eq_some_iff.mp (port?_eq_face g _ ▸ hport)
  have hkind : g.kind? id = some f.kind := by rw [kind?_eq_face, hf]; rfl
  have hread : ∀ r ∈ readers, g.input? r.node r.index = some ⟨id, index⟩ := by
    intro r hr
    rw [hreaders] at hr
    exact ht.wellFormed.mem_readers.mp (List.mem_filter.mp hr).1
  have hbehind := Edit.ensures_behind ⟨id, index⟩ (hk _ (hdescends.kind hid hkind)) hstart readers
    params n.name g r g' ⟨⟨ht, hkind⟩, hread⟩ hrun
  have hinsert := Edit.ensures_insert Face.stable_true (fun _ _ _ => trivial) ⟨id, index⟩ readers
    params n.name g r g' hdescends hrun
  exact ⟨fun d hd => ⟨(hbehind.1 d hd).1, (hinsert.1 d hd).1⟩, hbehind.2⟩

omit [Scalar α] in
theorem float_of_readBoundary? {c : Context} {r : Ranges α} {allowed : PrecisionSet}
    (h : readBoundary? c g id = some (r, allowed)) :
    ∃ p, g.port? ⟨id, 0⟩ = some p ∧ p.elementType.isFloat = true := by
  obtain ⟨n, hn, h⟩ := Option.bind_eq_some_iff.mp h
  obtain ⟨p, hp, h⟩ := Option.bind_eq_some_iff.mp h
  split at h
  · cases h
  next hfloat =>
  refine ⟨p, ?_, ?_⟩
  · simpa [port?_eq, wire?, hn, Node.output?] using hp
  · simp only [Bool.or_eq_true, Bool.not_eq_true', not_or, Bool.not_eq_false] at hfloat
    exact hfloat.2

theorem Accepted.float {concat : NodeId} {plan : ConcatPlan α} {c : Context}
    (h : Accepted c g concat plan) {b : NodeId} (hb : b ∈ plan.region.boundary) :
    ∃ p, g.port? ⟨b, 0⟩ = some p ∧ p.elementType.isLowPrecision = false := by
  obtain ⟨i, hi⟩ := List.mem_iff_getElem?.mp hb
  obtain ⟨r, -, allowed, hread⟩ := forall₂_getElem? h.ranges hi
  obtain ⟨p, hp, hfloat⟩ := float_of_readBoundary? hread
  exact ⟨p, hp, ElementType.not_low_of_float hfloat⟩

theorem apply_traced {concat : NodeId} {plan : ConcatPlan α} (ht : Traced g₀ s.graph)
    (hplan : Accepted s.context s.graph concat plan)
    (hboundary : ∀ b ∈ plan.region.boundary,
      g₀.Storable b (storageType s.context.params plan.grid.precision))
    (hrun : exec plan.apply s = .ok (.ok (), s')) : Traced g₀ s'.graph := by
  have hclosed := Region.closed_of_around hplan.region
  have hfloat : ∀ b ∈ plan.region.boundary,
      ∃ p, s.graph.port? ⟨b, 0⟩ = some p ∧ p.elementType.isLowPrecision = false := fun _ => hplan.float
  have hlayer : ∀ id ∈ plan.region.layers, ∃ k, s.graph.kind? id = some k ∧ k.Passes ∧
      id < g₀.nodes.size := by
    intro id hid
    obtain ⟨n, hn, -⟩ := hclosed.layer id hid
    have hk : s.graph.kind? id = some n.kind := by rw [kind?, hn]; rfl
    have hpasses := ht.layer_passes hclosed hid hk
    exact ⟨n.kind, hk, hpasses, ht.lt_size_of_passes hk hpasses⟩
  obtain ⟨lowered, s₁, s₂, hlower, hrework, hgraph⟩ := apply_run hrun
  rw [hgraph]
  generalize storageType s.context.params plan.grid.precision = type at hboundary hlower hrework
  obtain ⟨ht₁, hlowered⟩ := lowerBoundary_traced (fun b hb => hboundary b.1 (List.of_mem_zip hb).1) ht
    hlower
  have hknown : ∀ e ∈ plan.layers ++ lowered.map Prod.snd, e.1 < s₁.graph.nodes.size ∧
      (∀ k, s₁.graph.kind? e.1 = some k → k ≠ .constant ∧ k ≠ .convert) ∧
      g₀.kind? e.1 ≠ some .fakeQuantize := by
    intro e he
    rcases List.mem_append.mp he with he | he
    · obtain ⟨hids, -⟩ := layerParams_eq_ok hplan.layers
      obtain ⟨k, hk, hpasses, hlt⟩ := hlayer e.1 (hids ▸ List.mem_map.mpr ⟨e, he, rfl⟩)
      have hk₀ := ht.kind hlt hk
      refine ⟨Nat.lt_of_lt_of_le hlt ht₁.size, fun k' hk' => ?_, ?_⟩
      · cases hk₀.symm.trans (ht₁.kind hlt hk')
        exact hpasses.not_literal
      · rw [hk₀]
        rintro ⟨⟩
        exact absurd hpasses (by decide)
    · obtain ⟨entry, hentry, rfl⟩ := List.mem_map.mp he
      obtain ⟨hnew, hlt, hkind⟩ := hlowered entry hentry
      refine ⟨hlt, fun k hk => ?_, ?_⟩
      · rw [hkind k hk]
        decide
      · exact kind?_ne_of_size_le hnew
  let P : Graph α → Prop := fun g => Traced g₀ g ∧ s₁.graph.Descends g
  have hretype : ∀ ids : List NodeId, (∀ id ∈ ids, id ∈ plan.region.layers) →
      Ensures P (fun _ => P) Fatal (retypeLayers (α := α) type ids) := by
    intro ids hids
    refine .and (ensures_retyped fun id hid => ?_) (ensures_retypeLayers Face.stable_true fun id hid => ?_)
    · obtain ⟨k, -, -, hlt⟩ := hlayer id (hids id hid)
      refine ⟨hlt, fun index hfed => ?_⟩
      obtain ⟨f, hf, hfeeds⟩ := hfed
      exact ht.region_fits hclosed hboundary hfloat hf hfeeds (List.mem_append_left _ (hids id hid))
    · obtain ⟨k, -, -, hlt⟩ := hlayer id (hids id hid)
      exact Nat.lt_of_lt_of_le hlt ht₁.size
  refine ((ensures_rework hretype (fun e he => ?_) s₁ _ s₂ ⟨ht₁, .refl ht₁.wellFormed⟩ hrework).1
    () rfl).1
  obtain ⟨hlt, hliteral, hstart⟩ := hknown e he
  exact ensures_behind hlt hliteral hstart _ e.2

end ConcatPlan

end LowPrecision
