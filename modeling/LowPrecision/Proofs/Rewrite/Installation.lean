import LowPrecision.Proofs.Graph.Regular
import LowPrecision.Proofs.Rewrite.Steps

namespace LowPrecision

variable {α : Type}

structure Supplanted (g g' : Graph α) (rank : NodeId → Nat) (id successor source : NodeId)
    (kind : OpKind) : Prop where
  reworked : Graph.Reworked (Graph.makeRoom g.nodes.size 9 (rank id) rank) g.nodes.size
    (rank id + 9) (fun v k => Graph.IsStep k ∨ v = source ∧ k = kind) g g'
  gone : g'.face? id = none
  name : g'.name? successor = g.name? id

structure Installed (g g₁ g' : Graph α) (source : Slot) (params : AffineParams α)
    (d : Dequantization α) : Prop where
  data : d.data = source
  scale : d.scale? = some params.scale
  zeroPoint : d.zeroPoint? = params.zeroPoint
  stands : d.Stands g'
  new (v : NodeId) (f : Face α) : g.nodes.size ≤ v → g₁.face? v = some f → g'.face? v = some f
  read (u v : NodeId) (f k : Face α) : g.nodes.size ≤ u → g₁.face? u = some k →
    (∃ s ∈ k.inputs, s.node = v) → g.face? v = some f → ∃ f', g'.face? v = some f' ∧ f'.op = f.op

structure Sourced (g g₁ : Graph α) (rank : NodeId → Nat) (id : NodeId) (source : Slot)
    (kind : OpKind) : Prop where
  extended : Graph.Extends g g₁ fun s => rank s.node < rank id
  count : g₁.nodes.size ≤ g.nodes.size + 3
  new : g.nodes.size ≤ source.node
  face : ∃ f p, g₁.face? source.node = some f ∧ f.ports = [p]
  index : source.index = 0
  fresh (v : NodeId) (f : Face α) : g.nodes.size ≤ v → g₁.face? v = some f →
    (Graph.IsStep f.kind ∨ v = source.node ∧ f.kind = kind) ∧ f.ports.length = 1

variable {g g₁ : Graph α} {rank : NodeId → Nat} {id : NodeId} {n : Node α} {source : Slot}
  {kind : OpKind}

theorem Supplanted.weaken {g' : Graph α} {successor source source' : NodeId} {kind' : OpKind}
    (h : Supplanted g g' rank id successor source kind)
    (hfresh : ∀ v k, Graph.IsStep k ∨ v = source ∧ k = kind →
      Graph.IsStep k ∨ v = source' ∧ k = kind') :
    Supplanted g g' rank id successor source' kind' :=
  ⟨h.reworked.weaken (Nat.le_refl _) (Nat.le_refl _) hfresh, h.gone, h.name⟩

theorem Supplanted.maintains {g' : Graph α} {successor : NodeId}
    (h : Supplanted g g' rank id successor successor kind) (hg : g.Regular)
    (hn : g.node? id = some n) (hkind : kind = .fakeQuantize → n.kind = .fakeQuantize) :
    g.Maintains g' := by
  apply h.reworked.maintains hg (Nat.le_refl _)
  rintro v name (hstep | ⟨rfl, hquantizer⟩) hname
  · exact absurd hstep Graph.IsStep.not_quantizer
  · rw [h.name] at hname
    exact ⟨id, n.face, Graph.face?_eq_some.mpr ⟨n, hn, rfl⟩, hkind hquantizer.symm, hname⟩

theorem Sourced.reworked (h : Sourced g g₁ rank id source kind) (hg : g.WellFormed)
    (hrank : g.Ranked rank) :
    Graph.Reworked (Graph.makeRoom g.nodes.size 9 (rank id) rank) g.nodes.size (rank id + 9)
      (fun v k => Graph.IsStep k ∨ v = source.node ∧ k = kind) g g₁ := by
  have hranked := h.extended.ranked hg hrank 9 (rank id) fun s hs => Nat.le_of_lt hs
  exact .of_extends h.extended hranked h.fresh

theorem isSome_port_of_input (hg : g.WellFormed) (hn : g.node? id = some n) {s : Slot}
    (hs : s ∈ n.inputs) : (g.port? s).isSome := by
  obtain ⟨i, hi⟩ := List.getElem?_of_mem hs
  rw [← Graph.wire?_isSome_eq_port]
  exact hg.wire_of_input (Graph.input?_eq_some.mpr ⟨n, hn, hi⟩)

theorem below_of_input (hr : g.Ranked rank) (hn : g.node? id = some n) {s : Slot}
    (hs : s ∈ n.inputs) : rank s.node < rank id := by
  obtain ⟨i, hi⟩ := List.getElem?_of_mem hs
  exact hr id i s (Graph.input?_eq_some.mpr ⟨n, hn, hi⟩)

theorem port_of_single (hn : g.node? id = some n) (hone : n.outputs.length = 1) :
    ∃ p, g.port? ⟨id, 0⟩ = some p ∧ n.outputs.map Wire.port = [p] := by
  obtain ⟨w, hw⟩ := List.length_eq_one_iff.mp hone
  exact ⟨w.port, by simp [Graph.port?_eq, Graph.wire?, hn, hw], by simp [hw]⟩

theorem not_interface_of_kind (h : n.kind = kind) (hparameter : kind ≠ .parameter)
    (hresult : kind ≠ .result) : ¬ n.kind.IsInterface := by
  rintro (hk | hk)
  · exact hparameter (h.symm.trans hk)
  · exact hresult (h.symm.trans hk)

theorem ranges_below {data low high : Slot} {rest : List Slot} (hr : g.Ranked rank)
    (hn : g.node? id = some n) (hin : n.inputs = data :: low :: high :: rest) {s : Slot}
    (hs : s = data ∨ s = low ∨ s = high) : rank s.node < rank id := by
  apply below_of_input hr hn
  rw [hin]
  rcases hs with rfl | rfl | rfl <;> simp

theorem sourced_of_doubled {levels : Nat} {data low high : Slot} {q : Port}
    {outLow outHigh : Tensor α}
    (hbelow : ∀ s, s = data ∨ s = low ∨ s = high → rank s.node < rank id)
    (h : Doubled g g₁ levels data low high q outLow outHigh) :
    Sourced g g₁ rank id ⟨g.nodes.size + 2, 0⟩ .fakeQuantize where
  extended := ⟨h.wellFormed, h.size, h.old, fun v f hv hf s hs =>
    (h.inputs v f hv hf s hs).imp_left fun hread hlt => hbelow s (hread hlt), h.name, h.attributes⟩
  count := Nat.le_of_eq h.count
  new := Nat.le_add_right _ _
  face := ⟨_, _, h.fakeQuantize, rfl⟩
  index := rfl
  fresh _ _ hv hf := h.fresh hv hf

theorem Sourced.above {id' : NodeId} (h : Sourced g g₁ rank id source kind)
    (hle : rank id ≤ rank id') : Sourced g g₁ rank id' source kind :=
  ⟨⟨h.extended.wellFormed, h.extended.size, h.extended.old, fun v f hv hf s hs =>
    (h.extended.inputs v f hv hf s hs).imp_left fun hread hlt => Nat.lt_of_lt_of_le (hread hlt) hle,
    h.extended.name, h.extended.attributes⟩, h.count, h.new, h.face, h.index, h.fresh⟩

theorem sourced_of_face {f : Face α} (h : Graph.Added g g₁ f)
    (hbelow : ∀ s ∈ f.inputs, rank s.node < rank id ∧ (g.port? s).isSome)
    (hports : f.ports.length = 1) : Sourced g g₁ rank id ⟨g.nodes.size, 0⟩ f.kind where
  extended := h.extends (fun s hs => (hbelow s hs).1) fun s hs => (hbelow s hs).2
  count := by
    rw [h.size]
    omega
  new := Nat.le_refl _
  face := by
    obtain ⟨p, hp⟩ := List.length_eq_one_iff.mp hports
    exact ⟨f, p, h.new, hp⟩
  index := rfl
  fresh v k hv hk := by
    obtain ⟨rfl, rfl⟩ := h.eq_new hv hk
    exact ⟨.inr ⟨rfl, rfl⟩, hports⟩

theorem Sourced.replace (h : Sourced g g₁ rank id source kind) (hg : g.WellFormed)
    (hrank : g.Ranked rank) (hn : g.node? id = some n) (hone : n.outputs.length = 1)
    (hkind : ¬ n.kind.IsInterface) :
    ∃ g', exec (Graph.replaceNode id source.node : Edit α GraphError Unit) g₁ = .ok (.ok (), g') ∧
      Graph.Replaced g₁ g' id source.node
        (g₁.Exposed (Graph.makeRoom g.nodes.size 9 (rank id) rank) id) ∧
      Supplanted g g' rank id source.node source.node kind := by
  have hreworked := h.reworked hg hrank
  have hid : id < g.nodes.size := Graph.lt_size_of_node? hn
  have hface : g₁.face? id = some n.face := h.extended.face (Graph.face?_eq_some.mpr ⟨n, hn, rfl⟩)
  obtain ⟨f, p, hf, hp⟩ := h.face
  have hread : ∀ v k, g.nodes.size ≤ v → g₁.face? v = some k → ∀ s ∈ k.inputs, s.node ≠ id := by
    rintro v k hv hk s hs rfl
    exact Nat.lt_irrefl _ ((h.extended.inputs v k hv hk s hs).1 hid)
  have hcount := h.count
  obtain ⟨g', hexec, hreplaced, hkept, hgone, hname⟩ := Graph.replaceNode_reworked
    hreworked.wellFormed hreworked.ranked hid rfl h.new (by omega) hface hf
    (by simp [Node.face, hone, hp]) hkind hread
  exact ⟨g', hexec, hreplaced, hreworked.trans hkept, hgone, hname.trans (h.extended.name id hid)⟩

structure Exchanged (g g' : Graph α) (id : NodeId) (f : Face α) : Prop where
  size : g'.nodes.size = g.nodes.size + 1
  old (v : NodeId) : v < g.nodes.size →
    g'.face? v = (g.face? v).map (·.replace v id g.nodes.size) ∨ g'.face? v = none
  new : g'.face? g.nodes.size = some f

theorem exchange_ok {f : Face α} (hg : g.WellFormed) (hrank : g.Ranked rank)
    (hn : g.node? id = some n) (hone : n.outputs.length = 1) (hkind : ¬ n.kind.IsInterface)
    (h : Graph.Added g g₁ f) (hbelow : ∀ s ∈ f.inputs, rank s.node < rank id ∧ (g.port? s).isSome)
    (hports : f.ports.length = 1) :
    ∃ g', exec (Graph.replaceNode id g.nodes.size : Edit α GraphError Unit) g₁ =
        .ok (.ok (), g') ∧
      Exchanged g g' id f ∧ Supplanted g g' rank id g.nodes.size g.nodes.size f.kind := by
  have hid : id < g.nodes.size := Graph.lt_size_of_node? hn
  obtain ⟨g', hexec, hreplaced, hsupplanted⟩ :=
    (sourced_of_face h hbelow hports).replace hg hrank hn hone hkind
  refine ⟨g', hexec, ⟨hreplaced.size.trans h.size, fun v hv => ?_, ?_⟩, hsupplanted⟩
  · have hold := h.face v
    rw [if_neg (Nat.ne_of_lt hv)] at hold
    rw [← hold]
    exact (hreplaced.node v).imp_right And.right
  · rcases hreplaced.node g.nodes.size with hkept | ⟨hexposed, -⟩
    · rw [hkept, h.new, Option.map_some, Face.replace, if_pos rfl]
    · exact absurd hexposed.1 (Nat.not_le.mpr (Graph.makeRoom_base_lt hid (Nat.le_refl _)))

theorem mem_readers_of_node (hg : g.WellFormed) (hn : g.node? id = some n) {r : Slot}
    (hr : r ∈ n.readers 0) : g.input? r.node r.index = some ⟨id, 0⟩ := by
  apply hg.mem_readers.mp
  rwa [Graph.readers, hn]

theorem successor_single {mid g₂ : Graph α} {slots : List Slot} {params : AffineParams α}
    {d : Dequantization α} {successor : NodeId} (h : Sourced g g₁ rank id source kind)
    (hins : Dequantization.Inserted g₁ g₂ source slots params d mid)
    (hslots : ∀ r ∈ slots, r.node < g.nodes.size)
    (hsucc : successor = source.node ∨ ∃ s, d.multiply = some (successor, s)) :
    g.nodes.size ≤ successor ∧ ∃ f, g₂.face? successor = some f ∧ f.ports.length = 1 := by
  rcases hsucc with rfl | ⟨s, hs⟩
  · obtain ⟨f, q, hf, hq⟩ := h.face
    refine ⟨h.new, f, ?_, by rw [hq]; rfl⟩
    rw [hins.face_new hslots h.new]
    exact hins.built.face hf
  · have hout : d.output.node = successor :=
      congrArg Slot.node (Dequantization.output_of_multiply hs)
    have hnew : g.nodes.size ≤ successor := hout ▸ Nat.le_trans h.extended.size hins.built.new
    obtain ⟨f, q, hf, hq, -⟩ := hins.built.output
    refine ⟨hnew, f, ?_, by rw [hq]; rfl⟩
    rw [hins.face_new hslots hnew, ← hout, hf]

variable [Arithmetic α]

theorem insert_above (hg : g.WellFormed) (hrank : g.Ranked rank) (hn : g.node? id = some n)
    (h : Sourced g g₁ rank id source kind) (params : AffineParams α) (base : String) :
    ∃ d mid g₂, exec (Dequantization.insert source (n.readers 0) params base) g₁ = .ok (.ok d, g₂) ∧
      Dequantization.Inserted g₁ g₂ source (n.readers 0) params d mid ∧
      Graph.Extends g mid (fun s => rank s.node < rank id) ∧
      g₂.nodes.size ≤ g.nodes.size + 9 ∧ (∀ r ∈ n.readers 0, r.node < g.nodes.size) ∧
      Graph.Reworked (Graph.makeRoom g.nodes.size 9 (rank id) rank) g.nodes.size (rank id + 9)
        (fun v k => Graph.IsStep k ∨ v = source.node ∧ k = kind) g g₂ := by
  have hread : ∀ r ∈ n.readers 0, g.input? r.node r.index = some ⟨id, 0⟩ :=
    fun r hr => mem_readers_of_node hg hn hr
  have hold : ∀ r ∈ n.readers 0, r.node < g.nodes.size := by
    intro r hr
    obtain ⟨m, hm, -⟩ := Graph.input?_eq_some.mp (hread r hr)
    exact Graph.lt_size_of_node? hm
  have hslots : ∀ r ∈ n.readers 0, (g₁.input? r.node r.index).isSome := by
    intro r hr
    have hi := hread r hr
    rw [Graph.input?_eq_face] at hi ⊢
    obtain ⟨f, hf, hs⟩ := Option.bind_eq_some_iff.mp hi
    rw [h.extended.face hf, Option.bind_some, hs]
    rfl
  obtain ⟨f, q, hf, hq⟩ := h.face
  have hport : g₁.port? source = some q := by
    rw [Graph.port?_eq_face, hf, h.index, Option.bind_some, hq]
    rfl
  obtain ⟨d, mid, g₂, hinsert, hins⟩ :=
    Dequantization.insert_ok h.extended.wellFormed hport hslots params base
  have hmid : Graph.Extends g mid fun s => rank s.node < rank id :=
    h.extended.trans hins.built.toExtends fun s hv hsame =>
      absurd (hsame ▸ h.new) (Nat.not_le.mpr hv)
  have hsourced := h.reworked hg hrank
  -- At most three nodes stand below the chain, which leaves six of the nine places.
  have hinserted : Graph.Reworked (Graph.makeRoom g.nodes.size 9 (rank id) rank) g.nodes.size
      (rank id + 9) (fun _ => Graph.IsStep) g₁ g₂ :=
    Graph.reworked_of_inserted hsourced.ranked h.extended.size (Nat.add_le_add_right h.count 6) hins
      (fun hlt => absurd h.new (Nat.not_le.mpr hlt))
      fun r hr => ⟨hold r hr, hrank _ _ _ (hread r hr)⟩
  refine ⟨d, mid, g₂, hinsert, hins, hmid, ?_, hold, hsourced.trans ?_⟩
  · rw [hins.recast.size]
    exact Nat.le_trans hins.built.count (Nat.add_le_add_right h.count 6)
  · exact hinserted.weaken (Nat.le_refl _) (Nat.le_refl _) fun _ _ hstep => .inl hstep

theorem install_ok (hg : g.WellFormed) (hrank : g.Ranked rank) (hn : g.node? id = some n)
    (hkind : ¬ n.kind.IsInterface) (h : Sourced g g₁ rank id source kind)
    (params : AffineParams α) (base : String) :
    ∃ d g₂, exec (Dequantization.insert source (n.readers 0) params base) g₁ = .ok (.ok d, g₂) ∧
      ∀ successor, successor = source.node ∨ (∃ s, d.multiply = some (successor, s)) →
        (n.outputs.length = 1 → ∃ g', exec (Graph.replaceNode id successor :
          Edit α GraphError Unit) g₂ = .ok (.ok (), g') ∧ Installed g g₁ g' source params d ∧
            Supplanted g g' rank id successor source.node kind) ∧
        ∀ g', exec (Graph.replaceNode id successor : Edit α GraphError Unit) g₂ =
          .ok (.ok (), g') → n.outputs.length = 1 := by
  obtain ⟨d, mid, g₂, hinsert, hins, hmid, hcount, hold, hreworked⟩ :=
    insert_above hg hrank hn h params base
  have hid : id < g.nodes.size := Graph.lt_size_of_node? hn
  have hnew₂ : ∀ v, g.nodes.size ≤ v → g₂.face? v = mid.face? v := fun _ => hins.face_new hold
  have hother : ∀ v f, g.nodes.size ≤ v → mid.face? v = some f → ∀ s ∈ f.inputs, s.node ≠ id := by
    rintro v f hv hf s hs rfl
    exact Nat.lt_irrefl _ ((hmid.inputs v f hv hf s hs).1 hid)
  have hface₂ : g₂.face? id = some (n.face.redirect id (n.readers 0) d.output) := by
    rw [hins.recast.face, hmid.face (Graph.face?_eq_some.mpr ⟨n, hn, rfl⟩)]
    rfl
  refine ⟨d, g₂, hinsert, fun successor hsucc => ?_⟩
  obtain ⟨hge, fs, hfs, hlength⟩ := successor_single h hins hold hsucc
  refine ⟨fun hone => ?_, fun g' hrun => ?_⟩
  rotate_left
  · have hports₂ := Graph.ports_of_replaceNode hface₂ hfs hrun
    simpa [Node.face, hlength] using hports₂
  have hread₂ : ∀ v k, g.nodes.size ≤ v → g₂.face? v = some k → ∀ s ∈ k.inputs, s.node ≠ id :=
    fun v k hv hk => hother v k hv (hnew₂ v hv ▸ hk)
  obtain ⟨g', hreplace, h', hreplaced, hgone, hname⟩ := Graph.replaceNode_reworked
    hreworked.wellFormed hreworked.ranked hid rfl hge hcount hface₂ hfs
    (by simpa [Node.face, hone] using hlength.symm) hkind hread₂
  have hnew' : ∀ v, g.nodes.size ≤ v → g'.face? v = mid.face? v := by
    intro v hv
    rcases h'.node v with hkept | ⟨hexposed, -⟩
    · rw [hkept, hnew₂ v hv]
      cases hf : mid.face? v with
      | none => rfl
      | some f => rw [Option.map_some, Face.replace_of_not_mem (hother v f hv hf)]
    · exact absurd hexposed.1 (Nat.not_le.mpr (Graph.makeRoom_base_lt hid hv))
  have hlive : g₂.name? id = g.name? id :=
    hreworked.name id hid hid (Graph.isLive_iff_face.mpr ⟨_, hface₂⟩)
  refine ⟨g', hreplace, ⟨hins.built.data, hins.built.scale, hins.built.zeroPoint,
    hins.built.stands g' fun v hv _ => hnew' v (Nat.le_trans h.extended.size hv), fun v f hv hf => ?_,
    fun u v f k hu hk hreadv hf => ?_⟩, hreworked.trans hreplaced, hgone, hname.trans hlive⟩
  · rw [hnew' v hv, hins.built.face hf]
  · have hf₂ : g₂.face? v = some (f.redirect v (n.readers 0) d.output) := by
      rw [hins.recast.face, hmid.face hf, Option.map_some]
    have hk₂ : g₂.face? u = some k := by rw [hnew₂ u hu, hins.built.face hk]
    rcases h'.node v with hkept | ⟨⟨-, hsame | hall⟩, -⟩
    · refine ⟨_, by rw [hkept, hf₂, Option.map_some], ?_⟩
      rw [Face.op_replace, Face.op_redirect]
    · obtain ⟨s, hs, hsv⟩ := hreadv
      exact absurd (hsv.trans hsame) (hother u k hu (hins.built.face hk) s hs)
    · exact absurd (hall u k hk₂ hreadv) (Nat.not_le.mpr (Graph.makeRoom_base_lt hid hu))

end LowPrecision
