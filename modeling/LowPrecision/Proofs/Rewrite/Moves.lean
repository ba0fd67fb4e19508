import LowPrecision.Proofs.Graph.Reworked
import LowPrecision.Proofs.Rewrite.Steps

namespace LowPrecision

variable {α : Type} {g g₀ g' : Graph α} {rank : NodeId → Nat} {id : NodeId}
  {outputs index count : Nat}

structure Shifted (g₀ g : Graph α) (rank : NodeId → Nat) (count : Nat) (id : NodeId)
    (outputs done : Nat) : Prop where
  reworked : Graph.Reworked (Graph.makeRoom g₀.nodes.size count (rank id) rank) g₀.nodes.size
    (rank id + count) (fun _ => Graph.IsStep) g₀ g
  size : g.nodes.size ≤ g₀.nodes.size + 6 * done
  node : ∃ f, g.face? id = some f ∧ f.inputs ≠ [] ∧ f.ports.length = outputs
  read (v : NodeId) (f : Face α) : g₀.nodes.size ≤ v → g.face? v = some f →
    ∀ s ∈ f.inputs, s.node = id → s.index < done

namespace Shifted

theorem reader_above (h : Shifted g₀ g rank count id outputs index) (hid : id < g₀.nodes.size)
    {r : Slot} (hr : r ∈ g.readers ⟨id, index⟩) :
    r.node < g₀.nodes.size ∧ rank id < rank r.node := by
  have hi := h.reworked.wellFormed.mem_readers.mp hr
  have hread := h.reworked.ranked _ _ _ hi
  rw [Graph.input?_eq_face] at hi
  obtain ⟨f, hf, hs⟩ := Option.bind_eq_some_iff.mp hi
  have hold : r.node < g₀.nodes.size := by
    by_contra hge
    exact Nat.lt_irrefl _ (h.read _ f (Nat.not_lt.mp hge) hf _ (List.mem_of_getElem? hs) rfl)
  exact ⟨hold, Graph.lt_of_makeRoom_lt hid hold hread⟩

theorem retype (h : Shifted g₀ g rank count id outputs index) {type : ElementType}
    (hrecast : Graph.Recast g g' fun v f => if v = id then f.retype index type else f) :
    Shifted g₀ g' rank count id outputs index where
  reworked := by
    apply h.reworked.trans
    apply Graph.Reworked.of_retyped h.reworked.wellFormed h.reworked.ranked
      (s := ⟨id, index⟩) hrecast
    intro k hk
    obtain ⟨f, hf, hin, -⟩ := h.node
    obtain rfl : f = k := Option.some.inj (hf.symm.trans hk)
    exact hin
  size := hrecast.size ▸ h.size
  node := by
    obtain ⟨f, hf, hin, hports⟩ := h.node
    refine ⟨f.retype index type, by rw [hrecast.face, hf, Option.map_some, if_pos rfl], hin, ?_⟩
    rw [← hports]
    exact List.length_modify ..
  read v f' hv hf' s hs := by
    rw [hrecast.face] at hf'
    obtain ⟨f, hf, rfl⟩ := Option.map_eq_some_iff.mp hf'
    apply h.read v f hv hf s
    split at hs <;> exact hs

theorem relax (h : Shifted g₀ g rank count id outputs index) {types : RelaxedTypes}
    (hrecast : Graph.Recast g g' fun v f => if v = id then f.relax types else f) :
    Shifted g₀ g' rank count id outputs index where
  reworked := h.reworked.trans (.of_relaxed h.reworked.wellFormed h.reworked.ranked hrecast)
  size := hrecast.size ▸ h.size
  node := by
    obtain ⟨f, hf, hin, hports⟩ := h.node
    exact ⟨f.relax types, by rw [hrecast.face, hf, Option.map_some, if_pos rfl], hin, hports⟩
  read v f' hv hf' s hs := by
    rw [hrecast.face] at hf'
    obtain ⟨f, hf, rfl⟩ := Option.map_eq_some_iff.mp hf'
    apply h.read v f hv hf s
    split at hs <;> exact hs

theorem skip (h : Shifted g₀ g rank count id outputs index) :
    Shifted g₀ g rank count id outputs (index + 1) where
  reworked := h.reworked
  size := Nat.le_trans h.size (by omega)
  node := h.node
  read v f hv hf s hs hid := Nat.lt_succ_of_lt (h.read v f hv hf s hs hid)

theorem insert (h : Shifted g₀ g rank count id outputs index) (hid : id < g₀.nodes.size)
    (hcount : 6 * (index + 1) ≤ count) {params : AffineParams α} {d : Dequantization α}
    {mid : Graph α} {slots : List Slot} (hslots : ∀ r ∈ slots, r ∈ g.readers ⟨id, index⟩)
    (hins : Dequantization.Inserted g g' ⟨id, index⟩ slots params d mid) :
    Shifted g₀ g' rank count id outputs (index + 1) := by
  have hsize := h.size
  have habove : ∀ r ∈ slots, r.node < g₀.nodes.size ∧ rank id < rank r.node :=
    fun r hr => h.reader_above hid (hslots r hr)
  refine ⟨?_, ?_, ?_, ?_⟩
  · apply h.reworked.trans
    apply Graph.reworked_of_inserted h.reworked.ranked h.reworked.size (by omega) hins
    · exact fun _ => Nat.le_refl _
    · exact habove
  · have hmid := hins.built.count
    rw [hins.recast.size]
    omega
  · obtain ⟨f, hf, hin, hports⟩ := h.node
    refine ⟨f.redirect id slots d.output, ?_, ?_, hports⟩
    · rw [hins.face_old (Graph.lt_size_of_face? hf), hf, Option.map_some]
    · rw [ne_eq, ← List.length_eq_zero_iff, Face.length_redirect, List.length_eq_zero_iff]
      exact hin
  · intro v f' hv hf' s hs hsid
    rcases Nat.lt_or_ge v g.nodes.size with hlt | hge
    · rw [hins.face_old hlt] at hf'
      obtain ⟨f, hf, rfl⟩ := Option.map_eq_some_iff.mp hf'
      rw [Face.redirect_of_not_mem fun i hi => Nat.not_lt.mpr hv (habove _ hi).1] at hs
      exact Nat.lt_succ_of_lt (h.read v f hv hf s hs hsid)
    · rw [hins.face_new (fun r hr => Nat.lt_of_lt_of_le (habove r hr).1 h.reworked.size) hge] at hf'
      obtain ⟨f, hf, -⟩ := h.node
      have hsource := (hins.built.inputs v f' hge hf' s hs).1 (hsid ▸ Graph.lt_size_of_face? hf)
      rw [hsource]
      exact Nat.lt_succ_self index

variable [Arithmetic α]

theorem step (h : Shifted g₀ g rank count id outputs index) (hid : id < g₀.nodes.size)
    (hindex : index < outputs) (hcount : 6 * outputs ≤ count) (type : ElementType)
    (params : AffineParams α) (base : String) :
    ∃ g', exec (do
        let readers ← Edit.read (·.readers ⟨id, index⟩)
        Edit.ofGraph (Edit.step (·.setOutputType ⟨id, index⟩ type))
        if !readers.isEmpty then
          discard (Dequantization.insert ⟨id, index⟩ readers params base) :
            Edit α TransformError Unit) g = .ok (.ok (), g') ∧
      Shifted g₀ g' rank count id outputs (index + 1) := by
  obtain ⟨f, hf, -, hports⟩ := h.node
  have hport : (g.port? ⟨id, index⟩).isSome := by
    rw [Graph.port?_eq_face, hf, Option.bind_some, List.getElem?_eq_getElem (hports ▸ hindex)]
    rfl
  obtain ⟨g₁, hset, hrecast⟩ := Graph.setOutputType_ok h.reworked.wellFormed hport type
  have h₁ := h.retype hrecast
  have hinput : ∀ v i, g₁.input? v i = g.input? v i := by
    intro v i
    rw [Graph.input?_eq_face, Graph.input?_eq_face, hrecast.face]
    cases g.face? v with
    | none => rfl
    | some k =>
      rw [Option.map_some, Option.bind_some, Option.bind_some]
      split <;> rfl
  have hreaders : ∀ r ∈ g.readers ⟨id, index⟩, r ∈ g₁.readers ⟨id, index⟩ := by
    intro r hr
    rw [h₁.reworked.wellFormed.mem_readers, hinput]
    exact h.reworked.wellFormed.mem_readers.mp hr
  rw [exec_bind_ok (Edit.exec_read _ _),
    exec_bind_ok (Edit.exec_ofGraph_ok (by rw [Edit.exec_step, hset]))]
  split
  · obtain ⟨f₁, hf₁, -, hports₁⟩ := h₁.node
    have hport₁ : (g₁.port? ⟨id, index⟩).isSome := by
      rw [Graph.port?_eq_face, hf₁, Option.bind_some, List.getElem?_eq_getElem (hports₁ ▸ hindex)]
      rfl
    obtain ⟨p, hp⟩ := Option.isSome_iff_exists.mp hport₁
    have hslots : ∀ r ∈ g.readers ⟨id, index⟩, (g₁.input? r.node r.index).isSome := by
      intro r hr
      rw [h₁.reworked.wellFormed.mem_readers.mp (hreaders r hr)]
      rfl
    obtain ⟨d, mid, g', hexec, hins⟩ :=
      Dequantization.insert_ok h₁.reworked.wellFormed hp hslots params base
    refine ⟨g', exec_discard_ok hexec, h₁.insert hid (by omega) hreaders hins⟩
  · exact ⟨g₁, rfl, h₁.skip⟩

theorem finish (h : Shifted g₀ g rank (6 * outputs) id outputs 0) (hid : id < g₀.nodes.size)
    (type : ElementType) (params : AffineParams α) (base : String) (last : NodeId) :
    ∃ g', exec (do
        (List.range outputs).forM fun index => do
          let readers ← Edit.read (·.readers ⟨id, index⟩)
          Edit.ofGraph (Edit.step (·.setOutputType ⟨id, index⟩ type))
          if !readers.isEmpty then
            discard (Dequantization.insert ⟨id, index⟩ readers params base)
        Edit.change (·.removeDead [last]) : Edit α TransformError Unit) g = .ok (.ok (), g') ∧
      Graph.Reworked (Graph.makeRoom g₀.nodes.size (6 * outputs) (rank id) rank) g₀.nodes.size
        (rank id + 6 * outputs) (fun _ => Graph.IsStep) g₀ g' := by
  obtain ⟨g₁, hloop, h₁⟩ := exec_forM_range
    (P := fun done g => Shifted g₀ g rank (6 * outputs) id outputs done)
    (fun index hindex g h => h.step hid hindex (Nat.le_refl _) type params base) h
  have hpruned := h₁.reworked.wellFormed.pruned [last]
  refine ⟨g₁.removeDead [last], ?_, h₁.reworked.trans (.of_pruned h₁.reworked.ranked hpruned)⟩
  rw [exec_bind_ok hloop]
  rfl

end Shifted

variable [Arithmetic α]

theorem moveDequantization_ok (hg : g.WellFormed) (hr : g.Ranked rank) {f : Face α}
    (hf : g.face? id = some f) {first : Slot} {rest : List Slot} (hin : f.inputs = first :: rest)
    {chain : Dequantization α} (hdata : rank chain.data.node < rank id) {p : Port}
    (hp : g.port? chain.data = some p) (params : AffineParams α) (updatePrecision : Bool) :
    ∃ g₁ g', exec (moveDequantization id chain params updatePrecision) g = .ok (.ok (), g') ∧
      Graph.Recast g g₁ (fun v f => f.redirect v [⟨id, 0⟩] chain.data) ∧
      Graph.Reworked (Graph.makeRoom g.nodes.size (6 * f.ports.length) (rank id) rank) g.nodes.size
        (rank id + 6 * f.ports.length) (fun _ => Graph.IsStep) g₁ g' := by
  obtain ⟨n, hn, rfl⟩ := Graph.face?_eq_some.mp hf
  have hlength : n.face.ports.length = n.outputs.length := List.length_map _
  have hinput : (g.input? id 0).isSome := by
    rw [Graph.input?_eq_face, hf, Option.bind_some, hin]
    rfl
  obtain ⟨g₁, hset, h₁⟩ := Graph.setInput_ok hg hinput (Option.isSome_iff_exists.mpr ⟨p, hp⟩)
  have hid : id < g₁.nodes.size := h₁.size ▸ Graph.lt_size_of_node? hn
  have hr₁ := (h₁.ranked hr (by simpa using hdata)).room h₁.wellFormed (6 * n.outputs.length) (rank id)
  have hf₁ : g₁.face? id = some (n.face.redirect id [⟨id, 0⟩] chain.data) := by
    rw [h₁.face, hf, Option.map_some]
  have hin₁ : (n.face.redirect id [⟨id, 0⟩] chain.data).inputs ≠ [] := by
    rw [ne_eq, ← List.length_eq_zero_iff, Face.length_redirect, hin]
    simp
  have hstart : Shifted g₁ g₁ rank (6 * n.outputs.length) id n.outputs.length 0 :=
    ⟨.refl h₁.wellFormed hr₁, Nat.le_refl _, ⟨_, hf₁, hin₁, hlength⟩,
      fun v k hv hk => absurd (Graph.lt_size_of_face? hk) (Nat.not_lt.mpr hv)⟩
  rw [hlength, ← h₁.size, moveDequantization, exec_bind_ok (Edit.exec_port hp)]
  dsimp only
  generalize (if updatePrecision then p.elementType else .f32) = type
  rw [exec_bind_ok (Edit.exec_node hn),
    exec_bind_ok (Edit.exec_ofGraph_ok (by rw [Edit.exec_step, hset]))]
  refine ⟨g₁, ?_⟩
  split
  · have hlive : g₁.isLive id = true := Graph.isLive_iff_face.mpr ⟨_, hf₁⟩
    obtain ⟨g₂, hrelax, h₂⟩ :=
      Graph.setRelaxed_ok h₁.wellFormed hlive (.float n.inputs.length n.outputs.length)
    rw [exec_bind_ok (Edit.exec_ofGraph_ok (by rw [Edit.exec_step, hrelax]))]
    obtain ⟨g', hexec, h'⟩ := (hstart.relax h₂).finish hid type params n.name chain.output.node
    exact ⟨g', hexec, h₁, h'⟩
  · obtain ⟨g', hexec, h'⟩ := hstart.finish hid type params n.name chain.output.node
    exact ⟨g', hexec, h₁, h'⟩

end LowPrecision
