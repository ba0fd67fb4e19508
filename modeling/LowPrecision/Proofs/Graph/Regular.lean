import LowPrecision.Proofs.Graph.Reworked

namespace LowPrecision

variable {α : Type}

def OpKind.HasOneOutput (k : OpKind) : Prop := k ≠ .split ∧ k ≠ .variadicSplit ∧ k ≠ .result

instance (k : OpKind) : Decidable k.HasOneOutput := inferInstanceAs (Decidable (_ ∧ _ ∧ _))

namespace Graph

variable {g g' : Graph α}

structure Regular (g : Graph α) : Prop where
  wellFormed : g.WellFormed
  acyclic : g.Acyclic
  outputs (v : NodeId) (f : Face α) :
    g.face? v = some f → f.kind.HasOneOutput → f.ports.length = 1

theorem Regular.length_outputs (h : g.Regular) {v : NodeId} {n : Node α} (hn : g.node? v = some n)
    (hkind : n.kind.HasOneOutput) : n.outputs.length = 1 := by
  rw [← h.outputs v n.face (face?_eq_some.mpr ⟨n, hn, rfl⟩) hkind]
  exact (List.length_map _).symm

theorem addNode_face {name : String} {op : Op α} {inputs : List Slot} {outputs : List Port}
    {v : NodeId} {f : Face α} (hf : (g.addNode name op inputs outputs).2.face? v = some f) :
    g.face? v = some f ∨ f = ⟨op, inputs, outputs, none⟩ := by
  rcases addNode_cases g name op inputs outputs with ⟨e, he⟩ | ⟨-, -, hok⟩
  · rw [he] at hf
    exact .inl hf
  · rw [hok, face?_push, face?_attach] at hf
    split at hf
    · cases hf
      exact .inr (by simp [Node.face, Function.comp_def])
    · exact .inl hf

theorem assemble_face {nodes : List (String × Op α × List Slot × List Port)} {v : NodeId}
    {f : Face α} (hf : (assemble nodes).face? v = some f) :
    ∃ n ∈ nodes, f = ⟨n.2.1, n.2.2.1, n.2.2.2, none⟩ := by
  revert v f
  refine List.foldlRecOn (motive := fun g : Graph α => ∀ {v f}, g.face? v = some f →
    ∃ n ∈ nodes, f = ⟨n.2.1, n.2.2.1, n.2.2.2, none⟩) nodes _ ?_ ?_
  · intro v f hf
    simp [face?, node?, empty] at hf
  · intro g hg n hn v f hf
    rcases addNode_face hf with hold | rfl
    · exact hg hold
    · exact ⟨n, hn, rfl⟩

theorem assemble_port {nodes : List (String × Op α × List Slot × List Port)} {s : Slot} {p : Port}
    (hp : (assemble nodes).port? s = some p) : ∃ n ∈ nodes, p ∈ n.2.2.2 := by
  obtain ⟨f, hf, hport⟩ := Option.bind_eq_some_iff.mp (port?_eq_face _ s ▸ hp)
  obtain ⟨n, hn, rfl⟩ := assemble_face hf
  exact ⟨n, hn, List.mem_of_getElem? hport⟩

theorem assemble_regular {nodes : List (String × Op α × List Slot × List Port)}
    (h : ∀ n ∈ nodes, n.2.1.kind.HasOneOutput → n.2.2.2.length = 1) : (assemble nodes).Regular where
  wellFormed := (assemble_ordered nodes).1
  acyclic := assemble_acyclic nodes
  outputs v f hf hkind := by
    obtain ⟨n, hn, rfl⟩ := assemble_face hf
    exact h n hn hkind

def HasQuantizer (g : Graph α) (name : String) : Prop :=
  ∃ v f, g.face? v = some f ∧ f.kind = .fakeQuantize ∧ g.name? v = some name

structure Maintains (g g' : Graph α) : Prop where
  regular : g'.Regular
  size : g.nodes.size ≤ g'.nodes.size
  old (v : NodeId) (f' : Face α) : v < g.nodes.size → g'.face? v = some f' →
    ∃ f, g.face? v = some f ∧ f.Resembles f'
  interface (v : NodeId) (f : Face α) : g.face? v = some f → f.kind.IsInterface →
    g'.isLive v = true
  name (v : NodeId) : v < g.nodes.size → g'.isLive v = true → g'.name? v = g.name? v
  quantizers (name : String) : g'.HasQuantizer name → g.HasQuantizer name

namespace Maintains

theorem refl (h : g.Regular) : Maintains g g where
  regular := h
  size := Nat.le_refl _
  old _ f _ hf := ⟨f, hf, .refl f⟩
  interface _ _ hf _ := isLive_iff_face.mpr ⟨_, hf⟩
  name _ _ _ := rfl
  quantizers _ h := h

theorem isLive (h : Maintains g g') {v : NodeId} (hv : v < g.nodes.size)
    (hlive : g'.isLive v = true) : g.isLive v = true := by
  obtain ⟨f', hf'⟩ := isLive_iff_face.mp hlive
  obtain ⟨f, hf, -⟩ := h.old v f' hv hf'
  exact isLive_iff_face.mpr ⟨_, hf⟩

theorem trans {g₁ g₂ g₃ : Graph α} (h : Maintains g₁ g₂) (h' : Maintains g₂ g₃) :
    Maintains g₁ g₃ where
  regular := h'.regular
  size := Nat.le_trans h.size h'.size
  old v f₃ hv hf₃ := by
    obtain ⟨f₂, hf₂, halike'⟩ := h'.old v f₃ (Nat.lt_of_lt_of_le hv h.size) hf₃
    obtain ⟨f₁, hf₁, halike⟩ := h.old v f₂ hv hf₂
    exact ⟨f₁, hf₁, halike.trans halike'⟩
  interface v f hf hk := by
    obtain ⟨f₂, hf₂⟩ := isLive_iff_face.mp (h.interface v f hf hk)
    obtain ⟨f₁, hf₁, halike⟩ := h.old v f₂ (lt_size_of_face? hf) hf₂
    obtain rfl : f = f₁ := Option.some.inj (hf.symm.trans hf₁)
    exact h'.interface v f₂ hf₂ (halike.kind ▸ hk)
  name v hv hlive := by
    have hv' := Nat.lt_of_lt_of_le hv h.size
    rw [h'.name v hv' hlive, h.name v hv (h'.isLive hv' hlive)]
  quantizers name hname := h.quantizers name (h'.quantizers name hname)

theorem of_attributes (h : g.Regular) (s : AttributeStore α) :
    Maintains g { g with attributes := s } where
  regular := ⟨h.wellFormed.of_attributes s, h.acyclic, h.outputs⟩
  size := Nat.le_refl _
  old _ f _ hf := ⟨f, hf, .refl f⟩
  interface _ f hf _ := isLive_iff_face.mpr ⟨f, hf⟩
  name _ _ _ := rfl
  quantizers _ h := h

end Maintains

theorem Reworked.regular {rank : NodeId → Nat} {start top : Nat} {fresh : NodeId → OpKind → Prop}
    (h : Reworked rank start top fresh g g') (hg : g.Regular) : g'.Regular := by
  refine ⟨h.wellFormed, ⟨rank, h.ranked⟩, fun v f' hf' hkind => ?_⟩
  rcases Nat.lt_or_ge v g.nodes.size with hlt | hge
  · obtain ⟨f, hf, halike, -⟩ := h.old v f' hlt hf'
    rw [halike.ports]
    exact hg.outputs v f hf (halike.kind ▸ hkind)
  · exact (h.new v f' hge hf').2

theorem Reworked.maintains {rank : NodeId → Nat} {start top : Nat}
    {fresh : NodeId → OpKind → Prop} (h : Reworked rank start top fresh g g') (hg : g.Regular)
    (hstart : g.nodes.size ≤ start)
    (hnew : ∀ v name, fresh v .fakeQuantize → g'.name? v = some name → g.HasQuantizer name) :
    Maintains g g' where
  regular := h.regular hg
  size := h.size
  old v f' hv hf' := by
    obtain ⟨f, hf, halike, -⟩ := h.old v f' hv hf'
    exact ⟨f, hf, halike⟩
  interface v f hf hk := isLive_eq_face g' v ▸ h.interface v f hf hk
  name v hv hlive := h.name v hv (Nat.lt_of_lt_of_le hv hstart) hlive
  quantizers := by
    rintro name ⟨v, f', hf', hkind, hname⟩
    rcases Nat.lt_or_ge v g.nodes.size with hlt | hge
    · obtain ⟨f, hf, halike, -⟩ := h.old v f' hlt hf'
      have hlive : g'.isLive v = true := isLive_iff_face.mpr ⟨_, hf'⟩
      refine ⟨v, f, hf, halike.kind ▸ hkind, ?_⟩
      rw [← h.name v hlt (Nat.lt_of_lt_of_le hlt hstart) hlive, hname]
    · exact hnew v name (hkind ▸ (h.new v f' hge hf').1) hname

theorem IsStep.not_quantizer : ¬ IsStep .fakeQuantize := by simp [IsStep]

theorem insert_maintains [Arithmetic α] (hg : g.Regular) {source : Slot} {p : Port}
    (hp : g.port? source = some p) {slots : List Slot}
    (hslots : ∀ r ∈ slots, r ∈ g.readers source) (params : AffineParams α) (base : String) :
    ∃ d g', exec (Dequantization.insert source slots params base) g = .ok (.ok d, g') ∧
      Maintains g g' ∧ ∀ v f, g.face? v = some f → ∃ f', g'.face? v = some f' ∧ f'.ports = f.ports := by
  obtain ⟨rank, hr⟩ := hg.acyclic
  have hsome : ∀ r ∈ slots, (g.input? r.node r.index).isSome := by
    intro r hrs
    rw [hg.wellFormed.mem_readers.mp (hslots r hrs)]
    rfl
  obtain ⟨d, mid, g', hexec, hins⟩ := Dequantization.insert_ok hg.wellFormed hp hsome params base
  have hreworked := reworked_of_readers hg.wellFormed hr hslots hins
  refine ⟨d, g', hexec, hreworked.maintains hg (Nat.le_refl _)
    fun _ _ hk => absurd hk IsStep.not_quantizer, fun v f hf => ⟨f.redirect v slots d.output, ?_, rfl⟩⟩
  rw [hins.face_old (lt_size_of_face? hf), hf, Option.map_some]

end Graph

end LowPrecision
