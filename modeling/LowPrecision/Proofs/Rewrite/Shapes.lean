import LowPrecision.Proofs.Rewrite.TracedChains

namespace LowPrecision

variable {α : Type} {g₀ g g' : Graph α} {v : NodeId} {s s' : Slot} {f f' : Face α}
  {pending pending' : Slot → Prop}

def OpKind.ReadsShape (k : OpKind) : Prop := k = .result ∨ k = .fakeQuantize

instance (k : OpKind) : Decidable k.ReadsShape := inferInstanceAs (Decidable (_ ∨ _))

namespace Graph

structure ShapedAt (g : Graph α) (f : Face α) : Prop where
  constant (t : Tensor α) (p : Port) : f.op = .constant t → p ∈ f.ports → p.shape = some t.shape
  quantized (s : Slot) (t : Tensor α) (p : Port) : f.kind = .fakeQuantize → f.inputs[0]? = some s →
    g.constant? s = some t → p ∈ f.ports → p.shape = some t.shape

theorem ShapedAt.of_kind {k : OpKind} (hk : f.kind = k) (hconstant : k ≠ .constant)
    (hquantizer : k ≠ .fakeQuantize) : g.ShapedAt f where
  constant _ _ hop _ := absurd (hk.symm.trans (congrArg Op.kind hop)) hconstant
  quantized _ _ _ hkind _ _ _ := absurd (hk.symm.trans hkind) hquantizer

theorem ShapedAt.of_constant {t : Tensor α} {type : ElementType} :
    g.ShapedAt ⟨.constant t, [], [⟨type, some t.shape⟩], none⟩ where
  constant t' p hop hp := by
    cases hop
    rw [List.mem_singleton.mp hp]
  quantized _ _ _ hkind := by cases hkind

def WellShaped (g : Graph α) : Prop := ∀ v f, g.face? v = some f → g.ShapedAt f

structure Stands (g : Graph α) (s s' : Slot) : Prop where
  constant (t : Tensor α) : g.constant? s' = some t → ∃ t₀, g.constant? s = some t₀ ∧ t₀.shape = t.shape
  shape (p p' : Port) : g.port? s = some p → g.port? s' = some p' → p'.shape = p.shape

theorem Stands.of_kind {k : OpKind} (hk : g.kind? s'.node = some k) (hconstant : k ≠ .constant)
    (hshape : ∀ p p', g.port? s = some p → g.port? s' = some p' → p'.shape = p.shape) : g.Stands s s' where
  constant t ht := by
    have hkind := kind_of_constant (g := g) (s := s') (by rw [ht]; rfl)
    exact absurd (Option.some.inj (hk.symm.trans hkind)) hconstant
  shape := hshape

structure Conforms (g g' : Graph α) : Prop where
  wellFormed : g'.WellFormed
  size : g.nodes.size ≤ g'.nodes.size
  old (v : NodeId) (f' : Face α) : v < g.nodes.size → g'.face? v = some f' →
    ∃ f, g.face? v = some f ∧ f'.op = f.op ∧ f'.ports.map Port.shape = f.ports.map Port.shape ∧
      (f.kind.ReadsShape → List.Forall₂
        (fun s s' => s' = s ∨ s'.node < g.nodes.size ∧ g.Stands s s') f.inputs f'.inputs)
  new (v : NodeId) (f : Face α) : g.nodes.size ≤ v → g'.face? v = some f →
    f.kind ≠ .result ∧ g'.ShapedAt f

namespace Conforms

theorem port (h : Conforms g g') (hs : s.node < g.nodes.size) {p' : Port}
    (hp : g'.port? s = some p') : ∃ p, g.port? s = some p ∧ p'.shape = p.shape := by
  rw [port?_eq_face] at hp ⊢
  obtain ⟨f', hf', hp⟩ := Option.bind_eq_some_iff.mp hp
  obtain ⟨f, hf, -, hshapes, -⟩ := h.old _ f' hs hf'
  have hshape : (f.ports.map Port.shape)[s.index]? = some p'.shape := by
    rw [← hshapes, List.getElem?_map, hp, Option.map_some]
  rw [List.getElem?_map] at hshape
  obtain ⟨p, hp, hsame⟩ := Option.map_eq_some_iff.mp hshape
  exact ⟨p, by rw [hf, Option.bind_some, hp], hsame.symm⟩

theorem input (h : Conforms g g') (hg : g.WellFormed) (hf : g.face? v = some f)
    (hreads : f.kind.ReadsShape) {i : Nat} (hi : g'.input? v i = some s') :
    ∃ s p p', g.input? v i = some s ∧ g.port? s = some p ∧ g'.port? s' = some p' ∧
      p'.shape = p.shape ∧ s'.node < g.nodes.size ∧ (s' = s ∨ g.Stands s s') := by
  have hi' := hi
  rw [input?_eq_face] at hi
  obtain ⟨k', hk', hs'⟩ := Option.bind_eq_some_iff.mp hi
  obtain ⟨k, hk, -, -, hinputs⟩ := h.old v k' (lt_size_of_face? hf) hk'
  cases hf.symm.trans hk
  obtain ⟨s, hs, hstands⟩ := forall₂_getElem? (hinputs hreads).flip hs'
  have hread : g.input? v i = some s := by rw [input?_eq_face, hf]; exact hs
  obtain ⟨p, hp⟩ := hg.exists_port hread
  obtain ⟨p', hp'⟩ := h.wellFormed.exists_port hi'
  rcases hstands with rfl | ⟨hlt, hstands⟩
  · obtain ⟨q, hq, hsame⟩ := h.port (lt_size_of_port hp) hp'
    cases hp.symm.trans hq
    exact ⟨s', p, p', hread, hp, hp', hsame, lt_size_of_port hp, .inl rfl⟩
  · obtain ⟨q, hq, hsame⟩ := h.port hlt hp'
    exact ⟨s, p, p', hread, hp, hp', hsame.trans (hstands.shape p q hp hq), hlt, .inr hstands⟩

theorem kind (h : Conforms g g') (hv : v < g.nodes.size) {k : OpKind} (hk : g'.kind? v = some k) :
    g.kind? v = some k := by
  obtain ⟨f', hf', rfl⟩ := face_of_kind hk
  obtain ⟨f, hf, hop, -⟩ := h.old v f' hv hf'
  rw [kind?_eq_face, hf, Option.map_some, Face.kind, Face.kind, hop]

theorem constant (h : Conforms g g') (hs : s.node < g.nodes.size) {t : Tensor α}
    (ht : g'.constant? s = some t) : g.constant? s = some t := by
  rw [constant?_eq_face] at ht ⊢
  obtain ⟨f', hf', ht⟩ := Option.bind_eq_some_iff.mp ht
  obtain ⟨f, hf, hop, -⟩ := h.old _ f' hs hf'
  rw [hf, Option.bind_some, ← hop]
  exact ht

theorem wellShaped (h : Conforms g g') (hg : g.WellFormed) (hshaped : g.WellShaped) :
    g'.WellShaped := by
  intro v f' hf'
  rcases Nat.lt_or_ge v g.nodes.size with hlt | hge
  rotate_left
  · exact (h.new v f' hge hf').2
  obtain ⟨f, hf, hop, hshapes, -⟩ := h.old v f' hlt hf'
  have hport : ∀ p' ∈ f'.ports, ∃ p ∈ f.ports, p.shape = p'.shape := fun p' hp' =>
    List.mem_map.mp (hshapes ▸ List.mem_map_of_mem hp')
  refine ⟨fun t p' hconstant hp' => ?_, fun s' t p' hkind' hs' ht hp' => ?_⟩
  · obtain ⟨p, hp, hshape⟩ := hport p' hp'
    rw [← hshape]
    exact (hshaped v f hf).constant t p (hop ▸ hconstant) hp
  · have hkind : f.kind = .fakeQuantize := (congrArg Op.kind hop).symm.trans hkind'
    have hread : g'.input? v 0 = some s' := by rw [input?_eq_face, hf']; exact hs'
    obtain ⟨s, -, -, hs, -, -, -, hlt', hstands⟩ := h.input hg hf (.inr hkind) hread
    rw [input?_eq_face, hf] at hs
    have hold := h.constant hlt' ht
    obtain ⟨t₀, ht₀, hsame⟩ : ∃ t₀, g.constant? s = some t₀ ∧ t₀.shape = t.shape := by
      rcases hstands with rfl | hstands
      · exact ⟨t, hold, rfl⟩
      · exact hstands.constant t hold
    obtain ⟨p, hp, hshape⟩ := hport p' hp'
    rw [← hshape, (hshaped v f hf).quantized s t₀ p hkind hs ht₀ hp, hsame]

end Conforms

theorem single_port {i : Nat} {p q : Port} (hf : g.face? v = some f) (hports : f.ports = [q])
    (hp : g.port? ⟨v, i⟩ = some p) : i = 0 ∧ p = q := by
  rw [port?_eq_face, hf, Option.bind_some, hports] at hp
  cases i with
  | zero => exact ⟨rfl, (Option.some.inj hp).symm⟩
  | succ i => cases hp

/-- A graph that came out of another one. Each result reads outputs of the shapes that it read there, and
of the types or of type f32, save for outputs with the property. -/
structure Delivers (g₀ : Graph α) (pending : Slot → Prop) (g : Graph α) : Prop where
  wellFormed : g.WellFormed
  shaped : g.WellShaped
  size : g₀.nodes.size ≤ g.nodes.size
  reads (v : NodeId) (i : Nat) (s : Slot) : g.kind? v = some .result → g.input? v i = some s →
    ∃ o p q, g₀.kind? v = some .result ∧ g₀.input? v i = some o ∧ g₀.port? o = some p ∧
      g.port? s = some q ∧ q.shape = p.shape ∧
      (q.elementType = p.elementType ∨ q.elementType = .f32 ∨ pending s)

namespace Delivers

theorem refl (hg : g.WellFormed) (hshaped : g.WellShaped) : Delivers g pending g where
  wellFormed := hg
  shaped := hshaped
  size := Nat.le_refl _
  reads v i s hk hi := by
    obtain ⟨p, hp⟩ := hg.exists_port hi
    exact ⟨s, p, p, hk, hi, hp, hp, rfl, .inl rfl⟩

theorem result_old (h : Delivers g₀ pending g) {i : Nat} (hk : g.kind? v = some .result)
    (hi : g.input? v i = some s) : v < g₀.nodes.size := by
  obtain ⟨o, p, q, hk₀, -⟩ := h.reads v i s hk hi
  obtain ⟨f, hf, -⟩ := face_of_kind hk₀
  exact lt_size_of_face? hf

theorem trans {g₁ : Graph α} (h : Delivers g₀ (fun _ => False) g₁)
    (h' : Delivers g₁ pending g) : Delivers g₀ pending g where
  wellFormed := h'.wellFormed
  shaped := h'.shaped
  size := Nat.le_trans h.size h'.size
  reads v i s hk hi := by
    obtain ⟨o₁, p₁, q, hk₁, hi₁, hp₁, hq, hshape, htype⟩ := h'.reads v i s hk hi
    obtain ⟨o, p, q₁, hk₀, hi₀, hp, hq₁, hshape₁, htype₁⟩ := h.reads v i o₁ hk₁ hi₁
    cases hp₁.symm.trans hq₁
    refine ⟨o, p, q, hk₀, hi₀, hp, hq, hshape.trans hshape₁, ?_⟩
    rcases htype with htype | htype
    · rw [htype]
      rcases htype₁ with h | h | h
      · exact .inl h
      · exact .inr (.inl h)
      · exact h.elim
    · exact .inr htype

theorem imp (h : Delivers g₀ pending g)
    (himp : ∀ v i s, g.kind? v = some .result → g.input? v i = some s → pending s → pending' s) :
    Delivers g₀ pending' g where
  wellFormed := h.wellFormed
  shaped := h.shaped
  size := h.size
  reads v i s hk hi := by
    obtain ⟨o, p, q, hk₀, hi₀, hp, hq, hshape, htype⟩ := h.reads v i s hk hi
    exact ⟨o, p, q, hk₀, hi₀, hp, hq, hshape, htype.imp_right (.imp_right (himp v i s hk hi))⟩

theorem step (h : Delivers g₀ pending g) (hc : Conforms g g')
    (htype : ∀ v i s s' p p', g.kind? v = some .result → g.input? v i = some s →
      g'.input? v i = some s' → g.port? s = some p → g'.port? s' = some p' →
      p'.elementType = p.elementType ∧ (pending s → pending' s') ∨ p'.elementType = .f32 ∨
        pending' s') : Delivers g₀ pending' g' where
  wellFormed := hc.wellFormed
  shaped := hc.wellShaped h.wellFormed h.shaped
  size := Nat.le_trans h.size hc.size
  reads v i s' hk hi := by
    obtain ⟨f', hf', hkind⟩ := face_of_kind hk
    have hlt : v < g.nodes.size :=
      Nat.lt_of_not_le fun hge => (hc.new v f' hge hf').1 hkind
    have hk₁ := hc.kind hlt hk
    obtain ⟨f, hf, hresult⟩ := face_of_kind hk₁
    obtain ⟨s, q, q', hs, hq, hq', hsame, -⟩ :=
      hc.input h.wellFormed hf (by rw [hresult]; decide) hi
    obtain ⟨o, p, r, hk₀, hi₀, hp, hr, hshape, hread⟩ := h.reads v i s hk₁ hs
    cases hq.symm.trans hr
    refine ⟨o, p, q', hk₀, hi₀, hp, hq', hsame.trans hshape, ?_⟩
    rcases htype v i s s' q q' hk₁ hs hi hq hq' with ⟨htype, hpending⟩ | htype
    · rw [htype]
      exact hread.imp_right (.imp_right hpending)
    · exact .inr htype

end Delivers

section Changes

theorem conforms_of_extends {p : Slot → Prop} (h : Extends g g' p)
    (hnew : ∀ v f, g.nodes.size ≤ v → g'.face? v = some f → f.kind ≠ .result ∧ g'.ShapedAt f) :
    Conforms g g' where
  wellFormed := h.wellFormed
  size := h.size
  old v f hv hf := ⟨f, h.old v hv ▸ hf, rfl, rfl, fun _ => List.forall₂_same.mpr fun _ _ => .inl rfl⟩
  new := hnew

theorem conforms_of_rerouted {move : Slot → Slot → Prop} (h : Rerouted move g g')
    (hsize : g'.nodes.size = g.nodes.size)
    (hmove : ∀ s s' p', move s s' → g.port? s' = some p' → g.Stands s s') : Conforms g g' where
  wellFormed := h.wellFormed
  size := h.size
  old v f' hv hf' := by
    obtain ⟨f, hf, hsame⟩ := h.face v f' hv hf'
    refine ⟨f, hf, hsame.op, by rw [hsame.ports], fun _ => List.forall₂_iff_zip.mpr
      ⟨hsame.inputs.length_eq, fun {s s'} hmem => ?_⟩⟩
    refine ((List.forall₂_iff_zip.mp hsame.inputs).2 hmem).imp_right fun hmoved => ?_
    obtain ⟨i, hi⟩ := List.mem_iff_getElem?.mp (List.of_mem_zip hmem).2
    have hread : g'.input? v i = some s' := by rw [input?_eq_face, hf']; exact hi
    obtain ⟨p', hp'⟩ := h.wellFormed.exists_port hread
    have hlt : s'.node < g.nodes.size := hsize ▸ lt_size_of_port hp'
    exact ⟨hlt, hmove s s' p' hmoved (h.port hlt hp')⟩
  new v f hv hf := absurd (lt_size_of_face? hf) (Nat.not_lt.mpr (hsize ▸ hv))

theorem Recast.port_of_ne {type : ElementType} {t : Slot}
    (h : Recast g g' fun v f => if v = s.node then f.retype s.index type else f) (ht : t ≠ s) :
    g'.port? t = g.port? t := by
  rw [port?_eq_face, port?_eq_face, h.face]
  cases g.face? t.node with
  | none => rfl
  | some f =>
    rw [Option.map_some, Option.bind_some, Option.bind_some]
    split
    · next hnode =>
      have hindex : s.index ≠ t.index := fun hindex => ht (by cases t; cases s; simp_all)
      simp [Face.retype, hindex]
    · rfl

theorem conforms_of_recast {change : NodeId → Face α → Face α} (h : Recast g g' change)
    (hchange : ∀ v f, g.face? v = some f → (change v f).op = f.op ∧
      (change v f).ports.map Port.shape = f.ports.map Port.shape ∧
      (f.kind.ReadsShape → (change v f).inputs = f.inputs)) : Conforms g g' where
  wellFormed := h.wellFormed
  size := Nat.le_of_eq h.size.symm
  old v f' _ hf' := by
    rw [h.face] at hf'
    obtain ⟨f, hf, rfl⟩ := Option.map_eq_some_iff.mp hf'
    obtain ⟨hop, hshapes, hinputs⟩ := hchange v f hf
    exact ⟨f, hf, hop, hshapes, fun hreads => (hinputs hreads).symm ▸
      List.forall₂_same.mpr fun _ _ => .inl rfl⟩
  new v f hv hf := absurd (lt_size_of_face? hf) (Nat.not_lt.mpr (h.size ▸ hv))

end Changes

namespace Delivers

theorem extended {p : Slot → Prop} (h : Delivers g₀ pending g) (he : Extends g g' p)
    (hnew : ∀ v f, g.nodes.size ≤ v → g'.face? v = some f → f.kind ≠ .result ∧ g'.ShapedAt f) :
    Delivers g₀ pending g' := by
  refine h.step (conforms_of_extends he hnew) fun v i s s' p p' _ hs hs' hp hp' => .inl ?_
  cases (he.input hs).symm.trans hs'
  cases (he.port hp).symm.trans hp'
  exact ⟨rfl, id⟩

theorem added (h : Delivers g₀ pending g) (ha : Added g g' f) (hread : ∀ s ∈ f.inputs, (g.port? s).isSome)
    (hkind : f.kind ≠ .result) (hf : g'.ShapedAt f) : Delivers g₀ pending g' := by
  refine h.extended (ha.extends (p := fun _ => True) (fun _ _ => trivial) hread) fun v k hv hk => ?_
  obtain ⟨-, rfl⟩ := ha.eq_new hv hk
  exact ⟨hkind, hf⟩

theorem rerouted {move : Slot → Slot → Prop} (h : Delivers g₀ pending g) (hr : Rerouted move g g')
    (hsize : g'.nodes.size = g.nodes.size)
    (hmove : ∀ s s' p', move s s' → g.port? s' = some p' → g.Stands s s')
    (htype : ∀ v i s s' p p', g.kind? v = some .result → g.input? v i = some s → move s s' →
      g.port? s = some p → g.port? s' = some p' →
      p'.elementType = p.elementType ∧ (pending s → pending' s') ∨ p'.elementType = .f32 ∨ pending' s')
    (himp : ∀ s, pending s → pending' s) : Delivers g₀ pending' g' := by
  refine h.step (conforms_of_rerouted hr hsize hmove) fun v i s s' p p' hk hs hs' hp hp' => ?_
  have hlt : s'.node < g.nodes.size := hsize ▸ lt_size_of_port hp'
  have hport := hr.port hlt hp'
  obtain ⟨f', hf', hi'⟩ := Option.bind_eq_some_iff.mp (input?_eq_face g' v i ▸ hs')
  obtain ⟨f, hf, hsame⟩ := hr.face v f' (hsize ▸ lt_size_of_face? hf') hf'
  obtain ⟨t, ht, hmoved⟩ := hsame.input hi'
  have hread : g.input? v i = some t := by rw [input?_eq_face, hf]; exact ht
  cases hs.symm.trans hread
  rcases hmoved with rfl | hmoved
  · cases hp.symm.trans hport
    exact .inl ⟨rfl, himp _⟩
  · exact htype v i s s' p p' hk hs hmoved hp hport

theorem relaxed {id : NodeId} {types : RelaxedTypes} (h : Delivers g₀ pending g)
    (hr : Recast g g' fun v f => if v = id then f.relax types else f) : Delivers g₀ pending g' := by
  have hsame : ∀ v (f : Face α), (if v = id then f.relax types else f).op = f.op ∧
      (if v = id then f.relax types else f).ports = f.ports ∧
      (if v = id then f.relax types else f).inputs = f.inputs := by
    intro v f
    split <;> exact ⟨rfl, rfl, rfl⟩
  refine h.step (conforms_of_recast hr fun v f _ => ⟨(hsame v f).1, by rw [(hsame v f).2.1],
    fun _ => (hsame v f).2.2⟩) fun v i s s' p p' _ hs hs' hp hp' => .inl ?_
  rw [hr.input fun v f => (hsame v f).2.2, hs] at hs'
  cases hs'
  rw [hr.port fun v f => (hsame v f).2.1, hp] at hp'
  cases hp'
  exact ⟨rfl, fun h => h⟩

theorem retyped {type : ElementType} (h : Delivers g₀ pending g)
    (hr : Recast g g' fun v f => if v = s.node then f.retype s.index type else f)
    (himp : ∀ t, pending t → pending' t) (hs : pending' s) : Delivers g₀ pending' g' := by
  have hinputs : ∀ v (f : Face α),
      (if v = s.node then f.retype s.index type else f).inputs = f.inputs := by
    intro v f
    split <;> rfl
  refine h.step (conforms_of_recast hr fun v f _ => ⟨?_, ?_, fun _ => hinputs v f⟩)
    fun v i t t' p p' _ ht ht' hp hp' => ?_
  · split <;> rfl
  · split
    · refine List.ext_getElem? fun i => ?_
      rw [List.getElem?_map, List.getElem?_map, Face.retype, List.getElem?_modify]
      cases f.ports[i]? with
      | none => rfl
      | some p => by_cases hi : s.index = i <;> simp [hi, Port.withType]
    · rfl
  · rw [hr.input hinputs, ht] at ht'
    cases ht'
    by_cases hts : t = s
    · exact .inr (.inr (hts ▸ hs))
    · rw [hr.port_of_ne hts, hp] at hp'
      cases hp'
      exact .inl ⟨rfl, himp t⟩

theorem replaced {old new : NodeId} (h : Delivers g₀ pending g)
    (hrun : exec (replaceNode old new : Edit α GraphError Unit) g = .ok (.ok (), g'))
    (hstands : ∀ i p', g.port? ⟨new, i⟩ = some p' → g.Stands ⟨old, i⟩ ⟨new, i⟩)
    (htype : ∀ v i j p p', g.kind? v = some .result → g.input? v i = some ⟨old, j⟩ →
      g.port? ⟨old, j⟩ = some p → g.port? ⟨new, j⟩ = some p' →
      p'.elementType = p.elementType ∧ (pending ⟨old, j⟩ → pending' ⟨new, j⟩) ∨
        p'.elementType = .f32 ∨ pending' ⟨new, j⟩)
    (himp : ∀ t, pending t → pending' t) : Delivers g₀ pending' g' := by
  obtain ⟨-, hrerouted, hsize, -⟩ := replaceNode_rerouted h.wellFormed hrun
  refine h.rerouted hrerouted hsize ?_ ?_ himp
  · rintro ⟨_, i⟩ _ p' ⟨rfl, rfl⟩ hp'
    exact hstands i p' hp'
  · rintro v i ⟨_, j⟩ _ p p' hk hi ⟨rfl, rfl⟩ hp hp'
    exact htype v i j p p' hk hi hp hp'

theorem replaced_single {old new : NodeId} {q : Port} (h : Delivers g₀ pending g)
    (hrun : exec (replaceNode old new : Edit α GraphError Unit) g = .ok (.ok (), g'))
    (hf : g.face? new = some f) (hports : f.ports = [q])
    (hstands : g.Stands ⟨old, 0⟩ ⟨new, 0⟩)
    (htype : ∀ v i p, g.kind? v = some .result → g.input? v i = some ⟨old, 0⟩ →
      g.port? ⟨old, 0⟩ = some p → q.elementType = p.elementType ∧
        (pending ⟨old, 0⟩ → pending' ⟨new, 0⟩) ∨ q.elementType = .f32 ∨ pending' ⟨new, 0⟩)
    (himp : ∀ t, pending t → pending' t) : Delivers g₀ pending' g' := by
  refine h.replaced hrun (fun i p' hp' => ?_) (fun v i j p p' hk hi hp hp' => ?_) himp
  · obtain ⟨rfl, -⟩ := single_port hf hports hp'
    exact hstands
  · obtain ⟨rfl, rfl⟩ := single_port hf hports hp'
    exact htype v i p hk hi hp

theorem redirected {id : NodeId} {index : Nat} {source : Slot} (h : Delivers g₀ pending g)
    (hr : Recast g g' fun v f => f.redirect v [⟨id, index⟩] source)
    (hreads : ∀ f, g.face? id = some f → ¬ f.kind.ReadsShape) : Delivers g₀ pending g' := by
  have hsame : ∀ v f, g.face? v = some f → f.kind.ReadsShape →
      f.redirect v [⟨id, index⟩] source = f := by
    intro v f hf hkind
    refine Face.redirect_of_not_mem fun i hi => ?_
    cases List.mem_singleton.mp hi
    exact hreads f hf hkind
  refine h.step (conforms_of_recast hr fun v f hf => ⟨rfl, rfl, fun hkind => by rw [hsame v f hf hkind]⟩)
    fun v i s s' p p' hk hs hs' hp hp' => .inl ?_
  obtain ⟨f, hf, hkind⟩ := face_of_kind hk
  rw [input?_eq_face, hr.face, hf, Option.map_some, Option.bind_some,
    hsame v f hf (by rw [hkind]; decide)] at hs'
  rw [input?_eq_face, hf, Option.bind_some] at hs
  cases hs.symm.trans hs'
  rw [hr.port fun _ _ => rfl, hp] at hp'
  cases hp'
  exact ⟨rfl, fun h => h⟩

theorem of_faces (h : Delivers g₀ pending g) (hwf : g'.WellFormed)
    (hsize : g'.nodes.size = g.nodes.size) (hface : ∀ v, g'.face? v = g.face? v) :
    Delivers g₀ pending g' :=
  have hr : Rerouted (fun _ _ => False) g g' :=
    ⟨hwf, Nat.le_of_eq hsize.symm, fun v f' _ hf' => ⟨f', hface v ▸ hf', .refl f'⟩⟩
  h.rerouted hr hsize (fun _ _ _ h => h.elim) (fun _ _ _ _ _ _ _ _ h => h.elim) fun _ h => h

theorem removed (h : Delivers g₀ pending g) (stack : List NodeId) :
    Delivers g₀ pending (g.removeDead stack) := by
  have hpruned := h.wellFormed.pruned stack
  have hr : Rerouted (fun _ _ => False) g (g.removeDead stack) := hpruned.rerouted
  exact h.rerouted hr hpruned.size (fun _ _ _ h => h.elim) (fun _ _ _ _ _ _ _ _ h => h.elim) fun _ h => h

end Delivers

def Hidden (g : Graph α) (s : Slot) : Prop :=
  ∀ v i, g.kind? v = some .result → g.input? v i ≠ some s

theorem Delivers.settled (h : Delivers g₀ (fun t => pending t ∨ t = s) g) (hs : g.Hidden s) :
    Delivers g₀ pending g :=
  h.imp fun v i _ hk hi ht => ht.resolve_right fun he => hs v i hk (he ▸ hi)

end Graph

section Chains

open LowPrecision.Graph

namespace Edit

theorem delivers_addNode {base : String} {op : Op α} {inputs : List Slot} {outputs : List Port}
    (hkind : op.kind ≠ .result) (h : ∀ g : Graph α, g.ShapedAt ⟨op, inputs, outputs, none⟩) :
    Ensures (Delivers g₀ pending)
      (fun id g => Delivers g₀ pending g ∧ g.face? id = some ⟨op, inputs, outputs, none⟩) Fatal
      (addNode base op inputs outputs) := by
  intro g r g' hg hrun
  have hfatal : Ensures (fun _ => True) (fun _ _ => True) Fatal (addNode base op inputs outputs) :=
    ensures_ofGraph fun _ _ _ _ _ => ⟨fun _ _ => trivial, fun _ _ => trivial⟩
  refine ⟨fun id hid => ?_, (hfatal g r g' trivial hrun).2⟩
  subst hid
  obtain ⟨rfl, hread, hadded⟩ := addNode_done hg.wellFormed hrun
  exact ⟨hg.added hadded hread hkind (h g'), hadded.new⟩

theorem delivers_addConstant (base : String) (value : Tensor α) (type : ElementType) :
    Ensures (Delivers g₀ pending) (fun _ => Delivers g₀ pending) Fatal (addConstant base value type) :=
  Ensures.map ((delivers_addNode (by simp [Op.kind]) fun _ => .of_constant).weaken (fun _ h => h)
    fun _ _ h => h.1)

end Edit

namespace Dequantization

open Edit

variable [Arithmetic α] {source current old : Slot} {slots : List Slot} {params : AffineParams α}
  {base : String} {d : Dequantization α} {port q : Port}

omit [Arithmetic α] in
theorem delivers_addStep {base : String} {op : Op α} {inputs : List Slot} {outputs : List Port}
    (hop : op.kind = .convert ∨ op.kind = .subtract ∨ op.kind = .multiply) :
    Ensures (Delivers g₀ pending)
      (fun id g => Delivers g₀ pending g ∧ g.face? id = some ⟨op, inputs, outputs, none⟩) Fatal
      (addNode base op inputs outputs) := by
  refine delivers_addNode ?_ fun g => ?_
  · rcases hop with h | h | h <;> simp [h]
  · refine .of_kind (k := op.kind) rfl ?_ ?_ <;> rcases hop with h | h | h <;> simp [h]

omit [Arithmetic α] in
theorem delivers_addConvert (source : Slot) (port : Port) (base : String) :
    Ensures (Delivers g₀ pending) (fun _ => Delivers g₀ pending) Fatal
      (addConvert (α := α) source port base) := by
  rw [addConvert]
  split
  · exact .pure fun _ h => h
  · exact .map ((delivers_addStep (.inl rfl)).weaken (fun _ h => h) fun _ _ h => h.1)

theorem delivers_addZeroPoint (base : String) (zeroPoint : Tensor α) (type : ElementType) :
    Ensures (Delivers g₀ pending) (fun _ => Delivers g₀ pending) Fatal
      (addZeroPoint base zeroPoint type) := by
  rw [addZeroPoint]
  split
  · apply (delivers_addConstant _ _ _).bind
    intro constant
    apply (delivers_addStep (.inl rfl)).bind
    intro id
    exact .pure fun _ h => h.1
  · exact delivers_addConstant _ _ _

theorem delivers_addSubtract (current : Slot) (port : Port) (zeroPoint : Option (Tensor α))
    (base : String) :
    Ensures (Delivers g₀ pending) (fun _ => Delivers g₀ pending) Fatal
      (addSubtract current port zeroPoint base) := by
  cases zeroPoint with
  | none => exact .pure fun _ h => h
  | some zeroPoint =>
    apply (delivers_addZeroPoint base zeroPoint port.elementType).bind
    intro constant
    apply (delivers_addStep (.inr (.inl rfl))).bind
    intro id
    exact .pure fun _ h => h.1

omit [Arithmetic α] in
theorem delivers_addMultiply (current : Slot) (port : Port) (scale : Tensor α) (base : String) :
    Ensures (Delivers g₀ pending) (fun m g => Delivers g₀ pending g ∧
      g.port? ⟨m.1, 0⟩ = some (port.withType .f32) ∧ g.kind? m.1 = some .multiply) Fatal
      (addMultiply current port scale base) := by
  apply (delivers_addConstant _ _ _).bind
  intro constant
  refine (delivers_addStep (.inr (.inr rfl))).bind fun id => .pure fun g ⟨h, hface⟩ => ?_
  refine ⟨h, port?_new hface, ?_⟩
  rw [kind?_eq_face, hface]
  rfl

theorem delivers_build (hp : g.port? source = some port) (h : Delivers g₀ pending g)
    (hrun : exec (build source params base) g = .ok (.ok d, g')) :
    Delivers g₀ pending g' ∧ g'.port? d.output = some (port.withType .f32) ∧
      g'.kind? d.output.node = some .multiply := by
  have hbuild : Ensures (fun g => Delivers g₀ pending g ∧ g.port? source = some port)
      (fun d g => Delivers g₀ pending g ∧ g.port? d.output = some (port.withType .f32) ∧
        g.kind? d.output.node = some .multiply) Fatal (build source params base) := by
    rw [build]
    refine ((Edit.ensures_port source).weaken (fun _ h => h) ?_ : Ensures _ (fun p g =>
      Delivers g₀ pending g ∧ p = port) _ _).bind fun p => .of_fact ?_
    · exact fun p g hg => ⟨hg.1.1, Option.some.inj (hg.2.symm.trans hg.1.2)⟩
    rintro rfl
    apply (delivers_addConvert source p base).bind
    intro convert
    apply (delivers_addSubtract _ p params.zeroPoint base).bind
    intro subtract
    apply (delivers_addMultiply _ p params.scale base).bind
    intro multiply
    refine .pure fun g hg => ?_
    rw [output_of_multiply (d := ⟨source, convert, subtract, some multiply⟩) rfl]
    exact hg
  exact (hbuild g _ g' ⟨h, hp⟩ hrun).1 d rfl

theorem delivers_insert (hp : g.port? source = some port) (h : Delivers g₀ pending g)
    (hslots : ∀ r ∈ slots, g.input? r.node r.index = some old) (hq : g.port? old = some q)
    (hshape : port.shape = q.shape)
    (hrun : exec (insert source slots params base) g = .ok (.ok d, g')) :
    Delivers g₀ pending g' ∧
      ((∀ v i, g.kind? v = some .result → g.input? v i = some old → (⟨v, i⟩ : Slot) ∈ slots) →
        g'.Hidden old) ∧ g'.port? d.output = some (port.withType .f32) ∧
      g'.kind? d.output.node = some .multiply ∧ ∃ mid, Inserted g g' source slots params d mid := by
  rw [insert] at hrun
  obtain ⟨chain, mid, hbuild, hrun⟩ := exec_bind_eq_answer.mp hrun
  obtain ⟨⟨⟩, g₁, hrewire, hpure⟩ := exec_bind_eq_answer.mp hrun
  cases hpure
  obtain ⟨hmid, hend, hkind⟩ := delivers_build hp h hbuild
  obtain ⟨-, -, hbuilt⟩ := build_done h.wellFormed hbuild
  have hrecast := rewire_done hbuilt.wellFormed (exec_adapt_eq_ok.mp hrewire)
  have hstands : mid.Stands old d.output := by
    refine .of_kind hkind (by decide) fun p p' hold hnew => ?_
    cases (hbuilt.toExtends.port hq).symm.trans hold
    cases hend.symm.trans hnew
    exact hshape
  refine ⟨?_, fun hall v i hk hi => ?_, by rw [hrecast.port fun _ _ => rfl, hend],
    by rw [hrecast.kind fun _ _ => rfl, hkind], mid, hbuilt, hrecast⟩
  · refine hmid.rerouted (hrecast.rerouted fun r hr => hbuilt.input (hslots r hr)) hrecast.size ?_ ?_
      fun _ h => h
    · rintro _ _ _ ⟨rfl, rfl⟩ -
      exact hstands
    · rintro v i _ _ p p' _ _ ⟨rfl, rfl⟩ _ hp'
      cases hend.symm.trans hp'
      exact .inr (.inl rfl)
  · rw [hrecast.kind fun _ _ => rfl] at hk
    rw [input?_eq_face, hrecast.face, Option.bind_map] at hi
    obtain ⟨f, hf, hi⟩ := Option.bind_eq_some_iff.mp hi
    rw [Function.comp_apply, Face.input_redirect] at hi
    obtain ⟨t, ht, hmoved⟩ := Option.map_eq_some_iff.mp hi
    have hread : mid.input? v i = some t := by rw [input?_eq_face, hf]; exact ht
    have hv : v < g.nodes.size := Nat.lt_of_lt_of_le (hmid.result_old hk hread) h.size
    rw [kind?_eq_face, hbuilt.old v hv, ← kind?_eq_face] at hk
    rw [input?_eq_face, hbuilt.old v hv, ← input?_eq_face] at hread
    split at hmoved
    · have hlt := lt_size_of_port hq
      rw [← hmoved] at hlt
      exact absurd hlt (Nat.not_lt.mpr hbuilt.new)
    · next hnot =>
      subst hmoved
      exact hnot (hall v i hk hread)

theorem delivers_behind (h : Delivers g₀ (fun t => pending t ∨ t = source) g)
    (hslots : ∀ r ∈ slots, g.input? r.node r.index = some source)
    (hall : ∀ v i, g.kind? v = some .result → g.input? v i = some source → (⟨v, i⟩ : Slot) ∈ slots)
    (hrun : exec (insert source slots params base) g = .ok (.ok d, g')) : Delivers g₀ pending g' := by
  obtain ⟨p, _, hp, -⟩ := insert_done h.wellFormed hrun
  obtain ⟨hinserted, hhidden, -, -, -⟩ := delivers_insert hp h hslots hp rfl hrun
  exact hinserted.settled (hhidden hall)

end Dequantization

end Chains

end LowPrecision
