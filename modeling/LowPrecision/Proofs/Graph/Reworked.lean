import LowPrecision.Proofs.Graph.Ranks
import LowPrecision.Proofs.Quantization.Chains

namespace LowPrecision

variable {α : Type}

namespace Face

structure Resembles (f f' : Face α) : Prop where
  op : f'.op = f.op
  inputs : f'.inputs.length = f.inputs.length
  ports : f'.ports.length = f.ports.length
  source : f.inputs = [] → f'.ports = f.ports

namespace Resembles

theorem refl (f : Face α) : Resembles f f := ⟨rfl, rfl, rfl, fun _ => rfl⟩

theorem trans {f₁ f₂ f₃ : Face α} (h : Resembles f₁ f₂) (h' : Resembles f₂ f₃) :
    Resembles f₁ f₃ where
  op := h'.op.trans h.op
  inputs := h'.inputs.trans h.inputs
  ports := h'.ports.trans h.ports
  source hf := by
    have hnil : f₂.inputs = [] := by
      apply List.length_eq_zero_iff.mp
      rw [h.inputs, hf, List.length_nil]
    rw [h'.source hnil, h.source hf]

theorem kind {f f' : Face α} (h : Resembles f f') : f'.kind = f.kind := congrArg Op.kind h.op

theorem redirect (f : Face α) (v : NodeId) (slots : List Slot) (source : Slot) :
    f.Resembles (f.redirect v slots source) := ⟨rfl, length_redirect .., rfl, fun _ => rfl⟩

theorem replace (f : Face α) (v old new : NodeId) : f.Resembles (f.replace v old new) := by
  rw [Face.replace]
  split
  · exact refl f
  · exact ⟨rfl, List.length_map _, rfl, fun _ => rfl⟩

theorem relax (f : Face α) (types : RelaxedTypes) : f.Resembles (f.relax types) :=
  ⟨rfl, rfl, rfl, fun _ => rfl⟩

theorem retype {f : Face α} (h : f.inputs ≠ []) (index : Nat) (type : ElementType) :
    f.Resembles (f.retype index type) :=
  ⟨rfl, rfl, List.length_modify .., fun hf => absurd hf h⟩

end Resembles

end Face

namespace Graph

variable {g g' : Graph α} {rank : NodeId → Nat} {start top : Nat} {fresh : NodeId → OpKind → Prop}

/-- Nodes up to `top` still read what they read before, and new nodes have one port and one of the
given kinds. Names stay below `start`. -/
structure Reworked (rank : NodeId → Nat) (start top : Nat) (fresh : NodeId → OpKind → Prop)
    (g g' : Graph α) : Prop where
  wellFormed : g'.WellFormed
  ranked : g'.Ranked rank
  size : g.nodes.size ≤ g'.nodes.size
  old (v : NodeId) (f' : Face α) : v < g.nodes.size → g'.face? v = some f' →
    ∃ f, g.face? v = some f ∧ f.Resembles f' ∧ (rank v ≤ top → f'.inputs = f.inputs)
  new (v : NodeId) (f : Face α) : g.nodes.size ≤ v → g'.face? v = some f →
    fresh v f.kind ∧ f.ports.length = 1
  interface (v : NodeId) (f : Face α) : g.face? v = some f → f.kind.IsInterface →
    (g'.face? v).isSome
  name (v : NodeId) : v < g.nodes.size → v < start → g'.isLive v = true → g'.name? v = g.name? v

namespace Reworked

theorem refl (h : g.WellFormed) (hr : g.Ranked rank) : Reworked rank start top fresh g g where
  wellFormed := h
  ranked := hr
  size := Nat.le_refl _
  old v f _ hf := ⟨f, hf, .refl f, fun _ => rfl⟩
  new v f hv hf := absurd (lt_size_of_face? hf) (Nat.not_lt.mpr hv)
  interface v f hf _ := by rw [hf]; rfl
  name _ _ _ _ := rfl

theorem trans {g₁ g₂ g₃ : Graph α} (h : Reworked rank start top fresh g₁ g₂)
    (h' : Reworked rank start top fresh g₂ g₃) : Reworked rank start top fresh g₁ g₃ where
  wellFormed := h'.wellFormed
  ranked := h'.ranked
  size := Nat.le_trans h.size h'.size
  old v f₃ hv hf₃ := by
    obtain ⟨f₂, hf₂, halike', hsame'⟩ := h'.old v f₃ (Nat.lt_of_lt_of_le hv h.size) hf₃
    obtain ⟨f₁, hf₁, halike, hsame⟩ := h.old v f₂ hv hf₂
    exact ⟨f₁, hf₁, halike.trans halike', fun hle => (hsame' hle).trans (hsame hle)⟩
  new v f₃ hv hf₃ := by
    rcases Nat.lt_or_ge v g₂.nodes.size with hlt | hge
    · obtain ⟨f₂, hf₂, halike, -⟩ := h'.old v f₃ hlt hf₃
      rw [halike.kind, halike.ports]
      exact h.new v f₂ hv hf₂
    · exact h'.new v f₃ hge hf₃
  interface v f hf hk := by
    obtain ⟨f₂, hf₂⟩ := Option.isSome_iff_exists.mp (h.interface v f hf hk)
    obtain ⟨f₁, hf₁, halike, -⟩ := h.old v f₂ (lt_size_of_face? hf) hf₂
    obtain rfl : f = f₁ := Option.some.inj (hf.symm.trans hf₁)
    exact h'.interface v f₂ hf₂ (halike.kind ▸ hk)
  name v hv hstart hlive := by
    have hv' := Nat.lt_of_lt_of_le hv h.size
    obtain ⟨f₃, hf₃⟩ := isLive_iff_face.mp hlive
    obtain ⟨f₂, hf₂, -⟩ := h'.old v f₃ hv' hf₃
    have hlive₂ : g₂.isLive v = true := isLive_iff_face.mpr ⟨_, hf₂⟩
    rw [h'.name v hv' hstart hlive, h.name v hv hstart hlive₂]

theorem weaken {start' top' : Nat} {fresh' : NodeId → OpKind → Prop}
    (h : Reworked rank start top fresh g g') (hstart : start' ≤ start) (htop : top' ≤ top)
    (hfresh : ∀ v k, fresh v k → fresh' v k) : Reworked rank start' top' fresh' g g' where
  wellFormed := h.wellFormed
  ranked := h.ranked
  size := h.size
  old v f' hv hf' := by
    obtain ⟨f, hf, halike, hsame⟩ := h.old v f' hv hf'
    exact ⟨f, hf, halike, fun hle => hsame (Nat.le_trans hle htop)⟩
  new v f hv hf := (h.new v f hv hf).imp_left (hfresh _ _)
  interface := h.interface
  name v hv hlt hlive := h.name v hv (Nat.lt_of_lt_of_le hlt hstart) hlive

theorem of_extends {p : Slot → Prop} (h : g.Extends g' p) (hr : g'.Ranked rank)
    (hnew : ∀ v f, g.nodes.size ≤ v → g'.face? v = some f → fresh v f.kind ∧ f.ports.length = 1) :
    Reworked rank start top fresh g g' where
  wellFormed := h.wellFormed
  ranked := hr
  size := h.size
  old v f hv hf := ⟨f, h.old v hv ▸ hf, .refl f, fun _ => rfl⟩
  new := hnew
  interface v f hf _ := by rw [h.face hf]; rfl
  name v hv _ _ := h.name v hv

theorem of_recast {change : NodeId → Face α → Face α} (hg : g.WellFormed)
    (h : Recast g g' change) (hr : g'.Ranked rank)
    (hchange : ∀ v f, g.face? v = some f → f.Resembles (change v f) ∧
      (rank v ≤ top → (change v f).inputs = f.inputs)) : Reworked rank start top fresh g g' where
  wellFormed := h.wellFormed
  ranked := hr
  size := Nat.le_of_eq h.size.symm
  old v f' _ hf' := by
    rw [h.face] at hf'
    obtain ⟨f, hf, rfl⟩ := Option.map_eq_some_iff.mp hf'
    exact ⟨f, hf, hchange v f hf⟩
  new v f hv hf := absurd (lt_size_of_face? hf) (Nat.not_lt.mpr (h.size ▸ hv))
  interface v f hf _ := by rw [h.face, hf]; rfl
  name v _ _ _ := h.name hg v

theorem of_redirect {slots : List Slot} {source : Slot} (hg : g.WellFormed) (hr : g.Ranked rank)
    (h : Recast g g' fun v f => f.redirect v slots source)
    (hslots : ∀ r ∈ slots, top < rank r.node ∧ rank source.node < rank r.node) :
    Reworked rank start top fresh g g' := by
  apply of_recast hg h (h.ranked hr fun r hr => (hslots r hr).2)
  intro v f _
  refine ⟨.redirect .., fun hle => ?_⟩
  rw [Face.redirect_of_not_mem]
  intro i hi
  exact absurd (hslots _ hi).1 (Nat.not_lt.mpr hle)

theorem ranked_of_recast {change : NodeId → Face α → Face α} (h : Recast g g' change)
    (hr : g.Ranked rank) (hchange : ∀ v f, g.face? v = some f → (change v f).inputs = f.inputs) :
    g'.Ranked rank := by
  rw [ranked_iff_face] at hr ⊢
  intro v f' hf' s hs
  rw [h.face] at hf'
  obtain ⟨f, hf, rfl⟩ := Option.map_eq_some_iff.mp hf'
  exact hr v f hf s (hchange v f hf ▸ hs)

theorem of_relaxed {id : NodeId} {types : RelaxedTypes} (hg : g.WellFormed) (hr : g.Ranked rank)
    (h : Recast g g' fun v f => if v = id then f.relax types else f) :
    Reworked rank start top fresh g g' := by
  have hinputs : ∀ v f, g.face? v = some f →
      f.Resembles (if v = id then f.relax types else f) ∧
        (if v = id then f.relax types else f).inputs = f.inputs := by
    intro v f _
    split
    · exact ⟨.relax f types, rfl⟩
    · exact ⟨.refl f, rfl⟩
  apply of_recast hg h (ranked_of_recast h hr fun v f hf => (hinputs v f hf).2)
  exact fun v f hf => ⟨(hinputs v f hf).1, fun _ => (hinputs v f hf).2⟩

theorem of_retyped {s : Slot} {type : ElementType} (hg : g.WellFormed) (hr : g.Ranked rank)
    (h : Recast g g' fun v f => if v = s.node then f.retype s.index type else f)
    (hs : ∀ f, g.face? s.node = some f → f.inputs ≠ []) :
    Reworked rank start top fresh g g' := by
  have hinputs : ∀ v f, g.face? v = some f →
      f.Resembles (if v = s.node then f.retype s.index type else f) ∧
        (if v = s.node then f.retype s.index type else f).inputs = f.inputs := by
    intro v f hf
    split
    · next hv => exact ⟨.retype (hs f (hv ▸ hf)) s.index type, rfl⟩
    · exact ⟨.refl f, rfl⟩
  apply of_recast hg h (ranked_of_recast h hr fun v f hf => (hinputs v f hf).2)
  exact fun v f hf => ⟨(hinputs v f hf).1, fun _ => (hinputs v f hf).2⟩

theorem of_replaced {old new : NodeId} {p : NodeId → Prop} (hr : g.Ranked rank)
    (h : Replaced g g' old new p) (hnew : start ≤ new)
    (hreaders : ∀ v f, g.face? v = some f → v ≠ new → (∃ s ∈ f.inputs, s.node = old) →
      top < rank v ∧ rank new < rank v) : Reworked rank start top fresh g g' where
  wellFormed := h.wellFormed
  ranked := by
    rw [ranked_iff_face] at hr ⊢
    intro v f' hf' s hs
    rcases h.node v with hkept | ⟨-, hgone⟩
    · rw [hkept] at hf'
      obtain ⟨f, hf, rfl⟩ := Option.map_eq_some_iff.mp hf'
      rw [Face.replace] at hs
      split at hs
      · exact hr v f hf s hs
      · next hne =>
        obtain ⟨t, ht, rfl⟩ := List.mem_map.mp hs
        split
        · next hold => exact (hreaders v f hf hne ⟨t, ht, hold⟩).2
        · exact hr v f hf t ht
    · rw [hgone] at hf'
      cases hf'
  size := Nat.le_of_eq h.size.symm
  old v f' _ hf' := by
    rcases h.node v with hkept | ⟨-, hgone⟩
    · rw [hkept] at hf'
      obtain ⟨f, hf, rfl⟩ := Option.map_eq_some_iff.mp hf'
      refine ⟨f, hf, .replace .., fun hle => ?_⟩
      by_cases hv : v = new
      · rw [Face.replace, if_pos hv]
      · rw [Face.replace_of_not_mem]
        intro s hs hold
        exact absurd (hreaders v f hf hv ⟨s, hs, hold⟩).1 (Nat.not_lt.mpr hle)
    · rw [hgone] at hf'
      cases hf'
  new v f hv hf := absurd (lt_size_of_face? hf) (Nat.not_lt.mpr (h.size ▸ hv))
  interface v f hf hk := by rw [h.interface v f hf hk]; rfl
  name v _ hlt hlive := h.name v (fun he => Nat.not_lt.mpr hnew (he ▸ hlt)) hlive

theorem of_pruned {p : NodeId → Prop} (hr : g.Ranked rank) (h : Pruned g g' p) :
    Reworked rank start top fresh g g' where
  wellFormed := h.wellFormed
  ranked := by
    rw [ranked_iff_face] at hr ⊢
    exact fun v f hf s hs => hr v f (h.face_eq hf) s hs
  size := Nat.le_of_eq h.size.symm
  old v f _ hf := ⟨f, h.face_eq hf, .refl f, fun _ => rfl⟩
  new v f hv hf := absurd (lt_size_of_face? hf) (Nat.not_lt.mpr (h.size ▸ hv))
  interface v f hf hk := by rw [h.interface v f hf hk]; rfl
  name v _ _ hlive := by
    rcases h.node v with ⟨-, hname⟩ | ⟨-, hgone⟩
    · exact hname
    · rw [isLive_eq_face, hgone] at hlive
      cases hlive

theorem of_renamed {id : NodeId} {name : String} (hr : g.Ranked rank) (hid : start ≤ id)
    (hg' : g'.WellFormed) (hsize : g'.nodes.size = g.nodes.size)
    (hface : ∀ v, g'.face? v = g.face? v)
    (hname : ∀ v, g'.name? v = if v = id then some name else g.name? v) :
    Reworked rank start top fresh g g' where
  wellFormed := hg'
  ranked := by
    rw [ranked_iff_face] at hr ⊢
    exact fun v f hf s hs => hr v f (hface v ▸ hf) s hs
  size := Nat.le_of_eq hsize.symm
  old v f _ hf := ⟨f, hface v ▸ hf, .refl f, fun _ => rfl⟩
  new v f hv hf := absurd (lt_size_of_face? hf) (Nat.not_lt.mpr (hsize ▸ hv))
  interface v f hf _ := by rw [hface, hf]; rfl
  name v _ hlt _ := by
    rw [hname, if_neg]
    rintro rfl
    exact Nat.not_lt.mpr hid hlt

end Reworked

def IsStep (k : OpKind) : Prop := k = .constant ∨ k = .convert ∨ k = .subtract ∨ k = .multiply

theorem IsChainStep.isStep {f : Face α} (h : g.IsChainStep f) :
    IsStep f.kind ∧ f.ports.length = 1 := by
  obtain ⟨port, hports, ⟨hop, -⟩ | ⟨-, value, hop⟩ | ⟨hop | hop, -⟩⟩ := h <;>
    simp [IsStep, Face.kind, hports, hop, Op.kind]

section Room

variable {size count base : Nat}

theorem reworked_of_inserted {mid : Graph α} {source : Slot} {slots : List Slot}
    {params : AffineParams α} {d : Dequantization α} (hr : g.Ranked (makeRoom size count base rank))
    (hsize : size ≤ g.nodes.size) (hcount : g.nodes.size + 6 ≤ size + count)
    (h : Dequantization.Inserted g g' source slots params d mid)
    (hsource : source.node < size → rank source.node ≤ base)
    (hslots : ∀ r ∈ slots, r.node < size ∧ base < rank r.node) :
    Reworked (makeRoom size count base rank) start (base + count) (fun _ => IsStep) g g' := by
  have hbuilt := h.built.toExtends
  have hmid : mid.Ranked (makeRoom size count base rank) := by
    apply hbuilt.ranked_room hsize hr
    rintro s rfl
    exact hsource
  have hbuild : Reworked (makeRoom size count base rank) start (base + count) (fun _ => IsStep) g mid :=
    .of_extends hbuilt hmid fun v f hv hf => (h.built.fresh v f hv hf).isStep
  refine hbuild.trans (.of_redirect hbuilt.wellFormed hmid h.recast fun r hrs => ?_)
  obtain ⟨hold, habove⟩ := hslots r hrs
  obtain ⟨f, p, hf, -⟩ := h.built.output
  have hlt : d.output.node < size + count :=
    Nat.lt_of_lt_of_le (lt_size_of_face? hf) (Nat.le_trans h.built.count hcount)
  refine ⟨?_, makeRoom_new_lt (Nat.le_trans hsize h.built.new) hlt hold habove⟩
  rw [makeRoom_high hold habove]
  exact Nat.add_lt_add_right habove count

theorem reworked_of_readers {mid : Graph α} {source : Slot} {slots : List Slot}
    {params : AffineParams α} {d : Dequantization α} (hg : g.WellFormed) (hr : g.Ranked rank)
    (hslots : ∀ r ∈ slots, r ∈ g.readers source)
    (h : Dequantization.Inserted g g' source slots params d mid) :
    Reworked (makeRoom g.nodes.size 6 (rank source.node) rank) g.nodes.size (rank source.node + 6)
      (fun _ => IsStep) g g' := by
  refine reworked_of_inserted (hr.room hg 6 (rank source.node)) (Nat.le_refl _) (Nat.le_refl _) h
    (fun _ => Nat.le_refl _) fun r hrs => ?_
  have hinput := hg.mem_readers.mp (hslots r hrs)
  exact ⟨lt_size_of_input? hinput, hr _ _ _ hinput⟩

theorem replaceNode_reworked (hg : g.WellFormed) (hr : g.Ranked (makeRoom size count base rank))
    {old new : NodeId} {f f' : Face α} (hold : old < size) (hbase : rank old = base)
    (hnew : size ≤ new) (hcount : g.nodes.size ≤ size + count) (hf : g.face? old = some f)
    (hf' : g.face? new = some f') (hports : f.ports.length = f'.ports.length)
    (hkind : ¬ f.kind.IsInterface)
    (hread : ∀ v k, size ≤ v → g.face? v = some k → ∀ s ∈ k.inputs, s.node ≠ old) :
    ∃ g', exec (replaceNode old new : Edit α GraphError Unit) g = .ok (.ok (), g') ∧
      Replaced g g' old new (g.Exposed (makeRoom size count base rank) old) ∧
      Reworked (makeRoom size count base rank) size (base + count) fresh g g' ∧
      g'.face? old = none ∧ g'.name? new = g.name? old := by
  have hlow : makeRoom size count base rank old = base := by
    rw [makeRoom_low hold (Nat.le_of_eq hbase), hbase]
  have hlt : makeRoom size count base rank old < makeRoom size count base rank new := by
    rw [hlow, makeRoom_new hnew]
    omega
  obtain ⟨g', hexec, h⟩ := replaceNode_ranked hg hr hf hf' hports hlt
  refine ⟨g', hexec, h, .of_replaced hr h hnew fun v k hk _ hreads => ?_,
    h.gone f f' hf hkind hf' (hread new f' hnew hf')⟩
  obtain ⟨s, hs, hsold⟩ := hreads
  have hv : v < size := by
    by_contra hge
    exact hread v k (Nat.not_lt.mp hge) hk s hs hsold
  have hup := ranked_iff_face.mp hr v k hk s hs
  rw [hsold, hlow] at hup
  -- New nodes do not read `old`, and old readers of it are above the base, so that the room lies
  -- below them.
  have habove : base < rank v := by
    by_contra hle
    rw [makeRoom_low hv (Nat.not_lt.mp hle)] at hup
    exact hle hup
  have hroom : new < size + count := Nat.lt_of_lt_of_le (lt_size_of_face? hf') hcount
  refine ⟨?_, makeRoom_new_lt hnew hroom hv habove⟩
  rw [makeRoom_high hv habove]
  exact Nat.add_lt_add_right habove count

end Room

end Graph

end LowPrecision
