import LowPrecision.Proofs.Graph.LeastOrder
import LowPrecision.Proofs.Rewrite.Confinement

namespace LowPrecision

variable {α : Type} {l : Limits} {g₀ g : Graph α} {id : NodeId}

namespace Confined

theorem constantValue (h : Confined l g₀ g) {s : Slot} {t : Tensor α} (ht : g.constantValue? s = some t) :
    t.Within l := by
  rw [Graph.constantValue?] at ht
  split at ht
  · next value hvalue => exact Option.some.inj ht ▸ h.value hvalue
  · obtain ⟨n, -, ht⟩ := Option.bind_eq_some_iff.mp ht
    split at ht
    · obtain ⟨source, -, hvalue⟩ := Option.bind_eq_some_iff.mp ht
      exact h.value hvalue
    · cases ht

theorem passes_of_preserves (h : Confined l g₀ g) {f : Face α} (hf : g.face? id = some f)
    (hpreserves : g.preservesPrecision id = true) : f.kind.Passes := by
  rcases Graph.passing_of_preserves hpreserves with ⟨e, he, hmark, rfl⟩ | ⟨k, hk, hpasses⟩
  · exact (h.marked e he hmark).2 f hf
  · rw [Graph.kind?_eq_face, hf] at hk
    exact (Option.some.inj hk).symm ▸ hpasses

section Chains

variable {output current : Slot} {step : NodeId × Tensor α} {d : Dequantization α} {index : Nat}

theorem multiplied (h : Confined l g₀ g)
    (hread : Dequantization.readMultiply g output = some (some step, current)) : step.2.Within l := by
  obtain ⟨hnone, -⟩ | ⟨n, a, b, scale, -, -, -, -, hstep, hconstant⟩ := Dequantization.readMultiply_cases hread
  · cases hnone
  · cases hstep
    rcases hconstant with ⟨hb, -⟩ | ⟨-, ha, -⟩
    · exact h.value hb
    · exact h.value ha

theorem subtracted (h : Confined l g₀ g)
    (hread : Dequantization.readSubtract g output = some (some step, current)) : step.2.Within l := by
  obtain ⟨hnone, -⟩ | ⟨n, b, zeroPoint, -, -, -, -, hstep, hvalue⟩ := Dequantization.readSubtract_cases hread
  · cases hnone
  · cases hstep
    exact h.constantValue hvalue

theorem scale (h : Confined l g₀ g) (hd : Dequantization.ofInput g id index = some d) {t : Tensor α}
    (ht : d.scale? = some t) : t.Within l := by
  obtain ⟨output, -, hd⟩ := Option.bind_eq_some_iff.mp hd
  obtain ⟨scaled, -, -, hmultiply, -⟩ := Dequantization.ofOutput_eq_some hd
  obtain ⟨step, hstep, rfl⟩ := Option.map_eq_some_iff.mp ht
  exact h.multiplied (hstep ▸ hmultiply)

theorem params [Arithmetic α] (h : Confined l g₀ g) (hd : Dequantization.ofInput g id index = some d) :
    d.params.Within l where
  scale := by
    rw [Dequantization.params]
    cases hscale : d.scale? with
    | none => exact Tensor.within_scalar l _
    | some t => exact h.scale hd hscale
  zeroPoint z hz := by
    obtain ⟨output, -, hd⟩ := Option.bind_eq_some_iff.mp hd
    obtain ⟨scaled, shifted, -, -, hsubtract, -⟩ := Dequantization.ofOutput_eq_some hd
    obtain ⟨step, hstep, rfl⟩ := Option.map_eq_some_iff.mp hz
    exact h.subtracted (hstep ▸ hsubtract)

end Chains

end Confined

theorem Layout.Plan.Of.within [Arithmetic α] {plan : Plan α} {chain : Dequantization α} (h : plan.Of chain)
    (hg : Confined l g₀ g) {index : Nat} (hchain : Dequantization.ofInput g id index = some chain) :
    plan.params.Within l := by
  rcases h.2 with hparams | hparams <;> rw [hparams]
  · exact hg.params hchain
  · exact (hg.params hchain).toScalar

section Kernels

variable {t : Tensor α}

namespace MatMul

theorem transposeIf_ok (h : t.Within l) (transpose : Bool) :
    ∃ u, transposeIf transpose t = .ok u ∧ u.Within l := by
  rw [transposeIf]
  split
  · exact Tensor.transposeLastTwo_ok h
  · exact ⟨t, rfl, h⟩

theorem rowScale_finds (h : t.Within l) (transpose : Bool) :
    Checked.Finds (Tensor.Within l) (rowScale t transpose) := by
  obtain ⟨u, hu, hwithin⟩ := transposeIf_ok h transpose
  rw [rowScale, hu]
  change Checked.Finds _ (pure (if _ then some u else none))
  split
  · exact .some hwithin
  · exact .none

theorem columnScale_finds (h : t.Within l) (transpose : Bool) :
    Checked.Finds (Tensor.Within l) (columnScale t transpose) := by
  obtain ⟨u, hu, hwithin⟩ := transposeIf_ok h transpose
  rw [columnScale, hu]
  change Checked.Finds _ (pure (if _ then some u else none))
  split
  · exact .some hwithin
  · exact .none

variable [Arithmetic α]

theorem productScale?_finds {a b : Dequantization α} (ha : ∀ t, a.scale? = some t → t.Within l)
    (hb : ∀ t, b.scale? = some t → t.Within l) (transposeA transposeB : Bool) :
    Checked.Finds (Tensor.Within l) (productScale? a b transposeA transposeB) := by
  rw [productScale?]
  split
  rotate_left
  · exact .none
  next scaleA hscaleA =>
  refine (rowScale_finds (ha scaleA hscaleA) transposeA).bind .none fun rows hrows => ?_
  dsimp only
  split
  rotate_left
  · exact .none
  next scaleB hscaleB =>
  refine (columnScale_finds (hb scaleB hscaleB) transposeB).bind .none fun columns hcolumns => ?_
  obtain ⟨r, hr, hwithin⟩ := Tensor.broadcastZip_yields hrows hcolumns (· * ·)
  dsimp only
  rw [hr]
  cases r with
  | error e => exact .none
  | ok out => exact .some (hwithin out rfl).toScalar

theorem plan?_finds (h : Confined l g₀ g) (id : NodeId) :
    Checked.Finds (fun plan => plan.scale.Within l) (plan? g id) := by
  rw [plan?]
  split
  · next a b _ ha hb =>
    split
    · exact .none
    · exact (productScale?_finds (fun t => h.scale ha) (fun t => h.scale hb) _ _).map
        fun scale hscale => hscale
  · exact .none

end MatMul

theorem Convolution.plan?_finds [Arithmetic α] (h : Confined l g₀ g) {f : Face α} (hf : g.face? id = some f)
    (hkind : f.kind = .convolution ∨ f.kind = .groupConvolution) :
    Checked.Finds (fun plan => plan.scale.Within l) (plan? g id) := by
  rw [plan?]
  split
  rotate_left
  · exact .none
  next shape channels data dataScale weights weightScale hshape hchannels hdata hweights =>
  obtain ⟨p, hp, hport⟩ := Option.bind_eq_some_iff.mp hshape
  rw [hshape, Option.bind_some] at hchannels
  have hjoins : f.kind.HasChannels := hkind.elim (fun hk => .inr (.inl hk)) fun hk => .inr (.inr (.inl hk))
  have hbound : l.least ≤ channels ∧ channels ≤ l.channels :=
    (h.within id f hf).channels p shape hjoins (Graph.mem_ports hf hp) hport channels
      (List.mem_of_getElem? hchannels)
  have hextent : channels ≤ l.extent := Nat.le_trans hbound.2 l.channels_le
  refine (Tensor.channelValues_finds weightScale (Nat.le_trans hextent l.extent_le)).bind .none
    fun scales hscales => ?_
  obtain ⟨hchain, hscale⟩ := chain_of_activations hdata
  obtain ⟨x, xs, hcons⟩ := (h.scale hchain hscale).exists_cons ((h.within id f hf).kernel hkind)
  have hget : Checked.get dataScale.data 0 = .ok x := by rw [hcons]; rfl
  have hlength : l.least ≤ (scales.map (· * x)).length ∧ (scales.map (· * x)).length ≤ l.extent := by
    rw [List.length_map, hscales]
    exact ⟨hbound.1, hextent⟩
  obtain ⟨scale, hper, hwithin⟩ := Tensor.perChannel_ok hlength (h.port hp shape hport)
  dsimp only
  rw [hget]
  change Checked.Finds _ (Tensor.perChannel (scales.map (· * x)) shape.length >>= _)
  rw [hper]
  exact .some hwithin.toScalar

end Kernels

theorem ConvertFusion.canApply_ok [Scalar α] {m : NodeMatch}
    (hm : Rule.convertFusion.pattern.matchAt g id = some m) : ∃ b, canApply g m = .ok b := by
  obtain ⟨n, hn, -, rfl⟩ := Pattern.matchAt_eq_some hm
  have hcount := Pattern.holds_of_matchAt hm hn (.inputCount 2) (by decide)
  rw [canApply]
  dsimp only
  split
  rotate_left
  · exact ⟨_, rfl⟩
  next slot source hfusable =>
  obtain ⟨n', input, hn', hinput, -⟩ := fusable?_eq_some hfusable
  cases hn.symm.trans hn'
  have hslot : slot ≤ 1 := by
    have hlt := (List.getElem?_eq_some_iff.mp hinput).1
    rw [Constraint.holds, beq_iff_eq] at hcount
    omega
  split
  · exact ⟨_, rfl⟩
  · split
    · rw [otherSlot, if_pos hslot]
      exact ⟨_, rfl⟩
    · exact ⟨_, rfl⟩

section Quantizers

variable {r : Ranges α}

theorem Confined.size_of_layout (h : Confined l g₀ g) (hr : Ranges.ofNode g id = .ok r)
    (hlayout : r.hasSupportedLayout g id = true) {t : Tensor α} (ht : t ∈ r.tensors) :
    l.least ≤ t.size ∧ t.size ≤ l.channels := by
  have hone : t.size = 1 → l.least ≤ t.size ∧ t.size ≤ l.channels := fun hsize =>
    hsize.symm ▸ ⟨l.least_le, l.channels_pos⟩
  rw [Ranges.hasSupportedLayout] at hlayout
  split at hlayout
  · cases hlayout
  · exact hone (beq_iff_eq.mp (List.all_eq_true.mp hlayout t ht))
  · next type shape hp =>
    rcases Bool.or_eq_true_iff.mp (List.all_eq_true.mp hlayout t ht) with hsize | hsize
    · exact hone (beq_iff_eq.mp hsize)
    · have hsize := beq_iff_eq.mp hsize
      obtain ⟨n, _, _, _, _, _, _, hn, hop, -⟩ := Ranges.ofNode_eq_ok.mp hr
      have hface : g.face? id = some n.face := Graph.face?_eq_some.mpr ⟨n, hn, rfl⟩
      have hkind : n.face.kind.HasChannels := .inl (congrArg Op.kind hop)
      cases hchannels : shape[if g.inputKind? id 0 = some .constant then 0 else 1]? with
      | none =>
        rw [hchannels] at hsize
        exact hone hsize
      | some channels =>
        rw [hchannels] at hsize
        rw [hsize]
        exact (h.within id n.face hface).channels _ shape hkind (Graph.mem_ports hface hp) rfl channels
          (List.mem_of_getElem? hchannels)

theorem Confined.boundsShape (h : Confined l g₀ g) (hr : Ranges.ofNode g id = .ok r) :
    l.Allows r.boundsShape := by
  obtain ⟨_, _, _, _, _, _, _, -, -, -, -, -, hlow, hhigh, -⟩ := Ranges.ofNode_eq_ok.mp hr
  rw [Ranges.boundsShape]
  split
  · exact (h.value hlow).shape
  · exact (h.value hhigh).shape

end Quantizers

end LowPrecision
