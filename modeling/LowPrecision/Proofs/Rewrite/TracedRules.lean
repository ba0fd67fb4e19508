import LowPrecision.Proofs.Rewrite.Exchanges
import LowPrecision.Proofs.Rewrite.TracedChains

namespace LowPrecision

variable {α : Type} {g₀ g g' : Graph α} {id : NodeId} {n : Node α} {o s : Slot}

open LowPrecision.Graph

theorem Graph.Represents.fused (ht : Traced g₀ g) (ho : g₀.Fed o) {f f' c : Face α} {v : NodeId}
    {index slot : Nat} {input source : Slot} (h : Represents g₀ g o ⟨id, index⟩)
    (hf : g.face? id = some f) (hkind : f.kind = .add ∨ f.kind = .multiply ∨ f.kind = .subtract)
    (hinput : f.inputs[slot]? = some input) (hc : g.face? input.node = some c)
    (hconvert : c.kind = .convert) (hsource : c.inputs[0]? = some source)
    (hconstant : g.kind? source.node ≠ some .constant) (hnew : g₀.nodes.size ≤ v)
    (hf' : g.face? v = some f') (hop : f'.op = f.op) (hinputs : f'.inputs = f.inputs.set slot source)
    (hports : f'.ports = f.ports) : Represents g₀ g o ⟨v, index⟩ := by
  have hstepped : f.kind = .convert ∨ f.kind = .subtract ∨ f.kind = .multiply := by
    rcases hkind with hkind | hkind | hkind
    · have hcases := h.kind ht ho (kind?_eq_face g id ▸ congrArg (Option.map Face.kind) hf)
      rw [hkind] at hcases
      exact absurd hcases (by decide)
    · exact .inr (.inr hkind)
    · exact .inr (.inl hkind)
  obtain ⟨data, -, hstep, hdata, hheld⟩ := h.step ht ho hf hstepped
  obtain ⟨b, hb, hconst⟩ := hstep.op.resolve_left (by rcases hkind with h | h | h <;> rw [h] <;> decide)
  have hslot : slot ≠ 1 := by
    rintro rfl
    cases hinput.symm.trans hb
    have hvalue : (g.constantValue? input).isSome := by
      rcases hconst with ⟨-, hvalue⟩ | ⟨-, hvalue⟩
      · exact hvalue
      · exact constantValue_of_constant hvalue
    exact hconstant (kind_of_constant (constant_of_converted hc hconvert hsource hvalue))
  have hb' : f'.inputs[1]? = some b := by rw [hinputs, List.getElem?_set_ne hslot, hb]
  have hreal : ∀ p ∈ f'.ports, p.elementType.isLowPrecision = false := hports ▸ hstep.real
  have hop' : f'.kind = .convert ∨ ∃ b, f'.inputs[1]? = some b ∧
      (f'.kind = .subtract ∧ (g.constantValue? b).isSome ∨
        f'.kind = .multiply ∧ (g.constant? b).isSome) := by
    rw [show f'.kind = f.kind from congrArg Op.kind hop]
    exact .inr ⟨b, hb', hconst⟩
  by_cases hzero : slot = 0
  · subst hzero
    cases hinput.symm.trans hstep.input
    obtain ⟨data', -, hconversion, hdata', hheld'⟩ := hheld.step ht ho hc (.inl hconvert)
    cases hsource.symm.trans hconversion.input
    refine .of_step (s := ⟨v, index⟩) hnew hf' ⟨?_, hreal, hop'⟩ hdata' hheld'
    rw [hinputs, List.getElem?_set_self (List.getElem?_eq_some_iff.mp hinput).1]
  · refine .of_step (s := ⟨v, index⟩) hnew hf' ⟨?_, hreal, hop'⟩ hdata hheld
    rw [hinputs, List.getElem?_set_ne hzero, hstep.input]

namespace Traced

section Kernels

variable [Arithmetic α] {operands : List Slot} {scale : Tensor α}

theorem operands_of_lowerKernel (hg : g.WellFormed) (hn : g.node? id = some n)
    (hrun : exec (lowerKernel id operands scale) g = .ok (.ok (), g')) :
    (∀ f', g'.face? g.nodes.size = some f' →
      f'.op = n.op ∧ f'.inputs = operands ∧ f'.relaxed = some (.float 2 1)) ∧
    ∀ s p, s.node < g.nodes.size → g'.port? s = some p → g.port? s = some p := by
  obtain ⟨_, d, g₁, g₂, -, hadded, hports, hinsert, hreplace⟩ := lowerKernel_done hg hn hrun
  obtain ⟨_, mid, -, hins⟩ := Dequantization.insert_done hadded.wellFormed hinsert
  have hextends : Extends g g₁ fun _ => True := hadded.extends (fun _ _ => trivial) hports
  have hslots : ∀ i, (⟨g.nodes.size, i⟩ : Slot) ∉ n.readers 0 := by
    intro i hi
    obtain ⟨m, hm, -⟩ := input?_eq_some.mp (mem_readers_of_node hg hn hi)
    exact Nat.lt_irrefl _ (lt_size_of_node? hm)
  refine ⟨fun f' hf' => ?_, fun s p hs hp => ?_⟩
  · have hface := hins.face_old (lt_size_of_face? hadded.new)
    rw [hadded.new, Option.map_some, Face.redirect_of_not_mem hslots] at hface
    obtain ⟨f, -, -, -, -, -, -, -, hfaces⟩ := replaceNode_substituted hins.recast.wellFormed hreplace
    obtain ⟨f, hf, rfl⟩ := hfaces _ f' hf'
    cases hface.symm.trans hf
    rw [Face.substitute, if_pos rfl]
    exact ⟨rfl, rfl, rfl⟩
  · obtain ⟨-, hrerouted, -⟩ := replaceNode_rerouted hins.recast.wellFormed hreplace
    have hs₁ := Nat.lt_of_lt_of_le hs hextends.size
    have hp₂ := hrerouted.port (Nat.lt_of_lt_of_le hs₁ (hins.recast.size ▸ hins.built.size)) hp
    rw [hins.recast.port fun _ _ => rfl] at hp₂
    have hp₁ := (hins.built.rerouted : Rerouted (fun _ _ => True) g₁ mid).port hs₁ hp₂
    exact (hextends.rerouted : Rerouted (fun _ _ => True) g g₁).port hs hp₁

theorem lowered (ht : Traced g₀ g) (hn : g.node? id = some n)
    (hkind : n.kind = .matMul ∨ n.kind = .convolution ∨ n.kind = .groupConvolution)
    (hrun : exec (lowerKernel id operands scale) g = .ok (.ok (), g')) : Traced g₀ g' := by
  have hk : g.kind? id = some n.kind := by rw [kind?, hn]; rfl
  obtain ⟨hpasses, hliteral, hquantizer, -⟩ := OpKind.computes_of_kernel hkind
  have hnone : ∀ {k : Graph α}, Traced g₀ k → k.kind? id = some n.kind →
      ∀ o index, g₀.Fed o → ¬ Represents g₀ k o ⟨id, index⟩ := by
    intro k htk hkk o index ho h
    have hcases := h.kind htk ho hkk
    rcases hkind with h | h | h <;> rw [h] at hcases <;> revert hcases <;> decide
  obtain ⟨_, d, g₁, g₂, -, hadded, hports, hinsert, hreplace⟩ := lowerKernel_done ht.wellFormed hn hrun
  obtain ⟨_, mid, -, hins⟩ := Dequantization.insert_done hadded.wellFormed hinsert
  have hextends : Extends g g₁ fun _ => True := hadded.extends (fun _ _ => trivial) hports
  have ht₁ : Traced g₀ g₁ := ht.added hadded (.of_kind (k := n.kind) rfl hpasses hquantizer)
  have hk₁ := hextends.kind hk
  have ht₂ : Traced g₀ g₂ := ht₁.inserted hins
    (fun r hr => hextends.input (mem_readers_of_node ht.wellFormed hn hr)) hk₁ hliteral
    fun o ho h => absurd h (hnone (ht₁.built hins.built) (hins.built.kind hk₁) o 0 ho)
  refine ht₂.replaced hreplace ht.size (ht.not_isPassing hk hpasses) fun index =>
    ⟨fun o ho h => ?_, fun h => ?_⟩
  · exact absurd h (hnone ht₂ (hins.kind hk₁) o index ho)
  · exact absurd h (not_constantValue_of_kind (hins.kind hk₁) hliteral)

end Kernels

section Fusions

variable {m : NodeMatch}

theorem fused (ht : Traced g₀ g) (hn : g.node? m.node = some n)
    (hkind : n.kind = .add ∨ n.kind = .multiply ∨ n.kind = .subtract)
    (hrun : exec (ConvertFusion.apply m) g = .ok (.ok true, g')) : Traced g₀ g' := by
  have hk : g.kind? m.node = some n.kind := by rw [kind?, hn]; rfl
  obtain ⟨hpasses, hliteral, hquantizer, -⟩ := OpKind.computes_of_arithmetic hkind
  obtain ⟨slot, input, source, g₂, hinput, hsource, hs⟩ := ConvertFusion.apply_done ht.wellFormed hn hrun
  obtain ⟨c, _, p, hc, hop, hconverted, hp, -, hconstant⟩ := ConvertFusion.source?_eq_some hsource
  have hextends := hs.extends
  have ht₂ : Traced g₀ g₂ := ht.added hs.added (.of_kind (k := n.kind) rfl hpasses hquantizer)
  refine ht₂.replaced hs.replaced ht.size (ht.not_isPassing hk hpasses)
    fun index => ⟨fun o ho h => ⟨?_, ?_⟩, fun h => ?_⟩
  · refine h.fused ht₂ ho (hextends.face (face?_eq_some.mpr ⟨n, hn, rfl⟩)) hkind hinput
      (hextends.face (face?_eq_some.mpr ⟨c, hc, rfl⟩)) (congrArg Op.kind hop) hconverted ?_ ht.size
      hs.added.new rfl rfl rfl
    intro hk₂
    obtain ⟨k, hk₁, -⟩ := Option.bind_eq_some_iff.mp (port?_eq_face g source ▸ hp)
    have hkind₁ : g.kind? source.node = some k.kind := by rw [kind?_eq_face, hk₁]; rfl
    rw [hextends.kind hkind₁, ← hkind₁] at hk₂
    exact hconstant hk₂
  · exact kind?_ne_of_size_le ht.size
  · exact absurd h (not_constantValue_of_kind (hextends.kind hk) hliteral)

theorem sanitized [Scalar α] (ht : Traced g₀ g) (hk : g.kind? m.node = some .constant)
    (hrun : exec (Sanitize.apply m) g = .ok (.ok true, g')) : Traced g₀ g' := by
  obtain ⟨value, p, g₁, -, hp, hs⟩ := Sanitize.apply_done ht.wellFormed hrun
  have hextends := hs.extends
  have ht₁ : Traced g₀ g₁ := ht.added hs.added (.of_kind (k := .constant) rfl (by decide) (by decide))
  have hnew : ∀ index, (g₁.constant? ⟨g.nodes.size, index⟩).isSome := by
    intro index
    rw [constant?_eq_face, hs.added.new]
    rfl
  refine ht₁.replaced hs.replaced ht.size
    (ht.not_isPassing hk (by decide)) fun index => ⟨fun o ho h => ⟨?_, ?_⟩, fun _ => hnew index⟩
  · have hk₁ := hextends.kind hk
    obtain ⟨f, hf₁, hport₁⟩ := Option.bind_eq_some_iff.mp (port?_eq_face g₁ _ ▸ hextends.port hp)
    cases h.unfold with
    | origin => exact absurd (ht₁.kind_of_fed ho hk₁) (by decide)
    | lowered _ hf _ hlow =>
      cases hf₁.symm.trans hf
      refine (Unfolds.lowered (s := ⟨g.nodes.size, index⟩) ht.size hs.added.new (.inr rfl) ?_).represents
      intro q hq
      obtain rfl := List.mem_singleton.mp hq
      exact hlow p (List.mem_of_getElem? hport₁)
    | step _ hf hstep =>
      rw [kind?_eq_face, hf] at hk₁
      exact absurd (Option.some.inj hk₁ ▸ hstep.kind) (by decide)
  · exact kind?_ne_of_size_le ht.size

end Fusions

end Traced

section Moves

variable [Arithmetic α] {k : OpKind} {params : AffineParams α} {type : ElementType}

def TracedAt (g₀ : Graph α) (id : NodeId) (k : OpKind) (g : Graph α) : Prop :=
  Traced g₀ g ∧ g.kind? id = some k

theorem Edit.ensures_behind (source : Slot) (hk : k ≠ .constant ∧ k ≠ .convert)
    (hstart : g₀.kind? source.node ≠ some .fakeQuantize) (slots : List Slot)
    (params : AffineParams α) (base : String) :
    Ensures (fun g => TracedAt g₀ source.node k g ∧ ∀ r ∈ slots, g.input? r.node r.index = some source)
      (fun _ => TracedAt g₀ source.node k) Fatal (Dequantization.insert source slots params base) := by
  rintro g r g' ⟨⟨ht, hkind⟩, hslots⟩ hrun
  refine ⟨fun d hd => ?_, (Edit.ensures_insert Face.stable_sealed (fun _ _ => Face.sealed_of_step)
    source slots params base g r g' ht.toLineage hrun).2⟩
  subst hd
  obtain ⟨p, mid, -, hins⟩ := Dequantization.insert_done ht.wellFormed hrun
  exact ⟨ht.inserted hins hslots hkind hk fun _ _ h => ⟨h, hstart⟩, hins.kind hkind⟩

theorem Edit.ensures_restore (hk : k ≠ .constant ∧ k ≠ .convert) (hid : id < g₀.nodes.size)
    (hstart : g₀.kind? id ≠ some .fakeQuantize) (index : Nat)
    (hfits : type.isLowPrecision = true → g₀.Fed ⟨id, index⟩ → g₀.Fits ⟨id, index⟩ type)
    (params : AffineParams α) (base : String) :
    Ensures (TracedAt g₀ id k) (fun _ => TracedAt g₀ id k) Fatal (do
      let readers ← Edit.read (·.readers ⟨id, index⟩)
      Edit.ofGraph (Edit.step (·.setOutputType ⟨id, index⟩ type))
      if !readers.isEmpty then
        discard (Dequantization.insert ⟨id, index⟩ readers params base)) := by
  apply (Edit.ensures_read (·.readers ⟨id, index⟩)).bind
  intro readers
  have hretype : Ensures (fun g => TracedAt g₀ id k g ∧ readers = g.readers ⟨id, index⟩)
      (fun _ g => TracedAt g₀ id k g ∧ ∀ r ∈ readers, g.input? r.node r.index = some ⟨id, index⟩)
      Fatal (Edit.ofGraph (Edit.step (·.setOutputType ⟨id, index⟩ type))) := by
    refine Edit.ensures_step fun g g' ⟨⟨ht, hkind⟩, hreaders⟩ hrun => ?_
    obtain ⟨-, hrecast⟩ := setOutputType_done ht.wellFormed hrun
    have hsame : ∀ v (f : Face α), (if v = id then f.retype index type else f).inputs = f.inputs ∧
        (if v = id then f.retype index type else f).op = f.op := by
      intro v f
      split <;> exact ⟨rfl, rfl⟩
    refine ⟨⟨ht.retyped hrecast hid hfits, ?_⟩, fun r hr => ?_⟩
    · rw [hrecast.kind fun v f => (hsame v f).2]
      exact hkind
    · rw [hrecast.input fun v f => (hsame v f).1]
      exact ht.wellFormed.mem_readers.mp (hreaders ▸ hr)
  apply hretype.bind
  intro _
  split
  · exact (Edit.ensures_behind ⟨id, index⟩ hk hstart readers params base).discard fun _ _ h => h
  · exact .pure fun _ h => h.1

theorem OpKind.Passes.not_literal (h : k.Passes) : k ≠ .constant ∧ k ≠ .convert := by
  constructor <;> (rintro rfl; exact absurd h (by decide))

omit [Arithmetic α] in
theorem fits_of_input {d : Dequantization α} {p : Port} (ht : Traced g₀ g) (hk : g.kind? id = some k)
    (hpasses : k.Passes) (hconcat : k ≠ .concat) (hchain : Dequantization.ofInput g id 0 = some d)
    (hp : g.port? d.data = some p) (index : Nat) (h : g₀.Fed ⟨id, index⟩) :
    g₀.Fits ⟨id, index⟩ p.elementType := by
  obtain ⟨output, hi, hd⟩ := Option.bind_eq_some_iff.mp hchain
  obtain ⟨f, hf, hfeeds⟩ := h
  have hk₀ : g₀.kind? id = some k := ht.kind (ht.lt_size_of_fed ⟨f, hf, hfeeds⟩) hk
  cases hfeeds with
  | source =>
    cases hk₀.symm.trans hf
    exact absurd hpasses (by decide)
  | pass hpass hinput hdata hfeeds =>
    obtain rfl := hdata.resolve_right fun h => hconcat (Option.some.inj (hk₀.symm.trans h))
    have hlive : g.isLive id = true := by
      obtain ⟨n, hn, -⟩ := input?_eq_some.mp hi
      rw [isLive, hn]
      rfl
    obtain ⟨s, hs, hrep⟩ := ht.slots id 0 _ hinput ⟨f, hf, hfeeds⟩ hlive
    cases hi.symm.trans hs
    obtain ⟨-, -, q, hq, -, f', hf', hfeeds', htype⟩ :=
      Dequantization.ofOutput_represents ht ⟨f, hf, hfeeds⟩ hrep hd
    cases hp.symm.trans hq
    exact ⟨f', hf', .pass hpass hinput (.inl rfl) hfeeds', htype⟩

theorem Edit.ensures_moved {chain : Dequantization α} (hpasses : k.Passes) (hconcat : k ≠ .concat)
    (hid : id < g₀.nodes.size) (params : AffineParams α) (keep : Bool) :
    Ensures (fun g => TracedAt g₀ id k g ∧ Dequantization.ofInput g id 0 = some chain)
      (fun _ => Traced g₀) Fatal (moveDequantization id chain params keep) := by
  have hstart : ∀ g, TracedAt g₀ id k g → g₀.kind? id ≠ some .fakeQuantize := by
    rintro g ⟨ht, hk⟩ h
    cases h.symm.trans (ht.kind hid hk)
    exact absurd hpasses (by decide)
  have hremove : Ensures (TracedAt g₀ id k) (fun _ => Traced g₀) Fatal
      (Edit.change (·.removeDead [chain.output.node])) := Edit.ensures_change fun g h => h.1.removed _
  rw [moveDequantization]
  apply (Edit.ensures_port chain.data).bind
  intro port
  dsimp only
  generalize htype : (if keep then port.elementType else .f32) = type
  have hlow : type.isLowPrecision = true → type = port.elementType := by
    intro hlow
    cases keep with
    | true => exact htype.symm
    | false =>
      subst htype
      cases hlow
  have hnode : Ensures (fun g => (TracedAt g₀ id k g ∧ Dequantization.ofInput g id 0 = some chain) ∧
        g.port? chain.data = some port)
      (fun n g => (TracedAt g₀ id k g ∧ Dequantization.ofInput g id 0 = some chain) ∧
        g₀.kind? id ≠ some .fakeQuantize ∧ ∀ index, type.isLowPrecision = true →
          g₀.Fed ⟨id, index⟩ → g₀.Fits ⟨id, index⟩ type) Fatal (Edit.node id) :=
    (Edit.ensures_node id).weaken (fun _ h => h) fun n g h =>
      ⟨h.1.1, hstart g h.1.1.1, fun index htype hfed => hlow htype ▸
        fits_of_input h.1.1.1.1 h.1.1.1.2 hpasses hconcat h.1.1.2 h.1.2 index hfed⟩
  refine hnode.bind fun n => .of_fact fun hfacts => ?_
  obtain ⟨hstart, hfits⟩ := hfacts
  have hset : Ensures (fun g => TracedAt g₀ id k g ∧ Dequantization.ofInput g id 0 = some chain)
      (fun _ => TracedAt g₀ id k) Fatal (Edit.ofGraph (Edit.step (·.setInput id 0 chain.data))) := by
    refine Edit.ensures_step fun g g' hat hrun => ?_
    obtain ⟨⟨ht, hk⟩, hchain⟩ := hat
    obtain ⟨output, hi, hd⟩ := Option.bind_eq_some_iff.mp hchain
    obtain ⟨-, -, hrecast⟩ := setInput_done ht.wellFormed hrun
    refine ⟨ht.redirected hrecast (fun r hr => ?_) (Dequantization.substitutes_data ht hd), ?_⟩
    · obtain rfl := List.mem_singleton.mp hr
      exact hi
    · rw [hrecast.kind fun _ _ => rfl]
      exact hk
  have hrelax : ∀ types, Ensures (TracedAt g₀ id k) (fun _ => TracedAt g₀ id k) Fatal
      (Edit.ofGraph (Edit.step (·.setRelaxed id types))) := by
    refine fun types => Edit.ensures_step fun g g' hat hrun => ?_
    obtain ⟨ht, hk⟩ := hat
    obtain ⟨-, hrecast⟩ := setRelaxed_done ht.wellFormed hrun
    refine ⟨ht.relaxed hrecast, ?_⟩
    rw [hrecast.kind fun v f => by split <;> rfl]
    exact hk
  have hrestore : Ensures (TracedAt g₀ id k) (fun _ => Traced g₀) Fatal (do
      (List.range n.outputs.length).forM fun index => do
        let readers ← Edit.read (·.readers ⟨id, index⟩)
        Edit.ofGraph (Edit.step (·.setOutputType ⟨id, index⟩ type))
        if !readers.isEmpty then
          discard (Dequantization.insert ⟨id, index⟩ readers params n.name)
      Edit.change (·.removeDead [chain.output.node])) :=
    Ensures.bind (.forM fun index _ => Edit.ensures_restore hpasses.not_literal hid hstart index
      (hfits index) params n.name) fun _ => hremove
  apply hset.bind
  intro _
  split
  · exact (hrelax _).bind fun _ => hrestore
  · exact hrestore

end Moves

end LowPrecision
