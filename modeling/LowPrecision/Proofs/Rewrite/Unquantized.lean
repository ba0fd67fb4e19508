import LowPrecision.Proofs.Rewrite.Recognition
import LowPrecision.Proofs.Rewrite.Takeovers

namespace LowPrecision

variable {α : Type} {g₀ g g' : Graph α} {id v : NodeId} {rule : Rule} {m : NodeMatch}

namespace Graph

structure QuantizerFree (g : Graph α) : Prop extends RegularArity g where
  kind (v : NodeId) : g.kind? v ≠ some .fakeQuantize

structure Unquantized (g : Graph α) : Prop extends QuantizerFree g where
  relaxed (v : NodeId) (f : Face α) : g.face? v = some f → f.relaxed = none
  float (v : NodeId) (f : Face α) : g.face? v = some f → ∀ p ∈ f.ports, p.elementType.isFloat = true

theorem assemble_unquantized {nodes : List (String × Op α × List Slot × List Port)}
    (houtputs : ∀ n ∈ nodes, n.2.1.kind.HasOneOutput → n.2.2.2.length = 1)
    (hinputs : ∀ n ∈ nodes, ∀ count ∈ n.2.1.kind.inputCount?, n.2.2.1.length = count)
    (hkinds : ∀ n ∈ nodes, n.2.1.kind ≠ .fakeQuantize)
    (hports : ∀ n ∈ nodes, ∀ p ∈ n.2.2.2, p.elementType.isFloat = true) : (assemble nodes).Unquantized where
  toRegularArity := assemble_regularArity houtputs hinputs
  kind v hk := by
    obtain ⟨f, hf, hkind⟩ := face_of_kind hk
    obtain ⟨n, hn, rfl⟩ := assemble_face hf
    exact hkinds n hn hkind
  relaxed v f hf := by
    obtain ⟨n, -, rfl⟩ := assemble_face hf
    rfl
  float v f hf := by
    obtain ⟨n, hn, rfl⟩ := assemble_face hf
    exact hports n hn

theorem Unquantized.float_of_port (hg : g.Unquantized) {s : Slot} {p : Port} (hp : g.port? s = some p) :
    p.elementType.isFloat = true := by
  rw [port?_eq_face] at hp
  obtain ⟨f, hf, hp⟩ := Option.bind_eq_some_iff.mp hp
  exact hg.float s.node f hf p (List.mem_of_getElem? hp)

theorem Unquantized.isLowPrecision (hg : g.Unquantized) {s : Slot} {p : Port} (hp : g.port? s = some p) :
    p.elementType.isLowPrecision = false := by
  have hfloat := hg.float_of_port hp
  revert hfloat
  cases p.elementType <;> decide

theorem Unquantized.isQuantizedDomain (hg : g.Unquantized) (v : NodeId) : g.isQuantizedDomain v = false := by
  rw [isQuantizedDomain_eq_face]
  cases hf : g.face? v with
  | none => rfl
  | some f =>
    have hkind : f.kind ≠ .fakeQuantize := fun hkind =>
      hg.kind v (by rw [kind?_eq_face, hf, Option.map_some, hkind])
    rw [Option.any_some, hg.relaxed v f hf]
    split
    · next h => exact absurd h hkind
    all_goals rfl

theorem Unquantized.ofInput_eq_none (hg : g.Unquantized) (v : NodeId) (i : Nat) :
    Dequantization.ofInput g v i = none := by
  refine Option.eq_none_iff_forall_ne_some.mpr fun d hd => ?_
  obtain ⟨p, hp, hlow | hdomain⟩ := Dequantization.quantized_of_ofInput hd
  · exact Bool.false_ne_true ((hg.isLowPrecision hp).symm.trans hlow)
  · exact Bool.false_ne_true ((hg.isQuantizedDomain _).symm.trans hdomain)

end Graph

open LowPrecision.Graph

theorem Graph.Unquantized.fusable?_eq_none (hg : g.Unquantized) (v : NodeId) :
    ConvertFusion.fusable? g v = none := by
  refine Option.eq_none_iff_forall_ne_some.mpr fun ⟨slot, source⟩ hfusable => ?_
  obtain ⟨-, input, -, -, hsource⟩ := ConvertFusion.fusable?_eq_some hfusable
  obtain ⟨-, -, p, -, -, -, hp, hlow, -⟩ := ConvertFusion.source?_eq_some hsource
  exact Bool.false_ne_true ((hg.isLowPrecision hp).symm.trans hlow)

theorem Graph.QuantizerFree.source?_eq_none (hg : g.QuantizerFree) (v : NodeId) :
    RangeFusion.source? g v = none := by
  refine Option.eq_none_iff_forall_ne_some.mpr fun ⟨fakeQuantize, value⟩ hsource => ?_
  exact hg.kind fakeQuantize (RangeFusion.behind_of_source? hsource).2.kind

section Declines

variable [Scalar α] {c : Context}

omit [Scalar α] in
theorem Graph.QuantizerFree.readBoundary?_eq_none (hg : g.QuantizerFree) (v : NodeId) :
    ConcatPlan.readBoundary? c g v = none := by
  refine Option.eq_none_iff_forall_ne_some.mpr fun ⟨r, allowed⟩ hread => ?_
  obtain ⟨-, -, -, hr, -⟩ := ConcatPlan.readBoundary?_eq_some hread
  obtain ⟨n, _, _, _, _, _, _, hn, hop, -⟩ := Ranges.ofNode_eq_ok.mp hr
  exact hg.kind v (by rw [kind?, hn, Option.map_some, Node.kind, hop, Op.kind])

theorem Graph.QuantizerFree.ofRegion?_eq_none (hg : g.QuantizerFree) (region : Region) (multiChannel : Bool) :
    ConcatPlan.ofRegion? c g region multiChannel = .ok none := by
  rw [ConcatPlan.ofRegion?]
  cases hboundary : region.boundary with
  | nil => rfl
  | cons v rest =>
    rw [List.mapM_cons, hg.readBoundary?_eq_none]
    rfl

theorem Graph.QuantizerFree.ofConcat?_eq_none (hg : g.QuantizerFree) (v : NodeId) :
    ConcatPlan.ofConcat? c g v = .ok none := by
  rw [ConcatPlan.ofConcat?]
  cases Region.around g v with
  | error e => rfl
  | ok region => exact hg.ofRegion?_eq_none region _

namespace Rule

theorem canApply_of_quantizerFree (hg : g.QuantizerFree) (hrule : rule = .fuseSubtract ∨ rule = .fuseMultiply) :
    rule.canApply c g m = .ok false := by
  have hnone := hg.source?_eq_none m.node
  rcases hrule with rfl | rfl <;> rw [canApply, hnone] <;> rfl

theorem canApply_of_unquantized (hg : g.Unquantized) (hm : rule.pattern.matchAt g id = some m)
    (hsanitization : rule ≠ .sanitization) (hfold : rule ≠ .foldConvert) : rule.canApply c g m = .ok false := by
  have hchain := hg.ofInput_eq_none m.node
  cases rule with
  | sanitization => exact absurd rfl hsanitization
  | foldConvert => exact absurd rfl hfold
  | fuseSubtract => exact canApply_of_quantizerFree hg.toQuantizerFree (.inl rfl)
  | fuseMultiply => exact canApply_of_quantizerFree hg.toQuantizerFree (.inr rfl)
  | decomposition =>
    obtain ⟨n, hn, hkind, rfl⟩ := Pattern.matchAt_eq_some hm
    exact absurd (by rw [kind?, hn, Option.map_some, List.mem_singleton.mp hkind]) (hg.kind id)
  | convertFusion =>
    rw [canApply, ConvertFusion.canApply, hg.fusable?_eq_none]
    rfl
  | concat =>
    rw [canApply, hg.ofConcat?_eq_none]
    rfl
  | matMul =>
    have hplan : MatMul.plan? g m.node = .ok none := by
      rw [MatMul.plan?, hchain 0]
      split
      · next ha _ => cases ha
      · rfl
    rw [canApply, hplan]
    rfl
  | convolution =>
    have hplan : Convolution.plan? g m.node = .ok none := by
      rw [Convolution.plan?, Convolution.activations?, hchain 0]
      split
      · next ha _ => cases ha
      · rfl
    rw [canApply, hplan]
    rfl
  | depthToSpace =>
    cases hplan : Layout.depthToSpace? g m.node with
    | none =>
      rw [canApply, hplan]
      rfl
    | some plan => cases (hchain 0).symm.trans (Layout.chain_of_depthToSpace hplan)
  | transparent =>
    cases hplan : Layout.transparent? g m.node with
    | none =>
      rw [canApply, hplan]
      rfl
    | some plan => cases (hchain 0).symm.trans (Layout.chain_of_transparent hplan)

end Rule

end Declines

section Valued

variable {value : Tensor α} {type : ElementType} (hv : Valued g g' id value type)

include hv

theorem Graph.QuantizerFree.of_valued (hg : g.QuantizerFree) : g'.QuantizerFree where
  toRegularArity := hv.regularArity hg.toRegularArity hv.maintains.regular fun v f hge hf => by
    obtain ⟨-, rfl⟩ := hv.added v f hge hf
    rfl
  kind v hk := by
    rcases Nat.lt_or_ge v g.nodes.size with hlt | hge
    · exact hg.kind v (hv.kind hlt hk)
    · obtain ⟨f, hf, hkind⟩ := face_of_kind hk
      obtain ⟨-, rfl⟩ := hv.added v f hge hf
      cases hkind

theorem Graph.Unquantized.of_valued (hg : g.Unquantized) (htype : type.isFloat = true) : g'.Unquantized where
  toQuantizerFree := hg.toQuantizerFree.of_valued hv
  relaxed v f' hf' := by
    rcases Nat.lt_or_ge v g.nodes.size with hlt | hge
    · obtain ⟨f, hf, rfl⟩ := hv.face v f' hlt hf'
      rw [Face.relaxed_replace]
      exact hg.relaxed v f hf
    · obtain ⟨-, rfl⟩ := hv.added v f' hge hf'
      rfl
  float v f' hf' p hp := by
    rcases Nat.lt_or_ge v g.nodes.size with hlt | hge
    · obtain ⟨f, hf, rfl⟩ := hv.face v f' hlt hf'
      rw [Face.ports_replace] at hp
      exact hg.float v f hf p hp
    · obtain ⟨-, rfl⟩ := hv.added v f' hge hf'
      rwa [List.mem_singleton.mp hp]

end Valued

def Slot.Renewed (g g' : Graph α) (folded : NodeId → Prop) (s s' : Slot) : Prop :=
  s' = s ∨ (g.kind? s.node = some .constant ∨ folded s.node) ∧ s'.index = 0 ∧
    g'.kind? s'.node = some .constant ∧ g'.name? s'.node = g.name? s.node

theorem Slot.Renewed.keep {folded folded' : NodeId → Prop} {s s' : Slot} {i : Nat} {value : Tensor α}
    {type : ElementType} (h : s.Renewed g₀ g folded s') (hv : Valued g g' id value type)
    (hs' : g'.input? v i = some s') (hfolded : ∀ v, folded v → folded' v) : s.Renewed g₀ g' folded' s' := by
  refine h.imp_right fun ⟨hold, hindex, hnew, hname⟩ => ?_
  have hlive : g'.isLive s'.node = true := hv.maintains.regular.wellFormed.live_of_reads ⟨i, s', hs', rfl⟩
  exact ⟨hold.imp_right (hfolded _), hindex, hv.kind_kept hlive hnew,
    (hv.maintains.name _ (lt_size_of_kind hnew) hlive).trans hname⟩

structure Face.Renewed (g g' : Graph α) (folded : NodeId → Prop) (f f' : Face α) : Prop where
  op : f'.op = f.op
  ports : f'.ports = f.ports
  relaxed : f'.relaxed = f.relaxed
  inputs : f'.inputs.length = f.inputs.length
  reads (i : Nat) (s s' : Slot) : f.inputs[i]? = some s → f'.inputs[i]? = some s' → s.Renewed g g' folded s'

namespace Graph

structure Renewed (g g' : Graph α) (folded : NodeId → Prop) : Prop where
  size : g.nodes.size ≤ g'.nodes.size
  converts (v : NodeId) : folded v → g.kind? v = some .convert
  live (v : NodeId) (f : Face α) : g.face? v = some f → f.kind ≠ .constant → ¬ folded v → g'.isLive v = true
  old (v : NodeId) (f' : Face α) : v < g.nodes.size → g'.face? v = some f' →
    ∃ f, g.face? v = some f ∧ g'.name? v = g.name? v ∧ f.Renewed g g' folded f'
  fresh (v : NodeId) (f : Face α) : g.nodes.size ≤ v → g'.face? v = some f → f.kind = .constant

namespace Renewed

variable {folded folded' : NodeId → Prop}

theorem refl (g : Graph α) : g.Renewed g fun _ => False where
  size := Nat.le_refl _
  converts _ := False.elim
  live _ _ hf _ _ := isLive_iff_face.mpr ⟨_, hf⟩
  old _ f _ hf := ⟨f, hf, rfl, rfl, rfl, rfl, rfl, fun _ _ _ hs hs' =>
    .inl (Option.some.inj (hs'.symm.trans hs))⟩
  fresh _ _ hge hf := absurd (lt_size_of_face? hf) (Nat.not_lt.mpr hge)

variable (h : g₀.Renewed g folded)

include h

theorem congr (hsame : ∀ v, folded v ↔ folded' v) : g₀.Renewed g folded' :=
  (funext fun v => propext (hsame v) : folded = folded') ▸ h

theorem kind {k : OpKind} (hv : v < g₀.nodes.size) (hk : g.kind? v = some k) : g₀.kind? v = some k := by
  obtain ⟨f', hf', rfl⟩ := face_of_kind hk
  obtain ⟨f, hf, -, hsame⟩ := h.old v f' hv hf'
  rw [kind?_eq_face, hf, Option.map_some, Face.kind, Face.kind, hsame.op]

theorem lt_size_of_kind (hk : g.kind? v = some .convert) : v < g₀.nodes.size := by
  by_contra hge
  obtain ⟨f, hf, hkind⟩ := face_of_kind hk
  cases hkind.symm.trans (h.fresh v f (Nat.not_lt.mp hge) hf)

section Step

variable {value : Tensor α} {type : ElementType} (hg₀ : g₀.WellFormed) (hg : g.RegularArity)
  (hv : Valued g g' id value type) (hkind : g.kind? id = some .constant ∨ g.kind? id = some .convert)

include hg₀ hg hv hkind

theorem moved {s s' : Slot} {i j : Nat} {u : NodeId} (hs : g₀.input? u i = some s)
    (hs' : g.input? v j = some s') (hid : s'.node = id) (hrenewed : s.Renewed g₀ g folded s') :
    s.Renewed g₀ g' (fun v => folded v ∨ v = id ∧ g.kind? id = some .convert) ⟨g.nodes.size, s'.index⟩ := by
  subst hid
  have hindex : s'.index = 0 := by
    have hone : ∃ f, g.face? s'.node = some f ∧ f.ports.length = 1 := by
      rcases hkind with hk | hk <;>
      · obtain ⟨f, hf, hk⟩ := face_of_kind hk
        exact ⟨f, hf, hg.outputs _ f hf (by rw [hk]; decide)⟩
    obtain ⟨f, hf, hlength⟩ := hone
    have hport := hg.wellFormed.wire_of_input hs'
    rw [wire?_isSome_eq_port, port?_eq_face, hf, Option.bind_some] at hport
    obtain ⟨p, hp⟩ := Option.isSome_iff_exists.mp hport
    exact Nat.lt_one_iff.mp (hlength ▸ (List.getElem?_eq_some_iff.mp hp).1)
  have hnew : g'.kind? g.nodes.size = some .constant := by
    obtain ⟨f, hf⟩ := isLive_iff_face.mp hv.stays
    obtain ⟨-, rfl⟩ := hv.added _ f (Nat.le_refl _) hf
    rw [kind?_eq_face, hf]
    rfl
  rcases hrenewed with rfl | ⟨hold, -, -, hname⟩
  · have hlt : s'.node < g₀.nodes.size := by
      obtain ⟨n, hn⟩ := hg₀.live_of_input hs
      exact lt_size_of_node? hn
    have hname : g.name? s'.node = g₀.name? s'.node := by
      rcases hkind with hk | hk <;>
      · obtain ⟨f', hf', -⟩ := face_of_kind hk
        obtain ⟨-, -, hname, -⟩ := h.old _ f' hlt hf'
        exact hname
    exact .inr ⟨hkind.imp (h.kind hlt) fun hk => .inr ⟨rfl, hk⟩, hindex, hnew, hv.name.trans hname⟩
  · exact .inr ⟨hold.imp_right .inl, hindex, hnew, hv.name.trans hname⟩

theorem step (hsource : ∀ u, g.Reads id u → g.kind? u = some .constant) :
    g₀.Renewed g' fun v => folded v ∨ v = id ∧ g.kind? id = some .convert where
  size := Nat.le_trans h.size hv.maintains.size
  converts v hv' := by
    rcases hv' with hfolded | ⟨rfl, hk⟩
    · exact h.converts v hfolded
    · exact h.kind (h.lt_size_of_kind hk) hk
  live v f hf hconstant hnot := by
    rw [not_or] at hnot
    have hlive := h.live v f hf hconstant hnot.1
    have hold : ∀ {k}, g.kind? v = some k → f.kind = k := fun hk => by
      have hk₀ := h.kind (lt_size_of_face? hf) hk
      rw [kind?_eq_face, hf] at hk₀
      exact Option.some.inj hk₀
    refine Bool.eq_true_of_not_eq_false fun hlost => ?_
    rcases hv.constant_of_lost hg hsource hlive hlost with rfl | hk
    · rcases hkind with hk | hk
      · exact hconstant (hold hk)
      · exact hnot.2 ⟨rfl, hk⟩
    · exact hconstant (hold hk)
  old v f'' hlt hf'' := by
    have hlt' := Nat.lt_of_lt_of_le hlt h.size
    obtain ⟨f', hf', rfl⟩ := hv.face v f'' hlt' hf''
    obtain ⟨f, hf, hname, hsame⟩ := h.old v f' hlt hf'
    have hlive : g'.isLive v = true := isLive_iff_face.mpr ⟨_, hf''⟩
    refine ⟨f, hf, (hv.maintains.name v hlt' hlive).trans hname, ?_, ?_, ?_, ?_, fun i s s'' hs hs'' => ?_⟩
    · rw [Face.op_replace, hsame.op]
    · rw [Face.ports_replace, hsame.ports]
    · rw [Face.relaxed_replace, hsame.relaxed]
    · rw [Face.length_inputs_replace, hsame.inputs]
    · have hread'' : g'.input? v i = some s'' := by rw [input?_eq_face, hf'']; exact hs''
      rw [Face.input_replace] at hs''
      obtain ⟨s', hs', rfl⟩ := Option.map_eq_some_iff.mp hs''
      have hrenewed := hsame.reads i s s' hs hs'
      split at hread''
      · next hmoved =>
        rw [if_pos hmoved]
        exact h.moved hg₀ hg hv hkind (by rw [input?_eq_face, hf]; exact hs)
          (by rw [input?_eq_face, hf']; exact hs') hmoved.2 hrenewed
      · next hmoved =>
        rw [if_neg hmoved]
        exact hrenewed.keep hv hread'' fun _ => .inl
  fresh v f hge hf := by
    rcases Nat.lt_or_ge v g.nodes.size with hlt | hge'
    · obtain ⟨f', hf', rfl⟩ := hv.face v f hlt hf
      rw [Face.kind, Face.op_replace]
      exact h.fresh v f' hge hf'
    · obtain ⟨-, rfl⟩ := hv.added v f hge' hf
      rfl

end Step

theorem of_attributes (a : AttributeStore α) : g₀.Renewed { g with attributes := a } folded where
  size := h.size
  converts := h.converts
  live := h.live
  old v f' hv hf' := by
    obtain ⟨f, hf, hname, hsame⟩ := h.old v f' hv hf'
    exact ⟨f, hf, hname, hsame.op, hsame.ports, hsame.relaxed, hsame.inputs, hsame.reads⟩
  fresh := h.fresh

end Renewed

theorem Unquantized.of_attributes (hg : g.Unquantized) (a : AttributeStore α) :
    Unquantized { g with attributes := a } where
  toRegular := (Maintains.of_attributes hg.toRegular a).regular
  inputs := hg.inputs
  kind := hg.kind
  relaxed := hg.relaxed
  float := hg.float

/-- Constants and folded conversions apart, every node is as it was and reads what it read, save for
constants that were renewed. -/
structure LeavesAlone (g g' : Graph α) (folded : NodeId → Prop) : Prop where
  converts (v : NodeId) : folded v → g.kind? v = some .convert
  kept (v : NodeId) (f : Face α) : g.face? v = some f → f.kind ≠ .constant → ¬ folded v →
    ∃ f', g'.face? v = some f' ∧ g'.name? v = g.name? v ∧ f.Renewed g g' folded f'

theorem Renewed.leavesAlone {folded : NodeId → Prop} (h : g.Renewed g' folded) : g.LeavesAlone g' folded where
  converts := h.converts
  kept v f hf hconstant hnot := by
    obtain ⟨f', hf'⟩ := isLive_iff_face.mp (h.live v f hf hconstant hnot)
    obtain ⟨k, hk, hname, hsame⟩ := h.old v f' (lt_size_of_face? hf) hf'
    cases hf.symm.trans hk
    exact ⟨f', hf', hname, hsame⟩

end Graph

end LowPrecision
