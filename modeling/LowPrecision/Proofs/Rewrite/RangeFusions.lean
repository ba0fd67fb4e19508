import LowPrecision.Proofs.Graph.Conversions
import LowPrecision.Proofs.Rewrite.Exchanges
import LowPrecision.Proofs.Rewrite.LoweredValues
import LowPrecision.Proofs.Rewrite.Readiness

namespace LowPrecision

open LowPrecision.Graph

section Wires

variable {α : Type} {g g' : Graph α} {rank : NodeId → Nat} {id fakeQuantize : NodeId} {n : Node α}
  {levels : Nat} {data inLow inHigh : Slot} {low high value : Tensor α} {f : α → α → α}

def Graph.QuantizesTo (g : Graph α) (id : NodeId) (levels : Nat) (data inLow inHigh : Slot)
    (low high : Tensor α) : Prop :=
  ∃ f outLow outHigh rest, g.face? id = some f ∧ f.op = .fakeQuantize levels ∧
    f.inputs = data :: inLow :: inHigh :: outLow :: outHigh :: rest ∧
    g.constant? outLow = some low ∧ g.constant? outHigh = some high

theorem Graph.quantizesTo_of_bounds {k : Node α} {rest : List Slot} (hk : g.node? id = some k)
    (hop : k.op = .fakeQuantize levels) (hin : k.inputs = data :: inLow :: inHigh :: rest)
    (hlow : (g.input? id 3).bind g.constant? = some low)
    (hhigh : (g.input? id 4).bind g.constant? = some high) :
    g.QuantizesTo id levels data inLow inHigh low high := by
  obtain ⟨outLow, hl, hlow⟩ := Option.bind_eq_some_iff.mp hlow
  obtain ⟨outHigh, hh, hhigh⟩ := Option.bind_eq_some_iff.mp hhigh
  have hinput : ∀ i, g.input? id i = k.inputs[i]? := fun i => by rw [input?, hk]; rfl
  rw [hinput, hin] at hl hh
  obtain ⟨rest', rfl⟩ : ∃ rest', rest = outLow :: outHigh :: rest' := by
    rcases rest with _ | ⟨x, _ | ⟨y, rest⟩⟩
    · cases hl
    · cases hh
    · cases hl
      cases hh
      exact ⟨rest, rfl⟩
  exact ⟨k.face, outLow, outHigh, rest', face?_eq_some.mpr ⟨k, hk, rfl⟩, hop, hin, hlow, hhigh⟩

structure Absorbed (g g' : Graph α) (rank : NodeId → Nat) (id fakeQuantize : NodeId) (f : α → α → α)
    (value : Tensor α) : Prop where
  regular : g'.Regular
  name : g'.name? (g.nodes.size + 2) = g.name? fakeQuantize
  port : ∃ p q, g.port? ⟨id, 0⟩ = some p ∧ g.port? ⟨fakeQuantize, 0⟩ = some q ∧
    g'.port? ⟨g.nodes.size + 2, 0⟩ = some (q.withType p.elementType)
  ranges : ∃ levels data inLow inHigh low high outLow outHigh,
    g.QuantizesTo fakeQuantize levels data inLow inHigh low high ∧
    g'.QuantizesTo (g.nodes.size + 2) levels data inLow inHigh outLow outHigh ∧
    (low.broadcastZip value f).run = .ok (.ok outLow) ∧ (high.broadcastZip value f).run = .ok (.ok outHigh)
  old (u : NodeId) (k' : Face α) : u < g.nodes.size → g'.face? u = some k' →
    ∃ k, g.face? u = some k ∧ k.Rewired (behind id (fun _ => ⟨g.nodes.size + 2, 0⟩) 1) k'
  kept (u : NodeId) : rank id < rank u → g.isLive u = true → g'.isLive u = true
  gone : g'.isLive id = false

theorem RangeFusion.absorbed_of_apply (hg : g.Regular) (hr : g.Ranked rank) (hn : g.node? id = some n)
    (hone : n.outputs.length = 1) (hkind : ¬ n.kind.IsInterface)
    (hrun : exec (apply id f) g = .ok (.ok true, g')) :
    ∃ fakeQuantize value, source? g id = some (fakeQuantize, value) ∧
      Absorbed g g' rank id fakeQuantize f value := by
  obtain ⟨fakeQuantize, value, k, levels, data, inLow, inHigh, rest, p, q, outLow, outHigh, g₁, g₂, hsource,
    hp, hk, hop, hin, hq, hdoubled, hreplace, hrename, ⟨low, hlow, hl⟩, high, hhigh, hh⟩ :=
    apply_done hg.wellFormed hrun
  refine ⟨fakeQuantize, value, hsource, ?_⟩
  obtain ⟨g'', hexec, hreworked, hname⟩ := apply_ok hg.wellFormed hr hn hone hkind hsource hlow hhigh hl hh
    (by rw [hq]; rfl)
  cases hrun.symm.trans hexec
  have hid := lt_size_of_node? hn
  have hsourced : Sourced g g₁ rank id ⟨g.nodes.size + 2, 0⟩ .fakeQuantize :=
    (sourced_of_doubled (fun _ => ranges_below hr hk hin) hdoubled).above
      (Nat.le_of_lt (source?_below hr hsource))
  obtain ⟨_, hreplace', hreplaced, hsupplanted⟩ := hsourced.replace hg.wellFormed hr hn hone hkind
  cases hreplace.symm.trans hreplace'
  have hfaces := (rename_done hreplaced.wellFormed hrename).2.2.1
  have hold : ∀ u, u < g.nodes.size → g₁.face? u = (g.face? u).map ((fun _ k => k) u) := by
    intro u hu
    rw [hdoubled.old u hu]
    exact Option.map_id'.symm
  have hnew : ∀ u k, g.nodes.size ≤ u → g₁.face? u = some k → g'.face? u = some k := by
    intro u k hu hk
    have hnot : ∀ s ∈ k.inputs, s.node ≠ id := by
      rintro s hs rfl
      exact Nat.lt_irrefl _ ((hsourced.extended.inputs u k hu hk s hs).1 hid)
    rw [hfaces]
    rcases hreplaced.node u with hkept | ⟨hexposed, -⟩
    · rw [hkept, hk, Option.map_some, Face.replace_of_not_mem hnot]
    · exact absurd hexposed.1 (Nat.not_le.mpr (makeRoom_base_lt hid hu))
  have hfused := hnew _ _ (Nat.le_add_right _ _) hdoubled.fakeQuantize
  refine ⟨hreworked.regular hg, hname, ⟨p, q, hp, hq, ?_⟩,
    ⟨levels, data, inLow, inHigh, low, high, outLow, outHigh,
      quantizesTo_of_bounds hk hop hin hlow hhigh, ?_, hl, hh⟩,
    fun u k' hu hk' => ?_, fun u hu hlive => ?_, ?_⟩
  · rw [port?_eq_face, hfused]
    rfl
  · refine ⟨_, _, _, [], hfused, rfl, rfl, ?_, ?_⟩
    · exact constant?_eq_some.mpr ⟨_, hnew _ _ (Nat.le_refl _) hdoubled.lowBound, rfl⟩
    · exact constant?_eq_some.mpr ⟨_, hnew _ _ (Nat.le_add_right _ _) hdoubled.highBound, rfl⟩
  · obtain ⟨l, hl, rfl⟩ := hreplaced.face_old hold hu (hfaces u ▸ hk')
    exact ⟨l, hl, rewired_of_exchange hg.wellFormed hn hone hl (Nat.ne_of_lt (Nat.lt_add_right 2 hu))⟩
  · rw [isLive_eq_face, hfaces, ← isLive_eq_face]
    exact hreplaced.live_above hold hid hu hlive
  · rw [isLive_eq_face, hfaces, hsupplanted.gone]
    rfl

end Wires

variable {I : TypedInterpretation} {g g' : Graph Rat} {v v' : Slot → Option Values} {rank : NodeId → Nat}
  {id fakeQuantize : NodeId} {n : Node Rat} {f : Rat → Rat → Rat} {value : Tensor Rat} {a b : Slot}

namespace TypedInterpretation

theorem value_quantizesTo (hv : g.Evaluates I.run v) (hg : g.Regular) {levels : Nat}
    {data inLow inHigh : Slot} {low high : Tensor Rat}
    (h : g.QuantizesTo id levels data inLow inHigh low high) :
    v ⟨id, 0⟩ = (v data).bind fun x => (v inLow).bind fun l => (v inHigh).bind fun u =>
      x.quantize levels l u low.values high.values := by
  obtain ⟨k, outLow, outHigh, rest, hk, hop, hin, hlow, hhigh⟩ := h
  have hport : ∀ s ∈ k.inputs, (g.port? s).isSome :=
    fun s hs => Interpretation.port_of_mem_inputs hg hk hs
  rw [hv.eq_run (s := ⟨id, 0⟩) hk, hop, hin]
  simp only [List.map_cons, I.fakeQuantize]
  rw [value_constant hv hg (hport outLow (by simp [hin])) hlow,
    value_constant hv hg (hport outHigh (by simp [hin])) hhigh]
  rfl

theorem value_of_source? (hv : g.Evaluates I.run v) (hg : g.Regular) (ha : g.input? id 0 = some a)
    (h : RangeFusion.source? g id = some (fakeQuantize, value))
    (hexact : ∀ x, v ⟨fakeQuantize, 0⟩ = some x → g.ExactAt a x) : v a = v ⟨fakeQuantize, 0⟩ := by
  obtain ⟨k, first, hk, hkind, -, -, -, hfirst, hpath⟩ := RangeFusion.source?_eq_some h
  cases ha.symm.trans hfirst
  have hslot : ∀ {u i s}, g.input? u i = some s → s.node = fakeQuantize → s = ⟨fakeQuantize, 0⟩ := by
    rintro u i s hs rfl
    obtain ⟨p, hp⟩ := hg.wellFormed.exists_port hs
    have hindex := index_eq_zero hg (face?_eq_some.mpr ⟨k, hk, rfl⟩)
      (by rw [Face.kind, Node.face, ← Node.kind, hkind]; decide) (by rw [hp]; rfl)
    rw [← hindex]
  rcases hpath with hnode | ⟨c, s, hc, hckind, -, hs, hnode⟩
  · rw [hslot ha hnode]
  · obtain ⟨type, hop⟩ := Op.exists_destination hckind
    obtain ⟨p, hp⟩ := hg.wellFormed.exists_port ha
    have hface := face?_eq_some.mpr ⟨c, hc, rfl⟩
    have hinput : c.face.inputs[0]? = some s := by
      rw [input?_eq_face, hface] at hs
      exact hs
    rw [value_convert hv hg (by rw [hp]; rfl) hface hop hinput, hslot hs hnode]
    cases hx : v ⟨fakeQuantize, 0⟩ with
    | none => rfl
    | some x =>
      rw [Option.map_some, map_store_eq_self_iff.mpr (hexact x hx c.face type hface hop)]

end TypedInterpretation

namespace Absorbed

variable (h : Absorbed g g' rank id fakeQuantize f value)

include h

theorem reread (hg : g.Regular) (hr : g.Ranked rank) (hn : g.node? id = some n)
    (hone : n.outputs.length = 1) : Reread g g' rank id (fun _ => ⟨g.nodes.size + 2, 0⟩) 1 where
  before := hg
  after := h.regular
  ranked := hr
  ports k hk := by
    obtain ⟨m, hm, rfl⟩ := face?_eq_some.mp hk
    cases hn.symm.trans hm
    rw [Node.face, List.length_map, hone]
  wired u k' hu _ hk' := h.old u k' hu hk'

theorem value_fused (hreread : Reread g g' rank id (fun _ => ⟨g.nodes.size + 2, 0⟩) 1)
    (hbelow : rank fakeQuantize < rank id) (hf : Interpolates f) (hfilled : g.Filled)
    (hvalue : value.Filled) (hv : g.Evaluates I.run v) (hv' : g'.Evaluates I.run v') :
    v' ⟨g.nodes.size + 2, 0⟩ = (v ⟨fakeQuantize, 0⟩).bind fun x => x.zip f value.values := by
  obtain ⟨levels, data, inLow, inHigh, low, high, outLow, outHigh, hold, hnew, hl, hh⟩ := h.ranges
  rw [TypedInterpretation.value_quantizesTo hv hreread.before hold,
    TypedInterpretation.value_quantizesTo hv' hreread.after hnew]
  obtain ⟨k, l, u, rest, hk, -, hin, hlow, hhigh⟩ := hold
  obtain ⟨k', l', u', rest', hk', -, hin', -⟩ := hnew
  have hsame : ∀ s, s = data ∨ s = inLow ∨ s = inHigh → v' s = v s := by
    intro s hs
    have hmem : s ∈ k.inputs := by rw [hin]; rcases hs with rfl | rfl | rfl <;> simp
    have hmem' : s ∈ k'.inputs := by rw [hin']; rcases hs with rfl | rfl | rfl <;> simp
    exact hreread.value_below hv hv' s (hreread.before.wellFormed.lt_size_of_input hk hmem)
      (Nat.lt_trans (ranked_iff_face.mp hreread.ranked _ k hk s hmem) hbelow)
      (live_of_mem_inputs hreread.after.wellFormed hk' hmem')
  rw [hsame data (.inl rfl), hsame inLow (.inr (.inl rfl)), hsame inHigh (.inr (.inr rfl))]
  simp only [Option.bind_assoc,
    Values.quantize_zip hf (hfilled _ _ hlow) (hfilled _ _ hhigh) hvalue hl hh]

end Absorbed

/-- The fake-quantize `fused` stands for a fake-quantize and the arithmetic with a constant behind it.
Its port has the shape of the old fake-quantize, and its values are those of the arithmetic when the
conversions of the data and of the constant are exact. -/
structure FusedRange (I : TypedInterpretation) (g g' : Graph Rat) (v : Slot → Option Values)
    (id fakeQuantize fused : NodeId) (f : Rat → Rat → Rat) (value : Tensor Rat) (a b : Slot) : Prop where
  name : g'.name? fused = g.name? fakeQuantize
  elementType : (g'.port? ⟨fused, 0⟩).map Port.elementType = (g.port? ⟨id, 0⟩).map Port.elementType
  shape : (g'.port? ⟨fused, 0⟩).map Port.shape = (g.port? ⟨fakeQuantize, 0⟩).map Port.shape
  readers (r : Slot) : g.input? r.node r.index = some ⟨id, 0⟩ →
    g'.input? r.node r.index = some ⟨fused, 0⟩
  evaluates : ∃ v', g'.Evaluates I.run v'
  computes (v' : Slot → Option Values) : g'.Evaluates I.run v' →
    v' ⟨fused, 0⟩ = (v ⟨fakeQuantize, 0⟩).bind fun x => x.zip f value.values
  exact (v' : Slot → Option Values) : g'.Evaluates I.run v' →
    (∀ x, v ⟨fakeQuantize, 0⟩ = some x → g.ExactAt a x) → g.ExactAt b value.values →
    v' ⟨fused, 0⟩ = v ⟨id, 0⟩ ∧ KeepsReads g g' v v' id

theorem Absorbed.fusedRange (h : Absorbed g g' rank id fakeQuantize f value) (hg : g.Regular)
    (hr : g.Ranked rank) (hn : g.node? id = some n) (hone : n.outputs.length = 1)
    (hf : Interpolates f) (hfilled : g.Filled)
    (hsource : RangeFusion.source? g id = some (fakeQuantize, value))
    (ha : g.input? id 0 = some a) (hb : g.input? id 1 = some b) (hv : g.Evaluates I.run v)
    (hnode : v ⟨id, 0⟩ = (v a).bind fun x => (v b).bind fun y => x.zip f y) :
    FusedRange I g g' v id fakeQuantize (g.nodes.size + 2) f value a b := by
  have hreread := h.reread hg hr hn hone
  have hconstant : g.constantValue? b = some value := by
    have hvalue := RangeFusion.value_of_source? hsource
    rwa [hb] at hvalue
  obtain ⟨s, hs⟩ := Dequantization.constant_of_constantValue hconstant
  have hfused : ∀ v', g'.Evaluates I.run v' →
      v' ⟨g.nodes.size + 2, 0⟩ = (v ⟨fakeQuantize, 0⟩).bind fun x => x.zip f value.values :=
    fun v' hv' => h.value_fused hreread (RangeFusion.source?_below hr hsource) hf hfilled
      (hfilled s value hs) hv hv'
  obtain ⟨p, q, hp, hq, hport⟩ := h.port
  obtain ⟨rank', hr'⟩ := h.regular.acyclic
  refine ⟨h.name, by rw [hport, hp]; rfl, by rw [hport, hq]; rfl, fun r hread => ?_,
    exists_evaluates I.run hr', hfused, fun v' hv' hdata hvalue => ?_⟩
  · obtain ⟨m, hm, -⟩ := input?_eq_some.mp hread
    have hlive := h.kept r.node (hr _ _ _ hread) (isLive_of_node? hm)
    obtain ⟨k', hk'⟩ := isLive_iff_face.mp hlive
    obtain ⟨k, hk, hrewired⟩ := h.old r.node k' (lt_size_of_node? hm) hk'
    rw [input?_eq_face, hk, Option.bind_some] at hread
    rw [input?_eq_face, hk', Option.bind_some, hrewired.inputs, List.getElem?_map, hread, Option.map_some]
    exact congrArg some (if_pos ⟨rfl, Nat.one_pos⟩)
  · obtain ⟨pb, hpb⟩ := hg.wellFormed.exists_port hb
    have hconst : v b = some value.values :=
      (TypedInterpretation.value_constantValue_iff hv hg (by rw [hpb]; rfl) hconstant).mpr hvalue
    have hsame : v' ⟨g.nodes.size + 2, 0⟩ = v ⟨id, 0⟩ := by
      rw [hfused v' hv', hnode, TypedInterpretation.value_of_source? hv hg ha hsource hdata, hconst]
      rfl
    exact ⟨hsame, hreread.keepsReads h.gone h.kept hv hv' hsame⟩

namespace Rule

inductive Fuses : Rule → (Rat → Rat → Rat) → Prop
  | subtract : Fuses .fuseSubtract (· - ·)
  | multiply : Fuses .fuseMultiply (· * ·)

namespace Fuses

variable {rule : Rule} {s : Session Rat} {m : NodeMatch}

theorem interpolates (h : rule.Fuses f) : Interpolates f := by
  cases h
  · exact interpolates_sub
  · exact interpolates_mul

theorem cases (h : rule.Fuses f) : rule = .fuseSubtract ∨ rule = .fuseMultiply := by
  cases h
  · exact .inl rfl
  · exact .inr rfl

theorem apply_eq (h : rule.Fuses f) :
    exec (rule.apply m) s = exec (Rewrite.edit (RangeFusion.apply m.node f)) s := by
  rw [apply, exec_bind_ok (Rewrite.exec_graph s), exec_bind_ok (Rewrite.exec_context s)]
  cases h <;> rfl

theorem source_of_canApply (h : rule.Fuses f) (hcan : rule.canApply s.context s.graph m = .ok true) :
    (RangeFusion.source? s.graph m.node).isSome := by
  cases h <;> exact Except.ok.inj hcan

theorem value_node (h : rule.Fuses f) (hv : g.Evaluates I.run v) (hn : g.node? id = some n)
    (hkind : n.kind ∈ rule.pattern.kinds) (ha : g.input? id 0 = some a) (hb : g.input? id 1 = some b) :
    v ⟨id, 0⟩ = (v a).bind fun x => (v b).bind fun y => x.zip f y := by
  have hinput : ∀ i, g.input? id i = n.input? i := fun i => by rw [input?, hn]; rfl
  rw [hinput] at ha hb
  obtain ⟨rest, hin⟩ := exists_cons_of_pair ha hb
  rw [hv.eq_run (s := ⟨id, 0⟩) (face?_eq_some.mpr ⟨n, hn, rfl⟩), Node.face, hin]
  cases h
  · rw [Interpretation.op_of_kind.2 (List.mem_singleton.mp hkind)]
    exact I.subtract id (v a) (v b) _
  · rw [Interpretation.op_of_kind.1 (List.mem_singleton.mp hkind)]
    exact I.multiply id (v a) (v b) _

theorem exists_apply (hrule : rule.Fuses f) (hg : s.graph.Regular)
    (hm : rule.pattern.matchAt s.graph id = some m)
    (hcan : rule.canApply s.context s.graph m = .ok true) (hready : rule.Ready s.graph id) :
    ∃ s', exec (rule.apply m) s = .ok (.ok true, s') := by
  obtain ⟨n, hn, hkind, rfl⟩ := Pattern.matchAt_eq_some hm
  rw [hrule.apply_eq]
  exact ranged_ready hrule.cases hg hready hn hkind (hrule.source_of_canApply hcan)

theorem fusedRange {s' : Session Rat} (hrule : rule.Fuses f) (hg : s.graph.Regular)
    (hfilled : s.graph.Filled) (hm : rule.pattern.matchAt s.graph id = some m)
    (hv : s.graph.Evaluates I.run v)
    (hsource : RangeFusion.source? s.graph id = some (fakeQuantize, value))
    (ha : s.graph.input? id 0 = some a) (hb : s.graph.input? id 1 = some b)
    (hrun : exec (rule.apply m) s = .ok (.ok true, s')) :
    ∃ fused, FusedRange I s.graph s'.graph v id fakeQuantize fused f value a b := by
  obtain ⟨n, hn, hkind, rfl⟩ := Pattern.matchAt_eq_some hm
  obtain ⟨hinterface, hsingle⟩ := calm (by cases hrule <;> decide) hkind
  have hone := hg.length_outputs hn hsingle
  obtain ⟨rank, hr⟩ := hg.acyclic
  rw [hrule.apply_eq] at hrun
  obtain ⟨_, _, hsource', habsorbed⟩ := RangeFusion.absorbed_of_apply hg hr hn hone hinterface
    (Rewrite.exec_edit_eq.mp hrun).1
  cases hsource.symm.trans hsource'
  exact ⟨_, habsorbed.fusedRange hg hr hn hone hrule.interpolates hfilled hsource ha hb hv
    (hrule.value_node hv hn hkind ha hb)⟩

end Fuses

section Sample

def scaledLevels (high : Rat) (type : ElementType) (scale : Tensor Rat) (out : List Nat) : Graph Rat :=
  assemble [("x", .parameter, [], [⟨.f32, some [1, 2]⟩]),
    ("low", .constant (.scalar 0), [], [⟨.f32, some []⟩]),
    ("high", .constant (.scalar 2), [], [⟨.f32, some []⟩]),
    ("outLow", .constant (.scalar 0), [], [⟨.f32, some []⟩]),
    ("outHigh", .constant (.scalar high), [], [⟨.f32, some []⟩]),
    ("levels", .fakeQuantize 3, [⟨0, 0⟩, ⟨1, 0⟩, ⟨2, 0⟩, ⟨3, 0⟩, ⟨4, 0⟩], [⟨.f32, some [1, 2]⟩]),
    ("stored", .convert type, [⟨5, 0⟩], [⟨type, some [1, 2]⟩]),
    ("scale", .constant scale, [], [⟨.f32, some scale.shape⟩]),
    ("scaled", .multiply, [⟨6, 0⟩, ⟨7, 0⟩], [⟨.f32, some out⟩]),
    ("y", .result, [⟨8, 0⟩], [])]

structure IsScaledLevels (g : Graph Rat) (high : Rat) (type : ElementType) (scale : Tensor Rat)
    (out : List Nat) : Prop where
  regular : g.Regular
  filled : g.Filled
  input : (g.node? 0).map Node.op = some .parameter
  levels : g.QuantizesTo 5 3 ⟨0, 0⟩ ⟨1, 0⟩ ⟨2, 0⟩ (.scalar 0) (.scalar high)
  bounds : g.constant? ⟨1, 0⟩ = some (.scalar 0) ∧ g.constant? ⟨2, 0⟩ = some (.scalar 2)
  stored : g.face? 6 = some ⟨.convert type, [⟨5, 0⟩], [⟨type, some [1, 2]⟩], none⟩
  constant : g.constant? ⟨7, 0⟩ = some scale
  inputs : g.input? 8 0 = some ⟨6, 0⟩ ∧ g.input? 8 1 = some ⟨7, 0⟩
  port : g.port? ⟨8, 0⟩ = some ⟨.f32, some out⟩ ∧ g.port? ⟨5, 0⟩ = some ⟨.f32, some [1, 2]⟩
  result : g.input? 9 0 = some ⟨8, 0⟩
  ranges : (g.input? 5 3).bind g.constant? = some (.scalar 0) ∧
    (g.input? 5 4).bind g.constant? = some (.scalar high)
  source : RangeFusion.source? g 8 = some (5, scale)
  found : fuseMultiply.pattern.matchAt g 8 = some ⟨8, .multiply, [6, 7], [9]⟩
  accepted : fuseMultiply.canApply (.start .default) g ⟨8, .multiply, [6, 7], [9]⟩ = .ok true

section Values

variable {high : Rat} {type : ElementType} {scale : Tensor Rat} {out : List Nat}

theorem scaledLevels_regular : (scaledLevels high type scale out).Regular :=
  assemble_regular (by simp [Op.kind, OpKind.HasOneOutput])

theorem scaledLevels_filled (hscale : scale.Filled) : (scaledLevels high type scale out).Filled := by
  have hscalar : ∀ x : Rat, (Tensor.scalar x).Filled := fun _ => rfl
  exact filled_of_listed (by simp [hscalar, hscale])

def ones : TypedInterpretation := .extend fun op _ =>
  match op with
  | .parameter => some (.of [1, 2] fun _ => 1)
  | _ => none

theorem quantize_ones : (Values.of [1, 2] fun _ => 1).quantize 3 (Tensor.scalar 0).values
    (Tensor.scalar 2).values (Tensor.scalar 0).values (Tensor.scalar high).values =
      some (.of [1, 2] fun _ => high / 2) := by
  have hscalar : ∀ (x : Rat) (i : Index), (Tensor.scalar x).values.valueAt i = x := fun x i => rfl
  refine congrArg some (Values.of_congr fun i hi => ?_)
  have hone : (Values.of [1, 2] fun _ => (1 : Rat)).valueAt i = 1 :=
    Values.get_of (Values.inside_fit (show broadcastShape [1, 2] [1, 2] = .ok [1, 2] from rfl) hi)
  have hplace : Arithmetic.round ((1 - 0 : Rat) / (2 - 0) * Arithmetic.ofNat 2) / Arithmetic.ofNat 2 =
      1 / 2 := by decide +kernel
  have hlow : ¬ (1 : Rat) ≤ Arithmetic.lesser 0 2 := by decide +kernel
  have hhigh : ¬ Arithmetic.greater (2 : Rat) 0 < 1 := by decide +kernel
  simp only [hscalar, hone]
  have hmiddle : fakeQuantize 1 0 2 0 high 3 =
      .ok (Arithmetic.round ((1 - 0 : Rat) / (2 - 0) * Arithmetic.ofNat 2) / Arithmetic.ofNat 2 *
        (high - 0) + 0) := by
    unfold fakeQuantize
    simp [Checked.pred, hlow, hhigh]
  rw [hmiddle, hplace]
  exact (by ring : 1 / 2 * (high - 0) + 0 = high / 2)

theorem IsScaledLevels.value_levels {g : Graph Rat} (h : IsScaledLevels g high type scale out)
    (hv : g.Evaluates ones.run v) : v ⟨5, 0⟩ = some (.of [1, 2] fun _ => high / 2) := by
  obtain ⟨n, hn, hop⟩ := Option.map_eq_some_iff.mp h.input
  have hinput : v ⟨0, 0⟩ = some (.of [1, 2] fun _ => 1) := by
    rw [hv.eq_run (s := ⟨0, 0⟩) (face?_eq_some.mpr ⟨n, hn, rfl⟩), Node.face, hop]
    rfl
  obtain ⟨hlow, hhigh⟩ := h.bounds
  have hport : ∀ s t, g.constant? s = some t → s.index = 0 → v s = some t.values := by
    intro s t ht hs
    obtain ⟨k, hk, hop⟩ := constant?_eq_some.mp ht
    rw [hv.eq_run hk, hop, hs]
    rfl
  rw [TypedInterpretation.value_quantizesTo hv h.regular h.levels, hinput, hport _ _ hlow rfl,
    hport _ _ hhigh rfl]
  exact quantize_ones

theorem IsScaledLevels.ready {g : Graph Rat} (h : IsScaledLevels g high type scale out)
    (hjoins : ∀ x, (Tensor.scalar x).Joins scale) : fuseMultiply.Ready g 8 := by
  intro fakeQuantize value hsource index bound hindex hbound
  cases h.source.symm.trans hsource
  rcases hindex with rfl | rfl
  · cases h.ranges.1.symm.trans hbound
    exact hjoins 0
  · cases h.ranges.2.symm.trans hbound
    exact hjoins high

end Values

end Sample

/-- Arithmetic with a constant may as well be done on the output range, with the shape and where the
conversions are exact. -/
theorem range_fusion_preserves_reads {s : Session Rat} {rule : Rule} {m : NodeMatch}
    (hrule : rule.Fuses f) (hg : s.graph.Regular) (hfilled : s.graph.Filled)
    (hm : rule.pattern.matchAt s.graph id = some m)
    (hcan : rule.canApply s.context s.graph m = .ok true) (hv : s.graph.Evaluates I.run v) :
    ∃ fakeQuantize value a b, RangeFusion.source? s.graph id = some (fakeQuantize, value) ∧
      s.graph.input? id 0 = some a ∧ s.graph.input? id 1 = some b ∧
      (rule.Ready s.graph id → ∃ s', exec (rule.apply m) s = .ok (.ok true, s')) ∧
      ∀ s', exec (rule.apply m) s = .ok (.ok true, s') →
        ∃ fused, FusedRange I s.graph s'.graph v id fakeQuantize fused f value a b := by
  obtain ⟨⟨fakeQuantize, value⟩, hsource⟩ := Option.isSome_iff_exists.mp (hrule.source_of_canApply hcan)
  obtain ⟨n, -, -, rfl⟩ := Pattern.matchAt_eq_some hm
  obtain ⟨k, a, -, -, -, -, -, ha, -⟩ := RangeFusion.source?_eq_some hsource
  obtain ⟨b, hb, -⟩ := Option.bind_eq_some_iff.mp (RangeFusion.value_of_source? hsource)
  exact ⟨fakeQuantize, value, a, b, hsource, ha, hb, hrule.exists_apply hg hm hcan,
    fun s' => hrule.fusedRange hg hfilled hm hv hsource ha hb⟩

theorem range_fusion_preserves_reads_of_levels :
    ∃ I : TypedInterpretation, ∃ v m f, ∃ s : Session Rat, fuseMultiply.Fuses f ∧ s.graph.Regular ∧
      s.graph.Filled ∧ fuseMultiply.pattern.matchAt s.graph 8 = some m ∧
      fuseMultiply.canApply s.context s.graph m = .ok true ∧ s.graph.Evaluates I.run v ∧
      fuseMultiply.Ready s.graph 8 ∧ (∀ x, v ⟨5, 0⟩ = some x → s.graph.ExactAt ⟨6, 0⟩ x) ∧
      s.graph.ExactAt ⟨7, 0⟩ (Tensor.scalar (1 / 2)).values ∧
      ∃ fakeQuantize value a b, RangeFusion.source? s.graph 8 = some (fakeQuantize, value) ∧
        s.graph.input? 8 0 = some a ∧ s.graph.input? 8 1 = some b ∧
        (fuseMultiply.Ready s.graph 8 → ∃ s', exec (fuseMultiply.apply m) s = .ok (.ok true, s')) ∧
        ∀ s', exec (fuseMultiply.apply m) s = .ok (.ok true, s') →
          ∃ fused, FusedRange I s.graph s'.graph v 8 fakeQuantize fused f value a b := by
  generalize hdef : scaledLevels 2 .u8 (.scalar (1 / 2)) [1, 2] = g
  have h : IsScaledLevels g 2 .u8 (.scalar (1 / 2)) [1, 2] := by
    subst hdef
    exact ⟨scaledLevels_regular, scaledLevels_filled rfl, by decide +kernel,
      ⟨_, ⟨3, 0⟩, ⟨4, 0⟩, [], rfl, rfl, rfl, by decide +kernel, by decide +kernel⟩, by decide +kernel,
      rfl, by decide +kernel, by decide +kernel, by decide +kernel, by decide +kernel, by decide +kernel,
      by decide +kernel, by decide +kernel, by decide +kernel⟩
  obtain ⟨rank, hr⟩ := h.regular.acyclic
  obtain ⟨v, hv⟩ := exists_evaluates ones.run hr
  have hdata : ∀ x, v ⟨5, 0⟩ = some x → g.ExactAt ⟨6, 0⟩ x := by
    intro x hx k type hk hop i hi
    cases h.stored.symm.trans hk
    cases hop
    rw [h.value_levels hv, Option.some.injEq] at hx
    subst hx
    have hget : (Values.of [1, 2] fun _ => (2 / 2 : Rat)).get i = 2 / 2 := Values.get_of hi
    rw [hget]
    decide +kernel
  have hconstant : g.ExactAt ⟨7, 0⟩ (Tensor.scalar (1 / 2)).values := by
    intro k type hk hop
    obtain ⟨k', hk', hop'⟩ := constant?_eq_some.mp h.constant
    cases hk.symm.trans hk'
    cases hop.symm.trans hop'
  have hjoins : ∀ x : Rat, (Tensor.scalar x).Joins (.scalar (1 / 2)) := fun x =>
    ⟨rfl, rfl, [], 1, rfl, rfl, Nat.one_pos, rfl⟩
  exact ⟨ones, v, _, _, ⟨g, .start .default⟩, .multiply, h.regular, h.filled, h.found, h.accepted, hv,
    h.ready hjoins, hdata, hconstant, range_fusion_preserves_reads (s := ⟨g, .start .default⟩) .multiply
      h.regular h.filled h.found h.accepted hv⟩

theorem range_fusion_skips_rounding :
    ∃ I : TypedInterpretation, ∃ v m, ∃ s s' : Session Rat, s.graph.Regular ∧ s.graph.Filled ∧
      fuseMultiply.pattern.matchAt s.graph 8 = some m ∧
      fuseMultiply.canApply s.context s.graph m = .ok true ∧ s.graph.Evaluates I.run v ∧
      exec (fuseMultiply.apply m) s = .ok (.ok true, s') ∧ s.graph.input? 9 0 = some ⟨8, 0⟩ ∧
      ∃ fused, s'.graph.input? 9 0 = some ⟨fused, 0⟩ ∧
        (s.graph.port? ⟨8, 0⟩).map Port.shape = some (some [2, 2]) ∧
        (s'.graph.port? ⟨fused, 0⟩).map Port.shape = some (some [1, 2]) ∧
        ∀ v', s'.graph.Evaluates I.run v' → v' ⟨fused, 0⟩ ≠ v ⟨8, 0⟩ := by
  generalize hdef : scaledLevels 1 .i8 ⟨[2, 1], [2, 4]⟩ [2, 2] = g
  have h : IsScaledLevels g 1 .i8 ⟨[2, 1], [2, 4]⟩ [2, 2] := by
    subst hdef
    exact ⟨scaledLevels_regular, scaledLevels_filled rfl, by decide +kernel,
      ⟨_, ⟨3, 0⟩, ⟨4, 0⟩, [], rfl, rfl, rfl, by decide +kernel, by decide +kernel⟩, by decide +kernel,
      rfl, by decide +kernel, by decide +kernel, by decide +kernel, by decide +kernel, by decide +kernel,
      by decide +kernel, by decide +kernel, by decide +kernel⟩
  obtain ⟨rank, hr⟩ := h.regular.acyclic
  obtain ⟨v, hv⟩ := exists_evaluates ones.run hr
  have hjoins : ∀ x : Rat, (Tensor.scalar x).Joins ⟨[2, 1], [2, 4]⟩ := fun x =>
    ⟨rfl, rfl, [2, 1], 2, rfl, rfl, by decide, rfl⟩
  obtain ⟨s', hrun⟩ := Fuses.multiply.exists_apply (s := ⟨g, .start .default⟩) h.regular h.found h.accepted
    (h.ready hjoins)
  obtain ⟨fused, hfused⟩ := Fuses.multiply.fusedRange h.regular h.filled h.found hv h.source h.inputs.1
    h.inputs.2 hrun
  refine ⟨ones, v, _, ⟨g, .start .default⟩, s', h.regular, h.filled, h.found, h.accepted, hv, hrun,
    h.result, fused, hfused.readers ⟨9, 0⟩ h.result, by rw [h.port.1]; rfl,
    by rw [hfused.shape, h.port.2]; rfl, fun v' hv' hsame => ?_⟩
  obtain ⟨n, hn, hkind, -⟩ := Pattern.matchAt_eq_some h.found
  have hstored : v ⟨6, 0⟩ = some (.map (ones.store .i8) (.of [1, 2] fun _ => 1 / 2)) := by
    have hport : (g.port? ⟨6, 0⟩).isSome := by
      rw [port?_eq_face, h.stored]
      rfl
    rw [TypedInterpretation.value_convert hv h.regular hport h.stored rfl rfl, h.value_levels hv]
    rfl
  have hscale : v ⟨7, 0⟩ = some (Tensor.values ⟨[2, 1], [2, 4]⟩) := by
    obtain ⟨p, hp⟩ := h.regular.wellFormed.exists_port h.inputs.2
    exact TypedInterpretation.value_constant hv h.regular (by rw [hp]; rfl) h.constant
  rw [hfused.computes v' hv', h.value_levels hv,
    Fuses.multiply.value_node hv hn hkind h.inputs.1 h.inputs.2, hstored, hscale] at hsame
  have hfirst := congrArg (Option.map (·.get [0, 0])) hsame
  revert hfirst
  decide +kernel

end Rule

end LowPrecision
