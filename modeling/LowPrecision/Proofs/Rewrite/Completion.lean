import LowPrecision.Proofs.Graph.Order
import LowPrecision.Proofs.Graph.Regions
import LowPrecision.Proofs.Rewrite.Rules

namespace LowPrecision

variable {α : Type} {g g' : Graph α} {id : NodeId} {n : Node α}

namespace Graph

def IsConstant (g : Graph α) (v : NodeId) : Prop := ∃ f, g.face? v = some f ∧ f.kind = .constant

def Bare (g : Graph α) : Prop :=
  ∀ v f, g.face? v = some f → f.kind = .constant → f.inputs = []

structure Plain (g : Graph α) : Prop where
  bare : g.Bare
  quantizer (v : NodeId) (f : Face α) : g.face? v = some f → f.kind = .fakeQuantize →
    f.inputs.length = 5

theorem assemble_plain {nodes : List (String × Op α × List Slot × List Port)}
    (hconstant : ∀ n ∈ nodes, n.2.1.kind = .constant → n.2.2.1 = [])
    (hquantizer : ∀ n ∈ nodes, n.2.1.kind = .fakeQuantize → n.2.2.1.length = 5) :
    (assemble nodes).Plain where
  bare v f hf hkind := by
    obtain ⟨n, hn, rfl⟩ := assemble_face hf
    exact hconstant n hn hkind
  quantizer v f hf hkind := by
    obtain ⟨n, hn, rfl⟩ := assemble_face hf
    exact hquantizer n hn hkind

def Sized (g : Graph α) : Prop :=
  ∀ v f, g.face? v = some f → f.kind ≠ .constant → ∀ p ∈ f.ports,
    Checked.reserve (max (p.rank.getD 0) 1) Tensor.dimensionWidth = .ok ()

def Lowerable (g : Graph α) (id : NodeId) : Prop :=
  ∃ f levels data inLow inHigh low high, g.face? id = some f ∧ f.op = .fakeQuantize levels ∧
    f.inputs = [data, inLow, inHigh, low, high] ∧ g.IsConstant low.node ∧ g.IsConstant high.node

theorem Replaced.bare {old new : NodeId} {p : NodeId → Prop} (h : Replaced g g' old new p)
    (hg : g.Bare) : g'.Bare := by
  intro v f' hf' hkind
  rcases h.node v with hkept | ⟨-, hgone⟩
  · rw [hkept] at hf'
    obtain ⟨f, hf, rfl⟩ := Option.map_eq_some_iff.mp hf'
    rw [Face.kind, Face.op_replace] at hkind
    have hnil := hg v f hf hkind
    rw [Face.replace_of_not_mem (by simp [hnil]), hnil]
  · rw [hgone] at hf'
    cases hf'

def Retains (g g' : Graph α) : Prop :=
  ∀ v f, g.face? v = some f →
    ∃ f', g'.face? v = some f' ∧ f'.ports.map Port.shape = f.ports.map Port.shape

theorem Retains.refl (g : Graph α) : Retains g g := fun _ f hf => ⟨f, hf, rfl⟩

theorem Retains.trans {g₁ g₂ g₃ : Graph α} (h : Retains g₁ g₂) (h' : Retains g₂ g₃) :
    Retains g₁ g₃ := by
  intro v f hf
  obtain ⟨f₂, hf₂, hshapes⟩ := h v f hf
  obtain ⟨f₃, hf₃, hshapes'⟩ := h' v f₂ hf₂
  exact ⟨f₃, hf₃, hshapes'.trans hshapes⟩

theorem Recast.retains {s : Slot} {type : ElementType}
    (h : Recast g g' fun v f => if v = s.node then f.retype s.index type else f) :
    g.Retains g' := by
  intro v f hf
  refine ⟨_, by rw [h.face, hf, Option.map_some], ?_⟩
  split
  · exact (map_modify Port.shape (f := (·.withType type)) (fun shape => shape) (fun _ => rfl) f.ports
      s.index).trans (List.modify_id ..)
  · rfl

theorem Retains.port (h : g.Retains g') (hn : g.node? id = some n) {index : Nat}
    (hindex : index < n.outputs.length) : ∃ p q, g.port? ⟨id, index⟩ = some p ∧
      g'.port? ⟨id, index⟩ = some q ∧ q.shape = p.shape := by
  obtain ⟨f', hf', hshapes⟩ := h id n.face (face?_eq_some.mpr ⟨n, hn, rfl⟩)
  have hp : n.face.ports[index]? = some n.outputs[index].port := by
    rw [Node.face, List.getElem?_map, List.getElem?_eq_getElem hindex]
    rfl
  have hat := congrArg (·[index]?) hshapes
  simp only [List.getElem?_map, hp, Option.map_some, Option.map_eq_some_iff] at hat
  obtain ⟨q, hq, hshape⟩ := hat
  refine ⟨_, q, ?_, ?_, hshape⟩
  · rw [port?_eq_face, face?, hn, Option.map_some]
    exact hp
  · rw [port?_eq_face, hf']
    exact hq

theorem Sized.reserve (h : g.Sized) (hid : ¬ g.IsConstant id) {index : Nat} {p : Port}
    (hp : g.port? ⟨id, index⟩ = some p) :
    Checked.reserve (max (p.rank.getD 0) 1) Tensor.dimensionWidth = .ok () := by
  rw [port?_eq_face] at hp
  obtain ⟨f, hf, hport⟩ := Option.bind_eq_some_iff.mp hp
  exact h id f hf (fun hkind => hid ⟨f, hf, hkind⟩) p (List.mem_of_getElem? hport)

theorem Maintains.isConstant (h : Maintains g g') {v : NodeId} (hv : v < g.nodes.size)
    (hconstant : g'.IsConstant v) : g.IsConstant v := by
  obtain ⟨f', hf', hkind⟩ := hconstant
  obtain ⟨f, hf, halike⟩ := h.old v f' hv hf'
  exact ⟨f, hf, halike.kind ▸ hkind⟩

theorem IsConstant.extends {q : Slot → Prop} {v : NodeId} (hv : g.IsConstant v)
    (h : Extends g g' q) : g'.IsConstant v := by
  obtain ⟨f, hf, hkind⟩ := hv
  exact ⟨f, h.face hf, hkind⟩

theorem Lowerable.extends {q : Slot → Prop} (hid : g.Lowerable id) (h : Extends g g' q) :
    g'.Lowerable id := by
  obtain ⟨f, levels, data, inLow, inHigh, low, high, hf, hop, hin, hlow, hhigh⟩ := hid
  exact ⟨f, levels, data, inLow, inHigh, low, high, h.face hf, hop, hin, hlow.extends h,
    hhigh.extends h⟩

theorem Lowerable.not_constant (h : g.Lowerable id) : ¬ g.IsConstant id := by
  obtain ⟨f, levels, -, -, -, -, -, hf, hop, -⟩ := h
  rintro ⟨k, hk, hkind⟩
  obtain rfl := Option.some.inj (hf.symm.trans hk)
  rw [Face.kind, hop] at hkind
  cases hkind

theorem Replaced.not_constant {old new : NodeId} {p : NodeId → Prop} (h : Replaced g g' old new p)
    {v : NodeId} (hv : ¬ g.IsConstant v) : ¬ g'.IsConstant v := by
  rintro ⟨k', hk', hkind⟩
  rcases h.node v with hkept | ⟨-, hgone⟩
  · rw [hkept] at hk'
    obtain ⟨k, hk, rfl⟩ := Option.map_eq_some_iff.mp hk'
    rw [Face.kind, Face.op_replace] at hkind
    exact hv ⟨k, hk, hkind⟩
  · rw [hgone] at hk'
    cases hk'

theorem Replaced.sized {old new : NodeId} {p : NodeId → Prop} (h : Replaced g g' old new p)
    (hg : g.Sized) : g'.Sized := by
  intro v f' hf' hkind
  rcases h.node v with hkept | ⟨-, hgone⟩
  · rw [hkept] at hf'
    obtain ⟨f, hf, rfl⟩ := Option.map_eq_some_iff.mp hf'
    rw [Face.kind, Face.op_replace] at hkind
    rw [Face.ports_replace]
    exact hg v f hf hkind
  · rw [hgone] at hf'
    cases hf'

theorem Replaced.lowerable {old new : NodeId} {p : NodeId → Prop} (h : Replaced g g' old new p)
    (hid : g.Lowerable id) (hnew : id ≠ new) (hstays : ¬ p id) (hold : ¬ g.IsConstant old) :
    g'.Lowerable id := by
  obtain ⟨f, levels, data, inLow, inHigh, low, high, hf, hop, hin, hlow, hhigh⟩ := hid
  have hf' : g'.face? id = some (f.replace id old new) := by
    rcases h.node id with hkept | ⟨hp, -⟩
    · rw [hkept, hf, Option.map_some]
    · exact absurd hp hstays
  let move : Slot → Slot := fun s => if s.node = old then ⟨new, s.index⟩ else s
  have hmove : ∀ s, g.IsConstant s.node → move s = s :=
    fun s hs => if_neg fun (he : s.node = old) => hold (he ▸ hs)
  have hin' : (f.replace id old new).inputs =
      [move data, move inLow, move inHigh, low, high] := by
    rw [Face.replace, if_neg hnew]
    change f.inputs.map move = _
    rw [hin]
    simp only [List.map_cons, List.map_nil, hmove low hlow, hmove high hhigh]
  have hconstant : ∀ (i : Nat) s, (f.replace id old new).inputs[i]? = some s →
      g.IsConstant s.node → g'.IsConstant s.node := by
    rintro i s hs ⟨k, hk, hkind⟩
    obtain ⟨l, hl⟩ := h.wellFormed.live_of_input
      (by rw [input?_eq_face, hf']; exact hs : g'.input? id i = some s)
    have hlive : g'.face? s.node = some l.face := face?_eq_some.mpr ⟨l, hl, rfl⟩
    rcases h.node s.node with hkept | ⟨-, hgone⟩
    · refine ⟨k.replace s.node old new, by rw [hkept, hk, Option.map_some], ?_⟩
      rwa [Face.kind, Face.op_replace]
    · rw [hgone] at hlive
      cases hlive
  exact ⟨_, levels, _, _, _, low, high, hf', by rw [Face.op_replace, hop], hin',
    hconstant 3 low (by rw [hin']; rfl) hlow, hconstant 4 high (by rw [hin']; rfl) hhigh⟩

end Graph

section Doubled

variable {levels : Nat} {data low high : Slot} {p : Port} {outLow outHigh : Tensor α}

theorem Doubled.new_cases (h : Doubled g g' levels data low high p outLow outHigh) {v : NodeId}
    {f : Face α} (hv : g.nodes.size ≤ v) (hf : g'.face? v = some f) :
    f.kind = .constant ∧ f.inputs = [] ∨ f.kind = .fakeQuantize ∧ f.ports = [p] := by
  rcases h.new_face hv hf with ⟨value, rfl⟩ | ⟨-, rfl⟩
  · exact .inl ⟨rfl, rfl⟩
  · exact .inr ⟨rfl, rfl⟩

theorem Doubled.bare (h : Doubled g g' levels data low high p outLow outHigh) (hg : g.Bare) :
    g'.Bare := by
  intro v f hf hkind
  rcases Nat.lt_or_ge v g.nodes.size with hlt | hge
  · exact hg v f (h.old v hlt ▸ hf) hkind
  · rcases h.new_cases hge hf with ⟨-, hnil⟩ | ⟨hquantizer, -⟩
    · exact hnil
    · rw [hkind] at hquantizer
      cases hquantizer

theorem Doubled.sized (h : Doubled g g' levels data low high p outLow outHigh) (hg : g.Sized)
    (hp : Checked.reserve (max (p.rank.getD 0) 1) Tensor.dimensionWidth = .ok ()) : g'.Sized := by
  intro v f hf hkind
  rcases Nat.lt_or_ge v g.nodes.size with hlt | hge
  · exact hg v f (h.old v hlt ▸ hf) hkind
  · rcases h.new_cases hge hf with ⟨hconstant, -⟩ | ⟨-, hports⟩
    · exact absurd hconstant hkind
    · intro q hq
      rw [hports, List.mem_singleton] at hq
      rwa [hq]

theorem Doubled.not_constant (h : Doubled g g' levels data low high p outLow outHigh) :
    ¬ g'.IsConstant (g.nodes.size + 2) := by
  rintro ⟨f, hf, hkind⟩
  cases h.fakeQuantize.symm.trans hf
  cases hkind

theorem Doubled.encloses {inLow inHigh : Slot} {f : Face α}
    (h : Doubled g g' levels data inLow inHigh p outLow outHigh) (hbare : g'.Bare)
    (hf : g.face? id = some f) (hin : f.inputs = [data, inLow, inHigh, low, high])
    (hself : ∀ s ∈ f.inputs, s.node ≠ id) (hlow : g.IsConstant low.node)
    (hhigh : g.IsConstant high.node) :
    g'.Encloses id (g.nodes.size + 2) fun v => v = id ∨ g'.IsConstant v := by
  have hne : id ≠ g.nodes.size + 2 := Nat.ne_of_lt (Nat.lt_add_right 2 (Graph.lt_size_of_face? hf))
  rintro v k hk (rfl | ⟨k', hk', hkind⟩) s hs hall
  · obtain rfl := Option.some.inj ((h.face hf).symm.trans hk)
    rw [Face.replace_of_not_mem hself, hin] at hs
    have hread : s = data ∨ s = inLow ∨ s = inHigh → s.node = v ∨ g'.IsConstant s.node := by
      intro hs'
      refine (hall _ _ h.fakeQuantize s ?_ rfl).elim (fun he => absurd he.symm hne)
        fun hc => absurd hc h.not_constant
      rw [Face.replace, if_pos rfl]
      simp only [List.mem_cons]
      tauto
    simp only [List.mem_cons, List.not_mem_nil, or_false] at hs
    rcases hs with hs | hs | hs | rfl | rfl
    · exact hread (.inl hs)
    · exact hread (.inr (.inl hs))
    · exact hread (.inr (.inr hs))
    · exact .inr (hlow.extends h.toExtends)
    · exact .inr (hhigh.extends h.toExtends)
  · obtain rfl := Option.some.inj (hk'.symm.trans hk)
    rw [Face.replace_of_not_mem (by simp [hbare v k' hk' hkind]), hbare v k' hk' hkind] at hs
    exact absurd hs List.not_mem_nil

end Doubled

theorem Rewrite.completes_edit {fault : Prop} {β : Type} {p : Graph α → Prop}
    {e : Edit α TransformError β} (h : Completes fault p e) :
    Completes fault (fun s : Session α => p s.graph) (Rewrite.edit e) := by
  intro s hs
  rw [Rewrite.exec_edit]
  rcases h s.graph hs with ⟨hfault, e', hexec⟩ | ⟨b, g', hexec, hg'⟩
  · exact .inl ⟨hfault, e', by rw [hexec]; rfl⟩
  · exact .inr ⟨b, _, by rw [hexec]; rfl, hg'⟩

namespace ConcatPlan

open LowPrecision.Graph

variable {type : ElementType}

theorem exchangeBounds_keeps (hg : g.Regular) (hbare : g.Bare) (h : g.Lowerable id)
    (outLow outHigh : Tensor α) (type : ElementType) :
    ∃ g₁ g', exec (addFakeQuantize id outLow outHigh type) g = .ok (.ok (g.nodes.size + 2), g₁) ∧
      exec (Graph.replaceNode id (g.nodes.size + 2) : Edit α GraphError Unit) g₁ =
        .ok (.ok (), g') ∧
      g.Maintains g' ∧ g'.Bare ∧ (∀ b, b ≠ id → g.Lowerable b → g'.Lowerable b) ∧
      g.nodes.size + 2 < g'.nodes.size ∧ ¬ g'.IsConstant (g.nodes.size + 2) ∧
      (g.Sized → g'.Sized) := by
  have hid₁ := h
  obtain ⟨f, levels, data, inLow, inHigh, low, high, hf, hop, hin, hlow, hhigh⟩ := h
  obtain ⟨n, hn, rfl⟩ := Graph.face?_eq_some.mp hf
  change n.op = _ at hop
  change n.inputs = _ at hin
  obtain ⟨g₁, g', hadd, hreplace, hmaintains⟩ :=
    exchangeBounds_ok hg hn hop (by simp [hin]) outLow outHigh type
  obtain ⟨rank, hr⟩ := hg.acyclic
  have hone := hg.length_outputs hn (by simp [OpKind.HasOneOutput, Node.kind, hop, Op.kind])
  obtain ⟨port, hport, -⟩ := port_of_single hn hone
  obtain ⟨g₂, hadd', hdoubled⟩ := addFakeQuantize_ok hg.wellFormed hn hop hin hport outLow outHigh type
  obtain rfl : g₁ = g₂ := by
    rw [hadd] at hadd'
    cases hadd'
    rfl
  have hbare₁ : g₁.Bare := hdoubled.bare hbare
  have hne : id ≠ g.nodes.size + 2 :=
    Nat.ne_of_lt (Nat.lt_add_right 2 (Graph.lt_size_of_node? hn))
  have hself : ∀ s ∈ n.inputs, s.node ≠ id :=
    fun s hs he => Nat.lt_irrefl _ (he ▸ below_of_input hr hn hs)
  -- What goes is known better here than from the regularity alone: nothing but constants.
  obtain ⟨g₃, hreplace', hreplaced⟩ := Graph.replaceNode_ok (p := fun v => v = id ∨ g₁.IsConstant v)
    hdoubled.wellFormed (hdoubled.face hf) hdoubled.fakeQuantize (by simp [Node.face, hone])
    (.inl rfl) (fun hp => hp.elim (fun he => hne he.symm) hdoubled.not_constant)
    (hdoubled.encloses hbare₁ hf hin hself hlow hhigh)
  obtain rfl : g' = g₃ := by
    rw [hreplace] at hreplace'
    cases hreplace'
    rfl
  refine ⟨g₁, g', hadd, hreplace, hmaintains, hreplaced.bare hbare₁, fun b hb hlowerable => ?_, ?_,
    hreplaced.not_constant hdoubled.not_constant,
    fun hsized => hreplaced.sized (hdoubled.sized hsized ?_)⟩
  · have hb₁ := hlowerable.extends hdoubled.toExtends
    have hlt : b < g.nodes.size := by
      obtain ⟨k, -, -, -, -, -, -, hk, -⟩ := hlowerable
      exact Graph.lt_size_of_face? hk
    exact hreplaced.lowerable hb₁ (Nat.ne_of_lt (Nat.lt_add_right 2 hlt))
      (fun hp => hp.elim hb hb₁.not_constant) (hid₁.extends hdoubled.toExtends).not_constant
  · rw [hreplaced.size, hdoubled.count]
    exact Nat.lt_succ_self _
  · rw [Graph.port?_eq_face, hf] at hport
    exact hsized id n.face hf (by simp [Face.kind, Node.face, hop, Op.kind]) port
      (List.mem_of_getElem? hport)

theorem lowerBoundary_ok {branches : List (NodeId × Branch α)} {s : Session α}
    (hnodup : (branches.map Prod.fst).Nodup) (hg : s.graph.Regular) (hbare : s.graph.Bare)
    (hbranches : ∀ b ∈ branches, s.graph.Lowerable b.1) :
    ∃ lowered s', exec (lowerBoundary type branches) s = .ok (.ok lowered, s') ∧
      s.graph.Maintains s'.graph ∧ s'.graph.Bare ∧ (s.graph.Sized → s'.graph.Sized) ∧
      ∀ e ∈ lowered, ¬ s'.graph.IsConstant e.2.1 := by
  induction branches generalizing s with
  | nil => exact ⟨[], s, rfl, .refl hg, hbare, fun h => h, by simp⟩
  | cons b branches ih =>
    obtain ⟨id, branch⟩ := b
    obtain ⟨hid, hrest⟩ := List.nodup_cons.mp hnodup
    have hlowerable := hbranches (id, branch) List.mem_cons_self
    have hnode := hlowerable
    obtain ⟨f, -, -, -, -, -, -, hf, -⟩ := hnode
    obtain ⟨n, hn, -⟩ := Graph.face?_eq_some.mp hf
    obtain ⟨g₁, g₂, hadd, hreplace, hmaintains, hbare₂, hkeeps, hlt, hnew, hsized⟩ :=
      exchangeBounds_keeps hg hbare hlowerable branch.low branch.high type
    let s₂ : Session α :=
      ⟨g₂, { s.context with degenerate := s.context.degenerate + branch.degenerate }⟩
    have hne : ∀ b ∈ branches, b.1 ≠ id := fun b hb he => hid (he ▸ List.mem_map.mpr ⟨b, hb, rfl⟩)
    obtain ⟨lowered, s', hexec, hmaintains', hbare', hsized', hkinds⟩ := @ih s₂ hrest
      hmaintains.regular hbare₂ fun b hb => hkeeps b.1 (hne b hb) (hbranches b (List.mem_cons_of_mem _ hb))
    refine ⟨(n.name, s.graph.nodes.size + 2, branch.params) :: lowered, s', ?_,
      hmaintains.trans hmaintains', hbare', fun h => hsized' (hsized h), fun e he => ?_⟩
    · rw [exec_lowerBoundary_cons hn hadd hreplace, exec_bind_ok hexec]
      rfl
    · rcases List.mem_cons.mp he with rfl | he
      · exact fun hc => hnew (hmaintains'.isConstant hlt hc)
      · exact hkinds e he

section Behind

variable {fault : Prop} {g₁ : Graph α}

theorem retypeLayers_completes {ids : List NodeId} (hlive : ∀ id ∈ ids, g₁.isLive id = true) :
    Completes fault (fun g => g.WellFormed ∧ g₁.Retains g) (retypeLayers type ids) := by
  apply Completes.forM
  rintro id hid g ⟨hg, hretains⟩
  obtain ⟨k, hk⟩ := Option.isSome_iff_exists.mp (hlive id hid)
  obtain ⟨f, hf, -⟩ := hretains id k.face (Graph.face?_eq_some.mpr ⟨k, hk, rfl⟩)
  obtain ⟨n, hn, -⟩ := Graph.face?_eq_some.mp hf
  have hloop : Completes fault (fun g' => g'.WellFormed ∧ g.Retains g')
      ((List.range n.outputs.length).forM fun index =>
        Edit.ofGraph (Edit.step (·.setOutputType ⟨id, index⟩ type))) := by
    apply Completes.forM
    rintro index hindex g' ⟨hg', hretains'⟩
    obtain ⟨-, p, -, hp, -⟩ := hretains'.port hn (List.mem_range.mp hindex)
    obtain ⟨g'', hset, hrecast⟩ :=
      Graph.setOutputType_ok hg' (Option.isSome_iff_exists.mpr ⟨p, hp⟩) type
    refine .inr ⟨(), g'', Edit.exec_ofGraph_ok (by rw [Edit.exec_step, hset]), hrecast.wellFormed,
      hretains'.trans hrecast.retains⟩
  rw [exec_bind_ok (Edit.exec_node hn)]
  refine (hloop g ⟨hg, .refl g⟩).imp_right ?_
  rintro ⟨b, g', hexec, hg', hretains'⟩
  exact ⟨b, g', hexec, hg', hretains.trans hretains'⟩

variable [Scalar α]

omit [Scalar α] in
theorem perChannel_ok (values : List α) {rank : Nat}
    (h : Checked.reserve (max rank 1) Tensor.dimensionWidth = .ok ()) :
    ∃ t, Tensor.perChannel values rank = .ok t := by
  rw [Tensor.perChannel.eq_def]
  split
  · exact ⟨_, rfl⟩
  · rw [Checked.replicate, h]
    exact ⟨_, rfl⟩

theorem dequantization_ok (p : ChannelParams α) {port : Port}
    (h : Checked.reserve (max (port.rank.getD 0) 1) Tensor.dimensionWidth = .ok ()) :
    ∃ params, p.dequantization port = .ok params := by
  obtain ⟨scale, hscale⟩ := perChannel_ok p.scales h
  obtain ⟨zeroPoint, hzero⟩ := perChannel_ok p.zeroPoints h
  rw [ChannelParams.dequantization, AffineParams.ofChannels, hscale, hzero]
  split <;> exact ⟨_, rfl⟩

theorem dequantizeBehind_completes (inside : Region) (p : ChannelParams α)
    (hlive : g₁.isLive id = true) (hfault : fault ∨ g₁.Sized ∧ ¬ g₁.IsConstant id) :
    Completes fault (fun g => g.Regular ∧ g₁.Retains g) (dequantizeBehind inside id p) := by
  rintro g ⟨hg, hretains⟩
  obtain ⟨k, hk⟩ := Option.isSome_iff_exists.mp hlive
  obtain ⟨f, hf, hshapes⟩ := hretains id k.face (Graph.face?_eq_some.mpr ⟨k, hk, rfl⟩)
  obtain ⟨n, hn, rfl⟩ := Graph.face?_eq_some.mp hf
  have hlength : n.outputs.length = k.outputs.length := by
    simpa [Node.face] using congrArg List.length hshapes
  rw [dequantizeBehind, exec_bind_ok (Edit.exec_node hn), hlength]
  refine Completes.forM (p := fun g => g.Regular ∧ g₁.Retains g) ?_ g ⟨hg, hretains⟩
  rintro index hindex g' ⟨hg', hretains'⟩
  obtain ⟨q, q', hq, hq', hshape⟩ := hretains'.port hk (List.mem_range.mp hindex)
  rw [exec_bind_ok (Edit.exec_read _ _)]
  split
  rotate_left
  · exact .inr ⟨(), g', rfl, hg', hretains'⟩
  rw [exec_bind_ok (Edit.exec_port hq')]
  rcases hparams : p.dequantization q' with e | params
  · rcases hfault with hfault | ⟨hsized, hkind⟩
    · exact .inl ⟨hfault, e, by rw [exec_bind, exec_lift]; rfl⟩
    · have hrank : q'.rank = q.rank := congrArg (Option.map List.length) hshape
      obtain ⟨params, hok⟩ := dequantization_ok p (hrank ▸ hsized.reserve hkind hq)
      rw [hok] at hparams
      cases hparams
  · obtain ⟨d, g'', hinsert, hmaintains, hports⟩ := Graph.insert_maintains hg' hq'
      (fun r hr => (List.mem_filter.mp hr).1 : ∀ r ∈ inside.readersOutside g' ⟨id, index⟩, _)
      params n.name
    refine .inr ⟨(), g'', ?_, hmaintains.regular, hretains'.trans fun v f hf => ?_⟩
    · rw [exec_bind_ok (exec_lift_eq_ok.mpr ⟨rfl, rfl⟩)]
      exact exec_discard_ok hinsert
    · obtain ⟨f', hf', hsame⟩ := hports v f hf
      exact ⟨f', hf', by rw [hsame]⟩

end Behind

section Apply

variable [Scalar α] (fault : Prop) {concat : NodeId} {plan : ConcatPlan α} {s : Session α}

theorem Accepted.lowerable {c : Context} (h : Accepted c g concat plan) (hplain : g.Plain)
    (hid : id ∈ plan.region.boundary) : g.Lowerable id := by
  obtain ⟨-, r, -, -, hr⟩ := h.open hid
  obtain ⟨n, data, low, high, outLow, outHigh, rest, hn, hop, hin, -, -, hlow, hhigh, -⟩ :=
    Ranges.ofNode_eq_ok.mp hr
  have hf : g.face? id = some n.face := Graph.face?_eq_some.mpr ⟨n, hn, rfl⟩
  have hfive := hplain.quantizer id n.face hf (by simp [Face.kind, Node.face, hop, Op.kind])
  obtain rfl : rest = [] := by
    rw [Node.face, hin] at hfive
    exact List.length_eq_zero_iff.mp (by simpa using hfive)
  have hconstant : ∀ {s : Slot} {t : Tensor α}, g.constant? s = some t → g.IsConstant s.node := by
    intro s t hs
    rw [Graph.constant?_eq_face] at hs
    obtain ⟨f, hf, hvalue⟩ := Option.bind_eq_some_iff.mp hs
    refine ⟨f, hf, ?_⟩
    split at hvalue
    · next hconstant => rw [Face.kind, hconstant, Op.kind]
    · cases hvalue
  exact ⟨n.face, r.levels, data, low, high, outLow, outHigh, hf, hop, hin, hconstant hlow,
    hconstant hhigh⟩

theorem Accepted.nodup_boundary {c : Context} (h : Accepted c g concat plan) :
    plan.region.boundary.Nodup := (Region.closed_of_around h.region).nodup

theorem Accepted.not_constant {c : Context} (h : Accepted c g concat plan) (hbare : g.Bare)
    (hg : g.Maintains g') {lowered : List (String × NodeId × ChannelParams α)}
    (hlowered : ∀ e ∈ lowered, ¬ g'.IsConstant e.2.1) {e : NodeId × ChannelParams α}
    (he : e ∈ plan.layers ++ lowered.map Prod.snd) : ¬ g'.IsConstant e.1 := by
  rcases List.mem_append.mp he with hlayer | hquantizer
  · obtain ⟨hids, -⟩ := layerParams_eq_ok h.layers
    obtain ⟨hlt, hreads⟩ := h.reads (hids ▸ List.mem_map.mpr ⟨e, hlayer, rfl⟩)
    intro hconstant
    obtain ⟨f, hf, hkind⟩ := hg.isConstant hlt hconstant
    exact hreads f hf (hbare e.1 f hf hkind)
  · obtain ⟨entry, hentry, rfl⟩ := List.mem_map.mp hquantizer
    exact hlowered entry hentry

theorem rework_completes {c : Context} {s₁ : Session α} (h : Accepted c g concat plan)
    (hs : g.Maintains s₁.graph) (type : ElementType) (known : List (NodeId × ChannelParams α))
    (hfault : fault ∨ s₁.graph.Sized ∧ ∀ e ∈ known, ¬ s₁.graph.IsConstant e.1) :
    (fault ∧ ∃ e, exec (plan.rework type known) s₁ = .error e) ∨
      ∃ s', exec (plan.rework type known) s₁ = .ok (.ok (), s') := by
  obtain ⟨rank, hr⟩ := hs.regular.acyclic
  obtain ⟨order, horder, hperm⟩ := Graph.topologicalOrder_ok hs.regular.wellFormed hr
  have hordered : exec (Rewrite.editGraph (Edit.attempt Graph.topologicalOrder)) s₁ =
      .ok (.ok order, s₁) :=
    Rewrite.exec_edit_eq.mpr ⟨Edit.exec_ofGraph_ok (Edit.exec_attempt_ok horder), rfl⟩
  have hids : ∀ id ∈ order.filter fun id => known.any (·.1 = id), s₁.graph.isLive id = true := by
    intro id hid
    obtain ⟨⟨_, n⟩, hn, rfl⟩ := List.mem_map.mp (hperm.mem_iff.mp (List.mem_filter.mp hid).1)
    exact Option.isSome_iff_exists.mpr ⟨n, Graph.WellFormed.mem_liveNodes.mp hn⟩
  rw [rework, exec_bind_ok hordered]
  dsimp only
  generalize order.filter (fun id => known.any (·.1 = id)) = ids at hids
  generalize { Region.empty with layers := known.map Prod.fst } = inside
  obtain ⟨⟨⟩, s₂, hretype, hwf, hretains⟩ := (Rewrite.completes_edit (retypeLayers_completes
    fun id hid => hids id (List.mem_filter.mp hid).1)).returns ⟨hs.regular.wellFormed, .refl _⟩
  have hregular : s₂.graph.Regular := by
    obtain ⟨hgraph, -⟩ := Rewrite.exec_edit_eq.mp hretype
    exact (stays_retypeLayers (fun id hid => h.reads (of_decide_eq_true (List.mem_filter.mp hid).2))
      _ _ _ hs hgraph).1.regular
  rw [exec_bind_ok hretype]
  let inv (t : Session α) : Prop := t.graph.Regular ∧ s₁.graph.Retains t.graph
  refine (Completes.forM (p := inv) (fun id hid => ?_) s₂ ⟨hregular, hretains⟩).imp_right ?_
  · split
    · next key p hfind =>
      obtain rfl : key = id := by simpa using List.find?_some hfind
      exact Rewrite.completes_edit (dequantizeBehind_completes inside p (hids key hid)
        (hfault.imp_right fun h => ⟨h.1, h.2 _ (List.mem_of_find?_eq_some hfind)⟩))
    · exact Completes.pure ()
  · rintro ⟨⟨⟩, s', hexec, -⟩
    exact ⟨s', hexec⟩

theorem apply_completes (hg : s.graph.Regular) (hplain : s.graph.Plain)
    (h : Accepted s.context s.graph concat plan) (hfault : fault ∨ s.graph.Sized) :
    (fault ∧ ∃ e, exec (apply plan) s = .error e) ∨ ∃ s', exec (apply plan) s = .ok (.ok (), s') := by
  have hlength : plan.region.boundary.length = plan.branches.length :=
    h.ranges.length_eq.trans h.branches.length_eq
  have hkeys : (plan.region.boundary.zip plan.branches).map Prod.fst = plan.region.boundary := by
    rw [List.map_fst_zip (Nat.le_of_eq hlength)]
  obtain ⟨lowered, s₁, hlower, hmaintains, hbare, hsized, hkinds⟩ := @lowerBoundary_ok α
    (storageType s.context.params plan.grid.precision)
    (plan.region.boundary.zip plan.branches) s (hkeys.symm ▸ h.nodup_boundary) hg hplain.bare
    fun b hb => h.lowerable hplain (List.of_mem_zip hb).1
  have hrework := rework_completes fault h hmaintains
    (storageType s.context.params plan.grid.precision) (plan.layers ++ lowered.map Prod.snd)
    (hfault.imp_right fun hs => ⟨hsized hs, fun e => h.not_constant hplain.bare hmaintains hkinds⟩)
  rw [apply_eq, exec_bind_ok (Rewrite.exec_context s)]
  dsimp only
  rw [exec_bind_ok hlower]
  rcases hrework with ⟨hf, e, hexec⟩ | ⟨s₂, hexec⟩
  · exact .inl ⟨hf, e, exec_bind_fault hexec _⟩
  · obtain ⟨c, hmarks, -⟩ := Rewrite.markAll_ok lowered s₂
    exact .inr ⟨_, (exec_bind_ok hexec _).trans hmarks⟩

end Apply

end ConcatPlan

end LowPrecision
