import LowPrecision.Proofs.Rewrite.Installation
import LowPrecision.Rewrite.Fusion

namespace LowPrecision

variable {α : Type} {g : Graph α} {rank : NodeId → Nat} {id : NodeId} {n : Node α} {m : NodeMatch}

namespace ConvertFusion

variable {slot : Nat} {source : Slot}

theorem source?_eq_some {input : Slot} (h : source? g input = some source) :
    ∃ n destination p, g.node? input.node = some n ∧ n.op = .convert destination ∧
      n.inputs[0]? = some source ∧ g.port? source = some p ∧
      p.elementType.isLowPrecision = true ∧ g.kind? source.node ≠ some .constant := by
  obtain ⟨n, hn, h⟩ := Option.bind_eq_some_iff.mp h
  split at h
  · next destination hop =>
    obtain ⟨s, hs, h⟩ := Option.bind_eq_some_iff.mp h
    obtain ⟨p, hp, h⟩ := Option.bind_eq_some_iff.mp h
    rw [Option.ite_none_right_eq_some] at h
    obtain ⟨hcond, h⟩ := h
    cases h
    simp only [Bool.and_eq_true, bne_iff_ne] at hcond
    exact ⟨n, destination, p, hn, hop, hs, hp, hcond.1.2, hcond.2⟩
  · cases h

theorem source?_below (hr : g.Ranked rank) {input : Slot} (h : source? g input = some source) :
    rank source.node < rank input.node ∧ (g.port? source).isSome := by
  obtain ⟨n, _, p, hn, -, hs, hp, -⟩ := source?_eq_some h
  exact ⟨below_of_input hr hn (List.mem_of_getElem? hs), by rw [hp]; rfl⟩

theorem fusable?_eq_some (h : fusable? g id = some (slot, source)) :
    ∃ n input, g.node? id = some n ∧ n.inputs[slot]? = some input ∧
      source? g input = some source := by
  obtain ⟨n, hn, h⟩ := Option.bind_eq_some_iff.mp h
  dsimp only at h
  split at h
  · next candidate hcandidates =>
    cases h
    obtain ⟨⟨input, i⟩, hinput, hsource⟩ :=
      List.mem_filterMap.mp (hcandidates ▸ List.mem_singleton_self (slot, source))
    obtain ⟨_, hsource, heq⟩ := Option.map_eq_some_iff.mp hsource
    cases heq
    exact ⟨n, input, hn, List.mem_zipIdx_iff_getElem?.mp hinput, hsource⟩
  · cases h

def fused (n : Node α) (slot : Nat) (source : Slot) : Face α :=
  ⟨n.op, n.inputs.set slot source, n.outputs.map Wire.port, some (.float 2 1)⟩

theorem apply_none (h : fusable? g m.node = none) : exec (apply m) g = .ok (.ok false, g) := by
  rw [apply, exec_bind_ok (Edit.exec_read _ _), h]
  rfl

theorem apply_ok (hg : g.WellFormed) (hr : g.Ranked rank) (hn : g.node? m.node = some n)
    (hone : n.outputs.length = 1) (hkind : ¬ n.kind.IsInterface)
    (h : fusable? g m.node = some (slot, source)) :
    ∃ g', exec (apply m) g = .ok (.ok true, g') ∧
      Exchanged g g' m.node (fused n slot source) ∧
      Supplanted g g' rank m.node g.nodes.size g.nodes.size n.kind := by
  obtain ⟨n', input, hn', hinput, hsource⟩ := fusable?_eq_some h
  obtain rfl : n = n' := Option.some.inj (hn.symm.trans hn')
  obtain ⟨hlt, hport⟩ := source?_below hr hsource
  have hbelow : ∀ s ∈ n.inputs.set slot source, rank s.node < rank m.node ∧ (g.port? s).isSome := by
    intro s hs
    rcases List.mem_or_eq_of_mem_set hs with hs | rfl
    · exact ⟨below_of_input hr hn hs, isSome_port_of_input hg hn hs⟩
    · exact ⟨Nat.lt_trans hlt (below_of_input hr hn (List.mem_of_getElem? hinput)), hport⟩
  obtain ⟨g₁, hadd, h₁⟩ := Edit.addNode_ok hg s!"{n.name}/Fused" n.op (n.inputs.set slot source)
    (n.outputs.map Wire.port) fun s hs => (hbelow s hs).2
  have hlive : g₁.isLive g.nodes.size = true := Graph.isLive_iff_face.mpr ⟨_, h₁.new⟩
  obtain ⟨g₂, hrelax, h₂⟩ := Graph.setRelaxed_ok h₁.wellFormed hlive (.float 2 1)
  obtain ⟨g', hreplaced, hexchanged, hsupplanted⟩ := exchange_ok hg hr hn hone hkind (h₁.relax h₂)
    hbelow (by simpa [Face.relax] using hone)
  refine ⟨g', ?_, hexchanged, hsupplanted⟩
  rw [apply, exec_bind_ok (Edit.exec_read _ _), h]
  dsimp only
  rw [exec_bind_ok (Edit.exec_node hn), exec_bind_ok hadd,
    exec_bind_ok (Edit.exec_ofGraph_ok (by rw [Edit.exec_step, hrelax])),
    exec_bind_ok (Edit.exec_ofGraph_ok hreplaced)]
  rfl

end ConvertFusion

section Constants

variable {value : Tensor α}

theorem exchange_constant (hg : g.WellFormed) (hr : g.Ranked rank) (hn : g.node? id = some n)
    (hone : n.outputs.length = 1) (hkind : ¬ n.kind.IsInterface) (base : String)
    (value : Tensor α) (type : ElementType) :
    ∃ g', exec (do
        let constant ← Edit.addConstant base value type
        Edit.ofGraph (Graph.replaceNode id constant.node)
        return true : Edit α TransformError Bool) g = .ok (.ok true, g') ∧
      Exchanged g g' id ⟨.constant value, [], [⟨type, some value.shape⟩], none⟩ ∧
      Supplanted g g' rank id g.nodes.size g.nodes.size .constant := by
  obtain ⟨g₁, hadd, h₁⟩ := Edit.addConstant_ok hg base value type
  obtain ⟨g', hreplaced, hexchanged, hsupplanted⟩ :=
    exchange_ok hg hr hn hone hkind h₁ (by simp) rfl
  refine ⟨g', ?_, hexchanged, hsupplanted⟩
  rw [exec_bind_ok hadd, exec_bind_ok (Edit.exec_ofGraph_ok hreplaced)]
  rfl

theorem Sanitize.constant?_eq_some [Scalar α] (h : constant? g m = some value) :
    ∃ old data, g.constant? ⟨m.node, 0⟩ = some old ∧ sanitize old.data = some data ∧
      value = ⟨old.shape, data⟩ := by
  rw [constant?] at h
  dsimp only at h
  split at h
  · cases h
  · obtain ⟨old, hold, h⟩ := Option.bind_eq_some_iff.mp h
    obtain ⟨data, hdata, h⟩ := Option.bind_eq_some_iff.mp h
    cases h
    exact ⟨old, data, hold, hdata, rfl⟩

theorem Sanitize.apply_none [Scalar α] (h : constant? g m = none) :
    exec (apply m) g = .ok (.ok false, g) := by
  rw [apply, exec_bind_ok (Edit.exec_read _ _), h]
  rfl

theorem Sanitize.apply_ok [Scalar α] (hg : g.WellFormed) (hr : g.Ranked rank)
    (hn : g.node? m.node = some n) (hone : n.outputs.length = 1) (hkind : ¬ n.kind.IsInterface)
    (h : constant? g m = some value) :
    ∃ g' p, exec (apply m) g = .ok (.ok true, g') ∧ g.port? ⟨m.node, 0⟩ = some p ∧
      Exchanged g g' m.node ⟨.constant value, [], [⟨p.elementType, some value.shape⟩], none⟩ ∧
      Supplanted g g' rank m.node g.nodes.size g.nodes.size .constant := by
  obtain ⟨p, hp, -⟩ := port_of_single hn hone
  obtain ⟨g', hexec, hexchanged, hsupplanted⟩ := exchange_constant hg hr hn hone hkind
    s!"{n.name}/Sanitized" value p.elementType
  refine ⟨g', p, ?_, hp, hexchanged, hsupplanted⟩
  rw [apply, exec_bind_ok (Edit.exec_read _ _), h]
  dsimp only
  rw [exec_bind_ok (Edit.exec_node hn), exec_bind_ok (Edit.exec_port hp)]
  exact hexec

theorem FoldConvert.apply_none (hn : g.node? id = some n)
    (h : ∀ destination, n.op = .convert destination → (n.input? 0).bind g.constant? = none) :
    exec (apply id) g = .ok (.ok false, g) := by
  rw [apply, exec_bind_ok (Edit.exec_node hn)]
  split
  · next destination hop =>
    rw [exec_bind_ok (Edit.exec_read _ _), h destination hop]
    rfl
  · rfl

theorem FoldConvert.apply_ok (hg : g.WellFormed) (hr : g.Ranked rank) (hn : g.node? id = some n)
    (hone : n.outputs.length = 1) {destination : ElementType} (hop : n.op = .convert destination)
    (h : (n.input? 0).bind g.constant? = some value) :
    ∃ g', exec (apply id) g = .ok (.ok true, g') ∧
      Exchanged g g' id ⟨.constant value, [], [⟨destination, some value.shape⟩], none⟩ ∧
      Supplanted g g' rank id g.nodes.size g.nodes.size .constant := by
  have hkind : ¬ n.kind.IsInterface := by simp [OpKind.IsInterface, Node.kind, hop, Op.kind]
  obtain ⟨g', hexec, hdone⟩ := exchange_constant hg hr hn hone hkind s!"{n.name}/Folded" value
    destination
  refine ⟨g', ?_, hdone⟩
  rw [apply, exec_bind_ok (Edit.exec_node hn)]
  simp only [hop]
  rw [exec_bind_ok (Edit.exec_read _ _), h]
  exact hexec

end Constants

namespace RangeFusion

variable {fakeQuantize : NodeId} {value : Tensor α}

theorem eq_of_checks {parent : NodeId} {constant : Tensor α}
    (h : (do
      let n ← g.node? parent
      let isConstant (index : Nat) : Bool := ((n.input? index).bind g.constant?).isSome
      if n.kind = .fakeQuantize && n.readerCount == 1 && isConstant 3 && isConstant 4 then
        return (parent, constant)
      else none) = some (fakeQuantize, value)) :
    (parent = fakeQuantize ∧ constant = value) ∧ ∃ n, g.node? fakeQuantize = some n ∧
      n.kind = .fakeQuantize ∧ n.readerCount = 1 ∧ (∃ low, (n.input? 3).bind g.constant? = some low) ∧
      ∃ high, (n.input? 4).bind g.constant? = some high := by
  obtain ⟨n, hn, h⟩ := Option.bind_eq_some_iff.mp h
  dsimp only at h
  rw [Option.ite_none_right_eq_some] at h
  obtain ⟨hchecks, heq⟩ := h
  cases heq
  simp only [Bool.and_eq_true, decide_eq_true_eq, beq_iff_eq, Option.isSome_iff_exists] at hchecks
  obtain ⟨⟨⟨hkind, hcount⟩, hlow⟩, hhigh⟩ := hchecks
  exact ⟨⟨rfl, rfl⟩, n, hn, hkind, hcount, hlow, hhigh⟩

theorem source?_eq_some (h : source? g id = some (fakeQuantize, value)) :
    ∃ n first, g.node? fakeQuantize = some n ∧ n.kind = .fakeQuantize ∧ n.readerCount = 1 ∧
      (∃ low, (n.input? 3).bind g.constant? = some low) ∧
      (∃ high, (n.input? 4).bind g.constant? = some high) ∧ g.input? id 0 = some first ∧
      (first.node = fakeQuantize ∨ ∃ c s, g.node? first.node = some c ∧ c.kind = .convert ∧
        c.readerCount = 1 ∧ g.input? first.node 0 = some s ∧ s.node = fakeQuantize) := by
  obtain ⟨constant, -, h⟩ := Option.bind_eq_some_iff.mp h
  dsimp only at h
  split at h
  · cases h
  · obtain ⟨parent, hparent, h⟩ := Option.bind_eq_some_iff.mp h
    obtain ⟨first, hfirst, rfl⟩ := Option.map_eq_some_iff.mp hparent
    split at h
    · next hconvert =>
      split at h
      · next hsingle =>
        obtain ⟨c, hc, hckind⟩ := Option.map_eq_some_iff.mp hconvert
        rw [hc, Option.map_some, Option.some.injEq] at hsingle
        obtain ⟨source, hsource, h⟩ := Option.bind_eq_some_iff.mp h
        obtain ⟨s, hs, hsnode⟩ := Option.map_eq_some_iff.mp hsource
        obtain ⟨⟨rfl, -⟩, n, hn, hkind, hcount, hlow, hhigh⟩ := eq_of_checks h
        exact ⟨n, first, hn, hkind, hcount, hlow, hhigh, hfirst,
          .inr ⟨c, s, hc, hckind, hsingle, hs, hsnode⟩⟩
      · cases h
    · obtain ⟨⟨rfl, -⟩, n, hn, hkind, hcount, hlow, hhigh⟩ := eq_of_checks h
      exact ⟨n, first, hn, hkind, hcount, hlow, hhigh, hfirst, .inl rfl⟩

theorem value_of_source? (h : source? g id = some (fakeQuantize, value)) :
    (g.input? id 1).bind g.constantValue? = some value := by
  obtain ⟨constant, hconstant, h⟩ := Option.bind_eq_some_iff.mp h
  dsimp only at h
  split at h
  · cases h
  · obtain ⟨parent, -, h⟩ := Option.bind_eq_some_iff.mp h
    split at h
    · split at h
      · obtain ⟨source, -, h⟩ := Option.bind_eq_some_iff.mp h
        exact (eq_of_checks h).1.2 ▸ hconstant
      · cases h
    · exact (eq_of_checks h).1.2 ▸ hconstant

theorem source?_below (hr : g.Ranked rank) (h : source? g id = some (fakeQuantize, value)) :
    rank fakeQuantize < rank id := by
  obtain ⟨n, first, -, -, -, -, -, hfirst, hpath⟩ := source?_eq_some h
  have hbelow := hr id 0 first hfirst
  rcases hpath with rfl | ⟨c, s, -, -, -, hs, rfl⟩
  · exact hbelow
  · exact Nat.lt_trans (hr first.node 0 s hs) hbelow

theorem fakeQuantize_gone (hg : g.WellFormed) (hr : g.Ranked rank)
    (h : source? g id = some (fakeQuantize, value)) {g₁ g₂ : Graph α} {p : NodeId → Prop}
    (hextends : g.Extends g₁ fun s => rank s.node < rank fakeQuantize) {new : NodeId}
    (hnew : g.nodes.size ≤ new) (hreplaced : Graph.Replaced g₁ g₂ id new p)
    (hgone : g₂.face? id = none) : g₂.face? fakeQuantize = none := by
  obtain ⟨n, first, hn, hkind, hcount, -, -, hfirst, hpath⟩ := source?_eq_some h
  obtain ⟨l, hl, hli⟩ := Graph.input?_eq_some.mp hfirst
  have hface : ∀ {v k}, g.node? v = some k → g₁.face? v = some k.face :=
    fun hk => hextends.face (Graph.face?_eq_some.mpr ⟨_, hk, rfl⟩)
  have hne : ∀ {v k}, g.node? v = some k → v ≠ new :=
    fun hk => Nat.ne_of_lt (Nat.lt_of_lt_of_le (Graph.lt_size_of_node? hk) hnew)
  have honly : ∀ {v u i s k}, g.node? v = some k → k.readerCount = 1 → g.input? u i = some s →
      s.node = v → rank fakeQuantize ≤ rank v → g₁.OnlyReadBy v u := by
    intro v u i s k hk hone hi hs hle
    refine (Graph.onlyReadBy_of_count hg hk hone hi hs).extends hextends
      (Graph.lt_size_of_node? hk) ?_
    rintro t ht rfl
    exact Nat.not_lt.mpr hle ht
  have hbelow := hr id 0 first hfirst
  rcases hpath with rfl | ⟨c, s, hc, hckind, hccount, hs, rfl⟩
  · exact hreplaced.gone_behind (hface hl) hgone (List.mem_of_getElem? hli) rfl (hface hn)
      (not_interface_of_kind hkind (by decide) (by decide)) (fun he => Nat.ne_of_lt hbelow (by rw [he])) (hne hn)
      (honly hn hcount hfirst rfl (Nat.le_refl _))
  · have hconvert := hr first.node 0 s hs
    have hcgone := hreplaced.gone_behind (hface hl) hgone (List.mem_of_getElem? hli) rfl (hface hc)
      (not_interface_of_kind hckind (by decide) (by decide)) (fun he => Nat.ne_of_lt hbelow (by rw [he])) (hne hc)
      (honly hc hccount hfirst rfl (Nat.le_of_lt hconvert))
    obtain ⟨c', hc', hci⟩ := Graph.input?_eq_some.mp hs
    obtain rfl : c = c' := Option.some.inj (hc.symm.trans hc')
    refine hreplaced.gone_behind (hface hc) hcgone (List.mem_of_getElem? hci) rfl (hface hn)
      (not_interface_of_kind hkind (by decide) (by decide)) ?_ (hne hn) (honly hn hcount hs rfl (Nat.le_refl _))
    exact fun he => Nat.lt_asymm hconvert (by rw [he]; exact hbelow)

theorem free_of_gone (hg : g.WellFormed) {g₁ g₂ : Graph α} {q : Slot → Prop} {p : NodeId → Prop}
    {new v : NodeId} {name : String} (hextends : g.Extends g₁ q)
    (hreplaced : Graph.Replaced g₁ g₂ id new p) (hnew : g₂.name? new = g.name? id)
    (hv : g.name? v = some name) (hne : v ≠ id) (hgone : g₂.face? v = none) :
    g₂.nodeByName? name = none := by
  refine Option.eq_none_iff_forall_ne_some.mpr fun owner howner => ?_
  have howned := (hreplaced.wellFormed.index name owner).mp howner
  by_cases ho : owner = new
  · rw [ho, hnew] at howned
    exact hne (hg.eq_of_name hv howned)
  · obtain ⟨l, hl, -⟩ := Option.map_eq_some_iff.mp howned
    have hlive : g₂.isLive owner = true := Graph.isLive_of_node? hl
    rw [hreplaced.name owner ho hlive] at howned
    obtain ⟨k, hk, -⟩ := Option.map_eq_some_iff.mp hv
    have hkept := hextends.name v (Graph.lt_size_of_node? hk)
    obtain rfl := hextends.wellFormed.eq_of_name howned (hkept.trans hv)
    rw [Graph.isLive_eq_face, hgone] at hlive
    cases hlive

theorem apply_none (f : α → α → α) (h : source? g id = none) :
    exec (apply id f) g = .ok (.ok false, g) := by
  rw [apply, exec_bind_ok (Edit.exec_read _ _), h]
  rfl

variable {f : α → α → α} {low high outLow outHigh : Tensor α}

section Bound

variable {index : Nat}

theorem exec_bound {bound out : Tensor α}
    (hconstant : (g.input? fakeQuantize index).bind g.constant? = some bound)
    (hrun : (bound.broadcastZip value f).run = .ok (.ok out)) :
    exec (do
      match ← Edit.read fun g => (g.input? fakeQuantize index).bind g.constant? with
      | some bound => Edit.attempt fun _ => ExceptT.adapt .tensor (bound.broadcastZip value f)
      | none => throw (.notQuantizable fakeQuantize) : Edit α TransformError (Tensor α)) g =
        .ok (.ok out, g) := by
  rw [exec_bind_ok (Edit.exec_read _ _), hconstant]
  exact Edit.exec_attempt_ok (attempt_adapt_eq_ok.mpr hrun)

theorem bound_cases {g' : Graph α} {r : Except TransformError (Tensor α)}
    (hrun : exec (do
      match ← Edit.read fun g => (g.input? fakeQuantize index).bind g.constant? with
      | some bound => Edit.attempt fun _ => ExceptT.adapt .tensor (bound.broadcastZip value f)
      | none => throw (.notQuantizable fakeQuantize) : Edit α TransformError (Tensor α)) g =
        .ok (r, g')) :
    g' = g ∧ ∀ out, r = .ok out → ∃ bound,
      (g.input? fakeQuantize index).bind g.constant? = some bound ∧
        (bound.broadcastZip value f).run = .ok (.ok out) := by
  rw [exec_bind_ok (Edit.exec_read _ _)] at hrun
  split at hrun
  · next bound hbound =>
    refine ⟨Edit.silent_attempt _ _ _ _ hrun, ?_⟩
    rintro out rfl
    exact ⟨bound, hbound, attempt_adapt_eq_ok.mp (Edit.exec_attempt_eq_ok.mp hrun).1⟩
  · cases hrun
    exact ⟨rfl, fun out hout => by cases hout⟩

theorem silent_bound (id : NodeId) (index : Nat) (value : Tensor α) (f : α → α → α) : Silent (do
    match ← Edit.read fun g : Graph α => (g.input? id index).bind g.constant? with
    | some bound => Edit.attempt fun _ => ExceptT.adapt .tensor (bound.broadcastZip value f)
    | none => throw (.notQuantizable id) : Edit α TransformError (Tensor α)) :=
  fun _ _ _ hrun => (bound_cases hrun).1

end Bound

theorem apply_ok (hg : g.WellFormed) (hr : g.Ranked rank) (hn : g.node? id = some n)
    (hone : n.outputs.length = 1) (hkind : ¬ n.kind.IsInterface)
    (h : source? g id = some (fakeQuantize, value))
    (hlow : (g.input? fakeQuantize 3).bind g.constant? = some low)
    (hhigh : (g.input? fakeQuantize 4).bind g.constant? = some high)
    (hl : (low.broadcastZip value f).run = .ok (.ok outLow))
    (hh : (high.broadcastZip value f).run = .ok (.ok outHigh))
    (houtput : (g.port? ⟨fakeQuantize, 0⟩).isSome) :
    ∃ g', exec (apply id f) g = .ok (.ok true, g') ∧
      Graph.Reworked (Graph.makeRoom g.nodes.size 9 (rank id) rank) g.nodes.size (rank id + 9)
        (fun v k => Graph.IsStep k ∨ v = g.nodes.size + 2 ∧ k = .fakeQuantize) g g' ∧
      g'.name? (g.nodes.size + 2) = g.name? fakeQuantize := by
  obtain ⟨q, hq⟩ := Option.isSome_iff_exists.mp houtput
  obtain ⟨p, hp, -⟩ := port_of_single hn hone
  obtain ⟨k, -, hk, hkkind, -⟩ := source?_eq_some h
  obtain ⟨levels, hop⟩ := Op.exists_levels hkkind
  obtain ⟨data, inLow, inHigh, rest, hin⟩ := k.exists_ranges (by
    obtain ⟨s, hs, -⟩ := Option.bind_eq_some_iff.mp hlow
    obtain ⟨k', hk', hs⟩ := Graph.input?_eq_some.mp hs
    obtain rfl : k = k' := Option.some.inj (hk.symm.trans hk')
    exact Nat.le_of_lt (List.getElem?_eq_some_iff.mp hs).1)
  have hlt := source?_below hr h
  obtain ⟨g₁, hadd, hdoubled⟩ := addFakeQuantize_ok hg hk hop hin hq outLow outHigh p.elementType
  have hsourced := sourced_of_doubled (fun s hs => ranges_below hr hk hin hs) hdoubled
  obtain ⟨g₂, hreplace, hreplaced, hsupplanted⟩ :=
    (hsourced.above (Nat.le_of_lt hlt)).replace hg hr hn hone hkind
  have hgone := fakeQuantize_gone hg hr h hsourced.extended (Nat.le_add_right _ _) hreplaced
    hsupplanted.gone
  have hname : g.name? fakeQuantize = some k.name := by rw [Graph.name?, hk]; rfl
  have hfree : g₂.nodeByName? k.name = none :=
    free_of_gone hg hsourced.extended hreplaced hsupplanted.name hname
      (fun he => Nat.lt_irrefl _ (he ▸ hlt)) hgone
  have hlive : g₂.isLive (g.nodes.size + 2) = true := by
    have hnamed := hsupplanted.name
    rw [Graph.name?, Graph.name?, hn] at hnamed
    obtain ⟨l, hl, -⟩ := Option.map_eq_some_iff.mp hnamed
    exact Graph.isLive_of_node? hl
  obtain ⟨g', hrename, hwf, hsize, hfaces, hnames, -⟩ :=
    Graph.rename_ok hsupplanted.reworked.wellFormed hlive hfree
  refine ⟨g', ?_, hsupplanted.reworked.trans (.of_renamed hsupplanted.reworked.ranked
    (Nat.le_add_right _ 2) hwf hsize hfaces hnames), by rw [hnames, if_pos rfl, hname]⟩
  rw [apply, exec_bind_ok (Edit.exec_read _ _), h]
  dsimp only
  refine (exec_bind_ok (exec_bound hlow hl) _).trans ((exec_bind_ok (exec_bound hhigh hh) _).trans ?_)
  rw [exec_bind_ok (Edit.exec_port hp), exec_bind_ok (Edit.exec_node hk), exec_bind_ok hadd,
    exec_bind_ok (Edit.exec_ofGraph_ok hreplace),
    exec_bind_ok (Edit.exec_ofGraph_ok (by rw [Edit.exec_step, hrename]))]
  rfl

theorem apply_cases {g' : Graph α} {r : Except TransformError Bool}
    (h : source? g id = some (fakeQuantize, value))
    (hrun : exec (apply id f) g = .ok (r, g')) :
    r ≠ .ok true ∧ g' = g ∨ ∃ low high outLow outHigh,
      (g.input? fakeQuantize 3).bind g.constant? = some low ∧
      (g.input? fakeQuantize 4).bind g.constant? = some high ∧
      (low.broadcastZip value f).run = .ok (.ok outLow) ∧
      (high.broadcastZip value f).run = .ok (.ok outHigh) := by
  rw [apply, exec_bind_ok (Edit.exec_read _ _), h] at hrun
  dsimp only at hrun
  rcases exec_bind_eq_ok.mp hrun with ⟨outLow, g₁, hlow, hrest⟩ | ⟨e, hlow, rfl⟩
  rotate_left
  · exact .inl ⟨by simp, (bound_cases hlow).1⟩
  obtain ⟨rfl, hlow⟩ := bound_cases hlow
  rcases exec_bind_eq_ok.mp hrest with ⟨outHigh, g₂, hhigh, -⟩ | ⟨e, hhigh, rfl⟩
  rotate_left
  · exact .inl ⟨by simp, (bound_cases hhigh).1⟩
  obtain ⟨rfl, hhigh⟩ := bound_cases hhigh
  obtain ⟨low, hlow, hl⟩ := hlow outLow rfl
  obtain ⟨high, hhigh, hh⟩ := hhigh outHigh rfl
  exact .inr ⟨low, high, outLow, outHigh, hlow, hhigh, hl, hh⟩

end RangeFusion

end LowPrecision
