import LowPrecision.Proofs.Attributes.Store
import LowPrecision.Proofs.Graph.Replacement

/-!
What a change leaves of the nodes of a graph, looked at slot by slot. Nothing is said about the
nodes that are gone, so that cycles and nodes with several outputs do not matter.
-/

namespace LowPrecision

variable {α : Type}

structure Face.Rerouted (move : Slot → Slot → Prop) (f f' : Face α) : Prop where
  op : f'.op = f.op
  ports : f'.ports = f.ports
  relaxed : f'.relaxed = f.relaxed
  inputs : List.Forall₂ (fun s s' => s' = s ∨ move s s') f.inputs f'.inputs

namespace Face.Rerouted

variable {move : Slot → Slot → Prop}

theorem refl (f : Face α) : f.Rerouted move f :=
  ⟨rfl, rfl, rfl, List.forall₂_same.mpr fun _ _ => .inl rfl⟩

theorem kind {f f' : Face α} (h : f.Rerouted move f') : f'.kind = f.kind := congrArg Op.kind h.op

theorem input {f f' : Face α} (h : f.Rerouted move f') {i : Nat} {s' : Slot}
    (hi : f'.inputs[i]? = some s') : ∃ s, f.inputs[i]? = some s ∧ (s' = s ∨ move s s') := by
  obtain ⟨hlt, rfl⟩ := List.getElem?_eq_some_iff.mp hi
  have hlt' : i < f.inputs.length := h.inputs.length_eq ▸ hlt
  exact ⟨f.inputs[i], List.getElem?_eq_getElem hlt', h.inputs.get hlt' hlt⟩

theorem input_old {f f' : Face α} (h : f.Rerouted move f') {i : Nat} {s : Slot}
    (hi : f.inputs[i]? = some s) : ∃ s', f'.inputs[i]? = some s' ∧ (s' = s ∨ move s s') := by
  obtain ⟨hlt, rfl⟩ := List.getElem?_eq_some_iff.mp hi
  have hlt' : i < f'.inputs.length := h.inputs.length_eq ▸ hlt
  exact ⟨f'.inputs[i], List.getElem?_eq_getElem hlt', h.inputs.get hlt hlt'⟩

theorem of_map {f : Face α} {onto : Slot → Slot}
    (h : ∀ s ∈ f.inputs, onto s = s ∨ move s (onto s)) : f.Rerouted move (f.mapInputs onto) :=
  ⟨rfl, rfl, rfl, List.forall₂_map_right_iff.mpr (List.forall₂_same.mpr h)⟩

end Face.Rerouted

namespace Graph

variable {g g' : Graph α} {move : Slot → Slot → Prop}

structure Rerouted (move : Slot → Slot → Prop) (g g' : Graph α) : Prop where
  wellFormed : g'.WellFormed
  size : g.nodes.size ≤ g'.nodes.size
  face (v : NodeId) (f' : Face α) : v < g.nodes.size → g'.face? v = some f' →
    ∃ f, g.face? v = some f ∧ f.Rerouted move f'

theorem Rerouted.kind (h : Rerouted move g g') {v : NodeId} {k : OpKind} (hv : v < g.nodes.size)
    (hk : g'.kind? v = some k) : g.kind? v = some k := by
  rw [kind?_eq_face] at hk
  obtain ⟨f', hf', rfl⟩ := Option.map_eq_some_iff.mp hk
  obtain ⟨f, hf, hsame⟩ := h.face v f' hv hf'
  rw [kind?_eq_face, hf, Option.map_some, hsame.kind]

structure Inherits (old new : NodeId) (g g' : Graph α) : Prop where
  cells : g'.attributes.precisionCells = g.attributes.precisionCells
  intervals : g'.attributes.intervalCells = g.attributes.intervalCells
  kept (target : Target) (kind : AttributeKind) : target.owner ≠ new →
    g'.isLive target.owner = true → g'.attributes.get? target kind = g.attributes.get? target kind
  gained (e : AttributeKey × Attribute) : e ∈ g'.attributes.entries →
    e ∈ g.attributes.entries ∨ e.1.target.owner = new ∧
      ∃ e' ∈ g.attributes.entries, e'.1.target.owner = old ∧ e'.2 = e.2

theorem Inherits.of_eq {old new : NodeId} (h : g'.attributes = g.attributes) :
    Inherits old new g g' :=
  ⟨by rw [h], by rw [h], fun _ _ _ _ => by rw [h], fun _ he => .inl (h ▸ he)⟩

theorem Inherits.renamed {old new : NodeId} {g₁ : Graph α} (h : Inherits old new g g₁)
    (hattributes : g'.attributes = g₁.attributes) (hface : ∀ v, g'.face? v = g₁.face? v) :
    Inherits old new g g' where
  cells := hattributes ▸ h.cells
  intervals := hattributes ▸ h.intervals
  kept target kind hnew hlive := by
    rw [isLive_eq_face, hface, ← isLive_eq_face] at hlive
    rw [hattributes]
    exact h.kept target kind hnew hlive
  gained e he := h.gained e (hattributes ▸ he)

theorem Inherits.copied {old new : NodeId} {g₁ : Graph α} (h : Inherits old new g₁ g')
    (hcopied : g₁.attributes = g.attributes.copyNode old new) : Inherits old new g g' where
  cells := by rw [h.cells, hcopied, (AttributeStore.cells_copyNode _ _ _).1]
  intervals := by rw [h.intervals, hcopied, (AttributeStore.cells_copyNode _ _ _).2]
  kept target kind hnew hlive := by
    rw [h.kept target kind hnew hlive, hcopied, AttributeStore.get?_copyNode hnew]
  gained e he := by
    have hold := h.gained e he
    rw [hcopied] at hold
    rcases hold with hmem | ⟨howner, e', hmem, hsource, hvalue⟩
    · exact AttributeStore.mem_copyNode hmem
    · rcases AttributeStore.mem_copyNode hmem with hmem' | ⟨-, e'', hmem'', hsource', hvalue'⟩
      · exact .inr ⟨howner, e', hmem', hsource, hvalue⟩
      · exact .inr ⟨howner, e'', hmem'', hsource', hvalue'.trans hvalue⟩

theorem Extends.rerouted {p : Slot → Prop} (h : Extends g g' p) : Rerouted move g g' :=
  ⟨h.wellFormed, h.size, fun v f' hv hf => ⟨f', h.old v hv ▸ hf, .refl f'⟩⟩

theorem Added.rerouted {f : Face α} (h : Added g g' f) : Rerouted move g g' where
  wellFormed := h.wellFormed
  size := Nat.le_of_lt (h.size ▸ Nat.lt_succ_self _)
  face v f' hv hf := ⟨f', by rwa [h.face, if_neg (Nat.ne_of_lt hv)] at hf, .refl f'⟩

theorem Recast.rerouted {slots : List Slot} {old source : Slot}
    (h : Recast g g' fun v f => f.redirect v slots source)
    (hold : ∀ r ∈ slots, g.input? r.node r.index = some old) :
    Rerouted (fun s s' => s = old ∧ s' = source) g g' where
  wellFormed := h.wellFormed
  size := Nat.le_of_eq h.size.symm
  face v f' _ hf' := by
    rw [h.face] at hf'
    obtain ⟨f, hf, rfl⟩ := Option.map_eq_some_iff.mp hf'
    refine ⟨f, hf, rfl, rfl, rfl, List.forall₂_iff_get.mpr
      ⟨(Face.length_redirect ..).symm, fun i hi hi' => ?_⟩⟩
    have hget := Face.input_redirect f v slots source i
    rw [List.getElem?_eq_getElem hi, List.getElem?_eq_getElem hi', Option.map_some,
      Option.some.injEq] at hget
    rw [List.get_eq_getElem, List.get_eq_getElem, hget]
    split
    · next hmem =>
      have hread := hold _ hmem
      rw [input?_eq_face, hf, Option.bind_some, List.getElem?_eq_getElem hi] at hread
      exact .inr ⟨Option.some.inj hread, rfl⟩
    · exact .inl rfl

theorem Pruned.rerouted {p : NodeId → Prop} (h : Pruned g g' p) : Rerouted move g g' :=
  ⟨h.wellFormed, Nat.le_of_eq h.size.symm, fun _ f' _ hf => ⟨f', h.face_eq hf, .refl f'⟩⟩

section Removal

theorem isLive_of_removeDead {stack : List NodeId} {v : NodeId}
    (h : (g.removeDead stack).isLive v = true) : g.isLive v = true := by
  fun_induction removeDead g stack with
  | case1 => exact h
  | case2 g id rest hn ih => exact ih h
  | case3 g id rest n hn hdead ih =>
    have hlive := ih h
    rw [isLive_detach, Bool.and_eq_true] at hlive
    exact hlive.1
  | case4 g id rest n hn hdead ih => exact ih h

theorem attributes_detach (g : Graph α) (id : NodeId) (n : Node α) :
    (g.detach id n).attributes = g.attributes.forgetNode id := by
  rw [detach, drop, attributes_foldl_removeReader]

theorem removeDead_inherits (old new : NodeId) (g : Graph α) (stack : List NodeId) :
    Inherits old new g (g.removeDead stack) := by
  fun_induction removeDead g stack with
  | case1 => exact .of_eq rfl
  | case2 g id rest hn ih => exact ih
  | case3 g id rest n hn hdead ih =>
    refine ⟨ih.cells.trans (by rw [attributes_detach]; rfl),
      ih.intervals.trans (by rw [attributes_detach]; rfl), fun target kind hnew hlive => ?_,
      fun e he => ?_⟩
    · have hstay := isLive_of_removeDead hlive
      rw [isLive_detach, Bool.and_eq_true, bne_iff_ne] at hstay
      rw [ih.kept target kind hnew hlive, attributes_detach,
        AttributeStore.get?_forgetNode hstay.2]
    · have hentries : ∀ e ∈ (g.detach id n).attributes.entries, e ∈ g.attributes.entries := by
        intro e he
        rw [attributes_detach] at he
        exact (List.mem_filter.mp he).1
      rcases ih.gained e he with hmem | ⟨howner, e', hmem, hsource⟩
      · exact .inl (hentries e hmem)
      · exact .inr ⟨howner, e', hentries e' hmem, hsource⟩
  | case4 g id rest n hn hdead ih => exact ih

end Removal

def Swap (old new : NodeId) (s s' : Slot) : Prop := s.node = old ∧ s' = ⟨new, s.index⟩

theorem replaceNode_steps (h : g.WellFormed) {old new : NodeId}
    (hrun : exec (replaceNode old new : Edit α GraphError Unit) g = .ok (.ok (), g')) :
    ∃ n m g₁, g.node? old = some n ∧ g.node? new = some m ∧
      n.outputs.length = m.outputs.length ∧
      Recast g g₁ (fun v f => f.substitute v old new (List.range n.outputs.length)) ∧
      exec (do
        if (← Edit.read (·.node? old)).isNone then
          Edit.step (·.rename new n.name) : Edit α GraphError Unit)
        (removeDead { g₁ with attributes := g₁.attributes.copyNode old new } [old]) =
          .ok (.ok (), g') := by
  have hsteps := hrun
  rw [replaceNode] at hsteps
  obtain ⟨n, g₀, hnode, hrest⟩ := exec_bind_eq_answer.mp hsteps
  obtain ⟨m, g₁, hnode', hmoved⟩ := exec_bind_eq_answer.mp hrest
  obtain ⟨hn, rfl⟩ := exec_ofExcept_node_eq_ok.mp hnode
  obtain ⟨hm, rfl⟩ := exec_ofExcept_node_eq_ok.mp hnode'
  have hlength : n.outputs.length = m.outputs.length := by
    simpa [Node.face] using ports_of_replaceNode (face?_eq_some.mpr ⟨n, hn, rfl⟩)
      (face?_eq_some.mpr ⟨m, hm, rfl⟩) hrun
  simp only [← hlength, ne_eq, not_true_eq_false, ↓reduceIte] at hmoved
  obtain ⟨g₁, hexec₁, h₁⟩ := replaceOutputs_ok h old new (List.range n.outputs.length)
    fun i hi => by
      rw [List.mem_range, hlength] at hi
      simp [port?_eq_face, face?_eq_some.mpr ⟨m, hm, rfl⟩, Node.face, hi]
  rw [exec_bind_ok hexec₁, exec_bind_ok (Edit.exec_change _ _),
    exec_bind_ok (Edit.exec_change _ _)] at hmoved
  exact ⟨n, m, g₁, hn, hm, hlength, h₁, hmoved⟩

theorem replaceNode_substituted (h : g.WellFormed) {old new : NodeId}
    (hrun : exec (replaceNode old new : Edit α GraphError Unit) g = .ok (.ok (), g')) :
    ∃ f f', g.face? old = some f ∧ g.face? new = some f' ∧ f.ports.length = f'.ports.length ∧
      g'.WellFormed ∧ g'.nodes.size = g.nodes.size ∧ Inherits old new g g' ∧
      ∀ v k', g'.face? v = some k' → ∃ k, g.face? v = some k ∧
        k' = k.substitute v old new (List.range f.ports.length) := by
  obtain ⟨n, m, g₁, hn, hm, hlength, h₁, htake⟩ := replaceNode_steps h hrun
  let g₂ : Graph α := { g₁ with attributes := g₁.attributes.copyNode old new }
  have hpruned : Pruned g₂ (g₂.removeDead [old]) fun _ => True :=
    (h₁.wellFormed.of_attributes _).pruned [old]
  obtain ⟨hwf, hsize, hface, hattributes⟩ := takeName_done hpruned.wellFormed htake
  have hinherits : Inherits old new g g' :=
    ((removeDead_inherits old new g₂ [old]).renamed hattributes hface).copied
      (congrArg (·.copyNode old new) h₁.attributes)
  refine ⟨_, _, face?_eq_some.mpr ⟨n, hn, rfl⟩, face?_eq_some.mpr ⟨m, hm, rfl⟩, by simpa [Node.face],
    hwf, hsize.trans (hpruned.size.trans h₁.size), hinherits, fun v k' hk' => ?_⟩
  rw [hface] at hk'
  have hk₁ : g₁.face? v = some k' := hpruned.face_eq hk'
  rw [h₁.face] at hk₁
  obtain ⟨k, hk, rfl⟩ := Option.map_eq_some_iff.mp hk₁
  exact ⟨k, hk, by rw [Node.face, List.length_map]⟩

theorem replaceNode_rerouted (h : g.WellFormed) {old new : NodeId}
    (hrun : exec (replaceNode old new : Edit α GraphError Unit) g = .ok (.ok (), g')) :
    (∃ f f', g.face? old = some f ∧ g.face? new = some f' ∧ f.ports.length = f'.ports.length) ∧
      Rerouted (Swap old new) g g' ∧ g'.nodes.size = g.nodes.size ∧ Inherits old new g g' := by
  obtain ⟨f, f', hold, hnew, hports, hwf, hsize, hinherits, hfaces⟩ := replaceNode_substituted h hrun
  refine ⟨⟨f, f', hold, hnew, hports⟩, ⟨hwf, Nat.le_of_eq hsize.symm, fun v k' _ hk' => ?_⟩, hsize,
    hinherits⟩
  obtain ⟨k, hk, rfl⟩ := hfaces v k' hk'
  refine ⟨k, hk, ?_⟩
  rw [Face.substitute]
  split
  · exact .refl k
  · refine .of_map fun s _ => ?_
    split
    · next hs => exact .inr ⟨hs.1, rfl⟩
    · exact .inl rfl

theorem unread_of_replaceNode (h : g.WellFormed) {old new : NodeId} (hne : new ≠ old)
    (hrun : exec (replaceNode old new : Edit α GraphError Unit) g = .ok (.ok (), g')) {v : NodeId}
    {i : Nat} {s : Slot} (hv : v ≠ new) (hi : g'.input? v i = some s) : s.node ≠ old := by
  obtain ⟨f, -, hold, -, -, -, -, -, hfaces⟩ := replaceNode_substituted h hrun
  obtain ⟨k', hk', hs⟩ := Option.bind_eq_some_iff.mp (input?_eq_face g' v i ▸ hi)
  obtain ⟨k, hk, rfl⟩ := hfaces v k' hk'
  rw [Face.substitute, if_neg hv, Face.mapInputs, List.getElem?_map] at hs
  obtain ⟨t, ht, rfl⟩ := Option.map_eq_some_iff.mp hs
  split
  · exact hne
  · next hnot =>
    rintro htold
    obtain ⟨p, hp⟩ := h.exists_port (v := v) (i := i) (by rw [input?_eq_face, hk]; exact ht)
    rw [port?_eq_face, htold, hold] at hp
    exact hnot ⟨htold, List.mem_range.mpr (List.getElem?_eq_some_iff.mp hp).1⟩

end Graph

end LowPrecision
